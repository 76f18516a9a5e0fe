import Disguise.Proofs.Addresses
import Disguise.Proofs.Results
import Mathlib.Data.List.DropRight

/-!
Ways in a tree. A path leads to its address if it leads anywhere; what a tree decides is only
whether there is a way, and for that no more than its directories count. A file that is written
changes none of these.
-/
namespace Disguise.Files.Tree
open Bytes Disguise.Path Results

variable {t t' : Tree}

/-- The directories are the same. -/
def SameDirectories (t t' : Tree) : Prop :=
  ∀ path, t.get? path = some .directory ↔ t'.get? path = some .directory

theorem SameDirectories.symm (h : t.SameDirectories t') : t'.SameDirectories t :=
  fun path => (h path).symm

theorem SameDirectories.trans {t'' : Tree} (h : t.SameDirectories t')
    (h' : t'.SameDirectories t'') : t.SameDirectories t'' :=
  fun path => (h path).trans (h' path)

theorem get?_of_isAbove (t : Tree) {q : List Bytes} (h : isAbove q) :
    t.get? q = some .directory := by
  rw [get?, if_pos h]

theorem lookup_filter (nodes : List (List Bytes × Node)) {path q : List Bytes} :
    (nodes.filter (·.1 ≠ path)).lookup q = if q = path then none else nodes.lookup q := by
  induction nodes with
  | nil => simp
  | cons entry nodes ih =>
    obtain ⟨p, n⟩ := entry
    by_cases hp : p = path
    · rw [List.filter_cons_of_neg (by simp [hp]), ih, hp]
      by_cases hq : q = path
      · rw [if_pos hq, if_pos hq]
      · rw [if_neg hq, if_neg hq, List.lookup_cons, beq_false_of_ne hq]
    · rw [List.filter_cons_of_pos (by simp [hp]), List.lookup_cons, List.lookup_cons, ih]
      by_cases hq : q = path
      · rw [if_pos hq, if_pos hq, hq, beq_false_of_ne (Ne.symm hp)]
      · rw [if_neg hq, if_neg hq]

theorem get?_drop (path q : List Bytes) :
    (t.drop path).get? q = if isAbove q then some .directory
      else if q = path then none else t.get? q := by
  unfold get? drop
  split
  · rfl
  · exact lookup_filter t.nodes

theorem get?_put (path : List Bytes) (n : Node) (q : List Bytes) :
    (t.put path n).get? q = if isAbove q then some .directory
      else if q = path then some n else t.get? q := by
  unfold get? put
  split
  · rfl
  · rw [List.lookup_append, lookup_filter]
    by_cases hq : q = path
    · rw [if_pos hq, if_pos hq, hq, Option.none_or, List.lookup_cons, beq_self_eq_true]
    · rw [if_neg hq, if_neg hq, List.lookup_cons, beq_false_of_ne hq, List.lookup_nil,
        Option.or_none]

/-- A component leads on from directories only, and to its place. -/
theorem step_eq_ok {here next : List Bytes} {part : Bytes} (h : t.step here part = .ok next) :
    t.get? here = some .directory ∧ next = locate here part := by
  unfold step at h
  split at h
  · cases h
  · cases h
  · rename_i hdir
    refine ⟨hdir, ?_⟩
    unfold locate
    split at h
    · rename_i hstay
      rw [if_pos hstay]
      exact (Except.ok.inj h).symm
    · rename_i hstay
      rw [if_neg hstay]
      split at h
      · rename_i hup
        rw [if_pos hup]
        exact (Except.ok.inj h).symm
      · rename_i hup
        rw [if_neg hup]
        split at h
        · cases h
        · exact (Except.ok.inj h).symm

theorem step_congr {here : List Bytes} {part : Bytes} (hdir : t.get? here = some .directory)
    (hdir' : t'.get? here = some .directory) : t'.step here part = t.step here part := by
  rw [step, step, hdir, hdir']

theorem enter_eq_ok {here next : List Bytes} {part : Bytes} :
    t.enter here part = .ok next ↔ t.step here part = .ok next ∧ (t.get? next).isSome := by
  unfold enter
  rw [bind_eq_ok]
  constructor
  · rintro ⟨path, hstep, h⟩
    split at h
    · cases h
      exact ⟨hstep, ‹_›⟩
    · cases h
  · rintro ⟨hstep, hsome⟩
    exact ⟨next, hstep, by rw [if_pos hsome]; rfl⟩

/-- Goes along components. -/
def walk (t : Tree) (here : List Bytes) (parts : List Bytes) : Except Fault (List Bytes) :=
  parts.foldlM t.enter here

theorem walk_cons_eq_ok {here there : List Bytes} {part : Bytes} {parts : List Bytes} :
    t.walk here (part :: parts) = .ok there ↔
      ∃ next, t.enter here part = .ok next ∧ t.walk next parts = .ok there := by
  rw [walk, List.foldlM_cons, bind_eq_ok]
  rfl

theorem walk_nil_eq_ok {here there : List Bytes} : t.walk here [] = .ok there ↔ here = there := by
  rw [walk, List.foldlM_nil, pure_eq_ok]

/-- A walk to a directory starts from one. -/
theorem directory_of_walk {here there : List Bytes} {parts : List Bytes}
    (h : t.walk here parts = .ok there) (hthere : t.get? there = some .directory) :
    t.get? here = some .directory := by
  cases parts with
  | nil => rwa [walk_nil_eq_ok.1 h]
  | cons part parts =>
    obtain ⟨next, henter, -⟩ := walk_cons_eq_ok.1 h
    exact (step_eq_ok (enter_eq_ok.1 henter).1).1

theorem eq_of_walk {here there : List Bytes} {parts : List Bytes}
    (h : t.walk here parts = .ok there) : there = parts.foldl locate here := by
  induction parts generalizing here with
  | nil => exact (walk_nil_eq_ok.1 h).symm
  | cons part parts ih =>
    obtain ⟨next, henter, hrest⟩ := walk_cons_eq_ok.1 h
    rw [List.foldl_cons, ← (step_eq_ok (enter_eq_ok.1 henter).1).2]
    exact ih hrest

/-- A walk to a directory needs directories only. -/
theorem walk_congr (hsame : t.SameDirectories t') {here there : List Bytes} {parts : List Bytes}
    (h : t.walk here parts = .ok there) (hthere : t.get? there = some .directory) :
    t'.walk here parts = .ok there := by
  induction parts generalizing here with
  | nil => exact walk_nil_eq_ok.2 (walk_nil_eq_ok.1 h)
  | cons part parts ih =>
    have hhere := directory_of_walk h hthere
    obtain ⟨next, henter, hrest⟩ := walk_cons_eq_ok.1 h
    have hnext := directory_of_walk hrest hthere
    refine walk_cons_eq_ok.2 ⟨next, enter_eq_ok.2 ⟨?_, ?_⟩, ih hrest⟩
    · rw [step_congr hhere ((hsame here).1 hhere)]
      exact (enter_eq_ok.1 henter).1
    · rw [(hsame next).1 hnext]
      rfl

/-- The components of a path to an entry, behind which slashes may stand. -/
def entryParts (p : Bytes) : List Bytes := (p.dropRightWhile (· = slash)).split slash

theorem address_eq_foldl_entryParts (p : Bytes) :
    address p = (entryParts p).foldl locate (start p) := by
  rw [address]
  generalize start p = here
  induction p using List.reverseRecOn with
  | nil => rfl
  | append_singleton p b ih =>
    by_cases hb : b = slash
    · have hparts : entryParts (p ++ [b]) = entryParts p := by
        rw [entryParts, entryParts]
        exact congrArg _ (List.rdropWhile_concat_pos _ p b (by simpa using hb))
      rw [hparts, ← ih, hb, split_eq_splitOn, List.splitOn_append_cons_self, List.splitOn_nil,
        List.foldl_append, ← split_eq_splitOn]
      rfl
    · have hparts : entryParts (p ++ [b]) = Bytes.split slash (p ++ [b]) :=
        congrArg (Bytes.split slash)
          (List.rdropWhile_concat_neg (· = slash) p b (by simpa using hb))
      rw [hparts]

theorem dropLast_entryParts (p : Bytes) :
    (entryParts p).dropLast ++ [(entryParts p).getLastD []] = entryParts p := by
  obtain ⟨part, parts, hparts⟩ := exists_split slash (p.dropRightWhile (· = slash))
  rw [entryParts, hparts, List.getLastD_cons, ← List.getLast_eq_getLastD (List.cons_ne_nil _ _),
    List.dropLast_append_getLast]

theorem place_eq_ok {p : Bytes} {path : List Bytes} :
    t.place p = .ok path ↔ checkPath p = .ok () ∧
      ∃ here, t.walk (start p) (entryParts p).dropLast = .ok here ∧
        t.step here ((entryParts p).getLastD []) = .ok path := by
  unfold place split
  simp only [bind_eq_ok, Prod.exists]
  constructor
  · rintro ⟨here, name, ⟨_, hcheck, there, hwalk, h⟩, hstep⟩
    split at h
    · cases h
      exact ⟨hcheck, here, hwalk, hstep⟩
    · cases h
  · rintro ⟨hcheck, here, hwalk, hstep⟩
    exact ⟨here, _, ⟨(), hcheck, here, hwalk, by rw [if_pos (step_eq_ok hstep).1]; rfl⟩, hstep⟩

/-- Where an entry goes is told by the directories. -/
theorem place_congr (hsame : t.SameDirectories t') {p : Bytes} {path : List Bytes}
    (h : t.place p = .ok path) : t'.place p = .ok path := by
  obtain ⟨hcheck, here, hwalk, hstep⟩ := place_eq_ok.1 h
  have hdir := (step_eq_ok hstep).1
  refine place_eq_ok.2 ⟨hcheck, here, walk_congr hsame hwalk hdir, ?_⟩
  rwa [step_congr hdir ((hsame here).1 hdir)]

theorem address_of_place {p : Bytes} {path : List Bytes} (h : t.place p = .ok path) :
    path = address p := by
  obtain ⟨-, here, hwalk, hstep⟩ := place_eq_ok.1 h
  rw [address_eq_foldl_entryParts, ← dropLast_entryParts, List.foldl_append, ← eq_of_walk hwalk]
  exact (step_eq_ok hstep).2

theorem resolve_eq_ok {p : Bytes} {path : List Bytes} :
    t.resolve p = .ok path ↔ checkPath p = .ok () ∧
      t.walk (start p) (p.split slash) = .ok path := by
  unfold resolve
  rw [bind_eq_ok, exists_unit]
  rfl

/-- An entry that is there is found. -/
theorem resolve_of_place {p : Bytes} {path : List Bytes} (hend : p.getLast? ≠ some slash)
    (h : t.place p = .ok path) (hthere : (t.get? path).isSome) : t.resolve p = .ok path := by
  obtain ⟨hcheck, here, hwalk, hstep⟩ := place_eq_ok.1 h
  have hparts : entryParts p = p.split slash := by
    refine congrArg _ (List.rdropWhile_eq_self_iff.2 fun hne hslash => hend ?_)
    rw [List.getLast?_eq_some_getLast hne, of_decide_eq_true hslash]
  refine resolve_eq_ok.2 ⟨hcheck, ?_⟩
  rw [← hparts, ← dropLast_entryParts, walk, List.foldlM_append, bind_eq_ok]
  exact ⟨here, hwalk, by
    rw [List.foldlM_cons, bind_eq_ok]
    exact ⟨path, enter_eq_ok.2 ⟨hstep, hthere⟩, rfl⟩⟩

theorem read_of_place {p : Bytes} {path : List Bytes} {data : Bytes}
    (hend : p.getLast? ≠ some slash) (h : t.place p = .ok path)
    (hfile : t.get? path = some (.file data)) : t.read p = .ok data := by
  have hresolve := resolve_of_place hend h (by rw [hfile]; rfl)
  simp only [read, find, hresolve, ok_bind, hfile]
  rfl

theorem directory_of_find {p : Bytes} (h : t.find p = .ok .directory) :
    t.get? (address p) = some .directory := by
  obtain ⟨path, hresolve, h⟩ := bind_eq_ok.1 h
  rw [address, ← eq_of_walk (resolve_eq_ok.1 hresolve).2]
  split at h
  · rename_i n hn
    cases h
    exact hn
  · cases h

/-- Data was put into the file at a place. -/
structure Wrote (t t' : Tree) (place : List Bytes) (data : Bytes) : Prop where
  free : t.get? place ≠ some .directory
  get? : ∀ q, t'.get? q = if q = place then some (.file data) else t.get? q

theorem Wrote.sameDirectories {place : List Bytes} {data : Bytes}
    (h : Wrote t t' place data) : t.SameDirectories t' := by
  intro q
  rw [h.get?]
  split
  · rename_i hq
    rw [hq]
    simp [h.free]
  · rfl

theorem wrote_put {place : List Bytes} (h : t.get? place ≠ some .directory)
    (data : Bytes) : Wrote t (t.put place (.file data)) place data where
  free := h
  get? q := by
    rw [get?_put]
    split
    · rename_i habove
      have hq : q ≠ place := by
        rintro rfl
        exact h (get?_of_isAbove t habove)
      rw [if_neg hq, get?_of_isAbove t habove]
    · rfl

/-- A new file that is moved to its place leaves nothing where it was. -/
theorem wrote_of_rename {tmp path data : Bytes} {source : List Bytes}
    (hend : tmp.getLast? ≠ some slash) (hsource : t.place tmp = .ok source)
    (hfree : t.get? source = none)
    (h : (t.put source (.file data)).rename tmp path = .ok t') :
    ∃ place, t.place path = .ok place ∧ Wrote t t' place data := by
  have hnew : Wrote t (t.put source (.file data)) source data :=
    wrote_put (by simp [hfree]) data
  generalize t.put source (.file data) = u at h hnew
  have hdirs := hnew.sameDirectories
  have hfile : u.get? source = some (.file data) := by rw [hnew.get?, if_pos rfl]
  have hback : ∀ q, (u.drop source).get? q = t.get? q := by
    intro q
    rw [get?_drop]
    split
    · exact (get?_of_isAbove t ‹_›).symm
    · rw [hnew.get?]
      split
      · rename_i hq
        rw [hq, hfree]
      · rfl
  have hresolve := resolve_of_place hend (place_congr hdirs hsource) (by rw [hfile]; rfl)
  simp only [rename, hresolve, ok_bind, hfile] at h
  obtain ⟨target, htarget, h⟩ := bind_eq_ok.1 h
  split at h
  · cases h
  · rename_i htargetDir
    cases h
    have hdir : t.get? target ≠ some .directory := fun heq => htargetDir ((hdirs target).1 heq)
    refine ⟨target, place_congr hdirs.symm htarget, hdir, fun q => ?_⟩
    rw [(wrote_put (by rwa [hback]) data).get?, hback]

end Disguise.Files.Tree
