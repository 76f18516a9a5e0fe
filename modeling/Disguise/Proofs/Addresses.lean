import Disguise.Files.Tree
import Disguise.Proofs.Cutting

/-!
Where paths lead. The components of a path lead to an address by themselves, and a cleaned path
leads to where the path leads. Components that lead away from a directory lead to different places.
-/
namespace Disguise.Files
open Bytes Disguise.Path

/-- A component that leads down. -/
structure IsName (part : Bytes) : Prop where
  nonempty : part ≠ []
  dot : part ≠ Path.dot
  dotDot : part ≠ Path.dotDot
  whole : slash ∉ part

/-- The components of a cleaned path, in reverse: those that lead up come first in the path. -/
inductive Cleaned (absolute : Bool) : List Bytes → Prop
  | nil : Cleaned absolute []
  | up {done : List Bytes} (relative : absolute = false) (above : ∀ part ∈ done, part = dotDot)
      (rest : Cleaned absolute done) : Cleaned absolute (dotDot :: done)
  | name {part : Bytes} {done : List Bytes} (name : IsName part) (rest : Cleaned absolute done) :
      Cleaned absolute (part :: done)

theorem not_mem_dotDot : slash ∉ dotDot := by decide

theorem IsName.step {part : Bytes} (h : IsName part) (absolute : Bool) (done : List Bytes) :
    step absolute done part = part :: done := by
  simp [Path.step, h.nonempty, h.dot, h.dotDot]

theorem step_stay {part : Bytes} (h : part = [] ∨ part = dot) (absolute : Bool)
    (done : List Bytes) : step absolute done part = done := by
  rcases h with rfl | rfl <;> rfl

theorem step_dotDot_nil (absolute : Bool) :
    step absolute [] dotDot = if absolute then [] else [dotDot] := rfl

theorem step_dotDot_cons (absolute : Bool) (part : Bytes) (done : List Bytes) :
    step absolute (part :: done) dotDot =
      if part = dotDot then dotDot :: part :: done else done := rfl

/-- What a component does is told by what it is. -/
theorem component_cases {part : Bytes} (h : slash ∉ part) :
    (part = [] ∨ part = dot) ∨ part = dotDot ∨ IsName part := by
  by_cases hstay : part = [] ∨ part = dot
  · exact .inl hstay
  · by_cases hup : part = dotDot
    · exact .inr (.inl hup)
    · rw [not_or] at hstay
      exact .inr (.inr ⟨hstay.1, hstay.2, hup, h⟩)

variable {absolute : Bool} {done : List Bytes}

theorem Cleaned.step {part : Bytes} (h : Cleaned absolute done) (hpart : slash ∉ part) :
    Cleaned absolute (Path.step absolute done part) := by
  rcases component_cases hpart with hstay | rfl | hname
  · rwa [step_stay hstay]
  · cases h with
    | nil =>
      cases absolute with
      | true => exact .nil
      | false => exact .up rfl (by simp) .nil
    | up relative above rest => exact .up relative (by simpa using above) (.up relative above rest)
    | name name rest => rwa [step_dotDot_cons, if_neg name.dotDot]
  · rw [hname.step]
    exact .name hname h

theorem Cleaned.foldl {parts : List Bytes} (h : Cleaned absolute done)
    (hparts : ∀ part ∈ parts, slash ∉ part) :
    Cleaned absolute (parts.foldl (Path.step absolute) done) := by
  induction parts generalizing done with
  | nil => exact h
  | cons part parts ih =>
    exact ih (h.step (hparts part (by simp))) fun p hp => hparts p (by simp [hp])

/-- Nothing is left to clean. -/
theorem Cleaned.foldl_reverse (h : Cleaned absolute done) :
    done.reverse.foldl (Path.step absolute) [] = done := by
  induction h with
  | nil => rfl
  | @up done relative above rest ih =>
    rw [List.reverse_cons, List.foldl_append, ih]
    cases done with
    | nil => simp [step_dotDot_nil, relative]
    | cons part done => simp [step_dotDot_cons, above part]
  | name name rest ih =>
    rw [List.reverse_cons, List.foldl_append, ih]
    exact name.step absolute _

theorem Cleaned.whole (h : Cleaned absolute done) : ∀ part ∈ done, part ≠ [] ∧ slash ∉ part := by
  induction h with
  | nil => simp
  | up relative above rest ih =>
    rw [List.forall_mem_cons]
    exact ⟨⟨by decide, not_mem_dotDot⟩, ih⟩
  | name name rest ih =>
    rw [List.forall_mem_cons]
    exact ⟨⟨name.nonempty, name.whole⟩, ih⟩

/-- Where a component leads from a place, without a tree. -/
def locate (here : List Bytes) (part : Bytes) : List Bytes :=
  if part.isEmpty || part = dot then here
  else if part = dotDot then parent here
  else here ++ [part]

/-- Where a path leads, without a tree. -/
def address (p : Bytes) : List Bytes := (p.split slash).foldl locate (start p)

/-- Where paths start from. -/
def origin (absolute : Bool) : List Bytes := if absolute then [top] else []

/-- What is left of a path, in reverse. -/
def components (p : Bytes) : List Bytes := (p.split slash).foldl (step (isAbsolute p)) []

theorem cleaned_components (p : Bytes) : Cleaned (isAbsolute p) (components p) :=
  Cleaned.nil.foldl fun _ hpart => not_mem_of_mem_split hpart

theorem IsName.locate {part : Bytes} (h : IsName part) (here : List Bytes) :
    locate here part = here ++ [part] := by
  simp [Files.locate, h.nonempty, h.dot, h.dotDot]

theorem locate_stay {part : Bytes} (h : part = [] ∨ part = dot) (here : List Bytes) :
    locate here part = here := by
  rcases h with rfl | rfl <;> rfl

theorem locate_dotDot (here : List Bytes) : locate here dotDot = parent here := rfl

theorem isAbove_iff {path : List Bytes} :
    isAbove path ↔ path = [top] ∨ ∀ part ∈ path, part = dotDot := by
  simp [isAbove]

theorem isAbove_append_name {part : Bytes} (h : IsName part) (here : List Bytes) :
    isAbove (here ++ [part]) = false := by
  have htop : here ++ [part] ≠ [top] := by
    intro heq
    have hlast := congrArg List.getLast? heq
    rw [List.getLast?_concat, List.getLast?_singleton, Option.some.injEq] at hlast
    exact h.whole (by simp [hlast, top])
  simp [isAbove, htop, h.dotDot]

theorem parent_of_isAbove {here : List Bytes} (h : isAbove here) (htop : here ≠ [top]) :
    parent here = here ++ [dotDot] := by
  rw [parent, if_neg htop, if_pos h]

/-- Without a tree, too, the components can be cleaned first. -/
theorem locate_reverse {part : Bytes} (h : Cleaned absolute done) (hpart : slash ∉ part) :
    locate (origin absolute ++ done.reverse) part =
      origin absolute ++ (step absolute done part).reverse := by
  rcases component_cases hpart with hstay | rfl | hname
  · rw [locate_stay hstay, step_stay hstay]
  · rw [locate_dotDot]
    cases h with
    | nil =>
      cases absolute with
      | true => rfl
      | false => rfl
    | @up done relative above rest =>
      subst relative
      have hups : ∀ part ∈ (dotDot :: done).reverse, part = dotDot := by
        simpa [or_imp, forall_and] using above
      have htop : (dotDot :: done).reverse ≠ [top] := fun heq =>
        absurd (hups top (by simp [heq])) (by decide)
      rw [step_dotDot_cons, if_pos rfl]
      simp only [origin, Bool.false_eq_true, if_false, List.nil_append]
      rw [parent_of_isAbove (isAbove_iff.2 (.inr hups)) htop, List.reverse_cons, List.reverse_cons,
        List.reverse_cons]
    | @name part done name rest =>
      rw [step_dotDot_cons, if_neg name.dotDot, List.reverse_cons, ← List.append_assoc]
      have habove := isAbove_append_name name (origin absolute ++ done.reverse)
      have htop : origin absolute ++ done.reverse ++ [part] ≠ [top] := by
        intro heq
        rw [heq] at habove
        exact absurd habove (by decide)
      rw [parent, if_neg htop, habove, if_neg Bool.false_ne_true, List.dropLast_concat]
  · rw [hname.locate, hname.step, List.reverse_cons, List.append_assoc]

theorem foldl_locate {parts : List Bytes} (h : Cleaned absolute done)
    (hparts : ∀ part ∈ parts, slash ∉ part) :
    parts.foldl locate (origin absolute ++ done.reverse) =
      origin absolute ++ (parts.foldl (step absolute) done).reverse := by
  induction parts generalizing done with
  | nil => rfl
  | cons part parts ih =>
    have hpart := hparts part (by simp)
    rw [List.foldl_cons, locate_reverse h hpart]
    exact ih (h.step hpart) fun p hp => hparts p (by simp [hp])

theorem address_eq (p : Bytes) :
    address p = origin (isAbsolute p) ++ (components p).reverse := by
  have hparts : ∀ part ∈ p.split slash, slash ∉ part := fun _ hpart => not_mem_of_mem_split hpart
  have hfold := foldl_locate (Cleaned.nil : Cleaned (isAbsolute p) []) hparts
  rwa [List.reverse_nil, List.append_nil] at hfold

/-- A path with the given components. -/
def written (absolute : Bool) (parts : List Bytes) : Bytes :=
  let body := Bytes.join [slash] parts
  if absolute then slash :: body else if body.isEmpty then dot else body

theorem clean_eq (p : Bytes) : clean p = written (isAbsolute p) (components p).reverse := rfl

theorem split_join {parts : List Bytes} (hne : parts ≠ []) (h : ∀ part ∈ parts, slash ∉ part) :
    Bytes.split slash (Bytes.join [slash] parts) = parts := by
  rw [split_eq_splitOn, join_eq_intercalate, List.splitOn_intercalate slash h hne]

theorem head?_join {part : Bytes} {parts : List Bytes} (hne : part ≠ []) :
    (Bytes.join [slash] (part :: parts)).head? = part.head? := by
  obtain ⟨b, s, rfl⟩ := List.exists_cons_of_ne_nil hne
  cases parts with
  | nil => rw [join_singleton]
  | cons q parts => rw [join_cons_cons, List.cons_append, List.head?_cons, List.head?_cons]

theorem getLast?_join {parts : List Bytes} {part : Bytes} (hne : part ≠ []) :
    (Bytes.join [slash] (parts ++ [part])).getLast? = part.getLast? := by
  have hend : ∃ s, Bytes.join [slash] (parts ++ [part]) = s ++ part := by
    induction parts with
    | nil => exact ⟨[], join_singleton _ _⟩
    | cons p parts ih =>
      obtain ⟨s, hs⟩ := ih
      obtain ⟨q, qs, hqs⟩ := List.exists_cons_of_ne_nil (List.append_ne_nil_of_right_ne_nil parts
        (List.cons_ne_nil part []))
      rw [hqs] at hs
      exact ⟨p ++ ([slash] ++ s), by
        rw [List.cons_append, hqs, join_cons_cons, hs, List.append_assoc, List.append_assoc]⟩
  obtain ⟨s, hs⟩ := hend
  rw [hs, List.getLast?_append_of_ne_nil _ hne]

theorem foldl_split_join (h : Cleaned absolute done) :
    (Bytes.split slash (Bytes.join [slash] done.reverse)).foldl (step absolute) [] = done := by
  by_cases hnil : done = []
  · rw [hnil]
    rfl
  · rw [split_join (by simpa using hnil) fun part hpart => (h.whole part (by simpa using hpart)).2,
      h.foldl_reverse]

/-- The first byte of a path without a start does not start it. -/
theorem isAbsolute_join (h : Cleaned absolute done) :
    isAbsolute (Bytes.join [slash] done.reverse) = false := by
  cases hparts : done.reverse with
  | nil => rfl
  | cons part parts =>
    obtain ⟨hne, hwhole⟩ := h.whole part (by rw [← List.mem_reverse, hparts]; simp)
    rw [isAbsolute, head?_join hne, decide_eq_false_iff_not]
    exact fun hhead => hwhole (List.mem_of_head? hhead)

theorem isAbsolute_written (h : Cleaned absolute done) :
    isAbsolute (written absolute done.reverse) = absolute := by
  cases absolute with
  | true => rfl
  | false =>
    simp only [written, Bool.false_eq_true, if_false]
    split
    · rfl
    · exact isAbsolute_join h

theorem components_written (h : Cleaned absolute done) :
    components (written absolute done.reverse) = done := by
  rw [components, isAbsolute_written h]
  cases absolute with
  | true =>
    simp only [written, if_true]
    rw [split_cons_self, List.foldl_cons]
    exact foldl_split_join h
  | false =>
    simp only [written, Bool.false_eq_true, if_false]
    split
    · rename_i hempty
      have hfold := foldl_split_join h
      rw [List.isEmpty_iff.1 hempty] at hfold
      rw [← hfold]
      rfl
    · exact foldl_split_join h

theorem isAbsolute_clean (p : Bytes) : isAbsolute (clean p) = isAbsolute p :=
  isAbsolute_written (cleaned_components p)

/-- A cleaned path leads to where the path leads. -/
theorem address_clean (p : Bytes) : address (clean p) = address p := by
  rw [address_eq, address_eq, isAbsolute_clean, clean_eq, components_written (cleaned_components p)]

/-- No path with components ends in a slash. -/
theorem getLast?_written {part : Bytes} (h : Cleaned absolute (part :: done)) :
    (written absolute (part :: done).reverse).getLast? ≠ some slash := by
  obtain ⟨hne, hwhole⟩ := h.whole part (by simp)
  obtain ⟨init, b, hpart⟩ := (List.eq_nil_or_concat part).resolve_left hne
  rw [List.concat_eq_append] at hpart
  have hb : b ≠ slash := fun heq => hwhole (by simp [hpart, heq])
  have hbody : (Bytes.join [slash] (part :: done).reverse).getLast? = some b := by
    rw [List.reverse_cons, getLast?_join hne, hpart, List.getLast?_concat]
  obtain ⟨front, hfront⟩ := List.getLast?_eq_some_iff.1 hbody
  unfold written
  rw [hfront]
  cases absolute <;> simp [List.getLast?_cons, hb]

/-- Only the path to the top of all files ends in a slash. -/
theorem clean_eq_of_getLast? {p : Bytes} (h : (clean p).getLast? = some slash) :
    clean p = [slash] := by
  have hcleaned := cleaned_components p
  rw [clean_eq] at h ⊢
  cases hdone : components p with
  | nil =>
    rw [hdone] at h
    cases habsolute : isAbsolute p with
    | true => rfl
    | false =>
      rw [habsolute] at h
      exact absurd h (by decide)
  | cons part done =>
    rw [hdone] at h hcleaned
    exact absurd h (getLast?_written hcleaned)

theorem isAbsolute_append {dir : Bytes} (h : dir ≠ []) (s : Bytes) :
    isAbsolute (dir ++ s) = isAbsolute dir := by
  obtain ⟨b, rest, rfl⟩ := List.exists_cons_of_ne_nil h
  rfl

theorem join_eq_clean {dir : Bytes} (h : dir ≠ []) (child : Bytes) :
    Path.join dir child = clean (dir ++ slash :: child) := by
  rw [Path.join, if_neg (by simpa using h)]

/-- A path below another one leads on from there. -/
theorem address_join {dir : Bytes} (h : dir ≠ []) (child : Bytes) :
    address (Path.join dir child) = (Bytes.split slash child).foldl locate (address dir) := by
  rw [join_eq_clean h, address_clean, address, address, start, isAbsolute_append h,
    split_eq_splitOn,
    List.splitOn_append_cons_self, List.foldl_append, split_eq_splitOn, split_eq_splitOn]
  rfl

theorem isAbove_parent {here : List Bytes} (h : isAbove here) : isAbove (parent here) := by
  by_cases htop : here = [top]
  · rw [htop]
    rfl
  · rw [parent_of_isAbove h htop]
    have hups := (isAbove_iff.1 h).resolve_left htop
    exact isAbove_iff.2 (.inr (by simpa [or_imp, forall_and] using hups))

theorem length_parent {here : List Bytes} (h : isAbove here = false) :
    (parent here).length ≤ here.length := by
  have htop : here ≠ [top] := by
    rintro rfl
    exact absurd h (by decide)
  rw [parent, if_neg htop, h, if_neg Bool.false_ne_true, List.length_dropLast]
  exact Nat.sub_le _ _

/-- Nothing is both in a directory and above it. -/
theorem parent_ne_append {here : List Bytes} (h : isAbove (parent here) = false) (part : Bytes) :
    parent here ≠ here ++ [part] := by
  intro heq
  cases habove : isAbove here with
  | true => rw [isAbove_parent habove] at h; cases h
  | false =>
    have hlength := length_parent habove
    rw [heq, List.length_append, List.length_singleton] at hlength
    omega

/-- Components that lead away to one place below the root are the same. -/
theorem locate_injective {here : List Bytes} {p q : Bytes} (hp : slash ∉ p) (hq : slash ∉ q)
    (haway : locate here p ≠ here) (hbelow : isAbove (locate here p) = false)
    (h : locate here p = locate here q) : p = q := by
  rcases component_cases hp with hstay | rfl | hname
  · exact absurd (locate_stay hstay here) haway
  · rw [locate_dotDot] at haway hbelow h
    rcases component_cases hq with hstay' | rfl | hname'
    · rw [locate_stay hstay'] at h
      exact absurd h haway
    · rfl
    · rw [hname'.locate] at h
      exact absurd h (parent_ne_append hbelow q)
  · rcases component_cases hq with hstay' | rfl | hname'
    · rw [h] at haway
      exact absurd (locate_stay hstay' here) haway
    · rw [h, locate_dotDot] at hbelow
      rw [locate_dotDot, hname.locate] at h
      exact absurd h.symm (parent_ne_append hbelow p)
    · rw [hname.locate, hname'.locate] at h
      simpa using h

/-- The last component of a path is a component, unless there is none. -/
theorem base_cases (p : Bytes) : base p = [slash] ∨ slash ∉ base p := by
  simp only [base]
  split
  · exact .inr (by decide)
  · split
    · exact .inl rfl
    · right
      have hlast : ((p.dropRightWhile (· = slash)).split slash).getLastD [] ∈
          [] :: (p.dropRightWhile (· = slash)).split slash := List.getLastD_mem_cons
      rcases List.mem_cons.1 hlast with hnil | hlast
      · rw [hnil]
        exact List.not_mem_nil
      · exact not_mem_of_mem_split hlast

end Disguise.Files
