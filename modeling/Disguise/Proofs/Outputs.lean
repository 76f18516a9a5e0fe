import Disguise.CommandLine.Program
import Disguise.Proofs.Numerals
import Disguise.Proofs.Walks

/-!
Results in files. A file that is written is the only thing that changes in the tree, so files whose
paths lead to different places keep what was put into them, and of results that go to one place the
last one stays.
-/
namespace Disguise.CommandLine
open Bytes Files Disguise.Path Results

variable {w w' : World}

/-- One action after the other. -/
theorem of_run_bind {α β : Type} {a : StateM World α} {k : α → StateM World β} {v : β}
    (h : (a >>= k).run w = (v, w')) :
    ∃ x u, a.run w = (x, u) ∧ (k x).run u = (v, w') := ⟨_, _, rfl, h⟩

variable {f : Tree → Except Files.Fault Tree}

theorem run_change_ok {t : Tree} (h : f w.tree = .ok t) :
    (World.change f).run w = (.ok (), { w with tree := t }) := by
  simp only [World.change, StateT.run_bind, StateT.run_get, pure_bind, h]
  rfl

theorem run_change_error {e : Files.Fault} (h : f w.tree = .error e) :
    (World.change f).run w = (.error e, w) := by
  simp only [World.change, StateT.run_bind, StateT.run_get, pure_bind, h]
  rfl

theorem change_eq_ok (h : (World.change f).run w = (.ok (), w')) : f w.tree = .ok w'.tree := by
  cases hf : f w.tree with
  | error e => rw [run_change_error hf] at h; cases h
  | ok t => rw [run_change_ok hf] at h; cases h; rfl

theorem change_eq_error {e : Files.Fault} (h : (World.change f).run w = (.error e, w')) :
    w' = w := by
  cases hf : f w.tree with
  | error e => rw [run_change_error hf] at h; cases h; rfl
  | ok t => rw [run_change_ok hf] at h; cases h

/-- What is printed changes no file. -/
theorem tree_of_print {s : Stream} {data : Bytes} {x : Unit}
    (h : (World.host.print s data).run w = (x, w')) : w'.tree = w.tree := by
  cases h
  cases s <;> rfl

theorem getLast?_temporary (path : Bytes) (number : UInt32) :
    (temporary path number).getLast? ≠ some slash := by
  intro h
  have hne : decimalNat number.toNat ≠ [] := digits_ne_nil 10 number.toNat
  rw [temporary, List.getLast?_append_of_ne_nil _ hne] at h
  have hdigit := Syntax.Reader.isDigitByte_of_mem_decimalNat number.toNat slash
    (List.mem_of_getLast? h)
  exact absurd hdigit (by decide)

/-- A new file was made where nothing was. -/
theorem createTemporary_eq_ok {path data tmp : Bytes} {tries : Nat}
    (h : (createTemporary World.host path data tries).run w = (.ok tmp, w')) :
    tmp.getLast? ≠ some slash ∧ ∃ place, w.tree.place tmp = .ok place ∧
      w.tree.get? place = none ∧ w'.tree = w.tree.put place (.file data) := by
  induction tries generalizing w with
  | zero => cases h
  | succ tries ih =>
    rw [createTemporary] at h
    obtain ⟨number, u, hchance, h⟩ := of_run_bind h
    cases hchance
    obtain ⟨made, v, hcreate, h⟩ := of_run_bind h
    cases made with
    | ok =>
      cases h
      have hmade := change_eq_ok (f := (·.create _ data)) hcreate
      obtain ⟨place, hplace, h⟩ := bind_eq_ok.1 hmade
      split at h
      · cases h
      · rename_i hfree
        exact ⟨getLast?_temporary path _, place, hplace, by simpa using hfree,
          (Except.ok.inj h).symm⟩
    | error f =>
      have hv := change_eq_error (f := (·.create _ data)) hcreate
      cases f
      case present =>
        subst hv
        exact ih (w := { w with chance := w.chance + 1 }) h
      all_goals cases h

/-- A file that was written is found under its path, and nothing else was changed. -/
theorem replaceFile_eq_ok {path data : Bytes}
    (h : (replaceFile World.host path data).run w = (.ok (), w')) :
    slash ∉ base path ∧ ∃ place, w.tree.place path = .ok place ∧
      w.tree.Wrote w'.tree place data := by
  unfold replaceFile at h
  dsimp only at h
  split at h
  · cases h
  · rename_i hbase
    refine ⟨by simpa using hbase, ?_⟩
    obtain ⟨created, u, hcreate, h⟩ := of_run_bind h
    cases created with
    | error msg => cases h
    | ok tmp =>
      obtain ⟨hend, source, hsource, hfree, htree⟩ := createTemporary_eq_ok hcreate
      obtain ⟨renamed, v, hrename, h⟩ := of_run_bind h
      cases renamed with
      | error f => cases h
      | ok =>
        cases h
        have hmoved := change_eq_ok (f := (·.rename tmp path)) hrename
        rw [htree] at hmoved
        exact Tree.wrote_of_rename hend hsource hfree hmoved

/-- The result that stays at a place is the last one that goes there. -/
def lastAt (dir : Bytes) (results : List Processing.Result) (q : List Bytes) :
    Option Processing.Result :=
  results.reverse.find? fun r => address (outputPath dir r.report.file) = q

theorem lastAt_cons (dir : Bytes) (r : Processing.Result) (results : List Processing.Result)
    (q : List Bytes) : lastAt dir (r :: results) q =
      (lastAt dir results q).or
        (if address (outputPath dir r.report.file) = q then some r else none) := by
  rw [lastAt, List.reverse_cons, List.find?_append, List.find?_singleton]
  simp only [decide_eq_true_eq, lastAt]

/-- Results were put into files below a directory. -/
structure Stored (t t' : Tree) (dir : Bytes) (results : List Processing.Result) : Prop where
  dirs : t.SameDirectories t'
  placed : ∀ r ∈ results, slash ∉ base (outputPath dir r.report.file) ∧
    ∃ place, t.place (outputPath dir r.report.file) = .ok place ∧ t.get? place ≠ some .directory
  get? : ∀ q, t'.get? q = ((lastAt dir results q).map fun r => .file r.output).or (t.get? q)

theorem Stored.nil (t : Tree) (dir : Bytes) : Stored t t dir [] where
  dirs _ := Iff.rfl
  placed := by simp
  get? _ := rfl

theorem Stored.cons {t t' t'' : Tree} {dir : Bytes} {r : Processing.Result}
    {results : List Processing.Result} {place : List Bytes}
    (hbase : slash ∉ base (outputPath dir r.report.file))
    (hplace : t.place (outputPath dir r.report.file) = .ok place) (h : t.Wrote t' place r.output)
    (hrest : Stored t' t'' dir results) : Stored t t'' dir (r :: results) where
  dirs := h.sameDirectories.trans hrest.dirs
  placed := by
    rw [List.forall_mem_cons]
    refine ⟨⟨hbase, place, hplace, h.free⟩, fun s hs => ?_⟩
    obtain ⟨hbase, place', hplace', hfree⟩ := hrest.placed s hs
    exact ⟨hbase, place', Tree.place_congr h.sameDirectories.symm hplace',
      fun hdir => hfree ((h.sameDirectories place').1 hdir)⟩
  get? q := by
    rw [hrest.get?, h.get?, lastAt_cons, ← Tree.address_of_place hplace]
    cases lastAt dir results q with
    | some s => rfl
    | none =>
      by_cases hq : place = q
      · simp [hq]
      · simp [hq, Ne.symm hq]

variable {o : Options} {results : List Processing.Result}

theorem stored_of_writeResults (hout : o.output ≠ [])
    (h : (writeResults World.host o results).run w = (.ok (), w')) :
    Stored w.tree w'.tree o.output results := by
  have hempty : o.output.isEmpty = false := by simpa using hout
  induction results generalizing w with
  | nil =>
    cases h
    exact .nil _ _
  | cons r results ih =>
    simp only [writeResults, hempty, Bool.false_eq_true, if_false] at h
    obtain ⟨replaced, u, hreplace, h⟩ := of_run_bind h
    cases replaced with
    | error msg => cases h
    | ok =>
      obtain ⟨hbase, place, hplace, hwrote⟩ := replaceFile_eq_ok hreplace
      refine .cons hbase hplace hwrote ?_
      dsimp only at h
      split at h
      · obtain ⟨_, v, hprint, h⟩ := of_run_bind h
        rw [← tree_of_print hprint]
        exact ih h
      · exact ih h

theorem directory_of_isDirectory {path : Bytes}
    (h : (World.host.isDirectory path).run w = (.ok true, w')) :
    w'.tree.get? (address path) = some .directory := by
  change ((w.tree.find path).map (· == .directory), w) = _ at h
  obtain ⟨hfind, rfl⟩ := Prod.mk.inj h
  obtain ⟨n, hfind, hn⟩ := map_eq_ok.1 hfind
  rw [eq_of_beq hn] at hfind
  exact Tree.directory_of_find hfind

theorem directory_of_makeDirectory {path : Bytes}
    (h : (World.host.makeDirectory path).run w = (.ok (), w')) :
    w'.tree.get? (address path) = some .directory := by
  have hmade : w.tree.makeDirectory path = .ok w'.tree :=
    change_eq_ok (f := (·.makeDirectory path)) h
  obtain ⟨place, hplace, h⟩ := bind_eq_ok.1 hmade
  split at h
  · cases h
  · rw [← Tree.address_of_place hplace, ← Except.ok.inj h, Tree.get?_put, if_pos rfl, ite_self]

/-- What is left to do when the directories above are there. -/
theorem directory_of_make {path : Bytes}
    (h : StateT.run (do
      match ← World.host.makeDirectory path with
      | .ok () => pure (.ok ())
      | .error f =>
        match ← World.host.isDirectory path with
        | .ok true => pure (.ok ())
        | _ => pure (.error (fileFault "mkdir" path f)) : StateM World (Except Bytes Unit)) w =
      (.ok (), w')) : w'.tree.get? (address path) = some .directory := by
  obtain ⟨made, u, hmade, h⟩ := of_run_bind h
  rcases made with f | _
  · obtain ⟨there, v, hthere, h⟩ := of_run_bind h
    rcases there with f | _ | _
    · cases h
    · cases h
    · cases h
      exact directory_of_isDirectory hthere
  · cases h
    exact directory_of_makeDirectory hmade

theorem directory_of_makeDirectories {path : Bytes} {fuel : Nat}
    (h : (makeDirectories World.host (fuel + 1) path).run w = (.ok (), w')) :
    w'.tree.get? (address path) = some .directory := by
  rw [makeDirectories] at h
  obtain ⟨there, u, hthere, h⟩ := of_run_bind h
  rcases there with f | _ | _
  · dsimp only at h
    split at h
    · exact directory_of_make (w := u) h
    · obtain ⟨made, v, -, h⟩ := of_run_bind h
      cases made with
      | error msg => cases h
      | ok => exact directory_of_make (w := v) h
  · cases h
  · cases h
    exact directory_of_isDirectory hthere

/-- The last result for files of a name. -/
def lastNamed (results : List Processing.Result) (name : Bytes) : Option Processing.Result :=
  results.reverse.find? fun r => base r.report.file = name

theorem address_outputPath {dir : Bytes} (h : dir ≠ []) {file : Bytes}
    (haway : address (outputPath dir file) ≠ address dir) :
    slash ∉ base file ∧ address (outputPath dir file) = locate (address dir) (base file) := by
  have haddress : address (outputPath dir file) = _ := address_join h (base file)
  rcases base_cases file with hbase | hbase
  · rw [hbase] at haddress
    exact absurd haddress haway
  · rw [split_eq_splitOn, List.splitOn_eq_singleton hbase] at haddress
    exact ⟨hbase, haddress⟩

/-- Below the directory of the results, one place is one name. -/
theorem address_outputPath_inj {dir : Bytes} (h : dir ≠ []) {p q : Bytes}
    (haway : address (outputPath dir p) ≠ address dir)
    (hbelow : isAbove (address (outputPath dir p)) = false) :
    address (outputPath dir p) = address (outputPath dir q) ↔ base p = base q := by
  refine ⟨fun heq => ?_, fun heq => by rw [outputPath, outputPath, heq]⟩
  obtain ⟨hp, hlocate⟩ := address_outputPath h haway
  obtain ⟨hq, hlocate'⟩ := address_outputPath h (heq ▸ haway)
  rw [hlocate] at haway hbelow
  rw [hlocate, hlocate'] at heq
  exact locate_injective hp hq haway hbelow heq

theorem Stored.read {t t' : Tree} {dir : Bytes} (h : Stored t t' dir results) (hdir : dir ≠ [])
    (hthere : t.get? (address dir) = some .directory) {r : Processing.Result} (hr : r ∈ results) :
    ∃ last, lastNamed results (base r.report.file) = some last ∧
      t'.read (outputPath dir r.report.file) = .ok last.output := by
  obtain ⟨hbase, place, hplace, hfree⟩ := h.placed r hr
  have haddress := Tree.address_of_place hplace
  have haway : address (outputPath dir r.report.file) ≠ address dir := by
    rw [← haddress]
    rintro rfl
    exact hfree hthere
  have hbelow : isAbove (address (outputPath dir r.report.file)) = false := by
    rw [← haddress, Bool.eq_false_iff]
    exact fun habove => hfree (Tree.get?_of_isAbove t habove)
  have hlast : lastAt dir results place = lastNamed results (base r.report.file) := by
    rw [lastAt, lastNamed, haddress]
    refine congrFun (congrArg _ (funext fun s => decide_eq_decide.2 ?_)) _
    rw [eq_comm, address_outputPath_inj hdir haway hbelow, eq_comm]
  obtain ⟨last, hnamed⟩ : ∃ last, lastNamed results (base r.report.file) = some last := by
    rw [← Option.isSome_iff_exists, lastNamed, List.find?_isSome]
    exact ⟨r, by simpa using hr, by simp⟩
  have hend : (outputPath dir r.report.file).getLast? ≠ some slash := by
    intro hslash
    rw [outputPath, join_eq_clean hdir] at hslash hbase
    rw [clean_eq_of_getLast? hslash] at hbase
    exact hbase (by decide)
  refine ⟨last, hnamed, Tree.read_of_place hend (Tree.place_congr h.dirs hplace) ?_⟩
  rw [h.get?, hlast, hnamed]
  rfl

/-- After all results were written, every file holds the last output that belongs to its name. So
no output is lost exactly if results for files of one name have one output. -/
theorem outputs_kept_iff (hout : o.output ≠ [])
    (h : (writeAll World.host o results).run w = (.ok (), w')) :
    (∀ r ∈ results, ∃ last, lastNamed results (base r.report.file) = some last ∧
      w'.tree.read (outputPath o.output r.report.file) = .ok last.output) ∧
    ((∀ r ∈ results, w'.tree.read (outputPath o.output r.report.file) = .ok r.output) ↔
      ∀ r ∈ results, ∀ s ∈ results, base r.report.file = base s.report.file →
        r.output = s.output) := by
  have hempty : o.output.isEmpty = false := by simpa using hout
  simp only [writeAll, hempty, Bool.false_eq_true, if_false] at h
  obtain ⟨made, u, hmake, h⟩ := of_run_bind h
  cases made with
  | error msg => cases h
  | ok =>
    have hthere := directory_of_makeDirectories hmake
    have hstored := stored_of_writeResults hout h
    have hread := fun r (hr : r ∈ results) => hstored.read hout hthere hr
    refine ⟨hread, fun hkept r hr s hs hname => ?_, fun hsame r hr => ?_⟩
    · have hboth := hkept s hs
      rw [outputPath, ← hname, ← outputPath, hkept r hr] at hboth
      exact Except.ok.inj hboth
    · obtain ⟨last, hlast, hdata⟩ := hread r hr
      have hmem := List.mem_reverse.1 (List.mem_of_find?_eq_some hlast)
      have hname : base last.report.file = base r.report.file := by
        simpa using List.find?_some hlast
      rw [hdata, hsame last hmem r hr hname]

/-- A result that says no more than its output. -/
def bare (file output : Bytes) : Processing.Result :=
  { report := { file, funcs := 0, opsBefore := 0, opsAfter := 0, stats := {} }, output }

theorem outputs_kept_of_two_names :
    let results := [bare (text "x/a.ir") (text "a"), bare (text "x/b.ir") (text "b")]
    ∃ w', (writeAll World.host { output := text "out/" } results).run {} = (.ok (), w') ∧
      ∀ r ∈ results, w'.tree.read (outputPath (text "out/") r.report.file) = .ok r.output := by
  intro results
  have hok : ((writeAll World.host { output := text "out/" } results).run {}).1 = .ok () := by
    decide +kernel
  generalize hrun : (writeAll World.host { output := text "out/" } results).run {} = ran at hok
  obtain ⟨answer, w'⟩ := ran
  subst hok
  exact ⟨w', rfl, (outputs_kept_iff (by decide) hrun).2.2 (by decide)⟩

/-- Two files of one name in different directories. -/
def twins : World where
  tree := (({} : Tree).plant [text "x", text "a.ir"] (.file (text "declare f(i8 %x) i8\n"))).plant
    [text "y", text "a.ir"] (.file (text "declare g(i8 %x) i8\n"))

/-- The run succeeds, and of two modules there is only one in the directory. -/
theorem output_lost :
    let ran := (run World.host (text "obf") [text "-o", text "out", text "x/a.ir",
      text "y/a.ir"]).run twins
    ran.1 = 0 ∧ ran.2.tree.list (text "out") =
      .ok [(text "a.ir", .file (text "declare g(i8 %x) i8\n"))] := by
  constructor
  · decide +kernel
  · decide +kernel

end Disguise.CommandLine
