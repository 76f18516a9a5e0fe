import Disguise.Proofs.Recovery

/-!
Printing and reading. The text of a module is read as a module of the same functions under new
numbers, and that is printed in the same way; if a line is too long, it is not read at all.
-/
namespace Disguise
open Results Bytes

namespace Graph
variable {g y z : Graph} {c : ModuleId} {f k : FuncId}

/-- Function `k` of `y` has been read from the text of function `f` of `g`. -/
structure Reread (g : Graph) (c : ModuleId) (y : Graph) (f k : FuncId) : Prop where
  source : g.WellFormed f
  maps : ∃ ρ : Relabeling, ρ.Maps g y f k
  wellFormed : y.WellFormed k
  listed : y.TargetsListed k
  owner : (y.func k).owner = some c

/-- What has been read stays as it is when more is read. -/
theorem Reread.mono (h : Reread g c y f k) (hext : y.Extends z) : Reread g c z f k := by
  obtain ⟨ρ, hmaps⟩ := h.maps
  have hs := hmaps.stored h.source
  have hagree := hext.agree h.wellFormed hs.func
  have hfunc : z.func k = y.func k := hext.funcs.get k.idx hs.func
  exact ⟨h.source, ⟨ρ, hext.maps hmaps hs⟩, hagree.wellFormed h.wellFormed,
    hagree.listed h.listed, by rw [hfunc, h.owner]⟩

end Graph

namespace Syntax
open Disguise.Graph Reader

/-- A valid module whose text can be read. -/
structure Readable (g : Graph) (m : ModuleId) : Prop where
  wellFormed : g.ModuleWellFormed m
  listed : ∀ f ∈ (g.module m).funcs, g.TargetsListed f
  named : ∀ f ∈ (g.module m).funcs, g.Named f

section
variable {g : Graph} {m c : ModuleId}

theorem Readable.of_validate (hvalid : g.validate m = .ok ())
    (h : ∀ f ∈ (g.module m).funcs, g.TargetsListed f ∧ g.Named f) : Readable g m :=
  ⟨validate_eq_ok.1 hvalid, fun f hf => (h f hf).1, fun f hf => (h f hf).2⟩

theorem Readable.printable (h : Readable g m) : ∀ f ∈ (g.module m).funcs, Printable g f :=
  fun f hf => printable_of_wellFormed (h.wellFormed.funcs f hf)

/-- Some functions have been read. -/
structure Regained (g : Graph) (c : ModuleId) (done : List FuncId) (s : Reading) : Prop where
  outside : s.draft = none
  module : s.module = c
  exact : s.graph.Exact fun _ => []
  funcs : List.Forall₂ (Reread g c s.graph) done s.funcs.reverse

/-- The lines of the next function. -/
theorem Regained.leads [Unicode] {done : List FuncId} {s : Reading} (h : Regained g c done s)
    {f : FuncId} (hn : g.Named f) (wf : g.WellFormed f) (ht : g.TargetsListed f) :
    s.Leads (funcLines g f) (Regained g c (done ++ [f])) := by
  refine (leads_func hn wf ht h.outside).mono ?_
  rintro _ ⟨d, hd, rfl⟩
  have hy := Draft.built d s.module h.exact
  have hmaps := hy.maps hd wf ht
  have hcarries := hmaps.toCarries
  refine ⟨h.outside, h.module, hy.exact, ?_⟩
  rw [List.reverse_cons]
  refine List.rel_append (h.funcs.imp fun _ _ hf => hf.mono hy.apart.extended)
    (.cons ⟨wf, ⟨_, hmaps⟩, ?_, hcarries.targetsListed ht, ?_⟩ .nil)
  · exact hcarries.wellFormed (hy.fresh hd wf ht) h.exact wf ht
  · rw [hy.func, Draft.head, h.module]

theorem flatten_intersperse {α : Type} (a : α) (l : List α) (ls : List (List α)) :
    ((l :: ls).intersperse [a]).flatten = l ++ ls.flatMap (a :: ·) := by
  induction ls generalizing l with
  | nil => rfl
  | cons l' ls ih =>
    rw [List.intersperse_cons_cons, List.flatten_cons, List.flatten_cons, ih, List.flatMap_cons]
    rfl

theorem moduleLines_of_cons [Unicode] {f : FuncId} {fs : List FuncId}
    (h : (g.module m).funcs = f :: fs) :
    moduleLines g m = funcLines g f ++ fs.flatMap fun f => [] :: funcLines g f := by
  rw [moduleLines, h, List.map_cons, flatten_intersperse, List.flatMap_map]

/-- The lines of a whole module. -/
theorem Regained.leads_module [Unicode] {s : Reading} (h : Regained g c [] s) (hr : Readable g m) :
    s.Leads (moduleLines g m) (Regained g c (g.module m).funcs) := by
  cases hfuncs : (g.module m).funcs with
  | nil =>
    rw [moduleLines, hfuncs]
    exact Reading.leads_nil h
  | cons f fs =>
    have hmem : ∀ k ∈ f :: fs, g.Named k ∧ g.WellFormed k ∧ g.TargetsListed k := by
      rw [← hfuncs]
      exact fun k hk => ⟨hr.named k hk, hr.wellFormed.funcs k hk, hr.listed k hk⟩
    obtain ⟨hn, wf, ht⟩ := hmem f (by simp)
    rw [moduleLines_of_cons hfuncs]
    refine (h.leads hn wf ht).append fun s₁ h₁ => ?_
    refine Reading.leads_flatMap (P := fun done => Regained g c (f :: done)) h₁ ?_
    intro done k rest s₂ hsplit h₂
    obtain ⟨hn, wf, ht⟩ := hmem k (by simp [hsplit])
    have hskip : s₂.Leads [[]] (Regained g c (f :: done)) :=
      Reading.leads_single fun number => ⟨s₂, Reading.addLine_nil number, h₂⟩
    exact hskip.append fun s₃ h₃ => h₃.leads hn wf ht

/-- When all functions have been read, the module is accepted. -/
theorem Regained.validate {s : Reading} (h : Regained g c (g.module m).funcs s)
    (wf : g.ModuleWellFormed m) :
    let y := s.graph.modifyModule c fun md => { md with funcs := s.funcs.reverse }
    y.validate c = .ok () ∧ List.Forall₂ (fun f k => ∃ ρ : Relabeling, ρ.Maps g y f k)
      (g.module m).funcs (y.module c).funcs := by
  intro y
  have hfuncs : (y.module c).funcs = s.funcs.reverse := by
    rw [module_modifyModule, if_pos rfl]
  have hagree : ∀ k, Agree s.graph y k := fun k =>
    ⟨rfl, rfl, rfl, fun _ _ => rfl, fun _ _ => rfl, fun _ _ hb => hb, fun _ _ => rfl⟩
  rw [validate_eq_ok, hfuncs]
  refine ⟨⟨?_, ?_, ?_⟩, h.funcs.imp fun f k hf => ?_⟩
  all_goals try rw [hfuncs]
  · exact forall_of_forall₂ h.funcs fun _ _ hf => hf.owner
  · rw [map_of_forall₂ (p := fun f => (g.func f).name) h.funcs fun f k hf => ?_]
    · exact wf.names
    · obtain ⟨ρ, hmaps⟩ := hf.maps
      exact hmaps.name
  · exact forall_of_forall₂ h.funcs fun _ k hf => (hagree k).wellFormed hf.wellFormed
  · obtain ⟨ρ, hmaps⟩ := hf.maps
    exact ⟨ρ, hmaps.keep rfl (fun _ _ => ⟨rfl, rfl⟩) (fun _ _ => rfl) fun _ _ => rfl⟩

theorem newline_not_mem_moduleLines [Unicode] (h : Readable g m) :
    ∀ l ∈ moduleLines g m, newline ∉ l := by
  have hline : ∀ f ∈ (g.module m).funcs, ∀ l ∈ funcLines g f, newline ∉ l := fun f hf =>
    newline_not_mem_funcLines (h.named f hf) (h.wellFormed.funcs f hf) (h.listed f hf)
  intro l hl
  cases hfuncs : (g.module m).funcs with
  | nil =>
    rw [moduleLines, hfuncs] at hl
    cases hl
  | cons f fs =>
    rw [hfuncs] at hline
    rw [moduleLines_of_cons hfuncs] at hl
    rcases List.mem_append.1 hl with hl | hl
    · exact hline f (by simp) l hl
    · obtain ⟨k, hk, hl⟩ := List.mem_flatMap.1 hl
      rcases List.mem_cons.1 hl with rfl | hl
      · simp
      · exact hline k (by simp [hk]) l hl

theorem Readable.linesOf [Unicode] (h : Readable g m) :
    Syntax.linesOf (unlines (moduleLines g m)) = moduleLines g m :=
  linesOf_unlines (newline_not_mem_moduleLines h)

/-- Nothing has been read yet. -/
theorem Regained.start (g : Graph) : Regained g (newModule {}).2 []
    { graph := (newModule {}).1, module := (newModule {}).2 } :=
  ⟨rfl, rfl, exact_empty.withFuncs _ _, .nil⟩

/-- Reading the text of a module. -/
theorem parse_moduleLines [Unicode] (h : Readable g m) :
    if ∀ l ∈ moduleLines g m, l.length < lineLimit then
      ∃ g' m', parse (unlines (moduleLines g m)) = .ok (g', m') ∧
        List.Forall₂ (fun f k => ∃ ρ : Relabeling, ρ.Maps g g' f k) (g.module m).funcs
          (g'.module m').funcs
    else parse (unlines (moduleLines g m)) = .error .longLine := by
  obtain ⟨s, hs, hlines⟩ := (Regained.start g).leads_module h 1
  unfold parse parseInto
  dsimp only
  rw [h.linesOf, Reading.addLines_of_takeLines hlines]
  split
  · obtain ⟨hvalid, hmaps⟩ := hs.validate h.wellFormed
    refine ⟨_, _, ?_, hmaps⟩
    simp only [ok_bind, hs.outside, hvalid]
    rfl
  · rfl

end

/-- Printing a module and reading the text again. If all lines are short enough, this gives the
same functions under new numbers, and these are printed in the same way; otherwise it fails. -/
def RoundTrips [Unicode] (g : Graph) (m : ModuleId) : Prop :=
  ∃ s, printModule g m = .ok s ∧
    ((∀ l ∈ linesOf s, l.length < 1048576) → ∃ g' m', parse s = .ok (g', m') ∧
      List.Forall₂ (fun f k => ∃ ρ : Relabeling, ρ.Maps g g' f k) (g.module m).funcs
        (g'.module m').funcs ∧ printModule g' m' = .ok s) ∧
    ((∃ l ∈ linesOf s, 1048576 ≤ l.length) → ∃ e, parse s = .error e ∧
      e.message = text "bufio.Scanner: token too long")

theorem roundTrips_of_readable [Unicode] {g : Graph} {m : ModuleId} (h : Readable g m) :
    RoundTrips g m := by
  have hread := parse_moduleLines h
  refine ⟨_, printModule_eq h.printable, ?_⟩
  rw [h.linesOf]
  refine ⟨fun (hshort : ∀ l ∈ moduleLines g m, l.length < lineLimit) => ?_,
    fun ⟨l, hl, hlong⟩ => ⟨.longLine, ?_, rfl⟩⟩
  · rw [if_pos hshort] at hread
    obtain ⟨g', m', hok, hmaps⟩ := hread
    exact ⟨g', m', hok, hmaps, printModule_forall₂ h.printable h.listed hmaps⟩
  · have hnot : ¬∀ l ∈ moduleLines g m, l.length < lineLimit :=
      fun hshort => Nat.not_lt.2 hlong (hshort l hl)
    rwa [if_neg hnot] at hread

end Syntax
end Disguise
