import Disguise.Proofs.Printing
import Disguise.Proofs.Statistics
import Disguise.Text.Printable

/-!
Runs over a module. The functions get their turns in order: one that is not wanted is passed by, and
one that is wanted is worked on as if it were alone. What is done to one function does not show in
another, not even in its use sets, so every function is met as it was at the start and left as its
own turn left it.
-/
namespace Disguise
open Disguise.Graph

namespace Graph
variable {g g' g'' : Graph} {f k : FuncId}

/-- A function is the same in two graphs, down to its use sets, and what it branches to has the same
names. -/
structure Same (g g' : Graph) (f : FuncId) : Prop extends Agree g g' f where
  func : g'.func f = g.func f
  name : ∀ b, (g'.block b).name = (g.block b).name

namespace Same

theorem refl (g : Graph) (f : FuncId) : Same g g f :=
  ⟨⟨rfl, rfl, rfl, fun _ _ => rfl, fun _ _ => rfl, fun _ _ h => h, fun _ _ => rfl⟩, rfl,
    fun _ => rfl⟩

theorem trans (h : Same g g' f) (h' : Same g' g'' f) : Same g g'' f where
  retBits := h'.retBits.trans h.retBits
  params := h'.params.trans h.params
  blocks := h'.blocks.trans h.blocks
  param p hp := (h'.param p (by rwa [h.params])).trans (h.param p hp)
  block b hb := (h'.block b (by rwa [h.blocks])).trans (h.block b hb)
  owner b hb hf := by
    refine h'.owner b ?_ (h.owner b hb hf)
    rcases hb with hb | ⟨o, ho, ht⟩
    · exact .inl (by rwa [h.blocks])
    · exact .inr ⟨o, by rwa [h.opsOf], by rwa [h.op o ho]⟩
  op o ho := (h'.op o (by rwa [h.opsOf])).trans (h.op o ho)
  func := h'.func.trans h.func
  name b := (h'.name b).trans (h.name b)

end Same

/-- Work on one function does not show in another one. -/
theorem Frame.same (h : Frame g g' f) (hne : k ≠ f) (wf : g.WellFormed f) (wfk : g.WellFormed k) :
    Same g g' k :=
  { h.agree hne wf wfk with func := h.func k, name := h.name }

end Graph

namespace Syntax
variable {g g' : Graph} {f : FuncId}

/-- A function that is the same has the same text. -/
theorem opText_same (h : Same g g' f) (hp : Printable g f) {o : OpId} (ho : o ∈ g.opsOf f) :
    opText g' f o = opText g f o := by
  have hresults : resultsOf g' f = resultsOf g f := by
    rw [resultsOf, resultsOf, h.opsOf]
    exact List.filter_congr fun u hu => by rw [h.op u hu]
  have hargs : (g.op o).args.map (fun v => v.elim [] (operandText g' f)) =
      (g.op o).args.map fun v => v.elim [] (operandText g f) := by
    refine List.map_congr_left fun v hv => ?_
    obtain ⟨w, rfl, hparam, -⟩ := hp.operand o ho v hv
    cases w with
    | const c => rfl
    | param p => simp only [Option.elim_some, operandText, h.param p (hparam p rfl)]
    | result u => simp only [Option.elim_some, operandText, hresults]
  simp only [opText, opStart, h.op o ho, hresults, hargs, h.name]

theorem printFunc_same [Unicode] (h : Same g g' f) (wf : g.WellFormed f) :
    printFunc g' f = printFunc g f := by
  have hp := printable_of_wellFormed wf
  rw [printFunc_eq hp, printFunc_eq (printable_of_wellFormed (h.wellFormed wf))]
  have hheader : printHeader g' (g.func f) = printHeader g (g.func f) := by
    unfold printHeader
    rw [List.map_congr_left fun p hp => by rw [h.param p hp]]
  have hblocks : (g.func f).blocks.flatMap (blockLines g' f) =
      (g.func f).blocks.flatMap (blockLines g f) := by
    refine List.flatMap_congr fun b hb => ?_
    rw [blockLines, blockLines, h.block b hb, List.map_congr_left fun o ho => by
      rw [opText_same h hp (mem_opsOf.2 ⟨b, hb, ho⟩)]]
  simp only [funcLines, h.func, hheader, hblocks]

end Syntax

def Notice.isComplaint : Notice → Bool
  | badPassCount _ => true
  | _ => false

namespace Engine
variable {g x : Graph} {sel : Selector} {e : Engine}

/-- The turns of the functions `fs`, all of which are asked for as they are in `g`. Each step starts
from the graph and the source that the one before it left. -/
inductive Turns (e : Engine) (sel : Selector) (g : Graph) :
    List FuncId → Graph → Rand → Graph → Rand → Prop
  | nil (x : Graph) (r : Rand) : Turns e sel g [] x r x r
  | skip {f : FuncId} {fs : List FuncId} {x y : Graph} {r r' : Rand}
      (unwanted : wanted sel (g.func f) = false) (later : Turns e sel g fs x r y r') :
      Turns e sel g (f :: fs) x r y r'
  | work {f : FuncId} {fs : List FuncId} {x x' y : Graph} {r r₁ r' : Rand} {e' : Engine}
      {stats : Stats} (want : wanted sel (g.func f) = true) (before : Same g x f)
      (now : (e.work x f (sel.passes (g.func f)).toNat).run r = (.ok (e', x', stats), r₁))
      (after : Same x' y f) (later : Turns e sel g fs x' r₁ y r') :
      Turns e sel g (f :: fs) x r y r'

/-- What is said of functions that are to be worked on a number of times that is not positive. -/
def complaints (sel : Selector) (fns : List Func) : List Notice :=
  fns.filterMap fun fn => if sel.passes fn ≤ 0 then some (.badPassCount (sel.passes fn)) else none

theorem filter_said (sel : Selector) (fn : Func) :
    (said sel fn).filter Notice.isComplaint = complaints sel [fn] := by
  unfold said complaints
  split
  · rename_i hle
    simp [hle, Notice.isComplaint]
  · rename_i hlt
    simp [hlt, Notice.isComplaint]

theorem complaints_cons (sel : Selector) (fn : Func) (fns : List Func) :
    complaints sel (fn :: fns) = complaints sel [fn] ++ complaints sel fns :=
  List.filterMap_append (l := [fn])

/-- What a run over the functions `fs` does when all functions `all` of a module are well-formed and
those to come are as they were at first. -/
theorem exists_turns (e₀ : Engine) {all fs : List FuncId} (hn : fs.Nodup)
    (hall : ∀ f ∈ fs, f ∈ all) (hopts : e.options = e₀.options) (wf : ∀ k ∈ all, x.WellFormed k)
    (hsame : ∀ f ∈ fs, Same g x f) (stats : Stats) (r : Rand) :
    ∃ e' y stats' r', (runFuncs sel fs e x stats).run r = (.ok (e', y, stats'), r') ∧
      Turns e₀ sel g fs x r y r' ∧ Reworked x y ∧ y.modules = x.modules ∧
      (∀ k ∈ all, k ∉ fs ∨ wanted sel (g.func k) = false → Same x y k) ∧
      e'.notices.filter Notice.isComplaint =
        e.notices.filter Notice.isComplaint ++ complaints sel (fs.map g.func) := by
  obtain ⟨_⟩ : Nonempty FloatUnit := inferInstance
  induction fs generalizing e x stats r with
  | nil =>
    exact ⟨e, x, stats, r, rfl, .nil x r, .refl x, rfl, fun k _ _ => .refl x k,
      by simp [complaints]⟩
  | cons f fs ih =>
    obtain ⟨hf, hn⟩ := List.nodup_cons.1 hn
    have hfall := hall f (by simp)
    have hfunc := (hsame f (by simp)).func
    have hrest := fun k hk => hall k (List.mem_cons_of_mem f hk)
    unfold runFuncs
    rw [run_eq, hfunc, List.map_cons, complaints_cons]
    by_cases hwant : wanted sel (g.func f) = true
    · obtain ⟨⟨x', t⟩, r₁, hrun, htrans⟩ :=
        always_passes e.options (sel.passes (g.func f)).toNat {} (wf f hfall) r
      have hother : ∀ k ∈ all, k ≠ f → Same x x' k :=
        fun k hk hne => htrans.frame.same hne (wf f hfall) (wf k hk)
      have wf' : ∀ k ∈ all, x'.WellFormed k :=
        fun k hk => htrans.wellFormed_of (wf f hfall) (wf k hk)
      have hsame' : ∀ k ∈ fs, Same g x' k := by
        intro k hk
        have hne : k ≠ f := fun heq => hf (heq ▸ hk)
        exact (hsame k (List.mem_cons_of_mem f hk)).trans (hother k (hrest k hk) hne)
      obtain ⟨e', y, stats', r', hlater, hturns, hwork, hmodules, hkept, hnotices⟩ :=
        @ih x' (({ e with
            tally := e.tally ++ t, notices := e.notices ++ said sel (g.func f) } : Engine).note
            (.finished (x'.func f).name t.stats)) hn hrest hopts wf' hsame' (stats + t.stats) r₁
      refine ⟨e', y, stats', r', ?_, ?_, htrans.frame.reworked.trans hwork,
        hmodules.trans htrans.frame.modules, fun k hk hor => ?_, ?_⟩
      · rw [if_pos hwant, bind_assoc, Choice.run_bind, hrun]
        exact hlater
      · rw [hopts] at hrun
        exact .work hwant (hsame f (by simp)) (run_work hrun) (hkept f hfall (.inl hf)) hturns
      · have hne : k ≠ f := by
          rintro rfl
          rcases hor with hnot | hno
          · exact hnot (by simp)
          · rw [hwant] at hno
            cases hno
        refine (hother k hk hne).trans (hkept k hk (hor.imp_left fun hnot hmem => ?_))
        exact hnot (List.mem_cons_of_mem f hmem)
      · rw [hnotices, note, List.filter_append, List.filter_append, filter_said]
        simp [Notice.isComplaint]
    · have hno : wanted sel (g.func f) = false := by simpa using hwant
      obtain ⟨e', y, stats', r', hlater, hturns, hwork, hmodules, hkept, hnotices⟩ :=
        @ih x { e with notices := e.notices ++ said sel (g.func f) } hn hrest hopts wf
          (fun k hk => hsame k (List.mem_cons_of_mem f hk)) stats r
      refine ⟨e', y, stats', r', ?_, .skip hno hturns, hwork, hmodules, fun k hk hor => ?_, ?_⟩
      · rw [if_neg hwant, pure_bind]
        exact hlater
      · refine hkept k hk (hor.imp_left fun hnot hmem => ?_)
        exact hnot (List.mem_cons_of_mem f hmem)
      · rw [hnotices, List.filter_append, filter_said, List.append_assoc]

/-- A run over an accepted module touches only the functions that are wanted. They get their turns
in order, each with its own number of passes and with the choices that the turns before it left; a
function that is to be worked on a number of times that is not positive or that is not selected
keeps its text and its use sets and takes no choices. No function changes its header or the names
and the order of its blocks, the module has the functions it had, and there is one complaint for
each number of passes that is not positive, in module order. -/
theorem runModule_turns [Unicode] {g : Graph} {m : ModuleId} (hv : g.validate m = .ok ())
    (e : Engine) (sel : Selector) (r : Rand) :
    ∃ e' y stats r', (e.runModule g m sel).run r = (.ok (e', y, stats), r') ∧
      Turns e sel g (g.module m).funcs g r y r' ∧
      y.module m = g.module m ∧
      (∀ f ∈ (g.module m).funcs, sel.passes (g.func f) ≤ 0 ∨ sel.selects (g.func f) = false →
        Syntax.printFunc y f = Syntax.printFunc g f ∧ Same g y f) ∧
      (∀ f ∈ (g.module m).funcs, y.func f = g.func f ∧
        (∀ p ∈ (g.func f).params, (y.param p).bare = (g.param p).bare) ∧
        ∀ b ∈ (g.func f).blocks, (y.block b).name = (g.block b).name) ∧
      e'.notices.filter Notice.isComplaint = e.notices.filter Notice.isComplaint ++
        complaints sel ((g.module m).funcs.map g.func) := by
  have wf := validate_eq_ok.1 hv
  obtain ⟨e', y, stats, r', hrun, hturns, hwork, hmodules, hkept, hnotices⟩ :=
    exists_turns (g := g) e wf.names.of_map (fun f hf => hf) rfl wf.funcs
      (fun f _ => .refl g f) {} r
  refine ⟨e', y, stats, r', hrun, hturns, ?_, fun f hf hor => ?_, fun f hf => ?_, hnotices⟩
  · rw [module, module, hmodules]
  · have hsame := hkept f hf (.inr (by
      rcases hor with hle | hno
      · simp [wanted, Int.not_lt.2 hle]
      · simp [wanted, hno]))
    exact ⟨Syntax.printFunc_same hsame (wf.funcs f hf), hsame⟩
  · exact ⟨hwork.func f, fun p _ => hwork.param p, fun b _ => hwork.name b⟩

theorem sampleGraph_runModule_turns :
    let e : Engine := { options := {} }
    let sel : Selector := { selects := fun _ => true, passes := fun _ => 2 }
    let r : Rand := ⟨.scripted [3, 250, 7] 0, []⟩
    ∃ e' y stats r', (e.runModule sampleGraph ⟨0⟩ sel).run r = (.ok (e', y, stats), r') ∧
      Turns e sel sampleGraph [⟨0⟩] sampleGraph r y r' := by
  intro e sel r
  obtain ⟨e', y, stats, r', hrun, hturns, -⟩ := runModule_turns sampleGraph_validate e sel r
  exact ⟨e', y, stats, r', hrun, hturns⟩

end Engine
end Disguise
