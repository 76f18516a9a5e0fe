import Disguise.Diff.Lines
import Disguise.Processing
import Disguise.Proofs.Checking
import Disguise.Proofs.Copies
import Disguise.Proofs.Passes
import Disguise.Proofs.Tagging
import Disguise.Text.Printable

/-!
Calls of the engine on an accepted module. Whatever is called in whatever order, no call stops at a
violation and the module is accepted after each of them; so a module that was accepted before is
never refused after it has been processed.
-/
namespace Disguise
open Disguise.Graph

namespace Graph
variable {g g' : Graph} {f : FuncId} {m : ModuleId}

/-- A function that is transformed does no harm to another one. -/
theorem Transformed.wellFormed_of [FloatUnit] {k : FuncId} (h : Transformed g g' f)
    (wf : g.WellFormed f) (wfk : g.WellFormed k) : g'.WellFormed k := by
  by_cases hkf : k = f
  · rw [hkf]
    exact h.wellFormed
  · exact (h.frame.agree hkf wf wfk).wellFormed wfk

theorem Transformed.moduleWellFormed [FloatUnit] (h : Transformed g g' f)
    (wf : g.ModuleWellFormed m) (hf : f ∈ (g.module m).funcs) : g'.ModuleWellFormed m where
  owner := by
    intro k hk
    rw [h.frame.module] at hk
    rw [h.frame.func]
    exact wf.owner k hk
  names := by
    simp only [h.frame.module, h.frame.func]
    exact wf.names
  funcs := by
    intro k hk
    rw [h.frame.module] at hk
    exact h.wellFormed_of (wf.funcs f hf) (wf.funcs k hk)

end Graph

namespace Engine

/-- What a caller may ask an engine for. -/
inductive Call where
  | substitute (f : FuncId)
  | run (f : FuncId) (sel : Selector)
  | runModule (sel : Selector)

/-- A call is for one of the given functions or for all of them. -/
def Call.On (funcs : List FuncId) : Call → Prop
  | substitute f => f ∈ funcs
  | run f _ => f ∈ funcs
  | runModule _ => True

def perform (e : Engine) (g : Graph) (m : ModuleId) : Call → Choice (Engine × Graph)
  | .substitute f => do
    let (e, g, _) ← e.substitute g f
    pure (e, g)
  | .run f sel => do
    let (e, g, _) ← e.run g f sel
    pure (e, g)
  | .runModule sel => do
    let (e, g, _) ← e.runModule g m sel
    pure (e, g)

/-- The graphs after each of a sequence of calls. -/
def performAll (m : ModuleId) : List Call → Engine → Graph → Choice (List Graph)
  | [], _, _ => pure []
  | call :: rest, e, g => do
    let (e, g) ← e.perform g m call
    let later ← performAll m rest e g
    pure (g :: later)

variable {g : Graph} {m : ModuleId}

/-- A well-formed module that has the functions it had. -/
def Held (g : Graph) (m : ModuleId) (g' : Graph) : Prop :=
  g'.ModuleWellFormed m ∧ g'.module m = g.module m

theorem held_of_transformed [FloatUnit] {g₁ g₂ : Graph} {f : FuncId} (h : Held g m g₁)
    (ht : Transformed g₁ g₂ f) (hf : f ∈ (g.module m).funcs) : Held g m g₂ := by
  obtain ⟨wf, hm⟩ := h
  exact ⟨ht.moduleWellFormed wf (by rwa [hm]), (ht.frame.module m).trans hm⟩

/-- What every transformation of a function keeps, a run over functions keeps. -/
theorem always_runFuncs [FloatUnit] (sel : Selector) {P : Graph → Prop} {fs : List FuncId}
    (hP : ∀ f ∈ fs, ∀ x, P x → x.WellFormed f ∧ ∀ y, Transformed x y f → P y) (e : Engine)
    {g : Graph} (stats : Stats) (hp : P g) :
    Always (runFuncs sel fs e g stats) fun r => P r.2.1 := by
  induction fs generalizing e g stats with
  | nil => exact .pure hp
  | cons f fs ih =>
    obtain ⟨wf, hkept⟩ := hP f (by simp) g hp
    have hrest := fun k hk => hP k (List.mem_cons_of_mem f hk)
    unfold runFuncs
    apply (always_run e sel wf).bind
    rintro ⟨e', g', done⟩ htrans
    have hp' := hkept g' htrans
    cases done with
    | none => exact ih hrest e' stats hp'
    | some s => exact ih hrest _ _ hp'

theorem always_runModule_keeps [FloatUnit] (e : Engine) (sel : Selector) {P : Graph → Prop}
    (hP : ∀ f ∈ (g.module m).funcs, ∀ x y, Held g m x → P x → Transformed x y f → P y)
    {g₁ : Graph} (h : Held g m g₁) (hp : P g₁) :
    Always (e.runModule g₁ m sel) fun r => Held g m r.2.1 ∧ P r.2.1 := by
  refine always_runFuncs sel (P := fun x => Held g m x ∧ P x) (fun f hf x ⟨hx, hpx⟩ => ?_) e {}
    ⟨h, hp⟩
  rw [h.2] at hf
  exact ⟨hx.1.funcs f (by rwa [hx.2]), fun y ht =>
    ⟨held_of_transformed hx ht hf, hP f hf x y hx hpx ht⟩⟩

theorem always_runModule (e : Engine) (sel : Selector) {g₁ : Graph} (h : Held g m g₁) :
    Always (e.runModule g₁ m sel) fun r => Held g m r.2.1 := by
  obtain ⟨_⟩ : Nonempty FloatUnit := inferInstance
  apply (always_runModule_keeps e sel (P := fun _ => True) (fun _ _ _ _ _ _ _ => trivial) h
    trivial).mono
  exact fun r hr => hr.1

/-- One call leaves a well-formed module well-formed. -/
theorem always_perform (e : Engine) {g₁ : Graph} {call : Call} (h : Held g m g₁)
    (hcall : call.On (g.module m).funcs) :
    Always (e.perform g₁ m call) fun r => Held g m r.2 := by
  obtain ⟨_⟩ : Nonempty FloatUnit := inferInstance
  cases call with
  | substitute f =>
    apply (always_substitute e (h.1.funcs f (by rw [h.2]; exact hcall))).bind
    rintro ⟨e', g₂, stats⟩ htrans
    exact .pure (held_of_transformed h htrans hcall)
  | run f sel =>
    apply (always_run e sel (h.1.funcs f (by rw [h.2]; exact hcall))).bind
    rintro ⟨e', g₂, stats⟩ htrans
    exact .pure (held_of_transformed h htrans hcall)
  | runModule sel =>
    apply (always_runModule e sel h).bind
    rintro ⟨e', g₂, stats⟩ h₂
    exact .pure h₂

/-- So do all of a sequence of calls. -/
theorem always_performAll (calls : List Call) (e : Engine) {g₁ : Graph} (h : Held g m g₁)
    (hcalls : ∀ call ∈ calls, call.On (g.module m).funcs) :
    Always (performAll m calls e g₁) fun gs =>
      gs.length = calls.length ∧ ∀ g' ∈ gs, Held g m g' := by
  induction calls generalizing e g₁ with
  | nil => exact .pure (by simp)
  | cons call calls ih =>
    unfold performAll
    apply (always_perform e h (hcalls call (by simp))).bind
    rintro ⟨e', g₂⟩ h₂
    apply (ih e' h₂ fun c hc => hcalls c (by simp [hc])).bind
    rintro later ⟨hlen, hlater⟩
    apply Always.pure
    constructor
    · simp [hlen]
    · intro g' hg'
      rcases List.mem_cons.1 hg' with rfl | hg'
      · exact h₂
      · exact hlater g' hg'

end Engine

namespace Graph
variable {g : Graph} {m : ModuleId}

/-- Tags say nothing about the ops of a function. -/
theorem agree_tagModule (g : Graph) (m : ModuleId) (f : FuncId) : Agree g (g.tagModule m) f ∧
    ((g.tagModule m).func f).owner = (g.func f).owner ∧
    ((g.tagModule m).func f).name = (g.func f).name ∧ (g.tagModule m).ops = g.ops ∧
    (g.tagModule m).blocks = g.blocks ∧ (g.tagModule m).modules = g.modules := by
  obtain ⟨hfunc, -, hops, hparams, hblocks, hmodules⟩ := tagged_tagModule g m
  have hkept : ∀ {α : Type} (k : Func → α), (∀ fn : Func, k fn.tagged = k fn) →
      k ((g.tagModule m).func f) = k (g.func f) := by
    intro α k hk
    rw [hfunc f]
    split
    · exact hk _
    · rfl
  have hblock : ∀ b, (g.tagModule m).block b = g.block b := by
    intro b
    rw [block, block]
    exact congrArg (fun t => t.get b.idx) hblocks
  have hagree : Agree g (g.tagModule m) f := by
    constructor
    case retBits => exact hkept Func.retBits fun _ => rfl
    case params => exact hkept Func.params fun _ => rfl
    case blocks => exact hkept Func.blocks fun _ => rfl
    case param => exact fun p _ => congrArg (fun t => t.get p.idx) hparams
    case block => exact fun b _ => hblock b
    case owner =>
      intro b _ hf
      rw [hblock]
      exact hf
    case op => exact fun o _ => congrArg (fun t => t.get o.idx) hops
  have howner := hkept Func.owner fun _ => rfl
  have hname := hkept Func.name fun _ => rfl
  exact ⟨hagree, howner, hname, hops, hblocks, hmodules⟩

theorem ModuleWellFormed.tagModule (wf : g.ModuleWellFormed m) :
    (g.tagModule m).ModuleWellFormed m := by
  have hmodule : (g.tagModule m).module m = g.module m := by
    obtain ⟨-, -, -, -, -, hmodules⟩ := agree_tagModule g m default
    exact congrArg (fun t => t.get m.idx) hmodules
  constructor
  · intro f hf
    rw [hmodule] at hf
    obtain ⟨-, howner, -⟩ := agree_tagModule g m f
    rw [howner]
    exact wf.owner f hf
  · have hnames : ∀ f, ((g.tagModule m).func f).name = (g.func f).name := by
      intro f
      obtain ⟨-, -, hname, -⟩ := agree_tagModule g m f
      exact hname
    simp only [hmodule, hnames]
    exact wf.names
  · intro f hf
    rw [hmodule] at hf
    exact (agree_tagModule g m f).1.wellFormed (wf.funcs f hf)

/-- A copy of a well-formed module is outside of the graph. -/
theorem ModuleWellFormed.extends_clone {g' : Graph} {c : ModuleId} (wf : g.ModuleWellFormed m)
    (hok : g.cloneModule m = .ok (g', c)) : g.Extends g' ∧ g'.module m = g.module m := by
  have hthere : ∀ f ∈ (g.module m).funcs, f.idx < g.funcs.size ∧
      ∀ b ∈ (g.func f).blocks, b.idx < g.blocks.size :=
    fun f hf => ⟨wf.lt_size hf, fun b hb => (wf.funcs f hf).block_lt_size hb⟩
  exact cloneModule_extends hthere hok

/-- A copy of a module leaves the module as it was. -/
theorem ModuleWellFormed.cloneModule {g' : Graph} {c : ModuleId} (wf : g.ModuleWellFormed m)
    (hok : g.cloneModule m = .ok (g', c)) : g'.ModuleWellFormed m := by
  obtain ⟨hext, hmodule⟩ := wf.extends_clone hok
  have hfunc : ∀ f ∈ (g.module m).funcs, g'.func f = g.func f :=
    fun f hmem => hext.funcs.get f.idx (wf.lt_size hmem)
  constructor
  · intro f hmem
    rw [hmodule] at hmem
    rw [hfunc f hmem]
    exact wf.owner f hmem
  · rw [hmodule, List.map_congr_left fun f hmem => congrArg Func.name (hfunc f hmem)]
    exact wf.names
  · intro f hmem
    rw [hmodule] at hmem
    have hagree : g.Agree g' f := hext.agree (wf.funcs f hmem) (wf.lt_size hmem)
    exact hagree.wellFormed (wf.funcs f hmem)

end Graph

namespace Processing
variable {g : Graph} {m : ModuleId}

/-- What is put together at the end may differ from the first module but is never refused. -/
theorem yields_finish [FloatUnit] [Unicode] [Differ] (s : Settings) (g : Graph)
    (first m : ModuleId) (file : Bytes) (stats : Stats) :
    Yields (finish s g first m file stats) fun r => ∀ d, r ≠ .error (.invalid d) := by
  unfold finish
  refine Yields.bind (.any _) fun output _ => ?_
  dsimp only
  refine Yields.ite (fun _ => ?_) fun _ => ?_ <;>
  · refine Yields.bind (.any _) fun check _ => ?_
    split
    · exact .pure (by simp)
    · refine Yields.bind (.any _) fun diff _ => ?_
      exact .pure (by simp)

/-- An accepted module is not refused after it has been transformed. -/
theorem yields_process [FloatUnit] [Unicode] [Differ] (s : Settings) (file : Bytes)
    (wf : g.ModuleWellFormed m) :
    Yields (process s g m file) fun r => ∀ d, r.1 ≠ .error (.invalid d) := by
  have htagged : ∃ g₀, (if s.tagFirst then g.tagModule m else g) = g₀ ∧ g₀.ModuleWellFormed m := by
    by_cases htag : s.tagFirst
    · exact ⟨_, if_pos htag, wf.tagModule⟩
    · exact ⟨g, if_neg htag, wf⟩
  obtain ⟨g₀, heq, wf₀⟩ := htagged
  unfold process
  rw [heq]
  refine Yields.bind (P := fun r => r.1.ModuleWellFormed m)
    (.lift fun r hr => wf₀.cloneModule hr) ?_
  rintro ⟨g₁, first⟩ wf₁
  dsimp only
  split
  · exact .pure (by simp)
  · refine Yields.bind (.of_always (Engine.always_runModule _ _ ⟨wf₁, rfl⟩)) ?_
    rintro ⟨engine, g₂, stats⟩ ⟨wf₂, -⟩
    dsimp only
    rw [validate_eq_ok.2 wf₂]
    refine Yields.bind (yields_finish s g₂ first m file stats) fun result hresult => ?_
    exact .pure hresult

end Processing

/-- Engines keep modules valid. No call on the functions of an accepted module stops at a violation,
and the module is accepted after each of a sequence of calls, whatever the options, the selectors
and the choices made. So processing never ends with a module that it refuses. -/
theorem Engine.performAll_accepted [FloatUnit] [Unicode] [Differ] {g : Graph} {m : ModuleId}
    (hv : g.validate m = .ok ()) :
    (∀ (e : Engine) (calls : List Call), (∀ call ∈ calls, call.On (g.module m).funcs) →
      Always (performAll m calls e g) fun gs =>
        gs.length = calls.length ∧ ∀ g' ∈ gs, g'.validate m = .ok ()) ∧
    ∀ settings file,
      Yields (Processing.process settings g m file) fun r => ∀ d, r.1 ≠ .error (.invalid d) := by
  have wf := validate_eq_ok.1 hv
  constructor
  · intro e calls hcalls
    apply (always_performAll calls e ⟨wf, rfl⟩ hcalls).mono
    rintro gs ⟨hlen, hgs⟩
    exact ⟨hlen, fun g' hg' => validate_eq_ok.2 (hgs g' hg').1⟩
  · exact fun settings file => Processing.yields_process settings file wf

theorem sampleGraph_validate : sampleGraph.validate ⟨0⟩ = .ok () := by
  have hfunc := Graph.validateFunc_eq_ok.1 sampleGraph_validateFunc
  apply validate_eq_ok.2
  constructor
  · decide
  · decide
  · intro f hf
    have hzero : f = ⟨0⟩ := by
      have hfuncs : (sampleGraph.module ⟨0⟩).funcs = [⟨0⟩] := rfl
      simpa [hfuncs] using hf
    rw [hzero]
    exact hfunc

theorem sampleGraph_performAll_accepted :
    (Always (Engine.performAll ⟨0⟩
      [.substitute ⟨0⟩, .run ⟨0⟩ ⟨fun _ => true, fun _ => 2, fun _ => []⟩]
      { options := { passes := 1 } } sampleGraph) fun gs =>
        gs.length = 2 ∧ ∀ g' ∈ gs, g'.validate ⟨0⟩ = .ok ()) ∧
    ∀ settings file, Yields (Processing.process settings sampleGraph ⟨0⟩ file) fun r =>
      ∀ d, r.1 ≠ .error (.invalid d) := by
  have hfuncs : (sampleGraph.module ⟨0⟩).funcs = [⟨0⟩] := rfl
  obtain ⟨hcalls, hprocess⟩ := Engine.performAll_accepted sampleGraph_validate
  constructor
  · apply hcalls
    intro call hcall
    simp only [List.mem_cons, List.not_mem_nil, or_false] at hcall
    rcases hcall with rfl | rfl <;> simp [Engine.Call.On, hfuncs]
  · exact hprocess

end Disguise
