import Disguise.Proofs.Naming
import Mathlib.Data.Set.Function

/-!
Modules with the same text. Reading a text gives its functions back, so two modules that are printed
alike are both relabelings of what is read, and one is a relabeling of the other.
-/
namespace Disguise

namespace Relabeling
open Function

/-- The old numbers for the new ones of a function. -/
noncomputable def inverse (ρ : Relabeling) (g : Graph) (f : FuncId) : Relabeling :=
  ⟨invFunOn ρ.param {p | p ∈ (g.func f).params}, invFunOn ρ.block {b | b ∈ (g.func f).blocks},
    invFunOn ρ.op {o | o ∈ g.opsOf f}⟩

section
variable {ρ : Relabeling} {g g' : Graph} {f f' : FuncId}

theorem map_inverse {α β : Type} {k : α → β} {k' : β → α} {l : List α}
    (h : ∀ a ∈ l, k' (k a) = a) : (l.map k).map k' = l := by
  rw [List.map_map]
  exact (List.map_congr_left (g := id) h).trans (List.map_id l)

variable (h : ρ.Carries g g' f f')
include h

theorem Carries.inverse_param {p : ParamId} (hp : p ∈ (g.func f).params) :
    (ρ.inverse g f).param (ρ.param p) = p :=
  Set.InjOn.leftInvOn_invFunOn (fun _ ha _ hb heq => h.paramInj _ ha _ hb heq) hp

theorem Carries.inverse_block {b : BlockId} (hb : b ∈ (g.func f).blocks) :
    (ρ.inverse g f).block (ρ.block b) = b :=
  Set.InjOn.leftInvOn_invFunOn (fun _ ha _ hb heq => h.blockInj _ ha _ hb heq) hb

theorem Carries.inverse_op {o : OpId} (ho : o ∈ g.opsOf f) : (ρ.inverse g f).op (ρ.op o) = o :=
  Set.InjOn.leftInvOn_invFunOn (fun _ ha _ hb heq => h.opInj _ ha _ hb heq) ho

variable (wf : g.WellFormed f) (ht : g.TargetsListed f)
include wf

theorem Carries.inverse_operand {o : OpId} (ho : o ∈ g.opsOf f) {v : Option Operand}
    (hv : v ∈ (g.op o).args) : Option.map (ρ.inverse g f).operand (v.map ρ.operand) = v := by
  cases v with
  | none => rfl
  | some v =>
    cases v with
    | const c => rfl
    | param p =>
      obtain ⟨c, hc⟩ | hp := wf.isValue_of_arg ho hv
      · cases hc
      · simp only [Option.map_some, operand, h.inverse_param hp]
    | result u =>
      obtain ⟨c, hc⟩ | hu := wf.isValue_of_arg ho hv
      · cases hc
      · simp only [Option.map_some, operand, h.inverse_op hu]

include ht

/-- The way back. -/
theorem Carries.symm : (ρ.inverse g f).Carries g' g f' f := by
  have hparams : ∀ {P : ParamId → Prop}, (∀ p ∈ (g.func f).params, P (ρ.param p)) →
      ∀ p ∈ (g'.func f').params, P p := by
    rw [h.params]
    exact List.forall_mem_map.2
  have hblocks : ∀ {P : BlockId → Prop}, (∀ b ∈ (g.func f).blocks, P (ρ.block b)) →
      ∀ b ∈ (g'.func f').blocks, P b := by
    rw [h.blocks]
    exact List.forall_mem_map.2
  have hops : ∀ {P : OpId → Prop}, (∀ o ∈ g.opsOf f, P (ρ.op o)) → ∀ o ∈ g'.opsOf f', P o := by
    rw [h.opsOf]
    exact List.forall_mem_map.2
  have hlisted : ∀ b ∈ (g.func f).blocks, ∀ o ∈ (g.block b).ops, o ∈ g.opsOf f :=
    fun b hb o ho => Graph.mem_opsOf.2 ⟨b, hb, ho⟩
  constructor
  case name => exact h.name.symm
  case retBits => exact h.retBits.symm
  case params => rw [h.params, map_inverse fun p hp => h.inverse_param hp]
  case blocks => rw [h.blocks, map_inverse fun b hb => h.inverse_block hb]
  case paramName => exact hparams fun p hp => by rw [h.inverse_param hp, h.paramName p hp]
  case paramBits => exact hparams fun p hp => by rw [h.inverse_param hp, h.paramBits p hp]
  case blockName => exact hblocks fun b hb => by rw [h.inverse_block hb, h.blockName b hb]
  case ops =>
    refine hblocks fun b hb => ?_
    rw [h.inverse_block hb, h.ops b hb, map_inverse fun o ho => h.inverse_op (hlisted b hb o ho)]
  case place =>
    refine hblocks fun b hb => ?_
    rw [h.ops b hb, h.inverse_block hb]
    refine List.forall_mem_map.2 fun o ho => ?_
    rw [h.inverse_op (hlisted b hb o ho), wf.opOwner b hb o ho]
  case code => exact hops fun o ho => by rw [h.inverse_op ho, h.code o ho]
  case bits =>
    refine hops fun o ho hterm => ?_
    rw [h.code o ho] at hterm
    rw [h.inverse_op ho, h.bits o ho hterm]
  case args =>
    refine hops fun o ho => ?_
    rw [h.inverse_op ho, h.args o ho, map_inverse fun v hv => h.inverse_operand wf ho hv]
  case targets =>
    refine hops fun o ho => ?_
    rw [h.inverse_op ho, h.targets o ho, map_inverse]
    intro t hmem
    cases t with
    | none => rfl
    | some b => rw [Option.map_some, Option.map_some, h.inverse_block (ht o ho b hmem)]
  case paramInj =>
    refine hparams fun p hp => hparams fun q hq heq => ?_
    rw [h.inverse_param hp, h.inverse_param hq] at heq
    rw [heq]
  case blockInj =>
    refine hblocks fun b hb => hblocks fun c hc heq => ?_
    rw [h.inverse_block hb, h.inverse_block hc] at heq
    rw [heq]
  case opInj =>
    refine hops fun o ho => hops fun u hu heq => ?_
    rw [h.inverse_op ho, h.inverse_op hu] at heq
    rw [heq]

omit h in
theorem Maps.symm (h : ρ.Maps g g' f f') : (ρ.inverse g f).Maps g' g f' f :=
  { h.toCarries.symm wf ht with
    note := h.note.symm
    metadata := h.metadata.symm
    external := h.external.symm }

end
end Relabeling

namespace Graph

/-- Two modules of the same functions one by one, apart from the numbers of their params, blocks
and ops. -/
def Isomorphic (g : Graph) (m : ModuleId) (g' : Graph) (m' : ModuleId) : Prop :=
  List.Forall₂ (fun f f' => ∃ ρ : Relabeling, ρ.Maps g g' f f') (g.module m).funcs
    (g'.module m').funcs

end Graph

namespace Syntax
open Disguise.Graph

variable {g g' : Graph} {m m' : ModuleId}

/-- Functions that have been read as the same ones. -/
theorem isomorphic_of_reread {c : ModuleId} {y : Graph} {fs fs' ks : List FuncId}
    (h : List.Forall₂ (Reread g c y) fs ks) (h' : List.Forall₂ (Reread g' c y) fs' ks)
    (ht' : ∀ f ∈ fs', g'.TargetsListed f) :
    List.Forall₂ (fun f f' => ∃ ρ : Relabeling, ρ.Maps g g' f f') fs fs' := by
  induction h generalizing fs' with
  | nil =>
    cases h'
    exact .nil
  | @cons f k fs ks hf _ ih =>
    obtain _ | @⟨f', _, fs', _, hf', hrest⟩ := h'
    obtain ⟨ρ, hmaps⟩ := hf.maps
    obtain ⟨ρ', hmaps'⟩ := hf'.maps
    have hback := hmaps'.symm hf'.source (ht' f' (by simp))
    exact .cons ⟨_, hmaps.trans hback⟩ (ih hrest fun f hf => ht' f (by simp [hf]))

/-- Modules with the same lines are isomorphic: both are what is read from these lines. -/
theorem isomorphic_of_moduleLines [Unicode] (h : Readable g m) (h' : Readable g' m')
    (heq : moduleLines g m = moduleLines g' m') : g.Isomorphic m g' m' := by
  have hread := (Regained.start g).leads_module h
  have hread' := (Regained.start g').leads_module h'
  rw [heq] at hread
  obtain ⟨s, ⟨hs, hs'⟩, -⟩ := hread.and hread' 1
  exact isomorphic_of_reread hs.funcs hs'.funcs h'.listed

/-- The text of a module is a canonical form. -/
theorem Readable.text_eq_iff [Unicode] (h : Readable g m) (h' : Readable g' m') :
    unlines (moduleLines g m) = unlines (moduleLines g' m') ↔ g.Isomorphic m g' m' := by
  constructor
  · intro heq
    have hlines := congrArg Syntax.linesOf heq
    rw [h.linesOf, h'.linesOf] at hlines
    exact isomorphic_of_moduleLines h h' hlines
  · intro hiso
    have hprint := printModule_forall₂ h.printable h.listed hiso
    exact Except.ok.inj (hprint.symm.trans (printModule_eq h'.printable))

end Syntax
end Disguise
