import Disguise.Proofs.Printing
import Disguise.Proofs.Sketches

/-!
Well-formedness under other numbers. A relabeled function branches between the same places as the
one it was made from, so what is available to an op is available to it under its new number; a new
function that is made like a well-formed one is well-formed.
-/
namespace Disguise
open Results

namespace Graph

/-- The places of different blocks. -/
theorem get_placesOf {blocks : List BlockId} (hn : blocks.Nodup) (b : BlockId) :
    (placesOf blocks).get b.idx = blocks.idxOf? b := by
  cases hget : (placesOf blocks).get b.idx with
  | none =>
    refine (List.idxOf?_eq_none_iff.2 fun hmem => ?_).symm
    obtain ⟨i, hi⟩ := List.getElem?_of_mem hmem
    rw [placesOf_of_getElem? hn hi] at hget
    cases hget
  | some i =>
    obtain ⟨hlt, rfl⟩ := List.getElem?_eq_some_iff.1 (getElem?_of_placesOf hget)
    refine (List.idxOf?_eq_some_iff.2 ⟨hlt, rfl, fun j hj heq => ?_⟩).symm
    have := (List.getElem_inj hn).1 heq
    omega

end Graph

namespace Relabeling.Carries
variable {ρ : Relabeling} {g g' : Graph} {f f' : FuncId} (h : ρ.Carries g g' f f')
include h

theorem mem_op {b : BlockId} (hb : b ∈ (g.func f).blocks) {o : OpId} (ho : o ∈ g.opsOf f)
    (hmem : ρ.op o ∈ (g'.block (ρ.block b)).ops) : o ∈ (g.block b).ops := by
  rw [h.ops b hb] at hmem
  obtain ⟨u, hu, heq⟩ := List.mem_map.1 hmem
  rwa [h.opInj u (Graph.mem_opsOf.2 ⟨b, hb, hu⟩) o ho heq] at hu

theorem terminator {b : BlockId} (hb : b ∈ (g.func f).blocks) :
    g'.terminator? (ρ.block b) = (g.terminator? b).map ρ.op := by
  unfold Graph.terminator?
  rw [h.ops b hb, List.getLast?_map]
  cases hlast : (g.block b).ops.getLast? with
  | none => rfl
  | some o =>
    have ho : o ∈ g.opsOf f := Graph.mem_opsOf.2 ⟨b, hb, List.mem_of_getLast? hlast⟩
    simp only [Option.map_some, Option.filter, h.code o ho]
    split <;> rfl

/-- Branches lead between the same places. -/
theorem flow (hn : (g.func f).blocks.Nodup) (ht : g.TargetsListed f) :
    g'.flow f' = g.flow f := by
  have hn' : ((g.func f).blocks.map ρ.block).Nodup :=
    hn.map_on fun b hb c hc heq => h.blockInj b hb c hc heq
  have hplace : ∀ c ∈ (g.func f).blocks,
      (Graph.placesOf ((g.func f).blocks.map ρ.block)).get (ρ.block c).idx =
        (Graph.placesOf (g.func f).blocks).get c.idx := by
    intro c hc
    rw [Graph.get_placesOf hn', Graph.get_placesOf hn]
    exact idxOf?_map_of_inj fun b hb => h.blockInj b hb c hc
  simp only [Graph.flow, h.blocks, List.length_map, List.map_map]
  congr 3
  refine List.map_congr_left fun b hb => ?_
  rw [Function.comp_apply, h.terminator hb]
  cases hterm : g.terminator? b with
  | none => rfl
  | some t =>
    have hof : t ∈ g.opsOf f := Graph.mem_opsOf.2 ⟨b, hb, Graph.mem_of_terminator? hterm⟩
    simp only [Option.map_some, h.targets t hof, List.filterMap_map]
    refine List.filterMap_congr fun s hs => ?_
    cases s with
    | none => rfl
    | some c => exact hplace c (ht t hof c hs)

theorem available (hn : (g.func f).blocks.Nodup) (ht : g.TargetsListed f) {d u : OpId}
    (hd : d ∈ g.opsOf f) (hu : u ∈ g.opsOf f) (hav : g.Available f d u) :
    g'.Available f' (ρ.op d) (ρ.op u) := by
  intro i j b' c' above hb' hdb hc' huc habove
  rw [h.blocks, List.getElem?_map] at hb' hc'
  obtain ⟨b, hb, rfl⟩ := Option.map_eq_some_iff.1 hb'
  obtain ⟨c, hc, rfl⟩ := Option.map_eq_some_iff.1 hc'
  have hmem := List.mem_of_getElem? hb
  rw [Graph.dominators, h.flow hn ht] at habove
  have hkey := hav i j b c above hb (h.mem_op hmem hd hdb) hc
    (h.mem_op (List.mem_of_getElem? hc) hu huc) habove
  split
  · rename_i hij
    rw [if_pos hij] at hkey
    rw [h.ops b hmem]
    exact hkey.map ρ.op
  · rename_i hij
    rwa [if_neg hij] at hkey

theorem operandOk (hn : (g.func f).blocks.Nodup) (ht : g.TargetsListed f) {u : OpId}
    (hu : u ∈ g.opsOf f) {bits : Int} {v : Operand} (hv : g.OperandOk f u bits v) :
    g'.OperandOk f' (ρ.op u) bits (ρ.operand v) := by
  cases v with
  | const c => exact hv
  | param p =>
    obtain ⟨hp, hbits⟩ := hv
    refine ⟨?_, (h.paramBits p hp).trans hbits⟩
    rw [h.params]
    exact List.mem_map_of_mem hp
  | result d =>
    obtain ⟨hd, hbits, hterm, hav⟩ := hv
    refine ⟨?_, (h.bits d hd hterm).trans hbits, ?_, h.available hn ht hd hu hav⟩
    · rw [h.opsOf]
      exact List.mem_map_of_mem hd
    · rw [h.code d hd]
      exact hterm

/-- A relabeled op has the same form. -/
theorem opForm (hn : (g.func f).blocks.Nodup) (ht : g.TargetsListed f)
    (howner : ∀ b ∈ (g'.func f').blocks, (g'.block b).owner = some f') {u : OpId}
    (hu : u ∈ g.opsOf f) (hform : g.OpForm f u) : g'.OpForm f' (ρ.op u) := by
  have hcode := h.code u hu
  have hargs := h.args u hu
  have htargets := h.targets u hu
  have hok : ∀ {bits : Int} {v : Operand}, g.OperandOk f u bits v →
      g'.OperandOk f' (ρ.op u) bits (ρ.operand v) := h.operandOk hn ht hu
  have hblock : ∀ b, some b ∈ (g.op u).targets → (g'.block (ρ.block b)).owner = some f' := by
    intro b hb
    refine howner _ ?_
    rw [h.blocks]
    exact List.mem_map_of_mem (ht u hu b hb)
  cases hform with
  | binary x y code args targets width float left right =>
    have hbits := h.bits u hu (Opcode.not_isTerminator_of_isBinary code)
    refine .binary (ρ.operand x) (ρ.operand y) (by rw [hcode]; exact code)
      (by rw [hargs, args]; rfl) (by rw [htargets, targets]; rfl) ?_ ?_ ?_ ?_
    all_goals rw [hbits]
    · exact width
    · rw [hcode]
      exact float
    · exact hok left
    · exact hok right
  | unary x code args targets width operand =>
    have hbits := h.bits u hu (Opcode.not_isTerminator_of_isUnary code)
    refine .unary (ρ.operand x) (by rw [hcode]; exact code) (by rw [hargs, args]; rfl)
      (by rw [htargets, targets]; rfl) ?_ ?_
    all_goals rw [hbits]
    · exact width
    · exact hok operand
  | ret x code args targets operand =>
    refine .ret (ρ.operand x) (hcode.trans code) (by rw [hargs, args]; rfl)
      (by rw [htargets, targets]; rfl) ?_
    rw [h.retBits]
    exact hok operand
  | br t code args targets =>
    have howner := hblock t (by simp [targets])
    exact .br (ρ.block t) (hcode.trans code) (by rw [hargs, args]; rfl)
      (by rw [htargets, targets]; rfl) howner
  | brif x t e code args targets yes no operand =>
    have hyes := hblock t (by simp [targets])
    have hno := hblock e (by simp [targets])
    exact .brif (ρ.operand x) (ρ.block t) (ρ.block e) (hcode.trans code)
      (by rw [hargs, args]; rfl) (by rw [htargets, targets]; rfl) hyes hno (hok operand)

theorem ended {b : BlockId} (hb : b ∈ (g.func f).blocks) (hend : g.Ended (g.block b).ops) :
    g'.Ended (g'.block (ρ.block b)).ops := by
  obtain ⟨body, last, hops, hlast, hbody⟩ := hend
  have hmem : ∀ o ∈ body ++ [last], o ∈ g.opsOf f :=
    fun o ho => Graph.mem_opsOf.2 ⟨b, hb, hops ▸ ho⟩
  refine ⟨body.map ρ.op, ρ.op last, ?_, ?_, fun o ho => ?_⟩
  · rw [h.ops b hb, hops, List.map_append, List.map_singleton]
  · rw [h.code last (hmem last (by simp))]
    exact hlast
  · obtain ⟨u, hu, rfl⟩ := List.mem_map.1 ho
    rw [h.code u (hmem u (by simp [hu]))]
    exact hbody u hu

theorem targetsListed (ht : g.TargetsListed f) : g'.TargetsListed f' := by
  intro o' ho' b' hb'
  rw [h.opsOf] at ho'
  obtain ⟨o, ho, rfl⟩ := List.mem_map.1 ho'
  rw [h.targets o ho] at hb'
  obtain ⟨t, hmem, heq⟩ := List.mem_map.1 hb'
  obtain ⟨b, rfl, rfl⟩ := Option.map_eq_some_iff.1 heq
  rw [h.blocks]
  exact List.mem_map_of_mem (ht o ho b hmem)

/-- The values of a relabeled function are those of the function under new numbers. -/
theorem exists_value {w : Operand} (hw : g'.IsValue f' w) :
    ∃ v, g.IsValue f v ∧ ρ.operand v = w := by
  cases w with
  | const c => exact hw.elim
  | param q =>
    simp only [Graph.IsValue, h.params] at hw
    obtain ⟨p, hp, rfl⟩ := List.mem_map.1 hw
    exact ⟨.param p, hp, rfl⟩
  | result d =>
    simp only [Graph.IsValue, h.opsOf] at hw
    obtain ⟨o, ho, rfl⟩ := List.mem_map.1 hw
    exact ⟨.result o, ho, rfl⟩

/-- What is made like a well-formed function is well-formed, as long as its parts know where they
belong and its use sets are right. -/
theorem wellFormed_of (wf : g.WellFormed f) (ht : g.TargetsListed f)
    (paramOwner : ∀ p ∈ (g'.func f').params, (g'.param p).func = some f')
    (blockOwner : ∀ b ∈ (g'.func f').blocks, (g'.block b).owner = some f')
    (uses : ∀ v, g'.IsValue f' v → ∀ u,
      g'.recorded v u = if u ∈ g'.opsOf f' then g'.slots u v else 0) : g'.WellFormed f' := by
  have hblock : ∀ b' ∈ (g'.func f').blocks, ∃ b ∈ (g.func f).blocks, ρ.block b = b' := by
    intro b' hb'
    rw [h.blocks] at hb'
    exact List.mem_map.1 hb'
  constructor
  case paramOwner => exact paramOwner
  case blockOwner => exact blockOwner
  case uses => exact uses
  case retWidth =>
    rw [h.retBits]
    exact wf.retWidth
  case paramWidth =>
    intro p' hp'
    rw [h.params] at hp'
    obtain ⟨p, hp, rfl⟩ := List.mem_map.1 hp'
    rw [h.paramBits p hp]
    exact wf.paramWidth p hp
  case paramNames =>
    rw [h.params, List.map_map]
    exact List.map_congr_left h.paramName ▸ wf.paramNames
  case blockNames =>
    rw [h.blocks, List.map_map]
    exact List.map_congr_left h.blockName ▸ wf.blockNames
  case opOwner =>
    intro b' hb' o' ho'
    obtain ⟨b, hb, rfl⟩ := hblock b' hb'
    rw [h.ops b hb] at ho'
    obtain ⟨o, ho, rfl⟩ := List.mem_map.1 ho'
    exact h.place b hb o ho
  case opsNodup =>
    intro b' hb'
    obtain ⟨b, hb, rfl⟩ := hblock b' hb'
    have hof : ∀ o ∈ (g.block b).ops, o ∈ g.opsOf f :=
      fun o ho => Graph.mem_opsOf.2 ⟨b, hb, ho⟩
    rw [h.ops b hb]
    exact (wf.opsNodup b hb).map_on fun o ho u hu => h.opInj o (hof o ho) u (hof u hu)
  case ended =>
    intro b' hb'
    obtain ⟨b, hb, rfl⟩ := hblock b' hb'
    exact h.ended hb (wf.ended b hb)
  case form =>
    intro u' hu'
    rw [h.opsOf] at hu'
    obtain ⟨u, hu, rfl⟩ := List.mem_map.1 hu'
    exact h.opForm wf.blocksNodup ht blockOwner hu (wf.form u hu)

/-- So is a new function in a graph that is exact. -/
theorem wellFormed {x : Graph} (hfresh : Graph.Fresh x g' f') (hx : x.Exact fun _ => [])
    (wf : g.WellFormed f) (ht : g.TargetsListed f) : g'.WellFormed f' :=
  h.wellFormed_of wf ht hfresh.paramOwner hfresh.blockOwner fun _ hv => hfresh.uses hx hv

end Relabeling.Carries
end Disguise
