import Disguise.Proofs.Editing
import Disguise.Proofs.Soundness

/-!
Functions under other numbers. A relabeling gives new numbers to the params, blocks and ops of a
function. The numbers mean nothing to a run: a relabeled function ends each run with a limit in the
same way as the one it was made from, down to the place of an op that fails.
-/
namespace Disguise
open Execution

/-- A function without its owner. -/
def Func.free (fn : Func) : Func := { fn with owner := none }

/-- New numbers for the parts of a function. -/
structure Relabeling where
  param : ParamId → ParamId
  block : BlockId → BlockId
  op : OpId → OpId

/-- A list knows the places of its elements under other names too. -/
theorem idxOf?_map_of_inj {α β : Type} [DecidableEq α] [DecidableEq β] {k : α → β} {l : List α}
    {a : α} (h : ∀ b ∈ l, k b = k a → b = a) : (l.map k).idxOf? (k a) = l.idxOf? a := by
  induction l with
  | nil => rfl
  | cons b l ih =>
    rw [List.map_cons, List.idxOf?_cons, List.idxOf?_cons, ih fun c hc => h c (by simp [hc])]
    by_cases hb : b = a
    · simp [hb]
    · have hk : k b ≠ k a := fun heq => hb (h b (by simp) heq)
      simp [hb, hk]

/-- A branch is taken to a target of the op. -/
theorem Execution.mem_targets_of_effect [FloatUnit] {g : Graph} {name : Bytes} {env : Env}
    {o : OpId}
    {next : Option BlockId} (h : effect g name env o = .branch next) : next ∈ (g.op o).targets := by
  have htarget : ∀ i, target (g.op o) i = .ok next → next ∈ (g.op o).targets := by
    intro i hi
    unfold target at hi
    split at hi
    · rename_i t ht
      obtain rfl := Except.ok.inj hi
      exact List.mem_of_getElem? ht
    · cases hi
  unfold effect at h
  have hbranch : branchOf g env (g.op o) = .ok next := by
    dsimp only at h
    split at h
    · split at h <;> cases h
    · split at h <;> cases h
      assumption
    · split at h <;> cases h
      assumption
    · split at h <;> cases h
  unfold branchOf at hbranch
  split at hbranch
  · exact htarget 0 hbranch
  · rw [Results.bind_eq_ok] at hbranch
    obtain ⟨x, -, hbranch⟩ := hbranch
    split at hbranch
    · exact htarget 0 hbranch
    · exact htarget 1 hbranch

namespace Relabeling

def operand (ρ : Relabeling) : Operand → Operand
  | .const c => .const c
  | .param p => .param (ρ.param p)
  | .result o => .result (ρ.op o)

/-- The identity. -/
def same : Relabeling := ⟨id, id, id⟩

@[simp] theorem operand_same : same.operand = id := by
  funext v
  cases v <;> rfl

/-- Function `f'` of `g'` is made like function `f` of `g`, with other numbers. The width of a
terminator is left out, as nothing depends on it. -/
structure Carries (ρ : Relabeling) (g g' : Graph) (f f' : FuncId) : Prop where
  name : (g'.func f').name = (g.func f).name
  retBits : (g'.func f').retBits = (g.func f).retBits
  params : (g'.func f').params = (g.func f).params.map ρ.param
  blocks : (g'.func f').blocks = (g.func f).blocks.map ρ.block
  paramName : ∀ p ∈ (g.func f).params, (g'.param (ρ.param p)).name = (g.param p).name
  paramBits : ∀ p ∈ (g.func f).params, (g'.param (ρ.param p)).bits = (g.param p).bits
  blockName : ∀ b ∈ (g.func f).blocks, (g'.block (ρ.block b)).name = (g.block b).name
  ops : ∀ b ∈ (g.func f).blocks, (g'.block (ρ.block b)).ops = (g.block b).ops.map ρ.op
  place : ∀ b ∈ (g.func f).blocks, ∀ o ∈ (g.block b).ops,
    (g'.op (ρ.op o)).block = some (ρ.block b)
  code : ∀ o ∈ g.opsOf f, (g'.op (ρ.op o)).code = (g.op o).code
  bits : ∀ o ∈ g.opsOf f, (g.op o).code.isTerminator = false →
    (g'.op (ρ.op o)).bits = (g.op o).bits
  args : ∀ o ∈ g.opsOf f, (g'.op (ρ.op o)).args = (g.op o).args.map (Option.map ρ.operand)
  targets : ∀ o ∈ g.opsOf f, (g'.op (ρ.op o)).targets = (g.op o).targets.map (Option.map ρ.block)
  paramInj : ∀ p ∈ (g.func f).params, ∀ q ∈ (g.func f).params, ρ.param p = ρ.param q → p = q
  blockInj : ∀ b ∈ (g.func f).blocks, ∀ c ∈ (g.func f).blocks, ρ.block b = ρ.block c → b = c
  opInj : ∀ o ∈ g.opsOf f, ∀ u ∈ g.opsOf f, ρ.op o = ρ.op u → o = u

/-- A relabeled function with the tags of the other one. -/
structure Maps (ρ : Relabeling) (g g' : Graph) (f f' : FuncId) : Prop extends
    ρ.Carries g g' f f' where
  note : Func.annotation (g'.func f') = Func.annotation (g.func f)
  metadata : (g'.func f').metadata = (g.func f).metadata
  external : (g'.func f').external = (g.func f).external

/-- Environments that hold the same for the values of a function and for their new numbers. -/
structure Aligned (ρ : Relabeling) (g : Graph) (f : FuncId) (env env' : Env) : Prop where
  ops : ∀ o ∈ g.opsOf f, env'.ops.get (ρ.op o).idx = env.ops.get o.idx
  params : ∀ p ∈ (g.func f).params, env'.params.get (ρ.param p).idx = env.params.get p.idx

/-- What follows a relabeled op. -/
def effect (ρ : Relabeling) : Effect → Effect
  | .stop out => .stop out
  | .define v => .define v
  | .branch next => .branch (next.map ρ.block)

/-- Two passes through a block end in the same way: they stop with the same outcome, or they go on
to the same block with environments that hold the same. -/
inductive SamePass (ρ : Relabeling) (g : Graph) (f : FuncId) : Pass → Pass → Prop
  | stop (out : Outcome) : SamePass ρ g f (.stop out) (.stop out)
  | leave {env env' : Env} {next : Option BlockId} (budget : Budget)
      (aligned : ρ.Aligned g f env env')
      (listed : ∀ b, next = some b → b ∈ (g.func f).blocks) :
      SamePass ρ g f (.leave env next budget) (.leave env' (next.map ρ.block) budget)

namespace Carries
variable {ρ : Relabeling} {g g' : Graph} {f f' : FuncId} (h : ρ.Carries g g' f f')
include h

theorem isDeclaration : (g'.func f').isDeclaration = (g.func f).isDeclaration := by
  simp only [Func.isDeclaration, h.blocks, List.isEmpty_map]

theorem opsOf : g'.opsOf f' = (g.opsOf f).map ρ.op := by
  simp only [Graph.opsOf, h.blocks, List.flatMap_map, List.map_flatMap]
  exact List.flatMap_congr h.ops

theorem numOps : g'.numOps f' = g.numOps f := by
  rw [Graph.numOps, h.opsOf, List.length_map, Graph.numOps]

theorem describe {v : Operand} (hv : g.IsValue f v ∨ ∃ c, v = .const c) :
    g'.describe (some (ρ.operand v)) = g.describe (some v) := by
  cases v with
  | const c => rfl
  | param p =>
    obtain hp | ⟨c, hc⟩ := hv
    · simp only [operand, Graph.describe, h.paramName p hp]
    · cases hc
  | result o =>
    obtain ho | ⟨c, hc⟩ := hv
    · simp only [operand, Graph.describe, h.code o ho]
    · cases hc

theorem target {o : OpId} (ho : o ∈ g.opsOf f) (i : Nat) :
    target (g'.op (ρ.op o)) i = (target (g.op o) i).map (Option.map ρ.block) := by
  simp only [Execution.target, h.targets o ho, List.getElem?_map]
  cases (g.op o).targets[i]? <;> rfl

theorem aligned_setOp {o : OpId} (ho : o ∈ g.opsOf f) {env env' : Env}
    (ha : ρ.Aligned g f env env') (v : UInt64) :
    ρ.Aligned g f (env.setOp o v) (env'.setOp (ρ.op o) v) where
  ops u hu := by
    simp only [Env.setOp, Table.get_set, OpId.idx_inj]
    have hinj := h.opInj u hu o ho
    by_cases huo : u = o
    · rw [if_pos huo, if_pos (by rw [huo])]
    · rw [if_neg huo, if_neg fun heq => huo (hinj heq)]
      exact ha.ops u hu
  params := ha.params

variable (wf : g.WellFormed f)
include wf

/-- An op finds its operands under their new numbers. -/
theorem value {o : OpId} (ho : o ∈ g.opsOf f) {env env' : Env} (ha : ρ.Aligned g f env env')
    {v : Option Operand} (hv : v ∈ (g.op o).args) :
    value g' env' (v.map ρ.operand) = value g env v := by
  cases v with
  | none => rfl
  | some v =>
    have hkind := wf.isValue_of_arg ho hv
    have hget : env'.get? (ρ.operand v) = env.get? v := by
      cases v with
      | const c => rfl
      | param p =>
        obtain ⟨c, hc⟩ | hp := hkind
        · cases hc
        · exact ha.params p hp
      | result u =>
        obtain ⟨c, hc⟩ | hu := hkind
        · cases hc
        · exact ha.ops u hu
    simp only [Execution.value, Option.map_some, Option.bind_some, hget,
      h.describe hkind.symm]

theorem arg {o : OpId} (ho : o ∈ g.opsOf f) {env env' : Env} (ha : ρ.Aligned g f env env')
    (i : Nat) : arg g' env' (g'.op (ρ.op o)) i = arg g env (g.op o) i := by
  simp only [Execution.arg, h.args o ho, List.getElem?_map]
  cases hi : (g.op o).args[i]? with
  | none => rfl
  | some v => exact h.value wf ho ha (List.mem_of_getElem? hi)

/-- A relabeled op stands where the op does. -/
theorem position {b : BlockId} (hb : b ∈ (g.func f).blocks) {o : OpId}
    (ho : o ∈ (g.block b).ops) : g'.position (ρ.op o) = g.position o := by
  have hidx : ((g.block b).ops.map ρ.op).idxOf? (ρ.op o) = (g.block b).ops.idxOf? o := by
    apply idxOf?_map_of_inj
    exact fun u hu => h.opInj u (Graph.mem_opsOf.2 ⟨b, hb, hu⟩) o (Graph.mem_opsOf.2 ⟨b, hb, ho⟩)
  simp only [Graph.position, h.place b hb o ho, wf.opOwner b hb o ho, h.ops b hb, hidx]

theorem effect_eq [FloatUnit] {b : BlockId} (hb : b ∈ (g.func f).blocks) {o : OpId}
    (ho : o ∈ (g.block b).ops) (name : Bytes) {env env' : Env} (ha : ρ.Aligned g f env env') :
    Execution.effect g' name env' (ρ.op o) = ρ.effect (Execution.effect g name env o) := by
  have hof : o ∈ g.opsOf f := Graph.mem_opsOf.2 ⟨b, hb, ho⟩
  have hbranch : branchOf g' env' (g'.op (ρ.op o)) =
      (branchOf g env (g.op o)).map (Option.map ρ.block) := by
    simp only [branchOf, h.code o hof, h.arg wf hof ha, h.target hof]
    split
    · rfl
    · cases Execution.arg g env (g.op o) 0 with
      | error e => rfl
      | ok x =>
        simp only [Results.ok_bind]
        split <;> rfl
  have hstop : ∀ c, stopAt g' name (ρ.op o) c = stopAt g name o c := by
    intro c
    cases c <;> simp only [stopAt, h.position wf hb ho, h.code o hof]
  have hcompute : (g.op o).code.isTerminator = false →
      compute g' env' (g'.op (ρ.op o)) = compute g env (g.op o) := by
    intro hterm
    simp only [compute, h.code o hof, h.arg wf hof ha, h.bits o hof hterm]
  unfold Execution.effect
  simp only [h.code o hof, h.arg wf hof ha, hbranch, hstop]
  split
  · cases Execution.arg g env (g.op o) 0 <;> rfl
  · cases branchOf g env (g.op o) <;> rfl
  · cases branchOf g env (g.op o) <;> rfl
  · rename_i hret hbr hbrif
    have hterm : (g.op o).code.isTerminator = false := by
      cases hcode : (g.op o).code <;> simp_all [Opcode.isTerminator]
    rw [hcompute hterm]
    cases compute g env (g.op o) <;> rfl

theorem runOps [FloatUnit] (ht : g.TargetsListed f) {b : BlockId} (hb : b ∈ (g.func f).blocks)
    (name : Bytes) {ops : List OpId} (hops : ∀ o ∈ ops, o ∈ (g.block b).ops) {env env' : Env}
    (ha : ρ.Aligned g f env env') {next : Option BlockId}
    (hnext : ∀ c, next = some c → c ∈ (g.func f).blocks) (budget : Budget) :
    SamePass ρ g f (runOps g name ops env next budget)
      (runOps g' name (ops.map ρ.op) env' (next.map ρ.block) budget) := by
  induction ops generalizing env env' next budget with
  | nil => exact .leave budget ha hnext
  | cons o ops ih =>
    have ho := hops o (by simp)
    have hof : o ∈ g.opsOf f := Graph.mem_opsOf.2 ⟨b, hb, ho⟩
    have hrest := fun u hu => hops u (List.mem_cons_of_mem o hu)
    rw [List.map_cons]
    unfold Execution.runOps
    rw [h.effect_eq wf hb ho name ha]
    cases spend budget with
    | none => exact .stop _
    | some left =>
      cases heff : Execution.effect g name env o with
      | stop out => exact .stop out
      | define v => exact ih hrest (h.aligned_setOp hof ha v) hnext left
      | branch next' =>
        refine ih hrest ha (fun c hc => ?_) left
        subst hc
        exact ht o hof c (mem_targets_of_effect heff)

theorem runBlocks [FloatUnit] (ht : g.TargetsListed f) (fuel : Nat) {b : BlockId}
    (hb : b ∈ (g.func f).blocks) {env env' : Env} (ha : ρ.Aligned g f env env') (budget : Budget) :
    runBlocks g' fuel (ρ.block b) env' budget = runBlocks g fuel b env budget := by
  induction fuel generalizing b env env' budget with
  | zero => rfl
  | succ fuel ih =>
    have hnone : ∀ c, (none : Option BlockId) = some c → c ∈ (g.func f).blocks := by simp
    have hpass := h.runOps wf ht hb (g.block b).name (fun o ho => ho) ha hnone budget
    unfold Execution.runBlocks
    dsimp only
    rw [h.ops b hb, h.blockName b hb]
    generalize Execution.runOps g (g.block b).name (g.block b).ops env none budget = pass at hpass
    generalize hpass' : Execution.runOps g' (g.block b).name ((g.block b).ops.map ρ.op) env'
      (Option.map ρ.block none) budget = pass' at hpass
    rw [Option.map_none] at hpass'
    rw [hpass']
    cases hpass with
    | stop out => rfl
    | @leave env₁ env₁' next budget aligned listed =>
      cases next with
      | none => rfl
      | some c => exact ih (listed c rfl) aligned budget

omit wf in
theorem bindParams {ps : List ParamId} (hps : ∀ p ∈ ps, p ∈ (g.func f).params) (vs : List UInt64)
    {env env₁ env' : Env} (ha : ρ.Aligned g f env env') (hok : bindParams g ps vs env = .ok env₁) :
    ∃ env₁', bindParams g' (ps.map ρ.param) vs env' = .ok env₁' ∧ ρ.Aligned g f env₁ env₁' := by
  induction ps generalizing vs env env' with
  | nil =>
    cases vs <;> cases hok <;> exact ⟨env', rfl, ha⟩
  | cons p ps ih =>
    cases vs with
    | nil =>
      cases hok
      exact ⟨env', rfl, ha⟩
    | cons v vs =>
      have hp := hps p (by simp)
      simp only [Execution.bindParams, Results.bind_eq_ok] at hok
      obtain ⟨x, hx, hok⟩ := hok
      have hset : ρ.Aligned g f (env.setParam p x) (env'.setParam (ρ.param p) x) := by
        refine ⟨ha.ops, fun q hq => ?_⟩
        simp only [Env.setParam, Table.get_set, ParamId.idx_inj]
        have hinj := h.paramInj q hq p hp
        by_cases hqp : q = p
        · rw [if_pos hqp, if_pos (by rw [hqp])]
        · rw [if_neg hqp, if_neg fun heq => hqp (hinj heq)]
          exact ha.params q hq
      obtain ⟨env₁', hbind, hal⟩ := ih (fun q hq => hps q (by simp [hq])) vs hset hok
      refine ⟨env₁', ?_, hal⟩
      simp only [List.map_cons, Execution.bindParams, h.paramBits p hp, hx, Results.ok_bind, hbind]

/-- Runs with a limit do not see the numbers. -/
theorem run [FloatUnit] (ht : g.TargetsListed f) (args : List UInt64) {limit : Int}
    (hlimit : 0 < limit) : g'.run f' args limit = g.run f args limit := by
  have hbudget : budgetOf limit = some limit.toNat := by simp [budgetOf, hlimit]
  unfold Graph.run
  dsimp only
  rw [h.blocks, h.params, h.name, List.length_map, hbudget]
  cases hblocks : (g.func f).blocks with
  | nil => rfl
  | cons entry rest =>
    rw [List.map_cons]
    dsimp only
    split
    · rfl
    · rename_i hargs
      obtain ⟨env, hbind, -⟩ := bindParams_eq_ok {} (not_not.1 hargs) wf.paramWidth
      have hstart : ρ.Aligned g f {} {} := by constructor <;> intros <;> rfl
      obtain ⟨env', hbind', ha⟩ := h.bindParams (fun _ hp => hp) args hstart hbind
      rw [hbind, hbind']
      exact h.runBlocks wf ht _ (by simp [hblocks]) ha _

end Carries

section
variable {ρ ρ' : Relabeling} {g g' g'' : Graph} {f f' f'' : FuncId}

/-- One relabeling after the other. -/
def andThen (ρ ρ' : Relabeling) : Relabeling :=
  ⟨ρ'.param ∘ ρ.param, ρ'.block ∘ ρ.block, ρ'.op ∘ ρ.op⟩

theorem operand_andThen (ρ ρ' : Relabeling) : (ρ.andThen ρ').operand = ρ'.operand ∘ ρ.operand := by
  funext v
  cases v <;> rfl

theorem Carries.trans (h : ρ.Carries g g' f f') (h' : ρ'.Carries g' g'' f' f'') :
    (ρ.andThen ρ').Carries g g'' f f'' := by
  have hparam : ∀ p ∈ (g.func f).params, ρ.param p ∈ (g'.func f').params := fun p hp => by
    rw [h.params]
    exact List.mem_map_of_mem hp
  have hblock : ∀ b ∈ (g.func f).blocks, ρ.block b ∈ (g'.func f').blocks := fun b hb => by
    rw [h.blocks]
    exact List.mem_map_of_mem hb
  have hop : ∀ o ∈ g.opsOf f, ρ.op o ∈ g'.opsOf f' := fun o ho => by
    rw [h.opsOf]
    exact List.mem_map_of_mem ho
  constructor
  · exact h'.name.trans h.name
  · exact h'.retBits.trans h.retBits
  · rw [h'.params, h.params, List.map_map]
    rfl
  · rw [h'.blocks, h.blocks, List.map_map]
    rfl
  · exact fun p hp => (h'.paramName _ (hparam p hp)).trans (h.paramName p hp)
  · exact fun p hp => (h'.paramBits _ (hparam p hp)).trans (h.paramBits p hp)
  · exact fun b hb => (h'.blockName _ (hblock b hb)).trans (h.blockName b hb)
  · intro b hb
    exact (h'.ops _ (hblock b hb)).trans (by rw [h.ops b hb, List.map_map]; rfl)
  · intro b hb o ho
    refine h'.place _ (hblock b hb) _ ?_
    rw [h.ops b hb]
    exact List.mem_map_of_mem ho
  · exact fun o ho => (h'.code _ (hop o ho)).trans (h.code o ho)
  · intro o ho hterm
    exact (h'.bits _ (hop o ho) (by rw [h.code o ho]; exact hterm)).trans (h.bits o ho hterm)
  · intro o ho
    refine (h'.args _ (hop o ho)).trans ?_
    rw [h.args o ho, List.map_map, operand_andThen, Option.map_comp_map]
  · intro o ho
    refine (h'.targets _ (hop o ho)).trans ?_
    rw [h.targets o ho, List.map_map, Option.map_comp_map]
    rfl
  · exact fun p hp q hq heq =>
      h.paramInj p hp q hq (h'.paramInj _ (hparam p hp) _ (hparam q hq) heq)
  · exact fun b hb c hc heq =>
      h.blockInj b hb c hc (h'.blockInj _ (hblock b hb) _ (hblock c hc) heq)
  · exact fun o ho u hu heq => h.opInj o ho u hu (h'.opInj _ (hop o ho) _ (hop u hu) heq)

theorem Maps.trans (h : ρ.Maps g g' f f') (h' : ρ'.Maps g' g'' f' f'') :
    (ρ.andThen ρ').Maps g g'' f f'' :=
  { h.toCarries.trans h'.toCarries with
    note := h'.note.trans h.note
    metadata := h'.metadata.trans h.metadata
    external := h'.external.trans h.external }

/-- A function whose parts two graphs hold alike keeps its numbers. -/
theorem carries_same (hname : (g'.func f).name = (g.func f).name)
    (hret : (g'.func f).retBits = (g.func f).retBits)
    (hparams : (g'.func f).params = (g.func f).params)
    (hblocks : (g'.func f).blocks = (g.func f).blocks)
    (hparam : ∀ p ∈ (g.func f).params,
      (g'.param p).name = (g.param p).name ∧ (g'.param p).bits = (g.param p).bits)
    (hblock : ∀ b ∈ (g.func f).blocks, g'.block b = g.block b)
    (hop : ∀ o ∈ g.opsOf f, (g'.op o).bare = (g.op o).bare)
    (hplace : ∀ b ∈ (g.func f).blocks, ∀ o ∈ (g.block b).ops, (g.op o).block = some b) :
    same.Carries g g' f f := by
  have hpart {α : Type} {k : Op → α} (hk : ∀ op : Op, k op.bare = k op) :
      ∀ o ∈ g.opsOf f, k (g'.op o) = k (g.op o) := by
    intro o ho
    rw [← hk, hop o ho, hk]
  constructor
  · exact hname
  · exact hret
  · rw [hparams]
    exact (List.map_id _).symm
  · rw [hblocks]
    exact (List.map_id _).symm
  · exact fun p hp => (hparam p hp).1
  · exact fun p hp => (hparam p hp).2
  · intro b hb
    change (g'.block b).name = _
    rw [hblock b hb]
  · intro b hb
    change (g'.block b).ops = (g.block b).ops.map id
    rw [hblock b hb, List.map_id]
  · intro b hb o ho
    have hsame := hpart (k := Op.block) (fun _ => rfl) o (Graph.mem_opsOf.2 ⟨b, hb, ho⟩)
    exact hsame.trans (hplace b hb o ho)
  · exact hpart (k := Op.code) fun _ => rfl
  · exact fun o ho _ => hpart (k := Op.bits) (fun _ => rfl) o ho
  · intro o ho
    rw [operand_same, Option.map_id, List.map_id]
    exact hpart (k := Op.args) (fun _ => rfl) o ho
  · intro o ho
    change _ = List.map (Option.map id) _
    rw [Option.map_id, List.map_id]
    exact hpart (k := Op.targets) (fun _ => rfl) o ho
  · exact fun _ _ _ _ heq => heq
  · exact fun _ _ _ _ heq => heq
  · exact fun _ _ _ _ heq => heq

/-- A relabeled function stays one when its parts are kept. -/
theorem Maps.keep (h : ρ.Maps g g' f f') (hfunc : (g''.func f').free = (g'.func f').free)
    (hparam : ∀ p ∈ (g'.func f').params,
      (g''.param p).name = (g'.param p).name ∧ (g''.param p).bits = (g'.param p).bits)
    (hblock : ∀ b ∈ (g'.func f').blocks, g''.block b = g'.block b)
    (hop : ∀ o ∈ g'.opsOf f', (g''.op o).bare = (g'.op o).bare) : ρ.Maps g g'' f f' := by
  have hhead {α : Type} {k : Func → α} (hk : ∀ fn : Func, k fn.free = k fn) :
      k (g''.func f') = k (g'.func f') := by
    rw [← hk, hfunc, hk]
  have hplace : ∀ b ∈ (g'.func f').blocks, ∀ o ∈ (g'.block b).ops, (g'.op o).block = some b := by
    intro b hb o ho
    rw [h.blocks] at hb
    obtain ⟨c, hc, rfl⟩ := List.mem_map.1 hb
    rw [h.ops c hc] at ho
    obtain ⟨u, hu, rfl⟩ := List.mem_map.1 ho
    exact h.place c hc u hu
  have hsame := carries_same (hhead (k := Func.name) fun _ => rfl)
    (hhead (k := Func.retBits) fun _ => rfl) (hhead (k := Func.params) fun _ => rfl)
    (hhead (k := Func.blocks) fun _ => rfl) hparam hblock hop hplace
  exact h.trans
    { hsame with
      note := hhead (k := Func.annotation) fun _ => rfl
      metadata := hhead (k := Func.metadata) fun _ => rfl
      external := hhead (k := Func.external) fun _ => rfl }

end
end Relabeling
end Disguise
