import Disguise.Proofs.Denotation
import Disguise.Proofs.Paths

/-!
Runs step by step. A point of a run is the block it is in with what is left of it, the known values
and the budget; `advance` makes one step, and `run` is what its steps lead to.
-/
namespace Disguise
open Arithmetic
variable [FloatUnit]
namespace Execution

structure Point where
  block : BlockId
  /-- The ops of the block that are still to be run. -/
  rest : List OpId
  env : Env
  /-- The branch taken in this block. -/
  next : Option BlockId
  budget : Budget

/-- The start of a block. -/
def Point.enter (g : Graph) (b : BlockId) (env : Env) (budget : Budget) : Point :=
  ⟨b, (g.block b).ops, env, none, budget⟩

/-- The end of a run or the next point. -/
def advance (g : Graph) (p : Point) : Outcome ⊕ Point :=
  match p.rest with
  | [] =>
    match p.next with
    | none => .inl (.failed (.fallsThrough (g.block p.block).name))
    | some b => .inr (.enter g b p.env p.budget)
  | o :: rest =>
    match spend p.budget with
    | none => .inl (.failed .stepLimit)
    | some budget =>
      match effect g (g.block p.block).name p.env o with
      | .stop out => .inl out
      | .define v => .inr { p with rest, env := p.env.setOp o v, budget }
      | .branch next => .inr { p with rest, next, budget }

/-- The points that a run comes to from a given one. -/
inductive Reaches (g : Graph) (p : Point) : Point → Prop
  | here : Reaches g p p
  | step {q r : Point} (before : Reaches g p q) (now : advance g q = .inr r) : Reaches g p r

theorem Reaches.trans {g : Graph} {p q r : Point} (h : Reaches g p q) (h' : Reaches g q r) :
    Reaches g p r := by
  induction h' with
  | here => exact h
  | step _ now ih => exact .step ih now

theorem Reaches.head {g : Graph} {p q r : Point} (h : advance g p = .inr q) (h' : Reaches g q r) :
    Reaches g p r :=
  (Reaches.step .here h).trans h'

/-- A pass through some ops of a block, step by step. -/
theorem reaches_of_runOps {g : Graph} {b : BlockId} {ops : List OpId} {env : Env}
    {next : Option BlockId} {budget : Budget} :
    match runOps g (g.block b).name ops env next budget with
    | .stop out => ∃ q, Reaches g ⟨b, ops, env, next, budget⟩ q ∧ advance g q = .inl out
    | .leave env' next' budget' =>
      Reaches g ⟨b, ops, env, next, budget⟩ ⟨b, [], env', next', budget'⟩ := by
  induction ops generalizing env next budget with
  | nil => exact .here
  | cons o ops ih =>
    unfold runOps
    cases hs : spend budget with
    | none => exact ⟨_, .here, by simp [advance, hs]⟩
    | some budget' =>
      dsimp only
      cases he : effect g (g.block b).name env o with
      | stop out => exact ⟨_, .here, by simp [advance, hs, he]⟩
      | define v =>
        have hstep : advance g ⟨b, o :: ops, env, next, budget⟩ =
            .inr ⟨b, ops, env.setOp o v, next, budget'⟩ := by simp [advance, hs, he]
        have hrest := @ih (env.setOp o v) next budget'
        dsimp only
        split at hrest
        · obtain ⟨q, hq, hout⟩ := hrest
          exact ⟨q, hq.head hstep, hout⟩
        · exact hrest.head hstep
      | branch next' =>
        have hstep : advance g ⟨b, o :: ops, env, next, budget⟩ =
            .inr ⟨b, ops, env, next', budget'⟩ := by simp [advance, hs, he]
        have hrest := @ih env next' budget'
        dsimp only
        split at hrest
        · obtain ⟨q, hq, hout⟩ := hrest
          exact ⟨q, hq.head hstep, hout⟩
        · exact hrest.head hstep

/-- A run that is not cut off ends at a point it reaches. -/
theorem reaches_of_runBlocks {g : Graph} (fuel : Nat) {b : BlockId} {env : Env} {budget : Budget} :
    runBlocks g fuel b env budget = .diverged ∨ ∃ q, Reaches g (.enter g b env budget) q ∧
      advance g q = .inl (runBlocks g fuel b env budget) := by
  induction fuel generalizing b env budget with
  | zero => exact .inl rfl
  | succ fuel ih =>
    have hblock := @reaches_of_runOps _ g b (g.block b).ops env none budget
    unfold runBlocks
    dsimp only
    cases hr : runOps g (g.block b).name (g.block b).ops env none budget with
    | stop out =>
      rw [hr] at hblock
      exact .inr hblock
    | leave env' next' budget' =>
      rw [hr] at hblock
      cases next' with
      | none => exact .inr ⟨_, hblock, by simp [advance]⟩
      | some c =>
        have hstep : advance g ⟨b, [], env', some c, budget'⟩ =
            .inr (.enter g c env' budget') := by simp [advance]
        rcases @ih c env' budget' with hdiv | ⟨q, hq, hout⟩
        · exact .inl hdiv
        · exact .inr ⟨q, hblock.trans (hq.head hstep), hout⟩

/-- What an op does. -/
inductive Action where
  | define (v : UInt64)
  | fail (c : Fault)
  | ret (v : UInt64)
  | goto (b : BlockId)

/-- What an op does when its operands come to what they denote. -/
inductive Acts (g : Graph) (env : Env) (o : OpId) : Action → Prop
  | define {z : UInt64} (value : Denotes g env (.result o) z) : Acts g env o (.define z)
  | fail {v w : Operand} {x y : UInt64} {c : Fault} (code : (g.op o).code.isBinary)
      (args : (g.op o).args = [some v, some w]) (left : Denotes g env v x)
      (right : Denotes g env w y)
      (fault : evalBinary (g.op o).code (g.op o).bits x y = .error c) : Acts g env o (.fail c)
  | ret {v : Operand} {x : UInt64} (code : (g.op o).code = .ret)
      (args : (g.op o).args = [some v]) (arg : Denotes g env v x) : Acts g env o (.ret x)
  | br {t : BlockId} (code : (g.op o).code = .br) (targets : (g.op o).targets = [some t]) :
      Acts g env o (.goto t)
  | brif {v : Operand} {x : UInt64} {t e : BlockId} (code : (g.op o).code = .brif)
      (args : (g.op o).args = [some v]) (targets : (g.op o).targets = [some t, some e])
      (arg : Denotes g env v x) : Acts g env o (.goto (if x ≠ 0 then t else e))

/-- The effect of an op that acts in a known way. -/
def Action.effect (g : Graph) (block : Bytes) (o : OpId) : Action → Effect
  | define v => .define v
  | fail c => .stop (stopAt g block o c)
  | ret v => .stop (.returned v)
  | goto b => .branch (some b)

/-- The operands of an op are known by what they denote. -/
def Informed (g : Graph) (start env : Env) (o : OpId) : Prop :=
  ∀ v, some v ∈ (g.op o).args → ∀ x, Denotes g start v x → env.get? v = some x

theorem informed_of_args {g : Graph} {start env : Env} {o : OpId} {v : Operand}
    (args : (g.op o).args = [some v]) (hv : ∀ x, Denotes g start v x → env.get? v = some x) :
    Informed g start env o := by
  rw [Informed, args]
  simpa using hv

theorem arg_of_informed {g : Graph} {start env : Env} {o : OpId} (h : Informed g start env o)
    {i : Nat} {v : Operand} {x : UInt64} (hv : (g.op o).args[i]? = some (some v))
    (hx : Denotes g start v x) : arg g env (g.op o) i = .ok x := by
  have hget := h v (List.mem_of_getElem? hv) x hx
  simp [arg, hv, value, hget]

/-- An op that is no terminator has the effect of what it computes. -/
theorem effect_of_compute {g : Graph} {env : Env} {o : OpId} (block : Bytes)
    (hc : (g.op o).code.isTerminator = false) :
    (∀ v, compute g env (g.op o) = .ok v → effect g block env o = .define v) ∧
      ∀ c, compute g env (g.op o) = .error c →
        effect g block env o = .stop (stopAt g block o c) := by
  constructor
  · intro v hv
    cases hcode : (g.op o).code <;> simp_all [effect, Opcode.isTerminator]
  · intro c he
    cases hcode : (g.op o).code <;> simp_all [effect, Opcode.isTerminator]

theorem effect_of_acts {g : Graph} {start env : Env} {o : OpId} {a : Action} (block : Bytes)
    (hi : Informed g start env o) (h : Acts g start o a) :
    effect g block env o = a.effect g block o := by
  have known := @arg_of_informed _ g start env o hi
  have binary {v w : Operand} {x y : UInt64} (code : (g.op o).code.isBinary)
      (args : (g.op o).args = [some v, some w]) (left : Denotes g start v x)
      (right : Denotes g start w y) :
      compute g env (g.op o) = evalBinary (g.op o).code (g.op o).bits x y := by
    have h0 := @known 0 v x (by simp [args]) left
    have h1 := @known 1 w y (by simp [args]) right
    simp [compute, h0, h1, Except.mapError, Opcode.not_isUnary_of_isBinary code, Results.ok_bind]
  cases h with
  | define value =>
    cases value with
    | unary code args arg value =>
      have h0 := @known 0 _ _ (by simp [args]) arg
      apply (effect_of_compute block (Opcode.not_isTerminator_of_isUnary code)).1
      simp [compute, h0, Except.mapError, code, Results.ok_bind, value]
    | binary code args left right value =>
      apply (effect_of_compute block (Opcode.not_isTerminator_of_isBinary code)).1
      rw [binary code args left right, value]
  | fail code args left right fault =>
    apply (effect_of_compute block (Opcode.not_isTerminator_of_isBinary code)).2
    rw [binary code args left right, fault]
  | ret code args arg =>
    have h0 := @known 0 _ _ (by simp [args]) arg
    simp [effect, code, h0, Action.effect]
  | br code targets =>
    simp [effect, code, branchOf, target, targets, Action.effect]
  | @brif v x t e code args targets arg =>
    have h0 := @known 0 _ _ (by simp [args]) arg
    by_cases hx : x = 0
    · simp [effect, code, branchOf, target, targets, h0, hx, Action.effect, Results.ok_bind]
    · simp [effect, code, branchOf, target, targets, h0, hx, Action.effect, Results.ok_bind]

namespace Acts
variable {g : Graph} {env : Env} {o : OpId} {a b : Action} {v w : Operand} {t e : BlockId}

theorem of_ret (h : Acts g env o a) (code : (g.op o).code = .ret)
    (args : (g.op o).args = [some v]) : ∃ x, a = .ret x ∧ Denotes g env v x := by
  cases h with
  | define value =>
    have hterm := value.not_isTerminator
    simp [code, Opcode.isTerminator] at hterm
  | fail code' => simp [code, Opcode.isBinary] at code'
  | @ret u x _ args' arg =>
    have hu : u = v := by simpa using args'.symm.trans args
    exact ⟨x, rfl, hu ▸ arg⟩
  | br code' => simp [code] at code'
  | brif code' => simp [code] at code'

theorem of_br (h : Acts g env o a) (code : (g.op o).code = .br)
    (targets : (g.op o).targets = [some t]) : a = .goto t := by
  cases h with
  | define value =>
    have hterm := value.not_isTerminator
    simp [code, Opcode.isTerminator] at hterm
  | fail code' => simp [code, Opcode.isBinary] at code'
  | ret code' => simp [code] at code'
  | br _ targets' => simpa using targets'.symm.trans targets
  | brif code' => simp [code] at code'

theorem of_brif (h : Acts g env o a) (code : (g.op o).code = .brif)
    (args : (g.op o).args = [some v]) (targets : (g.op o).targets = [some t, some e]) :
    ∃ x, a = .goto (if x ≠ 0 then t else e) ∧ Denotes g env v x := by
  cases h with
  | define value =>
    have hterm := value.not_isTerminator
    simp [code, Opcode.isTerminator] at hterm
  | fail code' => simp [code, Opcode.isBinary] at code'
  | ret code' => simp [code] at code'
  | br code' => simp [code] at code'
  | @brif u x t' e' _ args' targets' arg =>
    have hu : u = v := by simpa using args'.symm.trans args
    have hte : t' = t ∧ e' = e := by simpa using targets'.symm.trans targets
    obtain ⟨rfl, rfl⟩ := hte
    exact ⟨x, rfl, hu ▸ arg⟩

/-- An op that is no terminator comes to a value or fails. -/
theorem of_value (h : Acts g env o a) (hterm : (g.op o).code.isTerminator = false) :
    (∃ z, a = .define z) ∨ ∃ c, a = .fail c := by
  cases h with
  | define => exact .inl ⟨_, rfl⟩
  | fail => exact .inr ⟨_, rfl⟩
  | ret code => simp [code, Opcode.isTerminator] at hterm
  | br code => simp [code, Opcode.isTerminator] at hterm
  | brif code => simp [code, Opcode.isTerminator] at hterm

/-- A failing op fails as its operands make it. -/
theorem fault_eq {x y : UInt64} {c : Fault} (h : Acts g env o (.fail c))
    (args : (g.op o).args = [some v, some w]) (left : Denotes g env v x)
    (right : Denotes g env w y) :
    evalBinary (g.op o).code (g.op o).bits x y = .error c := by
  cases h with
  | @fail v' w' x' y' _ code args' left' right' fault =>
    have hvw : v' = v ∧ w' = w := by simpa using args'.symm.trans args
    obtain ⟨rfl, rfl⟩ := hvw
    rwa [left.unique left', right.unique right']

/-- An op that fails has no value. -/
theorem not_denotes {c : Fault} {z : UInt64} (h : Acts g env o (.fail c)) :
    ¬ Denotes g env (.result o) z := by
  intro value
  cases h with
  | fail code args left right fault =>
    obtain ⟨x, y, left', right', value⟩ := value.of_binary code args
    rw [left'.unique left, right'.unique right, fault] at value
    cases value

/-- An op acts in one way only. -/
theorem unique (ha : Acts g env o a) (hb : Acts g env o b) : a = b := by
  cases ha with
  | define value =>
    rcases hb.of_value value.not_isTerminator with ⟨z, rfl⟩ | ⟨c, rfl⟩
    · cases hb with
      | define value' => rw [value.unique value']
    · exact absurd value hb.not_denotes
  | fail code args left right fault =>
    rcases hb.of_value (Opcode.not_isTerminator_of_isBinary code) with ⟨z, rfl⟩ | ⟨c, rfl⟩
    · cases hb with
      | define value => exact absurd value (Acts.fail code args left right fault).not_denotes
    · have hfault := hb.fault_eq args left right
      rw [fault] at hfault
      rw [Except.error.inj hfault]
  | ret code args arg =>
    obtain ⟨x, rfl, arg'⟩ := hb.of_ret code args
    rw [arg.unique arg']
  | br code targets => exact (hb.of_br code targets).symm
  | brif code args targets arg =>
    obtain ⟨x, rfl, arg'⟩ := hb.of_brif code args targets
    rw [arg.unique arg']

end Acts

end Execution
end Disguise
