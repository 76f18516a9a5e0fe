import Disguise.Execution
import Disguise.Proofs.WellFormed
import Disguise.Proofs.Words

/-!
Values without runs. Ops keep no memory, so what an operand comes to depends on the values of the
params alone; `Denotes` says what that is. An op that needs its own value in order to be computed
denotes nothing, and neither does one that fails.
-/
namespace Disguise
open Execution Arithmetic
variable [FloatUnit]

/-- What an operand comes to when the params have the values they have in `env`. -/
inductive Denotes (g : Graph) (env : Env) : Operand → UInt64 → Prop
  | const (c : Const) : Denotes g env (.const c) c.val
  | param {p : ParamId} {x : UInt64} (value : env.params.get p.idx = some x) :
      Denotes g env (.param p) x
  | unary {o : OpId} {v : Operand} {x z : UInt64} (code : (g.op o).code.isUnary)
      (args : (g.op o).args = [some v]) (arg : Denotes g env v x)
      (value : evalUnary (g.op o).code (g.op o).bits x = .ok z) : Denotes g env (.result o) z
  | binary {o : OpId} {v w : Operand} {x y z : UInt64} (code : (g.op o).code.isBinary)
      (args : (g.op o).args = [some v, some w]) (left : Denotes g env v x)
      (right : Denotes g env w y)
      (value : evalBinary (g.op o).code (g.op o).bits x y = .ok z) : Denotes g env (.result o) z

namespace Denotes
variable {g : Graph} {env : Env}

theorem of_unary {o : OpId} {v : Operand} {z : UInt64} (h : Denotes g env (.result o) z)
    (code : (g.op o).code.isUnary) (args : (g.op o).args = [some v]) :
    ∃ x, Denotes g env v x ∧ evalUnary (g.op o).code (g.op o).bits x = .ok z := by
  cases h with
  | unary _ args' arg value =>
    rw [args] at args'
    simp only [List.cons.injEq, Option.some.injEq, and_true] at args'
    subst args'
    exact ⟨_, arg, value⟩
  | binary code' => simp [Opcode.not_isUnary_of_isBinary code'] at code

theorem of_binary {o : OpId} {v w : Operand} {z : UInt64} (h : Denotes g env (.result o) z)
    (code : (g.op o).code.isBinary) (args : (g.op o).args = [some v, some w]) :
    ∃ x y, Denotes g env v x ∧ Denotes g env w y ∧
      evalBinary (g.op o).code (g.op o).bits x y = .ok z := by
  cases h with
  | unary code' => simp [Opcode.not_isUnary_of_isBinary code] at code'
  | binary _ args' left right value =>
    rw [args] at args'
    simp only [List.cons.injEq, Option.some.injEq, and_true] at args'
    obtain ⟨rfl, rfl⟩ := args'
    exact ⟨_, _, left, right, value⟩

/-- An op that ends its block has no value. -/
theorem not_isTerminator {o : OpId} {z : UInt64} (h : Denotes g env (.result o) z) :
    (g.op o).code.isTerminator = false := by
  cases h with
  | unary code => exact Opcode.not_isTerminator_of_isUnary code
  | binary code => exact Opcode.not_isTerminator_of_isBinary code

/-- An operand comes to one value at most. -/
theorem unique {v : Operand} {x y : UInt64} (hx : Denotes g env v x) (hy : Denotes g env v y) :
    x = y := by
  induction hx generalizing y with
  | const c =>
    cases hy
    rfl
  | param value =>
    cases hy with
    | param value' => exact Option.some.inj (value.symm.trans value')
  | unary code args _ value ih =>
    obtain ⟨x', arg', value'⟩ := hy.of_unary code args
    rw [← ih arg', value] at value'
    exact Except.ok.inj value'
  | binary code args _ _ value ihl ihr =>
    obtain ⟨x', y', left', right', value'⟩ := hy.of_binary code args
    rw [← ihl left', ← ihr right', value] at value'
    exact Except.ok.inj value'

/-- An environment that gives an operand what it comes to gives it all it comes to. -/
theorem known {v : Operand} {x : UInt64} (h : Denotes g env v x) {now : Env}
    (hget : now.get? v = some x) (y : UInt64) (hy : Denotes g env v y) : now.get? v = some y := by
  rw [hget, h.unique hy]

end Denotes

namespace Graph
variable {g : Graph} {f : FuncId}

/-- The params have values of their widths. -/
def ParamsFit (g : Graph) (f : FuncId) (env : Env) : Prop :=
  ∀ p ∈ (g.func f).params, ∃ x, env.params.get p.idx = some x ∧ Word.fits x (g.param p).bits

/-- The value of an op fits its width, which is a proper one. -/
theorem WellFormed.fits_result (wf : g.WellFormed f) {env : Env} {o : OpId} {x : UInt64}
    (ho : o ∈ g.opsOf f) (h : Denotes g env (.result o) x) :
    Word.goodWidth (g.op o).bits ∧ Word.fits x (g.op o).bits := by
  cases h with
  | @unary _ v y _ code args arg value =>
    obtain ⟨width, -⟩ := (wf.form o ho).of_unary code args
    obtain ⟨z, hz, hfit⟩ := evalUnary_eq_ok width (g.op o).code y
    rw [value] at hz
    rw [Except.ok.inj hz]
    exact ⟨width, hfit⟩
  | @binary _ v w a b _ code args left right value =>
    obtain ⟨width, float, -⟩ := (wf.form o ho).of_binary code args
    rcases evalBinary_cases code width float a b with ⟨z, hz, hfit⟩ | ⟨c, hc, -⟩
    · rw [value] at hz
      rw [Except.ok.inj hz]
      exact ⟨width, hfit⟩
    · rw [value] at hc
      cases hc

/-- The value of an operand fits the width that is asked of it. -/
theorem WellFormed.fits_of_denotes (wf : g.WellFormed f) {env : Env} (hp : g.ParamsFit f env)
    {u : OpId} {bits : Int} {v : Operand} {x : UInt64} (hv : g.OperandOk f u bits v)
    (h : Denotes g env v x) : Word.fits x bits := by
  cases v with
  | const c =>
    cases h
    obtain ⟨rfl, hfit⟩ := hv
    exact hfit
  | param p =>
    cases h with
    | param value =>
      obtain ⟨hmem, rfl⟩ := hv
      obtain ⟨y, hy, hfit⟩ := hp _ hmem
      rw [value] at hy
      rwa [Option.some.inj hy]
  | result o =>
    obtain ⟨hmem, rfl, -, -⟩ := hv
    exact (wf.fits_result hmem h).2

end Graph
end Disguise
