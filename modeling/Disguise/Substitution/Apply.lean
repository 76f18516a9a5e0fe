import Disguise.Graph.Editor
import Disguise.Substitution.Rule

/-!
Applying a rule. The chain goes right before the op it replaces and takes over all its users; the
op itself stays where it is. The chain is placed at once or through an editor.
-/
namespace Disguise.Substitution

/-- Creates the ops of a chain, detached, with `x` and `y` for its two operands. -/
def create (g : Graph) (bits : Int) (x y : Option Operand) (c : Chain) :
    Graph × List OpId × Option Operand :=
  let first := g.ops.size
  let operand : Term → Option Operand
    | .left => x
    | .right => y
    | .const k => some (.const k)
    | .step i => some (.result ⟨first + i⟩)
  let g := c.steps.foldl (fun g s => (g.newOp s.code bits (s.args.map operand) []).1) g
  (g, (List.range c.steps.length).map fun i => ⟨first + i⟩, operand c.result)

/-- Whether a rule applies to an op: the code is right, there are two operands and it is placed. -/
def fits (rule : Rule) (op : Op) : Bool :=
  op.code = rule.code && op.args.length = 2 && op.block.isSome

/-- The chain for an op that fits, created but not yet placed. -/
def prepare (rule : Rule) (g : Graph) (o : OpId) (expand : Bool) :
    Choice (Graph × List OpId × Option Operand) := do
  let op := g.op o
  let chain ← Chain.of rule.build ⟨op.bits, expand⟩
  pure (create g op.bits (op.args.getD 0 none) (op.args.getD 1 none) chain)

/-- Replaces an op of block `b` at once, giving the length of the chain; `none` if the rule does not
fit. -/
def applyAt (rule : Rule) (g : Graph) (b : BlockId) (o : OpId) (expand : Bool) :
    Choice (Option (Graph × Nat)) := do
  if !fits rule (g.op o) then pure none
  else
    let (g, ops, result) ← prepare rule g o expand
    let g ← (g.insertBefore b o ops : Except Violation Graph)
    let g ← (g.replaceAllUses o result : Except Violation Graph)
    pure (some (g, ops.length))

/-- Replaces an op on the spot, wherever it is placed; `none` if the rule does not fit. -/
def apply (rule : Rule) (g : Graph) (o : OpId) : Choice (Option Graph) := do
  match (g.op o).block with
  | none => pure none
  | some b => pure ((← applyAt rule g b o false).map (·.1))

/-- Replaces an op of an edited block, giving the length of the chain; `none` if the rule does not
fit. -/
def applyQueued (rule : Rule) (e : Editor) (g : Graph) (o : OpId) (expand : Bool) :
    Choice (Option (Editor × Graph × Nat)) := do
  if !fits rule (g.op o) then pure none
  else
    let (g, ops, result) ← prepare rule g o expand
    let (e, g) ← (e.insertBefore g o ops : Except Violation _)
    let g ← (g.replaceAllUses o result : Except Violation Graph)
    pure (some (e, g, ops.length))

/-- Places a chain for two given operands before `ref` and gives its result. -/
def buildGate (build : Term → Term → Chain.Build Term) (g : Graph) (x y : Option Operand)
    (ref : OpId) : Choice (Graph × Option Operand) := do
  match x, (g.op ref).block with
  | some v, some b =>
    let bits := g.width v
    let chain ← Chain.of build ⟨bits, false⟩
    let (g, ops, result) := create g bits x y chain
    let g ← (g.insertBefore b ref ops : Except Violation Graph)
    pure (g, result)
  | _, _ => throw .absent

/-- Ops that compute the complement of `x | y`. -/
def buildNor (g : Graph) (x y : Option Operand) (ref : OpId) : Choice (Graph × Option Operand) :=
  buildGate Chain.nor g x y ref

/-- Ops that compute the complement of `x & y`. -/
def buildNand (g : Graph) (x y : Option Operand) (ref : OpId) : Choice (Graph × Option Operand) :=
  buildGate Chain.nand g x y ref

end Disguise.Substitution
