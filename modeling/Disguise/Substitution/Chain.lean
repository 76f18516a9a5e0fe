import Disguise.Graph.Basic
import Disguise.Random

/-!
Replacement chains: straight-line code over two operands that stand for those of the op to be
replaced. A chain is data, built without looking at the graph it is meant for; every step has the
width of that op.
-/
namespace Disguise

/-- An operand of a chain step. -/
inductive Term where
  | left
  | right
  | const (c : Const)
  | step (i : Nat)
  deriving DecidableEq, Repr

structure Step where
  code : Opcode
  args : List Term
  deriving DecidableEq, Repr

/-- A chain and the operand that holds its result. -/
structure Chain where
  steps : List Step
  result : Term
  deriving DecidableEq, Repr

namespace Chain

structure Setting where
  bits : Int
  /-- Write complement and negation as `xor` and `sub`, which rules apply to in turn. -/
  expand : Bool

/-- Building a chain step by step. -/
abbrev Build := ReaderT Setting (StateT (List Step) Choice)

def emit (code : Opcode) (args : List Term) : Build Term := do
  let steps ← get
  set (steps ++ [Step.mk code args])
  pure (.step steps.length)

def op (code : Opcode) (x y : Term) : Build Term := emit code [x, y]

def const (v : UInt64) : Build Term := do
  let c ← (Graph.constant v (← read).bits : Except Violation Const)
  pure (.const c)

/-- The bitwise complement. -/
def not (x : Term) : Build Term := do
  if (← read).expand then
    let ones ← (Word.mask (← read).bits : Except Violation UInt64)
    op .xor x (← const ones)
  else emit .not [x]

/-- The negative. -/
def neg (x : Term) : Build Term := do
  if (← read).expand then op .sub (← const 0) x else emit .neg [x]

/-- A random constant. -/
def mask : Build Term := do const (← Choice.value (← read).bits)

/-- The complement of `x | y`, in one of two forms. -/
def nor (x y : Term) : Build Term := do
  if (← Choice.below 2) = 0 then not (← op .or x y)
  else
    let nx ← not x
    let ny ← not y
    op .and nx ny

/-- The complement of `x & y`, in one of two forms. -/
def nand (x y : Term) : Build Term := do
  if (← Choice.below 2) = 0 then not (← op .and x y)
  else
    let nx ← not x
    let ny ← not y
    op .or nx ny

/-- The chain made by a building program from the two operands. -/
def of (build : Term → Term → Build Term) (setting : Setting) : Choice Chain := do
  let (result, steps) ← ((build .left .right).run setting).run []
  pure ⟨steps, result⟩

end Chain
end Disguise
