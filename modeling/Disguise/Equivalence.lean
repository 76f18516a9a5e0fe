import Disguise.Execution
import Disguise.Random

/-!
Checking that two modules compute the same. The functions of both are run in pairs on random
arguments; arguments on which the first function of a pair gives no value are left out.
-/
namespace Disguise.Equivalence

/-- Arguments on which two functions differ. -/
inductive Discrepancy where
  | failed (func : Bytes) (args : List UInt64) (cause : RunError)
  | returned (func : Bytes) (args : List UInt64) (got want : UInt64)
  deriving DecidableEq, Repr

/-- Such as `f[1 ff]`. -/
def call (func : Bytes) (args : List UInt64) : Bytes :=
  func ++ text "[" ++ Bytes.join (text " ") (args.map fun v => Bytes.hex v.toNat) ++ text "]"

def Discrepancy.message : Discrepancy → Bytes
  | failed func args cause =>
    call func args ++ text ": rewritten function failed: " ++ cause.message
  | returned func args got want =>
    call func args ++ text ": rewritten function returned 0x" ++ Bytes.hex got.toNat ++
      text ", original 0x" ++ Bytes.hex want.toNat

/-- The value of a run or why there is none; a run that never ends is out of steps. -/
def result : Outcome → Except Violation (Except RunError UInt64)
  | .returned v => .ok (.ok v)
  | .failed e => .ok (.error e)
  | .broken v => .error v
  | .diverged => .ok (.error .stepLimit)

/-- How far a check went: the number of runs that agreed, and the first that did not. -/
structure Check where
  agreed : Nat := 0
  discrepancy : Option Discrepancy := none
  deriving DecidableEq, Repr

def arguments (g : Graph) (f : FuncId) : Choice (List UInt64) :=
  (g.func f).params.mapM fun p => Choice.value (g.param p).bits

variable [FloatUnit]

/-- One run of a pair of functions. -/
def checkOn (g : Graph) (f f' : FuncId) (args : List UInt64) (c : Check) :
    Except Violation Check := do
  let name := (g.func f).name
  match ← result (g.eval f args) with
  | .error _ => pure c
  | .ok want =>
    match ← result (g.eval f' args) with
    | .error cause => pure { c with discrepancy := some (.failed name args cause) }
    | .ok got =>
      if got ≠ want then pure { c with discrepancy := some (.returned name args got want) }
      else pure { c with agreed := c.agreed + 1 }

def checkPair (g : Graph) (f f' : FuncId) : (runs : Nat) → Check → Choice Check
  | 0, c => pure c
  | runs + 1, c => do
    let c ← (checkOn g f f' (← arguments g f) c : Except Violation Check)
    if c.discrepancy.isSome then pure c else checkPair g f f' runs c

/-- Pairs by position. Only functions with a body are checked, and each of them needs a partner. -/
def checkFuncs (g : Graph) (runs : Nat) : List FuncId → List FuncId → Check → Choice Check
  | [], _, c => pure c
  | f :: rest, partners, c =>
    if (g.func f).isDeclaration then checkFuncs g runs rest partners.tail c
    else match partners with
      | [] => throw .absent
      | f' :: partners => do
        let c ← checkPair g f f' runs c
        if c.discrepancy.isSome then pure c else checkFuncs g runs rest partners c

/-- Checks the second module against the first, with the given number of runs for each function. -/
def check (g : Graph) (m m' : ModuleId) (runs : Int) : Choice Check :=
  checkFuncs g runs.toNat (g.module m).funcs (g.module m').funcs {}

end Disguise.Equivalence
