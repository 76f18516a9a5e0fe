import Disguise.Arithmetic
import Disguise.Graph.Edit

/-!
Running a function. A run goes through the ops of one block after the other and notes the value of
every op; the last branch met in a block says where to go on. A step budget may cut a run short.
Without one, a run that would enter more blocks than the graph has is one that never ends: an op
gives the same value each time it is met, so a block that is entered twice is entered forever.
-/
namespace Disguise

/-- The values known at some point of a run. -/
structure Env where
  ops : Table (Option UInt64) := .empty
  params : Table (Option UInt64) := .empty

namespace Env

def setOp (e : Env) (o : OpId) (v : UInt64) : Env := { e with ops := e.ops.set o.idx (some v) }

def setParam (e : Env) (p : ParamId) (v : UInt64) : Env :=
  { e with params := e.params.set p.idx (some v) }

def get? (e : Env) : Operand → Option UInt64
  | .const c => some c.val
  | .param p => e.params.get p.idx
  | .result o => e.ops.get o.idx

end Env

/-- Why a run gives no value. -/
inductive RunError where
  | declaration (func : Bytes)
  | argumentCount (func : Bytes) (want got : Nat)
  | fault (block : Bytes) (index : Int) (code : Opcode) (cause : Fault)
  | stepLimit
  | fallsThrough (block : Bytes)
  deriving DecidableEq, Repr

def RunError.message : RunError → Bytes
  | declaration func => text "function " ++ func ++ text " is a declaration"
  | argumentCount func want got =>
    text "function " ++ func ++ text ": want " ++ Bytes.decimalNat want ++
      text " arguments, got " ++ Bytes.decimalNat got
  | fault block index code cause =>
    text "block " ++ block ++ text " op #" ++ Bytes.decimal index ++ text " (" ++ code.name ++
      text "): " ++ cause.message
  | stepLimit => text "step limit exceeded"
  | fallsThrough block => text "block " ++ block ++ text " falls through"

inductive Outcome where
  | returned (v : UInt64)
  | failed (e : RunError)
  | broken (v : Violation)
  | diverged
  deriving DecidableEq, Repr

namespace Execution

/-- Steps that may still be made; `none` for no limit. -/
abbrev Budget := Option Nat

/-- The budget after one more step, unless it is used up. -/
def spend : Budget → Option Budget
  | none => some none
  | some 0 => none
  | some (n + 1) => some (some n)

def value (g : Graph) (env : Env) (v : Option Operand) : Except Violation UInt64 :=
  match v.bind env.get? with
  | some x => .ok x
  | none => .error (.undefinedValue (g.describe v))

/-- The value in an operand slot. -/
def arg (g : Graph) (env : Env) (op : Op) (i : Nat) : Except Violation UInt64 :=
  match op.args[i]? with
  | some v => value g env v
  | none => .error .absent

def target (op : Op) (i : Nat) : Except Violation (Option BlockId) :=
  match op.targets[i]? with
  | some t => .ok t
  | none => .error .absent

/-- The value of an op that is no terminator. -/
def compute [FloatUnit] (g : Graph) (env : Env) (op : Op) : Except Fault UInt64 := do
  let x ← (arg g env op 0).mapError .violation
  if op.code.isUnary then Arithmetic.evalUnary op.code op.bits x
  else
    let y ← (arg g env op 1).mapError .violation
    Arithmetic.evalBinary op.code op.bits x y

/-- How a faulty op ends a run. -/
def stopAt (g : Graph) (block : Bytes) (o : OpId) : Fault → Outcome
  | .violation v => .broken v
  | cause =>
    match g.position o with
    | .ok i => .failed (.fault block (i.elim (-1) Int.ofNat) (g.op o).code cause)
    | .error v => .broken v

/-- What follows an op: the run is over, it goes on with more known values, or a branch is taken. -/
inductive Effect where
  | stop (o : Outcome)
  | define (v : UInt64)
  | branch (next : Option BlockId)

/-- The branch of an op that has one: slot zero, or slot one when its condition is zero. -/
def branchOf (g : Graph) (env : Env) (op : Op) : Except Violation (Option BlockId) := do
  if op.code = .br then target op 0
  else if (← arg g env op 0) ≠ 0 then target op 0
  else target op 1

def effect [FloatUnit] (g : Graph) (block : Bytes) (env : Env) (o : OpId) : Effect :=
  let op := g.op o
  match op.code with
  | .ret =>
    match arg g env op 0 with
    | .ok v => .stop (.returned v)
    | .error v => .stop (.broken v)
  | .br | .brif =>
    match branchOf g env op with
    | .ok next => .branch next
    | .error v => .stop (.broken v)
  | _ =>
    match compute g env op with
    | .ok v => .define v
    | .error cause => .stop (stopAt g block o cause)

/-- How a pass through the ops of a block ends. -/
inductive Pass where
  | stop (o : Outcome)
  | leave (env : Env) (next : Option BlockId) (budget : Budget)

def runOps [FloatUnit] (g : Graph) (block : Bytes) :
    List OpId → Env → Option BlockId → Budget → Pass
  | [], env, next, budget => .leave env next budget
  | o :: rest, env, next, budget =>
    match spend budget with
    | none => .stop (.failed .stepLimit)
    | some budget =>
      match effect g block env o with
      | .stop out => .stop out
      | .define v => runOps g block rest (env.setOp o v) next budget
      | .branch next => runOps g block rest env next budget

def runBlocks [FloatUnit] (g : Graph) : (fuel : Nat) → BlockId → Env → Budget → Outcome
  | 0, _, _, _ => .diverged
  | fuel + 1, b, env, budget =>
    let bl := g.block b
    match runOps g bl.name bl.ops env none budget with
    | .stop out => out
    | .leave _ none _ => .failed (.fallsThrough bl.name)
    | .leave env (some next) budget => runBlocks g fuel next env budget

/-- Arguments cut to the widths of the params. -/
def bindParams (g : Graph) : List ParamId → List UInt64 → Env → Except Violation Env
  | p :: ps, v :: vs, env => do
    let v ← Word.truncate v (g.param p).bits
    bindParams g ps vs (env.setParam p v)
  | _, _, env => .ok env

def budgetOf (limit : Int) : Budget := if 0 < limit then some limit.toNat else none

/-- Enough block entries for every run that ends: a pass through a block that goes on spends a
step, and without a limit no block is entered twice. -/
def fuelOf (g : Graph) : Budget → Nat
  | some n => n + 1
  | none => g.blocks.size + 1

/-- The limit of runs that set none of their own. -/
def defaultLimit : Int := 1048576

end Execution

open Execution in
/-- Runs a function on arguments; a limit of zero or less is no limit. -/
def Graph.run [FloatUnit] (g : Graph) (f : FuncId) (args : List UInt64) (limit : Int) : Outcome :=
  let fn := g.func f
  match fn.blocks with
  | [] => .failed (.declaration fn.name)
  | entry :: _ =>
    if args.length ≠ fn.params.length then
      .failed (.argumentCount fn.name fn.params.length args.length)
    else match bindParams g fn.params args {} with
      | .error v => .broken v
      | .ok env =>
        let budget := budgetOf limit
        runBlocks g (fuelOf g budget) entry env budget

def Graph.eval [FloatUnit] (g : Graph) (f : FuncId) (args : List UInt64) : Outcome :=
  g.run f args Execution.defaultLimit

end Disguise
