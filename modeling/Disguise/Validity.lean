import Disguise.Dominance
import Disguise.Text.Dictionary

/-!
Checking a program. `validate` looks for the first defect in a fixed order: widths and owners, the
shape of blocks and ops, operands, and last the use sets, which have to be exactly what the operand
slots say.
-/
namespace Disguise

/-- What is wrong with an op that is used as an operand. -/
inductive UseDefect where
  | outside
  | terminator
  | beforeDefinition
  | notDominating (block : Bytes)
  deriving DecidableEq, Repr

inductive OpDefect where
  | arity (wantArgs wantTargets args targets : Nat)
  | badCode (code : Opcode)
  | badWidth (bits : Int)
  | floatWidth (bits : Int)
  | foreignTarget
  | emptyOperand (i : Nat)
  | operandWidth (i : Nat) (width want : Int)
  | wideConst (c : Const)
  | foreignParam (i : Nat)
  | operand (i : Nat) (d : UseDefect)
  deriving DecidableEq, Repr

inductive BlockDefect where
  | empty
  | unterminated
  | earlyTerminator (code : Opcode)
  | op (i : Nat) (code : Opcode) (d : OpDefect)
  deriving DecidableEq, Repr

inductive FuncDefect where
  | returnWidth (bits : Int)
  | foreignParam (name : Bytes)
  | paramWidth (name : Bytes) (bits : Int)
  | duplicateParam (name : Bytes)
  | foreignBlock (name : Bytes)
  | duplicateBlock (name : Bytes)
  | wrongParent (i : Nat) (block : Bytes)
  | repeatedOp
  | block (name : Bytes) (d : BlockDefect)
  | useCount (what : Bytes) (users want : Nat)
  | useMismatch (what : Bytes)
  deriving DecidableEq, Repr

inductive Defect where
  | foreignFunc (name : Bytes)
  | duplicateFunc (name : Bytes)
  | func (name : Bytes) (d : FuncDefect)
  deriving DecidableEq, Repr

section Messages
open Bytes

def UseDefect.message : UseDefect → Bytes
  | outside => text "refers to an op outside of the function"
  | terminator => text "refers to a terminator"
  | beforeDefinition => text "used before definition"
  | notDominating block =>
    text "definition in block " ++ block ++ text " does not dominate the use"

def OpDefect.message : OpDefect → Bytes
  | arity wantArgs wantTargets args targets =>
    text "want " ++ decimalNat wantArgs ++ text " operands and " ++ decimalNat wantTargets ++
      text " targets, got " ++ decimalNat args ++ text " and " ++ decimalNat targets
  | badCode code => text "invalid opcode " ++ code.name
  | badWidth bits => text "bad width " ++ decimal bits
  | floatWidth bits => text "float op on i" ++ decimal bits
  | foreignTarget => text "branch target is outside of the function"
  | emptyOperand i => text "nil operand #" ++ decimalNat i
  | operandWidth i width want =>
    text "operand #" ++ decimalNat i ++ text " has width " ++ decimal width ++ text ", want " ++
      decimal want
  | wideConst c =>
    text "constant 0x" ++ hex c.val.toNat ++ text " does not fit into i" ++ decimal c.bits
  | foreignParam i => text "operand #" ++ decimalNat i ++ text " is a param of another function"
  | operand i d => text "operand #" ++ decimalNat i ++ text ": " ++ d.message

def BlockDefect.message : BlockDefect → Bytes
  | empty => text "empty block"
  | unterminated => text "block does not end with a terminator"
  | earlyTerminator code =>
    text "terminator " ++ code.name ++ text " in the middle of the block"
  | op i code d =>
    text "op #" ++ decimalNat i ++ text " (" ++ code.name ++ text "): " ++ d.message

def FuncDefect.message : FuncDefect → Bytes
  | returnWidth bits => text "bad return width " ++ decimal bits
  | foreignParam name => text "param " ++ name ++ text " belongs to another function"
  | paramWidth name bits => text "param " ++ name ++ text " has bad width " ++ decimal bits
  | duplicateParam name => text "duplicate param " ++ name
  | foreignBlock name => text "block " ++ name ++ text " belongs to another function"
  | duplicateBlock name => text "duplicate block " ++ name
  | wrongParent i name =>
    text "op #" ++ decimalNat i ++ text " in block " ++ name ++ text " has wrong parent"
  | repeatedOp => text "op is present in the function several times"
  | block name d => text "block " ++ name ++ text ": " ++ d.message
  | useCount what users want =>
    text "use set of " ++ what ++ text " has " ++ decimalNat users ++ text " users, want " ++
      decimalNat want
  | useMismatch what => text "use set of " ++ what ++ text " is inconsistent"

def Defect.message : Defect → Bytes
  | foreignFunc name => text "function " ++ name ++ text " does not belong to the module"
  | duplicateFunc name => text "duplicate function " ++ name
  | func name d => text "function " ++ name ++ text ": " ++ d.message

end Messages

namespace Validity

/-- The place of an op: its block's and its own. -/
structure Place where
  block : Nat
  op : Nat
  deriving DecidableEq, Repr

/-- What the checks of a function's ops look at. -/
structure Context where
  graph : Graph
  id : FuncId
  places : Table (Option Place)
  dominators : List (Option PlaceSet)

namespace Context

def func (c : Context) : Func := c.graph.func c.id

def checkUse (c : Context) (definition use : OpId) : Except UseDefect Unit :=
  match c.places.get definition.idx with
  | none => .error .outside
  | some d =>
    if (c.graph.op definition).code.isTerminator then .error .terminator
    else
      let u := (c.places.get use.idx).getD ⟨0, 0⟩
      match c.dominators.getD u.block none with
      | none => .ok ()
      | some above =>
        if d.block = u.block then
          if u.op ≤ d.op then .error .beforeDefinition else .ok ()
        else if above.contains d.block then .ok ()
        else .error (.notDominating (c.graph.block (c.func.blocks.getD d.block default)).name)

def checkOperand (c : Context) (use : OpId) (bits : Int) (i : Nat) :
    Option Operand → Except OpDefect Unit
  | none => .error (.emptyOperand i)
  | some v =>
    if c.graph.width v ≠ bits then .error (.operandWidth i (c.graph.width v) bits)
    else match v with
      | .const k => if Word.fits k.val k.bits then .ok () else .error (.wideConst k)
      | .param p => if p ∈ c.func.params then .ok () else .error (.foreignParam i)
      | .result o => (c.checkUse o use).mapError (.operand i)

def checkOperands (c : Context) (use : OpId) (bits : Int) :
    Nat → List (Option Operand) → Except OpDefect Unit
  | _, [] => .ok ()
  | i, v :: rest => do
    c.checkOperand use bits i v
    checkOperands c use bits (i + 1) rest

/-- Operand count, target count and operand width that an op has to have. -/
def signature (c : Context) (op : Op) : Except OpDefect (Nat × Nat × Int) :=
  if op.code.isBinary then .ok (2, 0, op.bits)
  else if op.code.isUnary then .ok (1, 0, op.bits)
  else match op.code with
    | .ret => .ok (1, 0, c.func.retBits)
    | .br => .ok (0, 1, op.bits)
    | .brif => .ok (1, 2, 1)
    | code => .error (.badCode code)

def checkOp (c : Context) (o : OpId) : Except OpDefect Unit := do
  let op := c.graph.op o
  let (args, targets, bits) ← c.signature op
  if op.args.length ≠ args ∨ op.targets.length ≠ targets then
    .error (.arity args targets op.args.length op.targets.length)
  else if !op.code.isTerminator && !Word.goodWidth op.bits then .error (.badWidth op.bits)
  else if op.code.isFloat && op.bits ≠ 32 && op.bits ≠ 64 then .error (.floatWidth op.bits)
  else if op.targets.any (fun t => t.all fun b => (c.graph.block b).owner ≠ some c.id) then
    .error .foreignTarget
  else c.checkOperands o bits 0 op.args

def checkOps (c : Context) : Nat → List OpId → Except BlockDefect Unit
  | _, [] => .ok ()
  | i, o :: rest => do
    let code := (c.graph.op o).code
    if rest.isEmpty && !code.isTerminator then .error .unterminated
    else if !rest.isEmpty && code.isTerminator then .error (.earlyTerminator code)
    else
      (c.checkOp o).mapError (.op i code)
      checkOps c (i + 1) rest

def checkBlock (c : Context) (b : BlockId) : Except BlockDefect Unit :=
  let ops := (c.graph.block b).ops
  if ops.isEmpty then .error .empty else c.checkOps 0 ops

end Context

def checkParams (g : Graph) (f : FuncId) :
    (seen : Dictionary Unit) → List ParamId → Except FuncDefect Unit
  | _, [] => .ok ()
  | seen, p :: rest =>
    let pr := g.param p
    if pr.func ≠ some f then .error (.foreignParam pr.name)
    else if !Word.goodWidth pr.bits then .error (.paramWidth pr.name pr.bits)
    else if seen.contains pr.name then .error (.duplicateParam pr.name)
    else checkParams g f (seen.insert () pr.name) rest

/-- Notes the places of the ops of a block, each of which may have one place only. -/
def placeOps (g : Graph) (b : BlockId) (bi : Nat) :
    Nat → Table (Option Place) → List OpId → Except FuncDefect (Table (Option Place))
  | _, places, [] => .ok places
  | oi, places, o :: rest =>
    if (g.op o).block ≠ some b then .error (.wrongParent oi (g.block b).name)
    else if (places.get o.idx).isSome then .error .repeatedOp
    else placeOps g b bi (oi + 1) (places.set o.idx (some ⟨bi, oi⟩)) rest

def placeBlocks (g : Graph) (f : FuncId) (seen : Dictionary Unit) :
    Nat → Table (Option Place) → List BlockId → Except FuncDefect (Table (Option Place))
  | _, places, [] => .ok places
  | bi, places, b :: rest => do
    let bl := g.block b
    if bl.owner ≠ some f then .error (.foreignBlock bl.name)
    else if seen.contains bl.name then .error (.duplicateBlock bl.name)
    else
      let places ← placeOps g b bi 0 places bl.ops
      placeBlocks g f (seen.insert () bl.name) (bi + 1) places rest

/-- The use sets that the operand slots of some ops call for. -/
structure Demand where
  ops : Table UseSet := .empty
  params : Table UseSet := .empty

def Demand.add (user : OpId) (d : Demand) : Option Operand → Demand
  | some (.result o) => { d with ops := d.ops.modify o.idx (·.add user) }
  | some (.param p) => { d with params := d.params.modify p.idx (·.add user) }
  | _ => d

def demand (g : Graph) (ops : List OpId) : Demand :=
  ops.foldl (fun d o => (g.op o).args.foldl (·.add o ·) d) {}

/-- Compares the use set of a value with the one that is called for: their sizes, and then the count
of each user that should be there. -/
def checkUses (g : Graph) (v : Operand) (users want : UseSet) : Except FuncDefect Unit :=
  if users.size ≠ want.size then .error (.useCount (g.describe (some v)) users.size want.size)
  else if want.entries.all fun e => users.count e.1 = e.2 then .ok ()
  else .error (.useMismatch (g.describe (some v)))

def checkFunc (g : Graph) (f : FuncId) : Except FuncDefect Unit := do
  let fn := g.func f
  if !Word.goodWidth fn.retBits then .error (.returnWidth fn.retBits)
  checkParams g f .empty fn.params
  let places ← placeBlocks g f .empty 0 .empty fn.blocks
  let c : Context := ⟨g, f, places, g.dominators f⟩
  fn.blocks.forM fun b => (c.checkBlock b).mapError (.block (g.block b).name)
  let want := demand g (g.opsOf f)
  fn.params.forM fun p => checkUses g (.param p) (g.param p).uses (want.params.get p.idx)
  (g.opsOf f).forM fun o => checkUses g (.result o) (g.op o).uses (want.ops.get o.idx)

end Validity

namespace Graph

def validateFunc (g : Graph) (f : FuncId) : Except Defect Unit :=
  (Validity.checkFunc g f).mapError (.func (g.func f).name)

def validateFuncs (g : Graph) (m : ModuleId) (seen : Dictionary Unit) :
    List FuncId → Except Defect Unit
  | [] => .ok ()
  | f :: rest => do
    let fn := g.func f
    if fn.owner ≠ some m then .error (.foreignFunc fn.name)
    else if seen.contains fn.name then .error (.duplicateFunc fn.name)
    else
      g.validateFunc f
      validateFuncs g m (seen.insert () fn.name) rest

def validate (g : Graph) (m : ModuleId) : Except Defect Unit :=
  g.validateFuncs m .empty (g.module m).funcs

end Graph
end Disguise
