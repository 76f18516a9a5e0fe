import Disguise.Graph.Table
import Disguise.Graph.UseSet
import Disguise.Word

/-!
Program graphs. A graph holds tables of ops, params, blocks, functions and modules that refer to
each other by number, in both directions: a block lists its ops and an op knows its block, an op
lists its operands and a value knows its users. Nothing here forces the two directions to agree;
`Disguise.Validity` says when they do.
-/
namespace Disguise

structure ParamId where
  idx : Nat
  deriving DecidableEq, Repr, Inhabited

structure BlockId where
  idx : Nat
  deriving DecidableEq, Repr, Inhabited

structure FuncId where
  idx : Nat
  deriving DecidableEq, Repr, Inhabited

structure ModuleId where
  idx : Nat
  deriving DecidableEq, Repr, Inhabited

structure Const where
  val : UInt64
  bits : Int
  deriving DecidableEq, Repr

/-- What an operand slot may hold. -/
inductive Operand where
  | const (c : Const)
  | param (p : ParamId)
  | result (o : OpId)
  deriving DecidableEq, Repr

structure Op where
  code : Opcode := .invalid
  bits : Int := 0
  args : List (Option Operand) := []
  targets : List (Option BlockId) := []
  /-- The block the op is attached to. -/
  block : Option BlockId := none
  uses : UseSet := .empty
  deriving DecidableEq, Repr, Inhabited

structure Param where
  func : Option FuncId := none
  name : Bytes := []
  bits : Int := 0
  uses : UseSet := .empty
  deriving DecidableEq, Repr, Inhabited

structure Block where
  /-- The function the block belongs to. -/
  owner : Option FuncId := none
  name : Bytes := []
  ops : List OpId := []
  deriving DecidableEq, Repr, Inhabited

/-- The function of a block that has an owner. -/
def Block.func (b : Block) : FuncId := b.owner.getD default

theorem Block.func_of_owner {b : Block} {f : FuncId} (h : b.owner = some f) : b.func = f := by
  rw [Block.func, h, Option.getD_some]

structure Func where
  owner : Option ModuleId := none
  name : Bytes := []
  params : List ParamId := []
  retBits : Int := 0
  blocks : List BlockId := []
  /-- Free-form words attached to the function, such as `fla sub nobcf`. -/
  annotation : Bytes := []
  /-- Tags, one per entry, such as `sub` or `sub_loop=3`. -/
  metadata : List Bytes := []
  /-- Defined elsewhere too, so never transformed. -/
  external : Bool := false
  deriving DecidableEq, Repr, Inhabited

structure Module where
  funcs : List FuncId := []
  deriving DecidableEq, Repr, Inhabited

structure Graph where
  ops : Table Op := .empty
  params : Table Param := .empty
  blocks : Table Block := .empty
  funcs : Table Func := .empty
  modules : Table Module := .empty
  deriving Inhabited

namespace Graph

def op (g : Graph) (o : OpId) : Op := g.ops.get o.idx
def param (g : Graph) (p : ParamId) : Param := g.params.get p.idx
def block (g : Graph) (b : BlockId) : Block := g.blocks.get b.idx
def func (g : Graph) (f : FuncId) : Func := g.funcs.get f.idx
def module (g : Graph) (m : ModuleId) : Module := g.modules.get m.idx

def modifyOp (g : Graph) (o : OpId) (f : Op → Op) : Graph :=
  { g with ops := g.ops.modify o.idx f }

def modifyParam (g : Graph) (p : ParamId) (f : Param → Param) : Graph :=
  { g with params := g.params.modify p.idx f }

def modifyBlock (g : Graph) (b : BlockId) (f : Block → Block) : Graph :=
  { g with blocks := g.blocks.modify b.idx f }

def modifyFunc (g : Graph) (f : FuncId) (change : Func → Func) : Graph :=
  { g with funcs := g.funcs.modify f.idx change }

def modifyModule (g : Graph) (m : ModuleId) (f : Module → Module) : Graph :=
  { g with modules := g.modules.modify m.idx f }

/-- A new detached op; its operands are not told until it is placed in a block. The operand list is
a value: a slot of it belongs to this op only, and no two ops share their slots. -/
def newOp (g : Graph) (code : Opcode) (bits : Int) (args : List (Option Operand))
    (targets : List (Option BlockId)) : Graph × OpId :=
  let o : OpId := ⟨g.ops.size⟩
  ({ g with ops := g.ops.push { code, bits, args, targets } }, o)

def newParam (g : Graph) (name : Bytes) (bits : Int) (func : Option FuncId) : Graph × ParamId :=
  let p : ParamId := ⟨g.params.size⟩
  ({ g with params := g.params.push { func, name, bits } }, p)

def newFunc (g : Graph) (f : Func) : Graph × FuncId :=
  let id : FuncId := ⟨g.funcs.size⟩
  ({ g with funcs := g.funcs.push f }, id)

def newModule (g : Graph) : Graph × ModuleId :=
  let m : ModuleId := ⟨g.modules.size⟩
  ({ g with modules := g.modules.push {} }, m)

/-- A new empty block, which its function does not list. -/
def newBlock (g : Graph) (f : FuncId) (name : Bytes) : Graph × BlockId :=
  let b : BlockId := ⟨g.blocks.size⟩
  ({ g with blocks := g.blocks.push { owner := some f, name } }, b)

/-- A new empty block at the end of a function. -/
def addBlock (g : Graph) (f : FuncId) (name : Bytes) : Graph × BlockId :=
  let (g, b) := g.newBlock f name
  (g.modifyFunc f fun fn => { fn with blocks := fn.blocks ++ [b] }, b)

/-- Puts a function at the end of a module, which then owns it and it its params. -/
def addFunc (g : Graph) (m : ModuleId) (f : FuncId) : Graph :=
  let g := g.modifyFunc f fun fn => { fn with owner := some m }
  let params := (g.func f).params
  let g := params.foldl (fun g p => g.modifyParam p fun pr => { pr with func := some f }) g
  g.modifyModule m fun md => { md with funcs := md.funcs ++ [f] }

/-- The first function of a module with the given name. -/
def findFunc? (g : Graph) (m : ModuleId) (name : Bytes) : Option FuncId :=
  (g.module m).funcs.find? fun f => (g.func f).name == name

/-- The first block of a function with the given name. -/
def findBlock? (g : Graph) (f : FuncId) (name : Bytes) : Option BlockId :=
  (g.func f).blocks.find? fun b => (g.block b).name == name

/-- All ops of a function in program order. -/
def opsOf (g : Graph) (f : FuncId) : List OpId := (g.func f).blocks.flatMap fun b => (g.block b).ops

def numOps (g : Graph) (f : FuncId) : Nat := (g.opsOf f).length

/-- The number of ops in all functions of a module. -/
def moduleOps (g : Graph) (m : ModuleId) : Nat := ((g.module m).funcs.flatMap g.opsOf).length

def countCode (g : Graph) (f : FuncId) (code : Opcode) : Nat :=
  (g.opsOf f).countP fun o => (g.op o).code = code

/-- The last op of a block, if it ends one. -/
def terminator? (g : Graph) (b : BlockId) : Option OpId :=
  (g.block b).ops.getLast?.filter fun o => (g.op o).code.isTerminator

def width (g : Graph) : Operand → Int
  | .const c => c.bits
  | .param p => (g.param p).bits
  | .result o => (g.op o).bits

/-- How messages speak of an operand. -/
def describe (g : Graph) : Option Operand → Bytes
  | some (.param p) => text "%" ++ (g.param p).name
  | some (.result o) => (g.op o).code.name ++ text " op"
  | some (.const _) => text "*prog.Const"
  | none => text "<nil>"

/-- A constant cut to its width. -/
def constant (v : UInt64) (bits : Int) : Except Violation Const :=
  (Word.truncate v bits).map fun val => ⟨val, bits⟩

end Graph

namespace Func

def isDeclaration (f : Func) : Bool := f.blocks.isEmpty

end Func
end Disguise
