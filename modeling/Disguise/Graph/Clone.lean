import Disguise.Graph.Edit

/-!
Copies of functions and modules. The copy lives in the same graph and shares nothing with what it
was made from. Operands may refer to ops of later blocks, so all ops are created before any operand
is wired.
-/
namespace Disguise.Graph

/-- What the values and blocks of a function become in its copy. -/
structure Renaming where
  params : Table (Option ParamId) := .empty
  blocks : Table (Option BlockId) := .empty
  ops : Table (Option OpId) := .empty

namespace Renaming

def operand (r : Renaming) : Option Operand → Except Violation (Option Operand)
  | some (.const c) => (constant c.val c.bits).map fun c => some (.const c)
  | some (.param p) =>
    match r.params.get p.idx with
    | some q => .ok (some (.param q))
    | none => .error .foreignOperand
  | some (.result o) =>
    match r.ops.get o.idx with
    | some q => .ok (some (.result q))
    | none => .error .foreignOperand
  | none => .error .foreignOperand

def target (r : Renaming) (t : Option BlockId) : Option BlockId :=
  t.bind fun b => r.blocks.get b.idx

end Renaming

def cloneParam (f : FuncId) (s : Graph × Renaming) (p : ParamId) : Graph × Renaming :=
  let (g, r) := s
  let (g, q) := g.newParam (g.param p).name (g.param p).bits (some f)
  (g.modifyFunc f fun fn => { fn with params := fn.params ++ [q] },
    { r with params := r.params.set p.idx (some q) })

def cloneBlock (f : FuncId) (s : Graph × Renaming) (b : BlockId) : Graph × Renaming :=
  let (g, r) := s
  let (g, c) := g.addBlock f (g.block b).name
  (g, { r with blocks := r.blocks.set b.idx (some c) })

def cloneOp (s : Graph × Renaming) (o : OpId) : Graph × Renaming :=
  let (g, r) := s
  let (g, q) := g.newOp (g.op o).code (g.op o).bits [] []
  (g, { r with ops := r.ops.set o.idx (some q) })

/-- Gives the copy of an op its operands and targets. The copies are collected in reverse. -/
def wireOp (r : Renaming) (s : Graph × List OpId) (o : OpId) :
    Except Violation (Graph × List OpId) := do
  let (g, done) := s
  let q := (r.ops.get o.idx).getD default
  let args ← (g.op o).args.mapM r.operand
  let targets := (g.op o).targets.map r.target
  let g := g.modifyOp q fun op =>
    { op with args := op.args ++ args, targets := op.targets ++ targets }
  pure (g, q :: done)

def wireBlock (r : Renaming) (g : Graph) (b : BlockId) : Except Violation Graph := do
  let (g, ops) ← (g.block b).ops.foldlM (wireOp r) (g, [])
  g.append ((r.blocks.get b.idx).getD default) ops.reverse

/-- A copy of a function that belongs to no module. -/
def cloneFunc (g : Graph) (f : FuncId) : Except Violation (Graph × FuncId) := do
  let fn := g.func f
  let (g, c) := g.newFunc { fn with owner := none, params := [], blocks := [] }
  let s := fn.params.foldl (cloneParam c) (g, {})
  let s := fn.blocks.foldl (cloneBlock c) s
  let (g, r) := (fn.blocks.flatMap fun b => (g.block b).ops).foldl cloneOp s
  let g ← fn.blocks.foldlM (wireBlock r) g
  pure (g, c)

def cloneModule (g : Graph) (m : ModuleId) : Except Violation (Graph × ModuleId) := do
  let funcs := (g.module m).funcs
  let (g, c) := g.newModule
  let g ← funcs.foldlM (fun g f => do
    let (g, f') ← g.cloneFunc f
    pure (g.addFunc c f')) g
  pure (g, c)

end Disguise.Graph
