import Disguise.Graph.Basic
import Disguise.Sorting

/-!
Editing a graph. An op that is placed in a block is a user of its operands, and each operation
here keeps the use sets in step with the operand slots it changes.
-/
namespace Disguise.Graph

/-- Records one more slot of `user` that holds `v`; constants and empty slots keep no record. -/
def addUse (g : Graph) (v : Option Operand) (user : OpId) : Graph :=
  match v with
  | some (.result o) => g.modifyOp o fun op => { op with uses := op.uses.add user }
  | some (.param p) => g.modifyParam p fun pr => { pr with uses := pr.uses.add user }
  | _ => g

def removeUse (g : Graph) (v : Option Operand) (user : OpId) : Except Violation Graph :=
  match v with
  | some (.result o) =>
    if (g.op o).uses.count user = 0 then .error (.missingUse true (g.op user).code)
    else .ok (g.modifyOp o fun op => { op with uses := op.uses.remove user })
  | some (.param p) =>
    if (g.param p).uses.count user = 0 then .error (.missingUse false (g.op user).code)
    else .ok (g.modifyParam p fun pr => { pr with uses := pr.uses.remove user })
  | _ => .ok g

def addUses (g : Graph) (args : List (Option Operand)) (user : OpId) : Graph :=
  args.foldl (fun g v => g.addUse v user) g

def removeUses (g : Graph) (args : List (Option Operand)) (user : OpId) : Except Violation Graph :=
  args.foldlM (fun g v => g.removeUse v user) g

/-- The place of an op in its block, `none` for a detached op. -/
def position (g : Graph) (o : OpId) : Except Violation (Option Nat) :=
  match (g.op o).block with
  | none => .ok none
  | some b =>
    match (g.block b).ops.idxOf? o with
    | some i => .ok (some i)
    | none => .error .opNotInBlock

/-- The place of a block in its function. -/
def blockPosition (g : Graph) (b : BlockId) : Except Violation Nat :=
  match (g.func (g.block b).func).blocks.idxOf? b with
  | some i => .ok i
  | none => .error .blockNotInFunc

/-- Where an op stands in its function: the place of its block and its own. -/
structure Site where
  block : Int
  op : Int
  deriving DecidableEq, Repr

def Site.le (a b : Site) : Bool := a.block < b.block || (a.block == b.block && a.op ≤ b.op)

/-- Detached ops stand in front of all others. -/
def site (g : Graph) (o : OpId) : Except Violation Site :=
  match (g.op o).block with
  | none => .ok ⟨-1, -1⟩
  | some b => do
    let i ← g.blockPosition b
    let j ← g.position o
    pure ⟨i, j.elim (-1) Int.ofNat⟩

/-- Ops in program order, in whatever order they come. -/
def inProgramOrder (g : Graph) (ops : List OpId) : Except Violation (List OpId) :=
  if ops.length < 2 then .ok ops
  else do
    let sites ← ops.mapM fun o => do pure (o, ← g.site o)
    pure ((Sorting.sort (fun a b => a.2.le b.2) sites).map (·.1))

/-- The different users of a value in program order. -/
def usersInOrder (g : Graph) (s : UseSet) : Except Violation (List OpId) :=
  g.inProgramOrder s.users

/-- Replaces one operand. -/
def setArg (g : Graph) (o : OpId) (i : Nat) (v : Option Operand) : Except Violation Graph := do
  let op := g.op o
  match op.args[i]? with
  | none => .error .absent
  | some old =>
    let g ← if op.block.isSome then (fun g => g.addUse v o) <$> g.removeUse old o else pure g
    pure (g.modifyOp o fun op => { op with args := op.args.set i v })

/-- Turns the slots of `user` that hold `o` to `v`, from slot `i` on; `n` slots are left. -/
def redirectFrom (o : OpId) (v : Option Operand) (user : OpId) (n i : Nat) (g : Graph) :
    Except Violation Graph :=
  match n with
  | 0 => .ok g
  | n + 1 => do
    let g ← if (g.op user).args[i]? = some (some (.result o)) then g.setArg user i v else pure g
    redirectFrom o v user n (i + 1) g

def redirect (g : Graph) (o : OpId) (v : Option Operand) (user : OpId) : Except Violation Graph :=
  redirectFrom o v user (g.op user).args.length 0 g

/-- Redirects every consumer of the result of `o` to `v`; the op itself stays in place. -/
def replaceAllUses (g : Graph) (o : OpId) (v : Option Operand) : Except Violation Graph :=
  if v = some (.result o) then .ok g
  else (g.op o).uses.users.foldlM (fun g user => g.redirect o v user) g

/-- Why an op is not removed. -/
inductive Refusal where
  | detached (code : Opcode)
  | used (code : Opcode) (users : Nat)
  deriving DecidableEq, Repr

def Refusal.message : Refusal → Bytes
  | detached code => text "op " ++ code.name ++ text " is not in a block"
  | used code users =>
    text "op " ++ code.name ++ text " still has " ++ Bytes.decimalNat users ++ text " users"

/-- Takes a dead op out of its block. -/
def remove (g : Graph) (o : OpId) : Except Violation (Except Refusal Graph) :=
  let op := g.op o
  match op.block with
  | none => .ok (.error (.detached op.code))
  | some b =>
    if op.uses.size ≠ 0 then .ok (.error (.used op.code op.uses.size))
    else do
      let _ ← g.position o
      let g := g.modifyBlock b fun bl => { bl with ops := bl.ops.erase o }
      let g ← g.removeUses op.args o
      pure (.ok (g.modifyOp o fun op => { op with block := none }))

/-- The ops withdrawn so far and the blocks they are listed in. -/
structure Sweep where
  graph : Graph
  removed : List OpId := []
  blocks : List BlockId := []

/-- Withdraws the uses of a dead op; its block is rebuilt later. -/
def Sweep.visit (s : Sweep) (o : OpId) : Except Violation Sweep :=
  let op := s.graph.op o
  match op.block with
  | none => .ok s
  | some b =>
    if o ∈ s.removed || op.uses.size ≠ 0 then .ok s
    else do
      let g ← s.graph.removeUses op.args o
      pure ⟨g, o :: s.removed, if b ∈ s.blocks then s.blocks else s.blocks ++ [b]⟩

def dropOps (removed : List OpId) (g : Graph) (b : BlockId) : Graph :=
  let (gone, live) := (g.block b).ops.partition (· ∈ removed)
  let g := gone.foldl (fun g o => g.modifyOp o fun op => { op with block := none }) g
  g.modifyBlock b fun bl => { bl with ops := live }

/-- Removes the ops of a list that have no users, from the last to the first, so that an op used
only by ops further down the list goes too. Gives the number of ops removed. -/
def removeDead (g : Graph) (ops : List OpId) : Except Violation (Graph × Nat) := do
  let s ← ops.reverse.foldlM (fun (s : Sweep) o => s.visit o) { graph := g }
  pure (s.blocks.foldl (dropOps s.removed) s.graph, s.removed.length)

/-- Makes an op belong to a block and a user of its operands. -/
def enlist (g : Graph) (b : BlockId) (o : OpId) : Graph :=
  let args := (g.op o).args
  (g.modifyOp o fun op => { op with block := some b }).addUses args o

/-- Enlists an op that has to be detached. -/
def attachOp (g : Graph) (b : BlockId) (o : OpId) : Except Violation Graph :=
  match (g.op o).block with
  | some other => .error (.alreadyPlaced (g.op o).code (g.block other).name)
  | none => .ok (g.enlist b o)

def attach (g : Graph) (b : BlockId) (ops : List OpId) : Except Violation Graph :=
  ops.foldlM (fun g o => g.attachOp b o) g

def insertAt (g : Graph) (b : BlockId) (i : Nat) (ops : List OpId) : Except Violation Graph := do
  let g ← g.attach b ops
  pure (g.modifyBlock b fun bl => { bl with ops := bl.ops.take i ++ ops ++ bl.ops.drop i })

/-- The place of an op that has to be attached to the given block. -/
def placeIn (g : Graph) (b : BlockId) (ref : OpId) : Except Violation Nat := do
  if (g.op ref).block ≠ some b then .error .foreignInsertionPoint
  else pure ((← g.position ref).getD 0)

/-- Places ops, in order, right before `ref`. -/
def insertBefore (g : Graph) (b : BlockId) (ref : OpId) (ops : List OpId) :
    Except Violation Graph := do
  let i ← g.placeIn b ref
  g.insertAt b i ops

/-- Places ops, in order, right after `ref`. -/
def insertAfter (g : Graph) (b : BlockId) (ref : OpId) (ops : List OpId) :
    Except Violation Graph := do
  let i ← g.placeIn b ref
  g.insertAt b (i + 1) ops

def append (g : Graph) (b : BlockId) (ops : List OpId) : Except Violation Graph :=
  g.insertAt b (g.block b).ops.length ops

end Disguise.Graph
