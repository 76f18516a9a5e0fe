import Disguise.Graph.Basic
import Disguise.Graph.PlaceSet

/-!
Dominance between the blocks of a function. Reachability is a search from the entry; the
dominators are the largest solution of "a block is dominated by itself and by what dominates all
its predecessors", found by shrinking full sets until nothing changes.
-/
namespace Disguise

/-- Branches between the blocks of a function, which are known by their places. -/
structure Flow where
  size : Nat
  next : Table (List Nat)

namespace Flow

def successors (c : Flow) (i : Nat) : List Nat := c.next.get i

/-- Visits what is on the stack and all that can be reached from there. -/
def explore (c : Flow) (stack seen : List Nat) : List Nat :=
  match stack with
  | [] => seen
  | i :: rest =>
    if i ∈ seen ∨ c.size ≤ seen.length then explore c rest seen
    else explore c (c.successors i ++ rest) (i :: seen)
termination_by (c.size - seen.length, stack.length)

/-- The blocks that some path of branches leads to from the entry. -/
def reachable (c : Flow) : List Nat := c.explore [0] []

/-- For every block those of the given ones that branch to it. -/
def predecessors (c : Flow) (seen : List Nat) : Table (List Nat) :=
  seen.foldl (fun preds p =>
    (c.successors p).foldl (fun preds i => preds.modify i (p :: ·)) preds) .empty

/-- What the predecessors of a block leave standing, and the block itself. -/
def meet (c : Flow) (preds : List Nat) (rows : Table PlaceSet) (i : Nat) : PlaceSet :=
  let common := preds.foldl (fun s p => s.inter (rows.get p)) (PlaceSet.below c.size)
  common.insert i

/-- One round over blocks with their predecessors. -/
def shrink (c : Flow) (order : List (Nat × List Nat)) (rows : Table PlaceSet) : Table PlaceSet :=
  order.foldl (fun rows (i, preds) => rows.set i (c.meet preds rows i)) rows

def settle (c : Flow) (order : List (Nat × List Nat)) : Nat → Table PlaceSet → Table PlaceSet
  | 0, rows => rows
  | fuel + 1, rows =>
    let smaller := c.shrink order rows
    if smaller = rows then rows else settle c order fuel smaller

/-- At the start the entry is dominated by itself only, and the others by everything. -/
def fullRows (c : Flow) : Table PlaceSet :=
  (List.range c.size).foldl (fun rows i =>
    rows.push (if i = 0 then .singleton 0 else .below c.size)) .empty

/-- For each block the blocks that dominate it, or `none` if it is unreachable. Every round that
changes something takes a block out of a set, so the number of pairs bounds the rounds. -/
def dominators (c : Flow) : List (Option PlaceSet) :=
  let seen := c.reachable
  let preds := c.predecessors seen
  let order := (seen.reverse.filter (· ≠ 0)).map fun i => (i, preds.get i)
  let rows := c.settle order (c.size * c.size + 1) c.fullRows
  (List.range c.size).map fun i => if i ∈ seen then some (rows.get i) else none

end Flow

namespace Graph

/-- The place of each block in a list, the last one if it has several. -/
def placesOf (blocks : List BlockId) : Table (Option Nat) :=
  blocks.zipIdx.foldl (fun places (b, i) => places.set b.idx (some i)) .empty

/-- The branches made by the terminators of a function to its own blocks. -/
def flow (g : Graph) (f : FuncId) : Flow :=
  let blocks := (g.func f).blocks
  let places := placesOf blocks
  ⟨blocks.length, ⟨(blocks.map fun b =>
    match g.terminator? b with
    | some t => (g.op t).targets.filterMap fun t => t.bind fun b => places.get b.idx
    | none => []).toArray⟩⟩

def dominators (g : Graph) (f : FuncId) : List (Option PlaceSet) := (g.flow f).dominators

end Graph
end Disguise
