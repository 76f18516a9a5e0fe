import Disguise.Graph.Edit

/-!
Batched insertions into one block. Queued ops belong to the block and use their operands at once,
but they are listed only by `commit`, which rebuilds the list a single time.
-/
namespace Disguise

structure Editor where
  block : BlockId
  /-- Insertion points with the ops to be placed before them, in the order of the calls. -/
  queue : List (OpId × List OpId) := []
  pending : Int := 0

namespace Editor

/-- The ops waiting to be placed before `ref`. -/
def waiting (e : Editor) (ref : OpId) : List OpId :=
  (e.queue.filter (·.1 = ref)).flatMap (·.2)

/-- Queues ops, in order, to be placed before `ref`. -/
def insertBefore (e : Editor) (g : Graph) (ref : OpId) (ops : List OpId) :
    Except Violation (Editor × Graph) :=
  if (g.op ref).block ≠ some e.block then .error .foreignInsertionPoint
  else do
    let g ← g.attach e.block ops
    pure ({ e with queue := e.queue ++ [(ref, ops)], pending := e.pending + ops.length }, g)

/-- The list of the block with all queued ops in it. -/
def merged (e : Editor) (ops : List OpId) : List OpId := ops.flatMap fun o => e.waiting o ++ [o]

/-- Places all queued ops. -/
def commit (e : Editor) (g : Graph) : Except Violation (Editor × Graph) :=
  if e.pending = 0 then .ok (e, g)
  else
    let ops := (g.block e.block).ops
    let left : Int := e.pending - (ops.flatMap e.waiting).length
    if left ≠ 0 then .error (.strayQueue left (g.block e.block).name)
    else .ok ({ block := e.block },
      g.modifyBlock e.block fun bl => { bl with ops := e.merged bl.ops })

end Editor
end Disguise
