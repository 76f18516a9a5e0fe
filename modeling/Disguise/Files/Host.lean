import Disguise.Files.Tree
import Disguise.Random

/-!
What a program needs of its surroundings: files, two streams to print to, a clock and chance. The
same program runs against the machine it is on and against a tree in memory.
-/
namespace Disguise

inductive Stream where
  | output
  | diagnostics
  deriving DecidableEq, Repr

/-- The surroundings of a program, as actions in a monad. -/
structure Host (m : Type → Type) where
  isDirectory : Bytes → m (Except Files.Fault Bool)
  read : Bytes → m (Except Files.Fault Bytes)
  /-- The names in a directory that are no directories themselves. -/
  list : Bytes → m (Except Files.Fault (List Bytes))
  write : Bytes → Bytes → m (Except Files.Fault Unit)
  /-- Makes a new file, where nothing is. -/
  create : Bytes → Bytes → m (Except Files.Fault Unit)
  makeDirectory : Bytes → m (Except Files.Fault Unit)
  rename : Bytes → Bytes → m (Except Files.Fault Unit)
  remove : Bytes → m Unit
  print : Stream → Bytes → m Unit
  /-- The time of day, as it stands before a line of a log. -/
  stamp : m Bytes
  /-- A number that differs from run to run, and from one time to the next. -/
  chance : m UInt64
  /-- The generator of the machine, started from a seed. -/
  seeded : Int64 → m Source
  /-- A source that cannot be foretold. -/
  unseeded : m Source
  /-- A name that is not used twice. -/
  freshId : m Bytes

/-- Surroundings in memory. -/
structure World where
  tree : Files.Tree := {}
  output : Bytes := []
  diagnostics : Bytes := []
  stamp : Bytes := []
  chance : UInt64 := 0
  freshId : Bytes := []

namespace World

/-- Runs a change of the tree. -/
def change (f : Files.Tree → Except Files.Fault Files.Tree) :
    StateM World (Except Files.Fault Unit) := do
  let w ← get
  match f w.tree with
  | .ok tree => set { w with tree }; pure (.ok ())
  | .error e => pure (.error e)

def nextChance (w : World) : UInt64 × World := (w.chance, { w with chance := w.chance + 1 })

def host : Host (StateM World) where
  isDirectory p := do pure (((← get).tree.find p).map (· == .directory))
  read p := do pure ((← get).tree.read p)
  list p := do
    pure (((← get).tree.list p).map fun entries =>
      (entries.filter (·.2 != .directory)).map (·.1))
  write p data := change (·.write p data)
  create p data := change (·.create p data)
  makeDirectory p := change (·.makeDirectory p)
  rename old new := change (·.rename old new)
  remove p := do discard (change (·.remove p))
  print s data := modify fun w =>
    match s with
    | .output => { w with output := w.output ++ data }
    | .diagnostics => { w with diagnostics := w.diagnostics ++ data }
  stamp := do pure (← get).stamp
  chance := modifyGet nextChance
  seeded seed := pure (.seeded seed.toUInt64)
  unseeded := do pure (.seeded (← modifyGet nextChance))
  freshId := do pure (← get).freshId

end World
end Disguise
