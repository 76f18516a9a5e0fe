import Disguise.Files.Path

/-!
A tree of files below a working directory, and what the operations on it answer. The tree is kept
flat: a path from the root stands for a file with its content or for a directory, and the empty path
is the root. Of what lies outside the tree only the directories above it are known.
-/
namespace Disguise.Files
open Bytes

/-- Why an operation on a file fails. -/
inductive Fault where
  | absent
  | notDirectory
  | isDirectory
  | present
  | nameTooLong
  | invalid
  | other (message : Bytes)
  deriving DecidableEq, Repr

def Fault.message : Fault → Bytes
  | absent => text "no such file or directory"
  | notDirectory => text "not a directory"
  | isDirectory => text "is a directory"
  | present => text "file exists"
  | nameTooLong => text "file name too long"
  | invalid => text "invalid argument"
  | other message => message

inductive Node where
  | file (data : Bytes)
  | directory
  deriving DecidableEq, Repr

/-- The length of the longest name. -/
def maxName : Nat := 255

/-- The least length that is too much for a path. -/
def pathLimit : Nat := 4096

/-- The component that paths from the top of all files start with. -/
def top : Bytes := [Path.slash]

/-- Whether a path leads to the root, to a directory above it or to the top of all files. -/
def isAbove (path : List Bytes) : Bool := path = [top] || path.all (· = Path.dotDot)

/-- Whether a path leads out of the tree. -/
def isOutside (path : List Bytes) : Bool :=
  path.head?.any fun part => part = top || part = Path.dotDot

/-- The directory above one. -/
def parent (path : List Bytes) : List Bytes :=
  if path = [top] then path
  else if isAbove path then path ++ [Path.dotDot]
  else path.dropLast

/-- A path has to have a length in limits, and no byte that ends texts. -/
def checkPath (p : Bytes) : Except Fault Unit :=
  if p.contains 0 then .error .invalid
  else if p.isEmpty then .error .absent
  else if pathLimit ≤ p.length then .error .nameTooLong
  else .ok ()

/-- Where a path starts from. -/
def start (p : Bytes) : List Bytes := if Path.isAbsolute p then [top] else []

structure Tree where
  nodes : List (List Bytes × Node) := []

namespace Tree

def get? (t : Tree) (path : List Bytes) : Option Node :=
  if isAbove path then some .directory else t.nodes.lookup path

def put (t : Tree) (path : List Bytes) (n : Node) : Tree :=
  ⟨t.nodes.filter (·.1 ≠ path) ++ [(path, n)]⟩

def drop (t : Tree) (path : List Bytes) : Tree := ⟨t.nodes.filter (·.1 ≠ path)⟩

/-- Adds a file together with the directories above it. -/
def plant (t : Tree) (path : List Bytes) (n : Node) : Tree :=
  let above := ((List.range path.length).drop 1).map fun k => path.take k
  let t := above.foldl (fun t p => if (t.get? p).isNone then t.put p .directory else t) t
  t.put path n

/-- Where a component leads from a directory, whether or not there is something. -/
def step (t : Tree) (here : List Bytes) (part : Bytes) : Except Fault (List Bytes) :=
  match t.get? here with
  | none => .error .absent
  | some (.file _) => .error .notDirectory
  | some .directory =>
    if part.isEmpty || part = Path.dot then .ok here
    else if part = Path.dotDot then .ok (parent here)
    else if maxName < part.length then .error .nameTooLong
    else .ok (here ++ [part])

/-- Goes one component down, or up, to something that is there. -/
def enter (t : Tree) (here : List Bytes) (part : Bytes) : Except Fault (List Bytes) := do
  let path ← t.step here part
  if (t.get? path).isSome then pure path else .error .absent

/-- Where a path leads. -/
def resolve (t : Tree) (p : Bytes) : Except Fault (List Bytes) := do
  checkPath p
  (p.split Path.slash).foldlM t.enter (start p)

/-- What a path leads to. -/
def find (t : Tree) (p : Bytes) : Except Fault Node := do
  let path ← t.resolve p
  match t.get? path with
  | some n => pure n
  | none => .error .absent

def read (t : Tree) (p : Bytes) : Except Fault Bytes := do
  match ← t.find p with
  | .file data => pure data
  | .directory => .error .isDirectory

/-- The names in a directory. -/
def list (t : Tree) (p : Bytes) : Except Fault (List (Bytes × Node)) := do
  let path ← t.resolve p
  pure <| t.nodes.filterMap fun (q, n) =>
    if q.dropLast = path then q.getLast?.map fun name => (name, n) else none

/-- The directory of a new entry, which has to be there, and the name of the entry. -/
def split (t : Tree) (p : Bytes) : Except Fault (List Bytes × Bytes) := do
  checkPath p
  let parts := (p.dropRightWhile (· = Path.slash)).split Path.slash
  let here ← parts.dropLast.foldlM t.enter (start p)
  if t.get? here = some .directory then pure (here, parts.getLastD []) else .error .notDirectory

/-- Where a new entry would go. -/
def place (t : Tree) (p : Bytes) : Except Fault (List Bytes) := do
  let (here, name) ← t.split p
  t.step here name

/-- Puts data into a file, which is made if need be. A path to a file does not end in a slash. -/
def write (t : Tree) (p data : Bytes) : Except Fault Tree := do
  let (here, name) ← t.split p
  if p.getLast? = some Path.slash then .error .isDirectory
  else
    let path ← t.step here name
    if t.get? path = some .directory then .error .isDirectory else pure (t.put path (.file data))

/-- Makes a file under a name that nothing has yet. -/
def create (t : Tree) (p data : Bytes) : Except Fault Tree := do
  let path ← t.place p
  if (t.get? path).isSome then .error .present else pure (t.put path (.file data))

def makeDirectory (t : Tree) (p : Bytes) : Except Fault Tree := do
  let path ← t.place p
  if (t.get? path).isSome then .error .present else pure (t.put path .directory)

/-- Moves a file over another one or to a new place. -/
def rename (t : Tree) (old new : Bytes) : Except Fault Tree := do
  let source ← t.resolve old
  match t.get? source with
  | none => .error .absent
  | some n =>
    let target ← t.place new
    if t.get? target = some .directory then .error .present
    else pure ((t.drop source).put target n)

def remove (t : Tree) (p : Bytes) : Except Fault Tree := do pure (t.drop (← t.resolve p))

end Tree
end Disguise.Files
