import Disguise.Text.Bytes

/-!
Paths as texts. A path is cut at slashes; `clean` writes the shortest path that names the same file
by the rules for `.` and `..` alone.
-/
namespace Disguise.Path
open Bytes

def slash : UInt8 := byte '/'

def dot : Bytes := text "."
def dotDot : Bytes := text ".."

def isAbsolute (p : Bytes) : Bool := p.head? = some slash

/-- Takes one component into a cleaned path, whose components are in reverse. -/
def step (absolute : Bool) (done : List Bytes) (part : Bytes) : List Bytes :=
  if part.isEmpty || part = dot then done
  else if part = dotDot then
    match done with
    | [] => if absolute then [] else [dotDot]
    | last :: rest => if last = dotDot then dotDot :: done else rest
  else part :: done

def clean (p : Bytes) : Bytes :=
  let absolute := isAbsolute p
  let body := join [slash] ((p.split slash).foldl (step absolute) []).reverse
  if absolute then slash :: body else if body.isEmpty then dot else body

/-- The last component of a path. -/
def base (p : Bytes) : Bytes :=
  if p.isEmpty then dot
  else
    let p := p.dropRightWhile (· = slash)
    if p.isEmpty then [slash] else (p.split slash).getLastD []

/-- All but the last component of a path. -/
def dir (p : Bytes) : Bytes := clean (p.dropRightWhile (· ≠ slash))

/-- A path below another one. -/
def join (parent child : Bytes) : Bytes :=
  if parent.isEmpty then if child.isEmpty then [] else clean child
  else clean (parent ++ slash :: child)

/-- The last component from its last dot on. -/
def extension (p : Bytes) : Bytes :=
  let name := (p.split slash).getLastD []
  if name.contains (byte '.') then
    let tail := name.reverse.takeWhile (· ≠ byte '.')
    byte '.' :: tail.reverse
  else []

end Disguise.Path
