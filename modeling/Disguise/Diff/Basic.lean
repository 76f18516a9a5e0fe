import Disguise.Text.Bytes
import Disguise.Violation

/-!
Differences between two texts. A difference is a list of segments that are kept, removed or
inserted; `before` and `after` read the two texts off it. It is shown line by line: segments of
whole lines are cut into their lines again, and each line stands behind a mark.
-/
namespace Disguise
namespace Diff
open Bytes

inductive Kind where
  | equal
  | delete
  | insert
  deriving DecidableEq, Repr

structure Segment (α : Type) where
  kind : Kind
  items : List α
  deriving DecidableEq, Repr

variable {α : Type}

/-- The sequence that a list of segments starts from. -/
def before (segments : List (Segment α)) : List α :=
  segments.flatMap fun s => if s.kind = .insert then [] else s.items

/-- The sequence that a list of segments leads to. -/
def after (segments : List (Segment α)) : List α :=
  segments.flatMap fun s => if s.kind = .delete then [] else s.items

def Kind.mark : Kind → UInt8
  | .equal => byte ' '
  | .delete => byte '-'
  | .insert => byte '+'

/-- The lines of a segment, each behind the mark. -/
def Segment.marked (s : Segment UInt8) : Bytes :=
  (splitLines s.items).flatMap fun line => s.kind.mark :: line

/-- What is shown of a difference. -/
def render (segments : List (Segment UInt8)) : Bytes := segments.flatMap Segment.marked

end Diff

/-- The library that compares two texts line by line. How it cuts them into segments is up to it. -/
class Differ where
  segments : Bytes → Bytes → Except Violation (List (Diff.Segment UInt8))

/-- The two texts in one: lines kept, removed and inserted. -/
def Differ.lineDiff [Differ] (old new : Bytes) : Except Violation Bytes := do
  let segments ← Differ.segments old new
  pure (Diff.render segments)

end Disguise
