import Disguise.Diff.Script

/-!
A differ that can be run. It compares the lines of two texts by an edit script and joins what
belongs to one segment.
-/
namespace Disguise.Diff
open Bytes

/-- A segment of lines as a segment of text. -/
def Segment.joined (s : Segment Bytes) : Segment UInt8 := ⟨s.kind, s.items.flatten⟩

/-- The segments of text that two texts have in common, or not, line by line. -/
def lineSegments (before after : Bytes) : List (Segment UInt8) :=
  (script before.splitLines after.splitLines).map Segment.joined

/-- The two texts in one: lines kept, removed and inserted. -/
def lineDiff (before after : Bytes) : Bytes := render (lineSegments before after)

instance : Differ where
  segments before after := .ok (lineSegments before after)

end Disguise.Diff
