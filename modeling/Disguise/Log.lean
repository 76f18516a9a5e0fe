import Disguise.Graph.Table
import Disguise.Violation

/-!
Diagnostics with levels and a memory of the latest ones. The memory is a ring of a fixed number of
slots with a limit on the bytes in it; when a new line makes it too large, the oldest lines are
blanked, and the newest line is always kept.
-/
namespace Disguise.Log

structure Entry where
  level : Int
  line : Bytes
  deriving DecidableEq, Repr

/-- A message that is shown at every level of detail. -/
def warning (msg : Bytes) : Entry := ⟨0, text "WARNING: " ++ msg⟩

/-- The last level that goes into the history. -/
def historyLevel : Int := 1

structure History where
  /-- The number of slots. -/
  room : Nat
  slots : Table Bytes := .empty
  /-- The slot to be written next, which holds the oldest line. -/
  pos : Nat := 0
  /-- The number of bytes in all slots. -/
  size : Nat := 0
  maxSize : Nat

namespace History

/-- The slots that were written so far, from the oldest to the newest. -/
def order (h : History) : List Nat :=
  let written := List.range h.slots.size
  written.drop h.pos ++ written.take h.pos

/-- Blanks slots while the ring is too large. -/
def evict (h : History) : List Nat → History
  | [] => h
  | i :: rest =>
    if h.maxSize < h.size then
      evict { h with size := h.size - (h.slots.get i).length, slots := h.slots.set i [] } rest
    else h

def add (h : History) (line : Bytes) : History :=
  let filled : History :=
    { h with
      slots := h.slots.set h.pos line
      size := h.size - (h.slots.get h.pos).length + line.length
      pos := (h.pos + 1) % h.room }
  if filled.maxSize < filled.size then filled.evict filled.order.dropLast else filled

/-- The lines from the oldest to the newest, without blank ones. -/
def lines (h : History) : List Bytes := (h.order.map h.slots.get).filter (!·.isEmpty)

def render (h : History) : Bytes := h.lines.flatMap fun line => line ++ text "\n"

end History

/-- A log: the level of detail that is shown, and the history if one is kept. -/
structure State where
  verbosity : Int := 0
  history : Option History := none

namespace State

/-- The most slots that a history can have. -/
def maxRoom : Int := 17592186044416

/-- Starts a new history. -/
def keep (s : State) (lines size : Int) : Except Violation State :=
  if lines < 1 ∨ size < 1 then .error (.badHistoryLimits lines size)
  else if maxRoom < lines then .error .absent
  else .ok { s with history := some { room := lines.toNat, maxSize := size.toNat } }

def shows (s : State) (level : Int) : Bool := level ≤ s.verbosity

def record (s : State) (e : Entry) : State :=
  if e.level ≤ historyLevel then { s with history := s.history.map (·.add e.line) } else s

def recent (s : State) : Bytes := (s.history.map (·.render)).getD []

/-- The text of a fatal message, behind the history unless that was shown already. -/
def failure (s : State) (msg : Bytes) : Bytes :=
  (if s.recent.isEmpty || s.shows 1 then [] else text "recent log:\n" ++ s.recent) ++ msg ++
    text "\n"

end State
end Disguise.Log
