import Disguise.Text.Bytes

/-!
Comment lines of a configuration. A line whose first visible character is `#` is taken out,
together with the blank lines right before it.
-/
namespace Disguise.Config
open Bytes

def isLineSpace (b : UInt8) : Bool :=
  b = byte '\t' || b = newline || b = 12 || b = byte '\r' || b = byte ' '

/-- What is left behind a comment that comes next, after any white space. -/
def afterComment? (s : Bytes) : Option Bytes :=
  match s.dropWhile isLineSpace with
  | b :: rest => if b = byte '#' then some (rest.dropWhile (· ≠ newline)) else none
  | [] => none

theorem length_afterComment? {s rest : Bytes} (h : afterComment? s = some rest) :
    rest.length < s.length := by
  have hs := (List.dropWhile_suffix isLineSpace (l := s)).length_le
  unfold afterComment? at h
  split at h
  next b tail heq =>
    split at h
    · cases h
      have ht := (List.dropWhile_suffix (· ≠ newline) (l := tail)).length_le
      rw [heq] at hs
      simp only [List.length_cons] at hs
      omega
    · contradiction
  next => contradiction

/-- Takes out the comments behind line breaks. -/
def dropComments : Bytes → Bytes
  | [] => []
  | b :: s =>
    if b = newline then
      match _h : afterComment? s with
      | some rest => dropComments rest
      | none => b :: (s.takeWhile isLineSpace ++ dropComments (s.dropWhile isLineSpace))
    else b :: dropComments s
termination_by s => s.length
decreasing_by
  · have := length_afterComment? _h
    simp only [List.length_cons]
    omega
  · have := (List.dropWhile_suffix isLineSpace (l := s)).length_le
    simp only [List.length_cons]
    omega
  · simp

/-- A text without its comment lines. -/
def stripComments (s : Bytes) : Bytes :=
  match afterComment? s with
  | some rest => dropComments rest
  | none => dropComments s

end Disguise.Config
