import Disguise.Text.Bytes

/-!
Code points in a byte string. `Utf8.head?` accepts exactly the well-formed sequences: no overlong
forms, no surrogates, nothing above 10FFFF.
-/
namespace Disguise.Utf8

def isSurrogate (c : Nat) : Bool := 0xD800 ≤ c && c ≤ 0xDFFF

def isScalar (c : Nat) : Bool := c ≤ 0x10FFFF && !isSurrogate c

/-- The code point standing for bytes that are not well formed. -/
def replacement : Nat := 0xFFFD

def encode (c : Nat) : Bytes :=
  if c < 0x80 then [c.toUInt8]
  else if c < 0x800 then [(0xC0 + c / 64).toUInt8, (0x80 + c % 64).toUInt8]
  else if c < 0x10000 then
    [(0xE0 + c / 4096).toUInt8, (0x80 + c / 64 % 64).toUInt8, (0x80 + c % 64).toUInt8]
  else
    [(0xF0 + c / 262144).toUInt8, (0x80 + c / 4096 % 64).toUInt8,
      (0x80 + c / 64 % 64).toUInt8, (0x80 + c % 64).toUInt8]

/-- The six bits carried by a continuation byte. -/
def tail? (b : UInt8) : Option Nat :=
  if 0x80 ≤ b && b < 0xC0 then some (b.toNat - 0x80) else none

/-- Refuses overlong forms and values that are no scalars. -/
def checked (least width c : Nat) : Option (Nat × Nat) :=
  if least ≤ c && isScalar c then some (c, width) else none

/-- The first code point and the number of bytes it takes, if the text starts with a well-formed
sequence. -/
def head? : Bytes → Option (Nat × Nat)
  | [] => none
  | a :: s =>
    if a < 0x80 then some (a.toNat, 1)
    else if a < 0xC0 then none
    else if a < 0xE0 then
      match s with
      | b :: _ => do checked 0x80 2 ((a.toNat - 0xC0) * 64 + (← tail? b))
      | _ => none
    else if a < 0xF0 then
      match s with
      | b :: c :: _ => do
        checked 0x800 3 (((a.toNat - 0xE0) * 64 + (← tail? b)) * 64 + (← tail? c))
      | _ => none
    else if a < 0xF8 then
      match s with
      | b :: c :: d :: _ => do
        checked 0x10000 4
          ((((a.toNat - 0xF0) * 64 + (← tail? b)) * 64 + (← tail? c)) * 64 + (← tail? d))
      | _ => none
    else none

/-- One code point with its bytes; a byte that starts no well-formed sequence is a piece without
a code point. -/
structure Piece where
  code : Option Nat
  raw : Bytes
  deriving DecidableEq, Repr

/-- A text cut into code points and stray bytes; the raw parts concatenate to the text. -/
def pieces : Bytes → List Piece
  | [] => []
  | a :: s =>
    match head? (a :: s) with
    | some (c, width) => ⟨some c, a :: s.take (width - 1)⟩ :: pieces (s.drop (width - 1))
    | none => ⟨none, [a]⟩ :: pieces s
termination_by s => s.length

theorem pieces_raw (s : Bytes) : (pieces s).flatMap (·.raw) = s := by
  fun_induction pieces s <;> simp_all

def valid (s : Bytes) : Bool := (pieces s).all (·.code.isSome)

end Disguise.Utf8
