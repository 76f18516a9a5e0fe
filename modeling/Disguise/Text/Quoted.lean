import Disguise.Text.Utf8

/-!
Double-quoted texts. `quote` writes any byte string in printable characters; `unquote?` reads such
a form back, together with every other spelling its escapes allow.
-/
namespace Disguise

/-- The Unicode tables at hand. They say which code points beyond the first 256 are graphic, that
is letters, marks, numbers, punctuation or symbols, and say so of more of them in every version. -/
class Unicode where
  isGraphic : Nat → Bool

variable [Unicode]

namespace Quoted
open Bytes

/-- Code points that are shown as they are: the graphic ones and the ASCII space. -/
def isPrintable (c : Nat) : Bool :=
  if c < 0x7F then 0x20 ≤ c
  else if c ≤ 0xFF then 0xA1 ≤ c && c ≠ 0xAD
  else Unicode.isGraphic c

def mark : UInt8 := 34
def backslash : UInt8 := 92

/-- Control characters with an escape letter of their own. -/
def letters : List (Nat × Char) :=
  [(7, 'a'), (8, 'b'), (12, 'f'), (10, 'n'), (13, 'r'), (9, 't'), (11, 'v')]

def escapeCode (c : Nat) : Bytes :=
  if c = mark.toNat || c = backslash.toNat then [backslash, c.toUInt8]
  else if isPrintable c then Utf8.encode c
  else match letters.lookup c with
    | some l => [backslash, byte l]
    | none =>
      if c < 0x20 || c = 0x7F then [backslash, byte 'x'] ++ hexPadded 2 c
      else if c < 0x10000 then [backslash, byte 'u'] ++ hexPadded 4 c
      else [backslash, byte 'U'] ++ hexPadded 8 c

def escapePiece (p : Utf8.Piece) : Bytes :=
  match p.code with
  | some c => escapeCode c
  | none => p.raw.flatMap fun b => [backslash, byte 'x'] ++ hexPadded 2 b.toNat

def quote (s : Bytes) : Bytes := mark :: (Utf8.pieces s).flatMap escapePiece ++ [mark]

def hexValue? (b : UInt8) : Option Nat :=
  if byte '0' ≤ b && b ≤ byte '9' then some (b.toNat - 48)
  else if byte 'a' ≤ b && b ≤ byte 'f' then some (b.toNat - 87)
  else if byte 'A' ≤ b && b ≤ byte 'F' then some (b.toNat - 55)
  else none

def octalValue? (b : UInt8) : Option Nat :=
  if byte '0' ≤ b && b ≤ byte '7' then some (b.toNat - 48) else none

/-- The number written by the first `n` bytes, all of them digits. -/
def number? (base n : Nat) (digit? : UInt8 → Option Nat) (s : Bytes) : Option Nat :=
  let ds := s.take n
  if ds.length < n then none else ds.foldlM (fun v b => (digit? b).map (v * base + ·)) 0

/-- The bytes an escape stands for and the length of the escape behind its backslash. -/
def escape? : Bytes → Option (Bytes × Nat)
  | [] => none
  | e :: s =>
    if e = mark || e = backslash then some ([e], 1)
    else if e = byte 'x' then (number? 16 2 hexValue? s).map fun v => ([v.toUInt8], 3)
    else if e = byte 'u' then scalar 5 (number? 16 4 hexValue? s)
    else if e = byte 'U' then scalar 9 (number? 16 8 hexValue? s)
    else if (octalValue? e).isSome then
      match number? 8 3 octalValue? (e :: s) with
      | some v => if v ≤ 255 then some ([v.toUInt8], 3) else none
      | none => none
    else (letters.find? fun l => byte l.2 = e).map fun l => ([l.1.toUInt8], 1)
where
  scalar (width : Nat) : Option Nat → Option (Bytes × Nat)
    | some v => if Utf8.isScalar v then some (Utf8.encode v, width) else none
    | none => none

/-- Reads up to the closing mark, which has to be the last byte. -/
def body? : Bytes → Option Bytes
  | [] => none
  | b :: s =>
    if b = mark then if s.isEmpty then some [] else none
    else if b = newline then none
    else if b = backslash then
      match escape? s with
      | some (out, width) => (body? (s.drop width)).map (out ++ ·)
      | none => none
    else
      match Utf8.head? (b :: s) with
      | some (_, width) => (body? (s.drop (width - 1))).map (b :: s.take (width - 1) ++ ·)
      | none => (body? s).map (Utf8.encode Utf8.replacement ++ ·)
termination_by s => s.length

/-- The text written by a double-quoted form; a stray byte in it reads as the replacement
character. -/
def unquote? : Bytes → Option Bytes
  | [] => none
  | b :: s => if b = mark then body? s else none

end Quoted
end Disguise
