import Disguise.Text.Utf8

/-!
The characters of a YAML text. The first bytes tell the encoding. A text is decoded in portions of
a fixed number of bytes; when one of them is malformed, only the characters of the portions before
it can be read, and nothing is wrong with a text unless that portion is needed.
-/
namespace Disguise.Yaml

inductive Encoding where
  | utf8
  | utf16 (bigEndian : Bool)
  deriving DecidableEq, Repr

/-- The encoding that a byte order mark tells, and the length of the mark. -/
def Encoding.detect : Bytes → Encoding × Nat
  | 0xFF :: 0xFE :: _ => (.utf16 false, 2)
  | 0xFE :: 0xFF :: _ => (.utf16 true, 2)
  | 0xEF :: 0xBB :: 0xBF :: _ => (.utf8, 3)
  | _ => (.utf8, 0)

/-- What comes first in a row of bytes. -/
inductive Unit where
  | char (c : Char) (width : Nat)
  /-- The bytes end within a character. -/
  | cutOff
  | malformed

/-- Characters that may stand in a text. -/
def isAdmissible (c : Nat) : Bool :=
  c = 9 || c = 10 || c = 13 || (0x20 ≤ c && c ≤ 0x7E) || c = 0x85 || (0xA0 ≤ c && c ≤ 0xD7FF) ||
    (0xE000 ≤ c && c ≤ 0xFFFD) || (0x10000 ≤ c && c ≤ 0x10FFFF)

def Unit.ofCode (c width : Nat) : Unit :=
  if isAdmissible c then .char (Char.ofNat c) width else .malformed

/-- The number of bytes that a first byte announces. -/
def announced? (b : UInt8) : Option Nat :=
  if b < 0x80 then some 1
  else if b < 0xC0 then none
  else if b < 0xE0 then some 2
  else if b < 0xF0 then some 3
  else if b < 0xF8 then some 4
  else none

def Unit.utf8 (s : Bytes) : Unit :=
  match s.head?.bind announced? with
  | none => .malformed
  | some width =>
    if (s.take width).length < width then .cutOff
    else match Utf8.head? s with
      | some (c, width) => .ofCode c width
      | none => .malformed

def pair (bigEndian : Bool) (a b : UInt8) : Nat :=
  if bigEndian then a.toNat * 256 + b.toNat else b.toNat * 256 + a.toNat

def isHighHalf (c : Nat) : Bool := 0xD800 ≤ c && c < 0xDC00

def isLowHalf (c : Nat) : Bool := 0xDC00 ≤ c && c < 0xE000

def Unit.utf16 (bigEndian : Bool) : Bytes → Unit
  | a :: b :: rest =>
    let high := pair bigEndian a b
    if isLowHalf high then .malformed
    else if isHighHalf high then
      match rest with
      | c :: d :: _ =>
        let low := pair bigEndian c d
        if isLowHalf low then .ofCode (0x10000 + (high - 0xD800) * 1024 + (low - 0xDC00)) 4
        else .malformed
      | _ => .cutOff
    else .ofCode high 2
  | _ => .cutOff

def Encoding.unit : Encoding → Bytes → Unit
  | utf8 => Unit.utf8
  | utf16 bigEndian => Unit.utf16 bigEndian

/-- The characters of a portion in reverse, before `done`, and the bytes of one that is cut off;
`none` if the portion is malformed. -/
def Encoding.portion (e : Encoding) : (fuel : Nat) → (done : List Char) → Bytes →
    Option (List Char × Bytes)
  | 0, done, s => some (done, s)
  | _, done, [] => some (done, [])
  | fuel + 1, done, b :: s =>
    match e.unit (b :: s) with
    | .char c width => e.portion fuel (c :: done) ((b :: s).drop width)
    | .cutOff => some (done, b :: s)
    | .malformed => none

/-- The number of bytes in a portion. -/
def portionSize : Nat := 512

structure Source where
  /-- The characters that can be read. -/
  chars : List Char
  /-- For every portion, the number of characters up to its end. -/
  ends : List Nat
  /-- The text ends behind the last portion; otherwise it goes on there with something malformed. -/
  sound : Bool

/-- Decodes a portion and all that follow. Lists come in reverse. -/
def Source.decode (e : Encoding) : (fuel : Nat) → (done : List Char) → (count : Nat) →
    (ends : List Nat) → (portion rest : Bytes) → Source
  | 0, done, _, ends, _, _ => ⟨done.reverse, ends.reverse, false⟩
  | fuel + 1, done, count, ends, portion, rest =>
    match e.portion (portionSize + 1) [] portion with
    | none => ⟨done.reverse, ends.reverse, false⟩
    | some (chars, left) =>
      let done := chars ++ done
      let count := count + chars.length
      let ends := count :: ends
      if rest.isEmpty then ⟨done.reverse, ends.reverse, left.isEmpty⟩
      else
        let size := portionSize - left.length
        Source.decode e fuel done count ends (left ++ rest.take size) (rest.drop size)

def Source.ofBytes (s : Bytes) : Source :=
  let (e, mark) := Encoding.detect s
  Source.decode e (s.length + 1) [] 0 [] ((s.take portionSize).drop mark) (s.drop portionSize)

end Disguise.Yaml
