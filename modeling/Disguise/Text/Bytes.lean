/-!
Texts as byte strings. Names, annotations and whole programs may hold bytes that are no UTF-8, so
a text of this library is a list of bytes; literals enter through `text`. The searching and
cutting functions here are the ones the formats of the library are built from.
-/
namespace Disguise

abbrev Bytes := List UInt8

/-- The UTF-8 bytes of a literal. -/
def text (s : String) : Bytes := s.toUTF8.data.toList

namespace Bytes

/-- The byte of an ASCII character. -/
def byte (c : Char) : UInt8 := c.toNat.toUInt8

/-- Digits of `n` in base at most sixteen, most significant first, lower case. -/
def digits (base n : Nat) : Bytes := (Nat.toDigits base n).map byte

def decimalNat (n : Nat) : Bytes := digits 10 n

def decimal (n : Int) : Bytes :=
  if n < 0 then byte '-' :: decimalNat n.natAbs else decimalNat n.natAbs

def hex (n : Nat) : Bytes := digits 16 n

/-- The last `width` hexadecimal digits of `n`, with leading zeros. -/
def hexPadded (width n : Nat) : Bytes :=
  let ds := hex n
  List.replicate (width - ds.length) (byte '0') ++ ds

/-- Pieces put together with `sep` between neighbours. -/
def join (sep : Bytes) (pieces : List Bytes) : Bytes := (pieces.intersperse sep).flatten

def newline : UInt8 := 10

/-- Cuts at every `sep`; the pieces joined by `sep` give the text back, so there is one more
piece than separators. -/
def split (sep : UInt8) (s : Bytes) : List Bytes := go [] s
where
  go (piece : Bytes) : Bytes → List Bytes
    | [] => [piece.reverse]
    | c :: rest => if c = sep then piece.reverse :: go [] rest else go (c :: piece) rest

/-- Cuts behind every newline; no piece is empty and the pieces concatenate to the text. -/
def splitLines (s : Bytes) : List Bytes := go [] s
where
  go (piece : Bytes) : Bytes → List Bytes
    | [] => if piece.isEmpty then [] else [piece.reverse]
    | c :: rest =>
      if c = newline then (c :: piece).reverse :: go [] rest else go (c :: piece) rest

def dropRightWhile (p : UInt8 → Bool) (s : Bytes) : Bytes := (s.reverse.dropWhile p).reverse

def stripPrefix? (p s : Bytes) : Option Bytes :=
  if p.isPrefixOf s then some (s.drop p.length) else none

/-- Whether `p` occurs somewhere in the text. -/
def occursIn (p : Bytes) : Bytes → Bool
  | [] => p.isEmpty
  | c :: rest => p.isPrefixOf (c :: rest) || occursIn p rest

/-- Byte order, the shorter of two comparable texts first. -/
def le : Bytes → Bytes → Bool
  | [], _ => true
  | _ :: _, [] => false
  | a :: as, b :: bs => a < b || (a == b && le as bs)

/-- Texts in byte order. -/
def sort (xs : List Bytes) : List Bytes := xs.mergeSort le

def padRight (width : Nat) (s : Bytes) : Bytes :=
  s ++ List.replicate (width - s.length) (byte ' ')

end Bytes
end Disguise
