import Disguise.Json.Basic
import Disguise.Text.Quoted

/-!
Reading JSON. The first value of a text is read and what follows it is left alone; a literal or a
number ends where it is complete. Nesting is bounded.
-/
namespace Disguise.Json
open Bytes

def maxDepth : Nat := 10000

def isSpace (b : UInt8) : Bool := b = byte ' ' || b = byte '\t' || b = newline || b = byte '\r'

def isDigit (b : UInt8) : Bool := byte '0' ≤ b && b ≤ byte '9'

/-- One digit or more, and the rest. -/
def digits? (s : Bytes) : Option (Bytes × Bytes) :=
  let ds := s.takeWhile isDigit
  if ds.isEmpty then none else some (ds, s.dropWhile isDigit)

/-- An integer part: a zero that stands alone, or digits that start with another one. -/
def wholePart? (s : Bytes) : Option (Bytes × Bytes) :=
  match s with
  | b :: rest => if b = byte '0' then some ([b], rest) else digits? s
  | [] => none

def fraction? (s : Bytes) : Option (Bytes × Bytes) :=
  match s with
  | b :: rest =>
    if b = byte '.' then (digits? rest).map fun (ds, r) => (b :: ds, r) else some ([], s)
  | [] => some ([], s)

def exponent? (s : Bytes) : Option (Bytes × Bytes) :=
  match s with
  | b :: rest =>
    if b = byte 'e' || b = byte 'E' then
      let (mark, ds) := match rest with
        | c :: r => if c = byte '+' || c = byte '-' then ([b, c], r) else ([b], rest)
        | [] => ([b], [])
      (digits? ds).map fun (ds, r) => (mark ++ ds, r)
    else some ([], s)
  | [] => some ([], s)

def number? (s : Bytes) : Option (Bytes × Bytes) := do
  let (sign, s) := match s with
    | b :: rest => if b = byte '-' then ([b], rest) else ([], s)
    | [] => ([], s)
  let (whole, s) ← wholePart? s
  let (fraction, s) ← fraction? s
  let (exponent, s) ← exponent? s
  pure (sign ++ whole ++ fraction ++ exponent, s)

/-- The code unit written by four hexadecimal digits. -/
def unit? (s : Bytes) : Option (Nat × Bytes) :=
  (Quoted.number? 16 4 Quoted.hexValue? s).map fun v => (v, s.drop 4)

/-- The second half of a surrogate pair behind its first half. -/
def secondHalf? (s : Bytes) : Option (Nat × Bytes) :=
  match s with
  | b :: u :: rest =>
    if b = backslash && u = byte 'u' then (unit? rest).filter fun (v, _) => 0xDC00 ≤ v && v ≤ 0xDFFF
    else none
  | _ => none

/-- A code point from a code unit; half a pair that stands alone is replaced. -/
def codeOf (v : Nat) (s : Bytes) : Nat × Bytes :=
  if !Utf8.isSurrogate v then (v, s)
  else match (secondHalf? s).filter fun _ => v < 0xDC00 with
    | some (w, rest) => (0x10000 + (v - 0xD800) * 1024 + (w - 0xDC00), rest)
    | none => (Utf8.replacement, s)

/-- What an escape stands for, and the rest behind it. -/
def escape? : Bytes → Option (Bytes × Bytes)
  | [] => none
  | e :: s =>
    if e = quoteMark || e = backslash || e = byte '/' then some ([e], s)
    else if e = byte 'u' then
      (unit? s).map fun (v, s) =>
        let (c, s) := codeOf v s
        (Utf8.encode c, s)
    else (letters.find? fun l => byte l.2 = e).map fun l => ([l.1.toUInt8], s)

/-- Reads up to the closing mark; `done` holds what was read, in reverse. -/
def stringFor : (fuel : Nat) → (done : Bytes) → Bytes → Option (Bytes × Bytes)
  | 0, _, _ => none
  | _, _, [] => none
  | fuel + 1, done, b :: s =>
    if b = quoteMark then some (done.reverse, s)
    else if b < 0x20 then none
    else if b = backslash then do
      let (out, s) ← escape? s
      stringFor fuel (out.reverse ++ done) s
    else stringFor fuel (b :: done) s

/-- Replaces every byte that is no UTF-8. -/
def repaired (s : Bytes) : Bytes :=
  (Utf8.pieces s).flatMap fun p => Utf8.encode (p.code.getD Utf8.replacement)

/-- The text of a string behind its opening mark. -/
def string? (fuel : Nat) (s : Bytes) : Option (Bytes × Bytes) :=
  (stringFor fuel [] s).map fun (out, rest) => (repaired out, rest)

/-- The values that are spelled by a word. -/
def words : List (Bytes × Json) :=
  [(text "null", .null), (text "true", .bool true), (text "false", .bool false)]

def word? (s : Bytes) : Option (Json × Bytes) :=
  words.findSome? fun (w, j) => (stripPrefix? w s).map fun rest => (j, rest)

/-- The rest behind the given byte, which has to come next. -/
def expect? (b : UInt8) (s : Bytes) : Option Bytes :=
  match s.dropWhile isSpace with
  | c :: rest => if c = b then some rest else none
  | [] => none

mutual
/-- A value whose nesting is at most `depth`. -/
def valueFor : (fuel depth : Nat) → Bytes → Option (Json × Bytes)
  | 0, _, _ => none
  | fuel + 1, depth, s =>
    let s := s.dropWhile isSpace
    match s with
    | [] => none
    | b :: rest =>
      if b = byte '[' then
        if depth = 0 then none
        else match expect? (byte ']') rest with
          | some rest => some (.array [], rest)
          | none => (itemsFor fuel (depth - 1) [] rest).map fun (items, s) => (.array items, s)
      else if b = 0x7B then
        if depth = 0 then none
        else match expect? 0x7D rest with
          | some rest => some (.object [], rest)
          | none => (membersFor fuel (depth - 1) [] rest).map fun (ms, s) => (.object ms, s)
      else if b = quoteMark then (string? fuel rest).map fun (out, s) => (.string out, s)
      else if b = byte '-' || isDigit b then (number? s).map fun (raw, s) => (.number raw, s)
      else word? s

/-- Values up to a closing bracket; `done` holds those before them, in reverse. -/
def itemsFor : (fuel depth : Nat) → (done : List Json) → Bytes → Option (List Json × Bytes)
  | 0, _, _, _ => none
  | fuel + 1, depth, done, s =>
    match valueFor fuel depth s with
    | none => none
    | some (j, s) =>
      match expect? (byte ',') s with
      | some s => itemsFor fuel depth (j :: done) s
      | none => (expect? (byte ']') s).map fun s => ((j :: done).reverse, s)

/-- Members up to a closing brace; `done` holds those before them, in reverse. -/
def membersFor : (fuel depth : Nat) → (done : List (Bytes × Json)) → Bytes →
    Option (List (Bytes × Json) × Bytes)
  | 0, _, _, _ => none
  | fuel + 1, depth, done, s =>
    match (expect? quoteMark s).bind (string? fuel) with
    | none => none
    | some (name, s) =>
      match (expect? (byte ':') s).bind (valueFor fuel depth) with
      | none => none
      | some (j, s) =>
        match expect? (byte ',') s with
        | some s => membersFor fuel depth ((name, j) :: done) s
        | none => (expect? 0x7D s).map fun s => (((name, j) :: done).reverse, s)
end

/-- The first value of a text. Every step takes a byte or goes one level down, so twice the length
is fuel enough. -/
def first? (s : Bytes) : Option Json := (valueFor (2 * s.length + 2) maxDepth s).map (·.1)

end Disguise.Json
