import Disguise.Text.Utf8

/-!
JSON values and their indented text. Numbers keep their spelling and objects the order of their
members.
-/
namespace Disguise

inductive Json where
  | null
  | bool (b : Bool)
  | number (raw : Bytes)
  | string (s : Bytes)
  | array (items : List Json)
  | object (members : List (Bytes × Json))

namespace Json
open Bytes

def int (n : Int) : Json := .number (decimal n)

def quoteMark : UInt8 := byte '"'
def backslash : UInt8 := byte '\\'

/-- Escapes of one letter. -/
def letters : List (Nat × Char) := [(8, 'b'), (12, 'f'), (10, 'n'), (13, 'r'), (9, 't')]

/-- Characters that are written as numbers although they could stand for themselves: those that
matter in markup, and two line separators. -/
def guarded : List Nat := [0x3C, 0x3E, 0x26, 0x2028, 0x2029]

def escapeCode (c : Nat) : Bytes :=
  if c = quoteMark.toNat || c = backslash.toNat then [backslash, c.toUInt8]
  else match letters.lookup c with
    | some l => [backslash, byte l]
    | none =>
      if c < 0x20 || guarded.contains c then [backslash, byte 'u'] ++ hexPadded 4 c
      else Utf8.encode c

/-- A byte that is no UTF-8 is written as the replacement character. -/
def escapePiece (p : Utf8.Piece) : Bytes :=
  match p.code with
  | some c => escapeCode c
  | none => [backslash, byte 'u'] ++ hexPadded 4 Utf8.replacement

def renderString (s : Bytes) : Bytes :=
  quoteMark :: (Utf8.pieces s).flatMap escapePiece ++ [quoteMark]

/-- A new line at a depth of nesting. -/
def lineAt (depth : Nat) : Bytes := newline :: List.replicate depth (byte '\t')

/-- Items in brackets, each on a line of its own. -/
def enclose (opening closing : UInt8) (depth : Nat) (items : List Bytes) : Bytes :=
  if items.isEmpty then [opening, closing]
  else
    opening :: join [byte ','] (items.map fun item => lineAt (depth + 1) ++ item) ++
      lineAt depth ++ [closing]

mutual
/-- The text of a value at a depth of nesting. -/
def renderAt (depth : Nat) : Json → Bytes
  | .null => text "null"
  | .bool b => text (if b then "true" else "false")
  | .number raw => raw
  | .string s => renderString s
  | .array items => enclose (byte '[') (byte ']') depth (renderItems (depth + 1) items)
  | .object members => enclose 0x7B 0x7D depth (renderMembers (depth + 1) members)

def renderItems (depth : Nat) : List Json → List Bytes
  | [] => []
  | j :: rest => renderAt depth j :: renderItems depth rest

def renderMembers (depth : Nat) : List (Bytes × Json) → List Bytes
  | [] => []
  | (name, j) :: rest =>
    (renderString name ++ text ": " ++ renderAt depth j) :: renderMembers depth rest
end

/-- The text of a value, indented with tabs. -/
def render (j : Json) : Bytes := renderAt 0 j

end Json
end Disguise
