import Disguise.Config.Comments
import Disguise.Config.Field
import Disguise.Json.Reader
import Disguise.Text.Numeral

/-!
Configurations from JSON. The whole value is read before any of its members is looked at, and of
the members that are not right the first one is reported.
-/
namespace Disguise.Config
open Bytes

/-- Why a text gives no configuration. -/
inductive ReadFault where
  | malformed
  | wrongType
  | unknownField (name : Bytes)
  deriving DecidableEq, Repr

/-- A letter in upper case; two letters beyond ASCII have an ASCII letter for their upper case. -/
def foldCode (c : Nat) : Nat :=
  if 0x61 ≤ c && c ≤ 0x7A then c - 32
  else if c = 0x17F then 0x53
  else if c = 0x212A then 0x4B
  else c

def folded (name : Bytes) : List Nat :=
  (Utf8.pieces name).map fun p => foldCode (p.code.getD Utf8.replacement)

/-- A field by its name, or by a name that differs in case only. -/
def findField? (name : Bytes) : Option Field :=
  (fields.find? (·.name == name)).or (fields.find? fun f => folded f.name == folded name)

/-- The elements of a list; one that is null keeps the element that stood there before. -/
def namesOf? (old : List Bytes) : List Json → Option (List Bytes)
  | [] => some []
  | .string s :: rest => (namesOf? old.tail rest).map (s :: ·)
  | .null :: rest => (namesOf? old.tail rest).map (old.headD [] :: ·)
  | _ :: _ => none

/-- A configuration on its way, and what has stood in the places of its list. Places behind the end
of a list keep what was in them until the list is emptied. -/
structure Progress where
  config : Config := {}
  places : List Bytes := []

def Progress.clear (p : Progress) (set : Config → List Bytes → Config) : Progress :=
  { config := set p.config [], places := [] }

def Progress.fill (p : Progress) (set : Config → List Bytes → Config) (names : List Bytes) :
    Progress :=
  if names.isEmpty then p.clear set
  else { config := set p.config names, places := names ++ p.places.drop names.length }

/-- Puts a value into a slot. Null leaves flags and numbers as they are and empties a list. -/
def Slot.read? (p : Progress) : Slot → Json → Option Progress
  | .flag _ set, .bool b => some { p with config := set p.config b }
  | .number _ set, .number raw =>
    (Numeral.decimal raw).toOption.map fun n => { p with config := set p.config n }
  | .names _ set, .array items => (namesOf? p.places items).map (p.fill set)
  | .names _ set, .null => some (p.clear set)
  | _, .null => some p
  | _, _ => none

/-- Takes over members from left to right. -/
def readMembers (p : Progress) : List (Bytes × Json) → Except ReadFault Config
  | [] => .ok p.config
  | (name, value) :: rest =>
    match findField? name with
    | none => .error (.unknownField name)
    | some f =>
      match f.slot.read? p value with
      | some p => readMembers p rest
      | none => .error .wrongType

/-- The configuration of a JSON text with comment lines. -/
def ofJsonText (s : Bytes) : Except ReadFault Config :=
  match Json.first? (stripComments s) with
  | none => .error .malformed
  | some (.object members) => readMembers {} members
  | some .null => .ok {}
  | some _ => .error .wrongType

end Disguise.Config
