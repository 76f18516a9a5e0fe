import Disguise.Text.Bytes

/-!
Bytes written in the base 64 alphabet, four characters for every three bytes. The last group is
filled up with equals signs; line breaks may stand anywhere.
-/
namespace Disguise.Base64
open Bytes

def filler : UInt8 := byte '='

def digit? (b : UInt8) : Option Nat :=
  if byte 'A' ≤ b && b ≤ byte 'Z' then some (b.toNat - 65)
  else if byte 'a' ≤ b && b ≤ byte 'z' then some (b.toNat - 71)
  else if byte '0' ≤ b && b ≤ byte '9' then some (b.toNat + 4)
  else if b = byte '+' then some 62
  else if b = byte '/' then some 63
  else none

/-- The bytes of a group, most significant first. -/
def group (n : Nat) : Bytes := [(n / 65536).toUInt8, (n / 256).toUInt8, n.toUInt8]

def decodeGroups? : Bytes → Option Bytes
  | [] => some []
  | a :: b :: c :: d :: rest => do
    let high := (← digit? a) * 64 + (← digit? b)
    if d = filler then
      if !rest.isEmpty then none
      else if c = filler then pure ((group (high * 4096)).take 1)
      else pure ((group ((high * 64 + (← digit? c)) * 64)).take 2)
    else
      let n := (high * 64 + (← digit? c)) * 64 + (← digit? d)
      pure (group n ++ (← decodeGroups? rest))
  | _ => none

def decode? (s : Bytes) : Option Bytes :=
  decodeGroups? (s.filter fun b => b ≠ newline && b ≠ byte '\r')

end Disguise.Base64
