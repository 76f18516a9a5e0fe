import Disguise.Text.Bytes

/-!
Integer numerals. `natural` reads a digit string from the left, so of a bad digit and an overflow
the one that comes first is reported. `anyBase` adds base marks and digit separators.
-/
namespace Disguise.Numeral
open Bytes

inductive Fault where
  | malformed
  | outOfRange
  deriving DecidableEq, Repr

def digit? (b : UInt8) : Option Nat :=
  if byte '0' ≤ b && b ≤ byte '9' then some (b.toNat - 48)
  else if byte 'a' ≤ b && b ≤ byte 'z' then some (b.toNat - 87)
  else if byte 'A' ≤ b && b ≤ byte 'Z' then some (b.toNat - 55)
  else none

/-- Adds digits to `acc`, refusing values of `limit` and more. -/
def accumulate (base limit : Nat) : Nat → Bytes → Except Fault Nat
  | acc, [] => .ok acc
  | acc, b :: s =>
    match digit? b with
    | none => .error .malformed
    | some d =>
      if base ≤ d then .error .malformed
      else if limit ≤ acc * base + d then .error .outOfRange
      else accumulate base limit (acc * base + d) s

/-- A nonempty digit string below `limit`. -/
def natural (base limit : Nat) (s : Bytes) : Except Fault Nat :=
  if s.isEmpty then .error .malformed else accumulate base limit 0 s

def underscore : UInt8 := 95

/-- Base and digits of a numeral whose base is told by its first characters. -/
def baseMark (s : Bytes) : Nat × Bytes :=
  match s with
  | z :: m :: d :: rest =>
    if z ≠ byte '0' then (10, s)
    else if m = byte 'b' || m = byte 'B' then (2, d :: rest)
    else if m = byte 'o' || m = byte 'O' then (8, d :: rest)
    else if m = byte 'x' || m = byte 'X' then (16, d :: rest)
    else (8, m :: d :: rest)
  | z :: rest => if z = byte '0' then (8, rest) else (10, s)
  | [] => (10, [])

/-- Separators stand between two digits, or between the base mark and a digit. -/
def separatorsFit : (digitBefore : Bool) → Bytes → Bool
  | digitBefore, [] => digitBefore
  | digitBefore, b :: s =>
    if b = underscore then digitBefore && separatorsFit false s else separatorsFit true s

/-- A numeral below `limit` with an optional base mark and digit separators. -/
def anyBase (limit : Nat) (s : Bytes) : Except Fault Nat :=
  if s.isEmpty then .error .malformed
  else
    let (base, ds) := baseMark s
    match accumulate base limit 0 (ds.filter (· ≠ underscore)) with
    | .error e => .error e
    | .ok n =>
      if ds.contains underscore && !separatorsFit (base ≠ 10) ds then .error .malformed
      else .ok n

/-- Splits an optional sign off; `true` for a minus. -/
def sign : Bytes → Bool × Bytes
  | b :: s =>
    if b = byte '-' then (true, s) else if b = byte '+' then (false, s) else (false, b :: s)
  | [] => (false, [])

/-- A signed numeral of 64 bits, its digits read by `magnitude`, which is given the least value
that does not fit. -/
def signed (magnitude : Nat → Bytes → Except Fault Nat) (s : Bytes) : Except Fault Int :=
  let (negative, ds) := sign s
  match magnitude UInt64.size ds with
  | .error e => .error e
  | .ok n =>
    if negative then if n ≤ UInt64.size / 2 then .ok (-n) else .error .outOfRange
    else if n < UInt64.size / 2 then .ok n else .error .outOfRange

/-- A signed decimal numeral of 64 bits. -/
def decimal (s : Bytes) : Except Fault Int := signed (natural 10) s

/-- A signed numeral of 64 bits with an optional base mark and digit separators. -/
def integer (s : Bytes) : Except Fault Int := signed anyBase s

end Disguise.Numeral
