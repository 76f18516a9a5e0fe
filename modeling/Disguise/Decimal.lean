import Disguise.Ieee
import Disguise.Text.Bytes

/-!
Decimal texts of binary floating point numbers: the fewest digits that read back as the same
number, and the nearest integer. Both work on the exact value.
-/
namespace Disguise.Decimal

open Bytes

/-- Decimal digits with the place of the point: the value is `0.digits * 10 ^ point`. -/
structure Digits where
  digits : Nat
  point : Int
  deriving DecidableEq, Repr

/-- The number of digits before the point of `num / den`, less the zeros right behind it. The bound
on the zeros is enough for every double. -/
def magnitude (num den : Nat) : Int :=
  if den ≤ num then (decimalNat (num / den)).length
  else -(((List.range 400).find? fun z => den ≤ num * Nat.pow 10 (z + 1)).getD 0 : Nat)

/-- The positive numbers `value / unit` that lie within a range, whose ends may belong to it. -/
structure Range where
  value : Nat
  lo : Nat
  hi : Nat
  unit : Nat
  closed : Bool

def Range.holds (r : Range) (num den : Nat) : Bool :=
  if r.closed then r.lo * den ≤ num * r.unit && num * r.unit ≤ r.hi * den
  else r.lo * den < num * r.unit && num * r.unit < r.hi * den

/-- The reals that are rounded to `mantissa * 2 ^ exponent`. The gap below a power of two is half as
wide as the one above it. -/
def Range.ofFinite (F : Ieee.Format) (mantissa : Nat) (exponent : Int) : Range :=
  let up := Nat.pow 2 exponent.toNat
  let narrow := mantissa = Nat.pow 2 F.fractionBits && F.leastExponent < exponent
  { value := 4 * mantissa * up
    lo := (4 * mantissa - (if narrow then 1 else 2)) * up
    hi := (4 * mantissa + 2) * up
    unit := 4 * Nat.pow 2 (-exponent).toNat
    closed := mantissa % 2 = 0 }

/-- The nearer of the two neighbours with `n` digits that lie in the range. -/
def Range.shortened? (r : Range) (point : Int) (n : Nat) : Option Nat :=
  let up := Nat.pow 10 (n - point).toNat
  let down := Nat.pow 10 (point - n).toNat
  let q := r.value * up / (r.unit * down)
  let rest := 2 * (r.value * up % (r.unit * down))
  let downward := rest < r.unit * down || (rest = r.unit * down && q % 2 = 0)
  (if downward then [q, q + 1] else [q + 1, q]).find? fun d => r.holds (d * down) up

/-- The fewest digits that are rounded to the number; seventeen are enough for a double. -/
def shortest (F : Ieee.Format) (mantissa : Nat) (exponent : Int) : Digits :=
  let r := Range.ofFinite F mantissa exponent
  let point := magnitude r.value r.unit
  let found := (List.range 17).findSome? fun n =>
    (r.shortened? point (n + 1)).map fun d => (d, n + 1)
  match found with
  | some (d, n) => ⟨d, point + ((decimalNat d).length - n : Int)⟩
  | none => ⟨0, point⟩

/-- Digits without the zeros at the end. -/
def trimmed (d : Nat) : Bytes := (decimalNat d).dropRightWhile (· = byte '0')

def signed (negative : Bool) (s : Bytes) : Bytes := if negative then byte '-' :: s else s

def zeros (n : Int) : Bytes := List.replicate n.toNat (byte '0')

/-- Such as `12.5` and `0.001`. -/
def positional (digits : Bytes) (point : Int) : Bytes :=
  let whole := digits.take point.toNat ++ zeros (point - digits.length)
  let fraction := zeros (-point) ++ digits.drop point.toNat
  (if whole.isEmpty then text "0" else whole) ++
    (if fraction.isEmpty then [] else text "." ++ fraction)

/-- Such as `1.25e+06`; the exponent has two digits at least. -/
def scientific (digits : Bytes) (point : Int) : Bytes :=
  let exponent := point - 1
  let size := decimalNat exponent.natAbs
  digits.take 1 ++ (if digits.length ≤ 1 then [] else text "." ++ digits.drop 1) ++ text "e" ++
    text (if exponent < 0 then "-" else "+") ++ zeros (2 - size.length) ++ size

/-- The shortest text of a double; positional from `0.0001` up to, but not, a million. -/
def general (x : Float) : Bytes :=
  match Ieee.double.read x.toBits.toNat with
  | .nan => text "NaN"
  | .infinite negative => text (if negative then "-Inf" else "+Inf")
  | .finite negative mantissa exponent =>
    if mantissa = 0 then signed negative (text "0")
    else
      let d := shortest Ieee.double mantissa exponent
      let digits := trimmed d.digits
      signed negative <|
        if d.point < -3 || 6 < d.point then scientific digits d.point
        else positional digits d.point

/-- The nearest integer of a double, ties to even; the sign stays also at zero. -/
def whole (x : Float) : Bytes :=
  match Ieee.double.read x.toBits.toNat with
  | .nan => text "NaN"
  | .infinite negative => text (if negative then "-Inf" else "+Inf")
  | .finite negative mantissa exponent =>
    signed negative <| decimalNat <|
      Ieee.Format.roundEven (mantissa * Nat.pow 2 exponent.toNat) (Nat.pow 2 (-exponent).toNat)

/-- A number cut toward zero; the least signed word of 64 bits if it does not fit into one. -/
def cut (x : Float) : Int :=
  if -0x8000000000000000 ≤ x && x < 0x8000000000000000 then x.toInt64.toInt
  else Int64.minValue.toInt

end Disguise.Decimal
