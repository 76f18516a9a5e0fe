import Disguise.Arithmetic

/-!
Binary floating point on bit patterns, in exact integer arithmetic. `Format.quotient` rounds the
exact quotient to nearest, ties to even; `Format.remainder` is the exact remainder of a division
that is cut toward zero, with the sign of the dividend. They make up a `FloatUnit` that can be
run; where a result is no number it gives one fixed pattern.
-/
namespace Disguise.Ieee

/-- A binary interchange format: the number of fraction and exponent bits, and the pattern given
for a result that is no number. -/
structure Format where
  fractionBits : Nat
  exponentBits : Nat
  nan : Nat

def single : Format := ⟨23, 8, 0x7FC00000⟩

def double : Format := ⟨52, 11, 0x7FF8000000000001⟩

/-- What a bit pattern stands for; a finite number is `mantissa * 2 ^ exponent` up to sign. -/
inductive Reading where
  | nan
  | infinite (negative : Bool)
  | finite (negative : Bool) (mantissa : Nat) (exponent : Int)
  deriving DecidableEq, Repr

namespace Format
variable (F : Format)

def signBit : Nat := Nat.pow 2 (F.fractionBits + F.exponentBits)

/-- The pattern of positive infinity. -/
def infinity : Nat := (Nat.pow 2 F.exponentBits - 1) * Nat.pow 2 F.fractionBits

/-- The exponent of the least positive number. -/
def leastExponent : Int := 2 - Nat.pow 2 (F.exponentBits - 1) - F.fractionBits

def read (pattern : Nat) : Reading :=
  let negative := F.signBit ≤ pattern % (2 * F.signBit)
  let magnitude := pattern % F.signBit
  let fraction := magnitude % Nat.pow 2 F.fractionBits
  let exponent := magnitude / Nat.pow 2 F.fractionBits
  if F.infinity < magnitude then .nan
  else if magnitude = F.infinity then .infinite negative
  else if exponent = 0 then .finite negative fraction F.leastExponent
  else .finite negative (Nat.pow 2 F.fractionBits + fraction) (F.leastExponent + (exponent - 1))

def withSign (negative : Bool) (magnitude : Nat) : Nat :=
  if negative then F.signBit + magnitude else magnitude

/-- `num / den` rounded to an integer, ties to even. -/
def roundEven (num den : Nat) : Nat :=
  let q := num / den
  let twice := 2 * (num % den)
  if den < twice || (twice = den && q % 2 = 1) then q + 1 else q

/-- The magnitude nearest to `num / den * 2 ^ exponent`, for positive `num` and `den`. -/
def nearest (num den : Nat) (exponent : Int) : Nat :=
  let guess : Int := (num.log2 : Int) - den.log2
  let below := num * Nat.pow 2 (-guess).toNat < den * Nat.pow 2 guess.toNat
  let top : Int := guess + exponent - (if below then 1 else 0)
  let unit := max (top - F.fractionBits) F.leastExponent
  let shift := unit - exponent
  let digits := roundEven (num * Nat.pow 2 (-shift).toNat) (den * Nat.pow 2 shift.toNat)
  min ((unit - F.leastExponent).toNat * Nat.pow 2 F.fractionBits + digits) F.infinity

def quotient (x y : Nat) : Nat :=
  match F.read x, F.read y with
  | .nan, _ | _, .nan | .infinite _, .infinite _ => F.nan
  | .infinite s, .finite t _ _ => F.withSign (s != t) F.infinity
  | .finite s _ _, .infinite t => F.withSign (s != t) 0
  | .finite s m e, .finite t n f =>
    if n = 0 then if m = 0 then F.nan else F.withSign (s != t) F.infinity
    else if m = 0 then F.withSign (s != t) 0
    else F.withSign (s != t) (F.nearest m n (e - f))

def remainder (x y : Nat) : Nat :=
  match F.read x, F.read y with
  | .nan, _ | _, .nan | .infinite _, _ => F.nan
  | .finite .., .infinite _ => x
  | .finite s m e, .finite _ n f =>
    if n = 0 then F.nan
    else
      let unit := min e f
      let r := (m * Nat.pow 2 (e - unit).toNat) % (n * Nat.pow 2 (f - unit).toNat)
      F.withSign s (if r = 0 then 0 else F.nearest r 1 unit)

def isNan (pattern : Nat) : Bool := F.read pattern == .nan

def apply (code : Opcode) (x y : Nat) : Nat :=
  if code = .fdiv then F.quotient x y else F.remainder x y

end Format

instance : FloatUnit where
  single code x y := .ofNat (single.apply code x.toNat y.toNat)
  double code x y := .ofNat (double.apply code x.toNat y.toNat)

end Disguise.Ieee
