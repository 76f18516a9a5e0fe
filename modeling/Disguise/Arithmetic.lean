import Disguise.Opcode
import Disguise.Word

/-!
What a binary operation computes on words of a given width, and the three ways in which it can
have no result. Operands are taken as they are; only the result is cut to the width.
-/
namespace Disguise

/-- The floating-point unit of the machine: what a float operation makes of two bit patterns of
single or of double precision. It always gives a pattern; which one, and which of the patterns
that are no number in particular, is the machine's affair. -/
class FloatUnit where
  single : Opcode → UInt32 → UInt32 → UInt32
  double : Opcode → UInt64 → UInt64 → UInt64

/-- Why a computation on words stops without a value. -/
inductive Fault where
  | divisionByZero
  | divisionOverflow
  | shiftTooWide
  | notEvaluable (code : Opcode)
  | floatWidth (code : Opcode) (bits : Int)
  | violation (v : Violation)
  deriving DecidableEq, Repr

namespace Fault
open Bytes

def message : Fault → Bytes
  | divisionByZero => text "division by zero"
  | divisionOverflow => text "signed division overflow"
  | shiftTooWide => text "shift amount exceeds width"
  | notEvaluable code => text "can't evaluate " ++ code.name
  | floatWidth code bits => code.name ++ text " on i" ++ decimal bits
  | violation v => v.message.getD []

end Fault

namespace Arithmetic
open Word

def cut (v : UInt64) (bits : Int) : Except Fault UInt64 :=
  (truncate v bits).mapError .violation

/-- At width 32 the upper half of an operand is not looked at. -/
def float [FloatUnit] (code : Opcode) (bits : Int) (x y : UInt64) : Except Fault UInt64 :=
  if bits = 32 then .ok (FloatUnit.single code x.toUInt32 y.toUInt32).toUInt64
  else if bits = 64 then .ok (FloatUnit.double code x y)
  else .error (.floatWidth code bits)

/-- Signed division and remainder, cut toward zero. -/
def signedDivision (code : Opcode) (bits : Int) (x y : UInt64) : Except Fault UInt64 :=
  let a := extend x bits
  let b := extend y bits
  if b = 0 then .error .divisionByZero
  else if b = -1 ∧ x = 1 <<< UInt64.ofInt (bits - 1) then .error .divisionOverflow
  else cut (if code = .sdiv then a / b else a % b).toUInt64 bits

/-- Shifts by less than the width. At an improper width the amount is compared with the width
taken modulo `2 ^ 64`. -/
def shift (code : Opcode) (bits : Int) (x y : UInt64) : Except Fault UInt64 :=
  if UInt64.ofInt bits ≤ y then .error .shiftTooWide
  else if 64 ≤ y then cut 0 bits
  else match code with
    | .shl => cut (x <<< y) bits
    | .lshr => cut (x >>> y) bits
    | _ => cut (extend x bits >>> y.toInt64).toUInt64 bits

def evalBinary [FloatUnit] (code : Opcode) (bits : Int) (x y : UInt64) : Except Fault UInt64 :=
  match code with
  | .add => cut (x + y) bits
  | .sub => cut (x - y) bits
  | .mul => cut (x * y) bits
  | .and => cut (x &&& y) bits
  | .or => cut (x ||| y) bits
  | .xor => cut (x ^^^ y) bits
  | .udiv => if y = 0 then .error .divisionByZero else cut (x / y) bits
  | .urem => if y = 0 then .error .divisionByZero else cut (x % y) bits
  | .sdiv | .srem => signedDivision code bits x y
  | .shl | .lshr | .ashr => shift code bits x y
  | .fdiv | .frem => float code bits x y
  | _ => .error (.notEvaluable code)

def evalUnary (code : Opcode) (bits : Int) (x : UInt64) : Except Fault UInt64 :=
  cut (if code = .not then ~~~x else 0 - x) bits

end Arithmetic
end Disguise
