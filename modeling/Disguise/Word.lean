import Disguise.Violation

/-!
Machine words of one to sixty-four bits, held in a `UInt64`. Widths come from programs and may be
anything, so an operation that needs a proper width refuses the others.
-/
namespace Disguise.Word

def maxBits : Nat := 64

def goodWidth (bits : Int) : Bool := 0 < bits && bits ≤ 64

/-- All ones in the low `bits` places. -/
def ones (bits : Nat) : UInt64 :=
  if bits < 64 then (1 <<< bits.toUInt64) - 1 else 0xFFFFFFFFFFFFFFFF

/-- The low `bits` bits of a word. -/
def low (v : UInt64) (bits : Nat) : UInt64 := v &&& ones bits

/-- The low `bits` bits, for a width from one to sixty-four. -/
def truncate (v : UInt64) (bits : Int) : Except Violation UInt64 :=
  if goodWidth bits then .ok (low v bits.toNat) else .error (.badWidth bits)

def mask (bits : Int) : Except Violation UInt64 := truncate 0xFFFFFFFFFFFFFFFF bits

def fits (v : UInt64) (bits : Int) : Bool := low v bits.toNat == v

/-- The low `bits` bits as a signed word: they are moved to the top and back down with their sign;
zero at an improper width. -/
def extend (v : UInt64) (bits : Int) : Int64 :=
  if goodWidth bits then (v <<< UInt64.ofInt (64 - bits)).toInt64 >>> Int64.ofInt (64 - bits) else 0

/-- The two's-complement reading of the low `bits` bits; zero at an improper width. -/
def signed (v : UInt64) (bits : Int) : Int := (extend v bits).toInt

end Disguise.Word
