import Disguise.Arithmetic
import Disguise.Proofs.Results
import Mathlib.Algebra.Group.Nat.Defs
import Mathlib.Tactic.Common

/-!
Words of a width as bit vectors. At a width from one to sixty-four, the operations that cannot fail
are those of `BitVec`, every result fits, and the failures of the others are the three that
programs can cause.
-/
namespace Disguise
open Results

namespace Word

theorem goodWidth_iff {bits : Int} :
    goodWidth bits ↔ ∃ w : Nat, bits = w ∧ 0 < w ∧ w ≤ 64 := by
  simp only [goodWidth, Bool.and_eq_true, decide_eq_true_eq]
  constructor
  · rintro ⟨h1, h2⟩
    exact ⟨bits.toNat, by omega, by omega, by omega⟩
  · rintro ⟨w, rfl, h1, h2⟩
    omega

theorem toNat_ones {w : Nat} (hw : w ≤ 64) : (ones w).toNat = 2 ^ w - 1 := by
  unfold ones
  split
  · rename_i hlt
    have hpow : 2 ^ w < 2 ^ 64 := Nat.pow_lt_pow_right (by omega) hlt
    have hshift : ((1 : UInt64) <<< w.toUInt64).toNat = 2 ^ w := by
      rw [UInt64.toNat_shiftLeft]
      have hmod : w.toUInt64.toNat % 64 = w := by
        simp
        omega
      rw [hmod]
      simp only [UInt64.toNat_one, Nat.one_shiftLeft]
      exact Nat.mod_eq_of_lt hpow
    rw [UInt64.toNat_sub_of_le _ _ (by
      rw [UInt64.le_iff_toNat_le, hshift]
      exact Nat.one_le_two_pow), hshift]
    rfl
  · have : w = 64 := by omega
    subst this
    rfl

theorem toNat_low (v : UInt64) {w : Nat} (hw : w ≤ 64) : (low v w).toNat = v.toNat % 2 ^ w := by
  rw [low, UInt64.toNat_and, toNat_ones hw, Nat.and_two_pow_sub_one_eq_mod]

theorem fits_iff {v : UInt64} {bits : Int} (h : goodWidth bits) :
    fits v bits ↔ v.toNat < 2 ^ bits.toNat := by
  obtain ⟨w, rfl, h1, h2⟩ := goodWidth_iff.1 h
  simp only [fits, Int.toNat_natCast, beq_iff_eq, ← UInt64.toNat_inj, toNat_low v h2]
  exact Nat.mod_eq_iff_lt (Nat.ne_of_gt (Nat.two_pow_pos w))

theorem truncate_of_good {bits : Int} (h : goodWidth bits) (v : UInt64) :
    truncate v bits = .ok (low v bits.toNat) := by
  simp [truncate, h]

theorem fits_low {bits : Int} (h : goodWidth bits) (v : UInt64) : fits (low v bits.toNat) bits := by
  rw [fits_iff h]
  obtain ⟨w, rfl, h1, h2⟩ := goodWidth_iff.1 h
  rw [Int.toNat_natCast, toNat_low v h2]
  exact Nat.mod_lt _ (Nat.two_pow_pos w)

/-- The word with the bits of a vector. -/
def ofBits {w : Nat} (a : BitVec w) : UInt64 := ⟨a.setWidth 64⟩

/-- The low bits of a word as a vector. -/
def toBits (w : Nat) (v : UInt64) : BitVec w := v.toBitVec.setWidth w

theorem toBits_ofBits {w : Nat} (hw : w ≤ 64) (a : BitVec w) : toBits w (ofBits a) = a := by
  simp [toBits, ofBits, BitVec.setWidth_setWidth_of_le, hw]

theorem low_eq_ofBits (v : UInt64) {w : Nat} (hw : w ≤ 64) : low v w = ofBits (toBits w v) := by
  rw [← UInt64.toNat_inj, toNat_low v hw]
  have hlt : v.toNat % 2 ^ w < 2 ^ 64 :=
    Nat.lt_of_lt_of_le (Nat.mod_lt _ (Nat.two_pow_pos w)) (Nat.pow_le_pow_right (by omega) hw)
  simp only [ofBits, toBits, UInt64.toNat, BitVec.toNat_setWidth]
  exact (Nat.mod_eq_of_lt hlt).symm

/-- A word that fits is the word of its low bits. -/
theorem ofBits_toBits {v : UInt64} {w : Nat} (hw : w ≤ 64) (h : fits v w) :
    ofBits (toBits w v) = v := by
  rw [← low_eq_ofBits v hw]
  simpa [fits] using h

theorem toNat_ofInt_natCast {n : Nat} (hn : n < 2 ^ 64) : (UInt64.ofInt (n : Int)).toNat = n := by
  simp [UInt64.ofInt]
  omega

theorem toNat_one_shiftLeft {n : Nat} (hn : n < 64) :
    ((1 : UInt64) <<< UInt64.ofInt (n : Int)).toNat = 2 ^ n := by
  rw [UInt64.toNat_shiftLeft, toNat_ofInt_natCast (by omega), Nat.mod_eq_of_lt hn,
    UInt64.toNat_one, Nat.one_shiftLeft]
  exact Nat.mod_eq_of_lt (Nat.pow_lt_pow_right (by decide) hn)

/-- A shift of a signed word by less than sixty-four. -/
theorem toBitVec_shiftRight (a : Int64) {b : Int64} (hb : b.toBitVec.toNat < 64) :
    (a >>> b).toBitVec = a.toBitVec.sshiftRight b.toBitVec.toNat := by
  have hmsb : b.toBitVec.msb = false := by
    rw [BitVec.msb_eq_false_iff_two_mul_lt]
    omega
  have hmod : (b.toBitVec.smod 64).toNat = b.toBitVec.toNat := by
    rw [BitVec.toNat_smod, hmsb, show (64 : BitVec 64).msb = false by decide]
    exact Nat.mod_eq_of_lt hb
  rw [Int64.toBitVec_shiftRight, BitVec.sshiftRight_eq', hmod]

/-- Moving up and back down carries the sign of the low bits over the word. -/
theorem toBitVec_extend {w : Nat} (h1 : 0 < w) (h2 : w ≤ 64) (v : UInt64) :
    (extend v w).toBitVec = (toBits w v).signExtend 64 := by
  have hg : goodWidth (w : Int) := goodWidth_iff.2 ⟨w, rfl, h1, h2⟩
  have hspare : ((64 : Int) - w) = ((64 - w : Nat) : Int) := by omega
  have hup : (v <<< UInt64.ofInt (64 - w)).toBitVec = v.toBitVec <<< (64 - w) := by
    rw [UInt64.toBitVec_shiftLeft, hspare]
    have : (UInt64.ofInt ((64 - w : Nat) : Int)).toBitVec.toNat = 64 - w :=
      toNat_ofInt_natCast (by omega)
    rw [BitVec.shiftLeft_eq', BitVec.toNat_umod, this]
    congr 1
    exact Nat.mod_eq_of_lt (show 64 - w < 64 by omega)
  have hdown : (Int64.ofInt (64 - w)).toBitVec.toNat = 64 - w := by
    rw [hspare, Int64.toBitVec_ofInt, BitVec.toNat_ofInt]
    omega
  rw [extend, if_pos hg, toBitVec_shiftRight _ (by rw [hdown]; omega), hdown,
    UInt64.toBitVec_toInt64, hup]
  ext i hi
  rw [BitVec.getElem_sshiftRight, BitVec.getElem_signExtend]
  by_cases hiw : i < w
  · rw [dif_pos (by omega), dif_pos hiw, BitVec.getElem_shiftLeft, toBits, BitVec.getElem_setWidth,
      BitVec.getLsbD_eq_getElem hi]
    simp
  · rw [dif_neg (by omega), dif_neg hiw, BitVec.msb_shiftLeft, BitVec.getMsbD_eq_getLsbD]
    simp [toBits, BitVec.msb_setWidth, h1, show 64 - 1 - (64 - w) = w - 1 by omega,
      show 64 - w < 64 by omega]

theorem toNat_ofBits {w : Nat} (hw : w ≤ 64) (a : BitVec w) : (ofBits a).toNat = a.toNat :=
  (BitVec.toNat_setWidth ..).trans
    (Nat.mod_eq_of_lt (Nat.lt_of_lt_of_le a.isLt (Nat.pow_le_pow_right (by decide) hw)))

theorem toNat_toBits (w : Nat) (v : UInt64) : (toBits w v).toNat = v.toNat % 2 ^ w :=
  BitVec.toNat_setWidth ..

/-- The signed reading of a word is that of its low bits. -/
theorem toInt_extend {w : Nat} (h1 : 0 < w) (h2 : w ≤ 64) (v : UInt64) :
    (extend v w).toInt = (toBits w v).toInt := by
  rw [← Int64.toInt_toBitVec, toBitVec_extend h1 h2, BitVec.toInt_signExtend_of_le h2]

/-- The low bits of a signed word, by the number it stands for. -/
theorem toBits_toUInt64 {w : Nat} (hw : w ≤ 64) (v : Int64) :
    toBits w v.toUInt64 = BitVec.ofInt w v.toInt := by
  rw [← BitVec.toInt_inj, toBits, Int64.toBitVec_toUInt64, BitVec.toInt_setWidth,
    BitVec.toInt_ofInt, ← Int64.toInt_toBitVec, BitVec.toInt_eq_toNat_bmod,
    Int.bmod_bmod_of_dvd (Nat.pow_dvd_pow 2 hw)]

end Word

namespace Arithmetic
open Word
variable {w : Nat} (h1 : 0 < w) (h2 : w ≤ 64)

theorem cut_of_good {bits : Int} (h : goodWidth bits) (v : UInt64) :
    cut v bits = .ok (low v bits.toNat) := by
  rw [cut, truncate_of_good h, mapError_ok]

include h1 h2

theorem cut_eq_ofBits (v : UInt64) : cut v w = .ok (ofBits (toBits w v)) := by
  have hg : goodWidth (w : Int) := goodWidth_iff.2 ⟨w, rfl, h1, h2⟩
  rw [cut_of_good hg, Int.toNat_natCast, low_eq_ofBits v h2]

/-- What an operation that cannot fail does to vectors. -/
def onBits (code : Opcode) (a b : BitVec w) : BitVec w :=
  match code with
  | .add => a + b
  | .sub => a - b
  | .mul => a * b
  | .and => a &&& b
  | .or => a ||| b
  | _ => a ^^^ b

theorem evalBinary_ofBits [FloatUnit] {code : Opcode}
    (hc : code ∈ [Opcode.add, .sub, .mul, .and, .or, .xor]) (a b : BitVec w) :
    evalBinary code w (ofBits a) (ofBits b) = .ok (ofBits (onBits code a b)) := by
  have hback : ∀ c : BitVec w, (c.setWidth 64).setWidth w = c := fun c => by
    simp [BitVec.setWidth_setWidth_of_le, h2]
  simp only [List.mem_cons, List.not_mem_nil, or_false] at hc
  rcases hc with rfl | rfl | rfl | rfl | rfl | rfl
  · rw [evalBinary, cut_eq_ofBits h1 h2]
    simp [toBits, ofBits, onBits, BitVec.setWidth_add _ _ h2, hback]
  · rw [evalBinary, cut_eq_ofBits h1 h2]
    simp [toBits, ofBits, onBits, BitVec.sub_eq_add_neg, BitVec.setWidth_add _ _ h2,
      BitVec.setWidth_neg_of_le h2, hback]
  · rw [evalBinary, cut_eq_ofBits h1 h2]
    simp [toBits, ofBits, onBits, BitVec.setWidth_mul _ _ h2, hback]
  · rw [evalBinary, cut_eq_ofBits h1 h2]
    simp [toBits, ofBits, onBits, hback]
  · rw [evalBinary, cut_eq_ofBits h1 h2]
    simp [toBits, ofBits, onBits, hback]
  · rw [evalBinary, cut_eq_ofBits h1 h2]
    simp [toBits, ofBits, onBits, hback]

theorem evalUnary_not_ofBits (a : BitVec w) :
    evalUnary .not w (ofBits a) = .ok (ofBits (~~~a)) := by
  rw [evalUnary, if_pos rfl, cut_eq_ofBits h1 h2]
  simp [toBits, ofBits, BitVec.setWidth_not h2, BitVec.setWidth_setWidth_of_le, h2]

theorem evalUnary_neg_ofBits (a : BitVec w) :
    evalUnary .neg w (ofBits a) = .ok (ofBits (-a)) := by
  rw [evalUnary, if_neg (by decide), cut_eq_ofBits h1 h2]
  simp [toBits, ofBits, BitVec.setWidth_neg_of_le h2, BitVec.setWidth_setWidth_of_le, h2]

end Arithmetic

/-- The failures that the operands of a program can cause. -/
def Fault.FromOperands (c : Fault) : Prop :=
  c = .divisionByZero ∨ c = .divisionOverflow ∨ c = .shiftTooWide

namespace Arithmetic
open Word

/-- Some unit there is: what is not about the values of floats may be proved with any. -/
instance : Nonempty FloatUnit :=
  ⟨⟨fun _ x _ => x, fun _ x _ => x⟩⟩

/-- A float result fits its width. -/
theorem float_eq_ok [FloatUnit] {code : Opcode} {bits : Int} {x y : UInt64}
    (hb : bits = 32 ∨ bits = 64) : ∃ z, float code bits x y = .ok z ∧ fits z bits := by
  rcases hb with rfl | rfl
  · refine ⟨_, by rw [float, if_pos rfl], ?_⟩
    rw [fits_iff (by decide), UInt32.toNat_toUInt64]
    exact UInt32.toNat_lt _
  · refine ⟨_, by rw [float, if_neg (by decide), if_pos rfl], ?_⟩
    rw [fits_iff (by decide)]
    exact UInt64.toNat_lt _

theorem cut_eq_ok {bits : Int} (hg : goodWidth bits) (v : UInt64) :
    ∃ z, cut v bits = .ok z ∧ fits z bits :=
  ⟨_, cut_of_good hg v, fits_low hg v⟩

theorem signedDivision_cases {bits : Int} (hg : goodWidth bits) (code : Opcode) (x y : UInt64) :
    (∃ z, signedDivision code bits x y = .ok z ∧ fits z bits) ∨
      ∃ c, signedDivision code bits x y = .error c ∧ c.FromOperands := by
  unfold signedDivision
  dsimp only
  split
  · exact .inr ⟨_, rfl, .inl rfl⟩
  · split
    · exact .inr ⟨_, rfl, .inr (.inl rfl)⟩
    · exact .inl (cut_eq_ok hg _)

theorem shift_cases {bits : Int} (hg : goodWidth bits) (code : Opcode) (x y : UInt64) :
    (∃ z, shift code bits x y = .ok z ∧ fits z bits) ∨
      ∃ c, shift code bits x y = .error c ∧ c.FromOperands := by
  unfold shift
  split
  · exact .inr ⟨_, rfl, .inr (.inr rfl)⟩
  · split
    · exact .inl (cut_eq_ok hg _)
    · split <;> exact .inl (cut_eq_ok hg _)

/-- At a proper width a binary operation gives a word that fits or fails through its operands. -/
theorem evalBinary_cases [FloatUnit] {code : Opcode} {bits : Int} (hc : code.isBinary)
    (hg : goodWidth bits) (hf : code.isFloat → bits = 32 ∨ bits = 64) (x y : UInt64) :
    (∃ z, evalBinary code bits x y = .ok z ∧ fits z bits) ∨
      ∃ c, evalBinary code bits x y = .error c ∧ c.FromOperands := by
  cases code <;> simp only [Opcode.isBinary, Bool.false_eq_true] at hc <;> unfold evalBinary
  case add => exact .inl (cut_eq_ok hg _)
  case sub => exact .inl (cut_eq_ok hg _)
  case mul => exact .inl (cut_eq_ok hg _)
  case and => exact .inl (cut_eq_ok hg _)
  case or => exact .inl (cut_eq_ok hg _)
  case xor => exact .inl (cut_eq_ok hg _)
  case udiv =>
    dsimp only
    split
    · exact .inr ⟨_, rfl, .inl rfl⟩
    · exact .inl (cut_eq_ok hg _)
  case urem =>
    dsimp only
    split
    · exact .inr ⟨_, rfl, .inl rfl⟩
    · exact .inl (cut_eq_ok hg _)
  case sdiv => exact signedDivision_cases hg _ x y
  case srem => exact signedDivision_cases hg _ x y
  case shl => exact shift_cases hg _ x y
  case lshr => exact shift_cases hg _ x y
  case ashr => exact shift_cases hg _ x y
  case fdiv => exact .inl (float_eq_ok (hf rfl))
  case frem => exact .inl (float_eq_ok (hf rfl))

theorem evalUnary_eq_ok {bits : Int} (hg : goodWidth bits) (code : Opcode) (x : UInt64) :
    ∃ z, evalUnary code bits x = .ok z ∧ fits z bits :=
  ⟨_, cut_of_good hg _, fits_low hg _⟩

end Arithmetic
end Disguise
