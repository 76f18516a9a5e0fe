import Disguise.Ieee
import Disguise.Proofs.Words

/-!
Integer operations as two's-complement vectors. Words are shifted, multiplied and divided in
sixty-four bits, signed ones after their sign has been carried up, and cut to the width at the end.
That gives the vector of the width, apart from the three failures.
-/
namespace Disguise
namespace Arithmetic
open Word

section
variable {w : Nat} (h1 : 0 < w) (h2 : w ≤ 64)

/-- What an integer operation makes of two vectors that it does not refuse. -/
def vector (code : Opcode) (a b : BitVec w) : BitVec w :=
  match code with
  | .udiv => a / b
  | .urem => a % b
  | .sdiv => a.sdiv b
  | .srem => a.srem b
  | .shl => a <<< b.toNat
  | .lshr => a >>> b.toNat
  | .ashr => a.sshiftRight b.toNat
  | _ => onBits code a b

/-- The codes whose second operand may not be zero. -/
def divisions : List Opcode := [.udiv, .urem, .sdiv, .srem]

def signedDivisions : List Opcode := [.sdiv, .srem]

def shifts : List Opcode := [.shl, .lshr, .ashr]

/-- The least signed vector divided by minus one. -/
def Overflows (a b : BitVec w) : Prop := a.toNat = 2 ^ (w - 1) ∧ b.toNat = 2 ^ w - 1

instance (a b : BitVec w) : Decidable (Overflows a b) := inferInstanceAs (Decidable (_ ∧ _))

include h1 in
theorem toInt_eq_neg_one (b : BitVec w) : b.toInt = -1 ↔ b.toNat = 2 ^ w - 1 := by
  have hones : (BitVec.allOnes w).toInt = -1 := by rw [BitVec.toInt_allOnes, if_pos h1]
  rw [← hones, BitVec.toInt_inj, ← BitVec.toNat_inj, BitVec.toNat_allOnes]

theorem toInt_eq_zero (b : BitVec w) : b.toInt = 0 ↔ b.toNat = 0 := by
  rw [← BitVec.toInt_zero (w := w), BitVec.toInt_inj, ← BitVec.toNat_inj, BitVec.toNat_zero]

include h1 h2

theorem cut_of_toBits {v : UInt64} {c : BitVec w} (h : toBits w v = c) :
    cut v w = .ok (ofBits c) := by
  rw [cut_eq_ofBits h1 h2, h]

theorem evalBinary_unsigned [FloatUnit] {code : Opcode} (hc : code ∈ [Opcode.udiv, .urem])
    (a b : BitVec w) : evalBinary code w (ofBits a) (ofBits b) =
      if b.toNat = 0 then .error .divisionByZero else .ok (ofBits (vector code a b)) := by
  have hzero : ofBits b = 0 ↔ b.toNat = 0 := by
    rw [← UInt64.toNat_inj, toNat_ofBits h2]
    rfl
  simp only [List.mem_cons, List.not_mem_nil, or_false] at hc
  obtain rfl | rfl := hc
  · have hbits : toBits w (ofBits a / ofBits b) = vector .udiv a b := by
      apply BitVec.eq_of_toNat_eq
      rw [toNat_toBits, UInt64.toNat_div, toNat_ofBits h2, toNat_ofBits h2, vector,
        BitVec.toNat_udiv]
      exact Nat.mod_eq_of_lt (Nat.lt_of_le_of_lt (Nat.div_le_self _ _) a.isLt)
    simp only [evalBinary, hzero, cut_eq_ofBits h1 h2, hbits]
  · have hbits : toBits w (ofBits a % ofBits b) = vector .urem a b := by
      apply BitVec.eq_of_toNat_eq
      rw [toNat_toBits, UInt64.toNat_mod, toNat_ofBits h2, toNat_ofBits h2, vector,
        BitVec.toNat_umod]
      exact Nat.mod_eq_of_lt (Nat.lt_of_le_of_lt (Nat.mod_le _ _) a.isLt)
    simp only [evalBinary, hzero, cut_eq_ofBits h1 h2, hbits]

/-- The quotient and the remainder of two words, taken in sixty-four bits, have the low bits of
those of the vectors. -/
theorem toBits_division {code : Opcode} (hc : code ∈ [Opcode.sdiv, .srem]) (a b : BitVec w) :
    toBits w (if code = .sdiv then extend (ofBits a) w / extend (ofBits b) w
      else extend (ofBits a) w % extend (ofBits b) w).toUInt64 = vector code a b := by
  simp only [List.mem_cons, List.not_mem_nil, or_false] at hc
  obtain rfl | rfl := hc
  · rw [if_pos rfl, toBits_toUInt64 h2, Int64.toInt_div, toInt_extend h1 h2, toInt_extend h1 h2,
      toBits_ofBits h2, toBits_ofBits h2, ← BitVec.toInt_inj, BitVec.toInt_ofInt,
      Int.bmod_bmod_of_dvd (Nat.pow_dvd_pow 2 h2)]
    exact (BitVec.toInt_sdiv a b).symm
  · rw [if_neg (by decide), toBits_toUInt64 h2, Int64.toInt_mod, toInt_extend h1 h2,
      toInt_extend h1 h2, toBits_ofBits h2, toBits_ofBits h2, ← BitVec.toInt_srem]
    exact BitVec.ofInt_toInt

theorem evalBinary_signed [FloatUnit] {code : Opcode} (hc : code ∈ [Opcode.sdiv, .srem])
    (a b : BitVec w) : evalBinary code w (ofBits a) (ofBits b) =
      if b.toNat = 0 then .error .divisionByZero
      else if Overflows a b then .error .divisionOverflow
      else .ok (ofBits (vector code a b)) := by
  have hread : (extend (ofBits b) w).toInt = b.toInt := by
    rw [toInt_extend h1 h2, toBits_ofBits h2]
  have hzero : extend (ofBits b) w = 0 ↔ b.toNat = 0 := by
    rw [← toInt_eq_zero, ← hread, ← Int64.toInt_inj]
    rfl
  have hminus : extend (ofBits b) w = -1 ↔ b.toNat = 2 ^ w - 1 := by
    rw [← toInt_eq_neg_one h1, ← hread, ← Int64.toInt_inj]
    rfl
  have hleast : ofBits a = 1 <<< UInt64.ofInt (w - 1) ↔ a.toNat = 2 ^ (w - 1) := by
    rw [← UInt64.toNat_inj, toNat_ofBits h2, show ((w : Int) - 1) = ((w - 1 : Nat) : Int) by omega,
      toNat_one_shiftLeft (by omega)]
  have hover : extend (ofBits b) w = -1 ∧ ofBits a = 1 <<< UInt64.ofInt (w - 1) ↔
      Overflows a b := by
    rw [hminus, hleast, and_comm]
    rfl
  have hsplit : evalBinary code w (ofBits a) (ofBits b) =
      signedDivision code w (ofBits a) (ofBits b) := by
    simp only [List.mem_cons, List.not_mem_nil, or_false] at hc
    obtain rfl | rfl := hc <;> rfl
  rw [hsplit, signedDivision, cut_eq_ofBits h1 h2, toBits_division h1 h2 hc]
  exact if_congr hzero rfl (if_congr hover rfl rfl)

/-- Shifts of a word by less than the width have the low bits of those of the vector. -/
theorem toBits_shifts (a : BitVec w) {b : BitVec w} (hb : b.toNat < w) :
    toBits w (ofBits a <<< ofBits b) = a <<< b.toNat ∧
      toBits w (ofBits a >>> ofBits b) = a >>> b.toNat ∧
      toBits w (extend (ofBits a) w >>> (ofBits b).toInt64).toUInt64 = a.sshiftRight b.toNat := by
  have hamount : (ofBits b).toNat % 64 = b.toNat := by
    rw [toNat_ofBits h2]
    exact Nat.mod_eq_of_lt (Nat.lt_of_lt_of_le hb h2)
  refine ⟨BitVec.eq_of_toNat_eq ?_, BitVec.eq_of_toNat_eq ?_, ?_⟩
  · rw [toNat_toBits, UInt64.toNat_shiftLeft, hamount, toNat_ofBits h2, BitVec.toNat_shiftLeft,
      Nat.mod_mod_of_dvd _ (Nat.pow_dvd_pow 2 h2)]
  · rw [toNat_toBits, UInt64.toNat_shiftRight, hamount, toNat_ofBits h2, BitVec.toNat_ushiftRight]
    exact Nat.mod_eq_of_lt (Nat.lt_of_le_of_lt (Nat.shiftRight_le _ _) a.isLt)
  · have hval : (ofBits b).toInt64.toBitVec.toNat = b.toNat := toNat_ofBits h2 b
    rw [toBits_toUInt64 h2, ← Int64.toInt_toBitVec, toBitVec_shiftRight _ (by rw [hval]; omega),
      hval, BitVec.toInt_sshiftRight, Int64.toInt_toBitVec, toInt_extend h1 h2, toBits_ofBits h2]
    exact BitVec.sshiftRight_eq.symm

variable [FloatUnit]

theorem evalBinary_shift {code : Opcode} (hc : code ∈ [Opcode.shl, .lshr, .ashr])
    (a b : BitVec w) :
    evalBinary code w (ofBits a) (ofBits b) =
      if w ≤ b.toNat then .error .shiftTooWide else .ok (ofBits (vector code a b)) := by
  have hwide : UInt64.ofInt w ≤ ofBits b ↔ w ≤ b.toNat := by
    rw [UInt64.le_iff_toNat_le, toNat_ofBits h2, toNat_ofInt_natCast (by omega)]
  have hsplit : evalBinary code w (ofBits a) (ofBits b) = shift code w (ofBits a) (ofBits b) := by
    simp only [List.mem_cons, List.not_mem_nil, or_false] at hc
    obtain rfl | rfl | rfl := hc <;> rfl
  by_cases hb : w ≤ b.toNat
  · rw [if_pos hb, hsplit]
    exact if_pos (hwide.2 hb)
  have hshort : ¬ 64 ≤ ofBits b := by
    rw [UInt64.le_iff_toNat_le, toNat_ofBits h2]
    exact fun h => hb (Nat.le_trans h2 h)
  obtain ⟨hleft, hright, hsigned⟩ := toBits_shifts h1 h2 a (Nat.not_le.1 hb)
  simp only [List.mem_cons, List.not_mem_nil, or_false] at hc
  obtain rfl | rfl | rfl := hc
  · rw [if_neg hb, hsplit]
    unfold shift
    rw [if_neg (mt hwide.1 hb), if_neg hshort]
    exact cut_of_toBits h1 h2 hleft
  · rw [if_neg hb, hsplit]
    unfold shift
    rw [if_neg (mt hwide.1 hb), if_neg hshort]
    exact cut_of_toBits h1 h2 hright
  · rw [if_neg hb, hsplit]
    unfold shift
    rw [if_neg (mt hwide.1 hb), if_neg hshort]
    exact cut_of_toBits h1 h2 hsigned

/-- The word operation with this code agrees with two's-complement vectors of width `w`: it fails
where a divisor is zero, where the least signed number is divided by minus one and where a shift is
too wide, and gives the vector of the result otherwise. -/
structure Agrees (code : Opcode) (w : Nat) (x y : UInt64) : Prop where
  byZero : evalBinary code w x y = .error .divisionByZero ↔ code ∈ divisions ∧ y.toNat = 0
  overflow : evalBinary code w x y = .error .divisionOverflow ↔
    code ∈ signedDivisions ∧ x.toNat = 2 ^ (w - 1) ∧ y.toNat = 2 ^ w - 1
  tooWide : evalBinary code w x y = .error .shiftTooWide ↔ code ∈ shifts ∧ w ≤ y.toNat
  result : ¬ (code ∈ divisions ∧ y.toNat = 0) →
    ¬ (code ∈ signedDivisions ∧ x.toNat = 2 ^ (w - 1) ∧ y.toNat = 2 ^ w - 1) →
    ¬ (code ∈ shifts ∧ w ≤ y.toNat) →
    ∃ z, evalBinary code w x y = .ok z ∧ z.toNat < 2 ^ w ∧
      z.toNat = (vector code (BitVec.ofNat w x.toNat) (BitVec.ofNat w y.toNat)).toNat

/-- The three failures and the result of an integer operation in one equation. -/
theorem evalBinary_eq {code : Opcode} (hc : code.isBinary) (hf : code.isFloat = false)
    (a b : BitVec w) :
    evalBinary code w (ofBits a) (ofBits b) =
      if code ∈ divisions ∧ b.toNat = 0 then .error .divisionByZero
      else if code ∈ signedDivisions ∧ Overflows a b then .error .divisionOverflow
      else if code ∈ shifts ∧ w ≤ b.toNat then .error .shiftTooWide
      else .ok (ofBits (vector code a b)) := by
  cases code <;>
    simp only [Opcode.isBinary, Opcode.isFloat, Bool.false_eq_true, reduceCtorEq] at hc hf
  case add => exact evalBinary_ofBits h1 h2 (by decide) a b
  case sub => exact evalBinary_ofBits h1 h2 (by decide) a b
  case mul => exact evalBinary_ofBits h1 h2 (by decide) a b
  case and => exact evalBinary_ofBits h1 h2 (by decide) a b
  case or => exact evalBinary_ofBits h1 h2 (by decide) a b
  case xor => exact evalBinary_ofBits h1 h2 (by decide) a b
  case udiv =>
    simpa [divisions, signedDivisions, shifts] using evalBinary_unsigned h1 h2 (by decide) a b
  case urem =>
    simpa [divisions, signedDivisions, shifts] using evalBinary_unsigned h1 h2 (by decide) a b
  case sdiv =>
    simpa [divisions, signedDivisions, shifts] using evalBinary_signed h1 h2 (by decide) a b
  case srem =>
    simpa [divisions, signedDivisions, shifts] using evalBinary_signed h1 h2 (by decide) a b
  case shl =>
    simpa [divisions, signedDivisions, shifts] using evalBinary_shift h1 h2 (by decide) a b
  case lshr =>
    simpa [divisions, signedDivisions, shifts] using evalBinary_shift h1 h2 (by decide) a b
  case ashr =>
    simpa [divisions, signedDivisions, shifts] using evalBinary_shift h1 h2 (by decide) a b

end

/-- On words that fit their width, every integer operation is that of two's-complement vectors. -/
theorem evalBinary_agrees [FloatUnit] {w : Nat} (h1 : 1 ≤ w) (h2 : w ≤ 64) {code : Opcode}
    (hc : code.isBinary) (hf : code.isFloat = false)
    {x y : UInt64} (hx : x.toNat < 2 ^ w) (hy : y.toNat < 2 ^ w) : Agrees code w x y := by
  have hofx : ofBits (BitVec.ofNat w x.toNat) = x := by
    rw [← UInt64.toNat_inj, toNat_ofBits h2, BitVec.toNat_ofNat, Nat.mod_eq_of_lt hx]
  have hofy : ofBits (BitVec.ofNat w y.toNat) = y := by
    rw [← UInt64.toNat_inj, toNat_ofBits h2, BitVec.toNat_ofNat, Nat.mod_eq_of_lt hy]
  have heval := evalBinary_eq h1 h2 hc hf (BitVec.ofNat w x.toNat) (BitVec.ofNat w y.toNat)
  rw [hofx, hofy] at heval
  simp only [Overflows, BitVec.toNat_ofNat, Nat.mod_eq_of_lt hx, Nat.mod_eq_of_lt hy] at heval
  -- a code is a division or a shift or neither, and no word is both zero and all ones
  have hcodes : code ∈ divisions → code ∉ shifts := by
    simp only [divisions, shifts, List.mem_cons, List.not_mem_nil, or_false]
    rintro (rfl | rfl | rfl | rfl) <;> decide
  have hsub : code ∈ signedDivisions → code ∈ divisions := fun h =>
    List.mem_of_mem_drop (i := 2) h
  have hones : (2 : Nat) ^ w - 1 ≠ 0 := by
    have := Nat.pow_le_pow_right (show 0 < 2 by decide) h1
    omega
  by_cases hzero : code ∈ divisions ∧ y.toNat = 0
  · rw [if_pos hzero] at heval
    have hover : ¬ (code ∈ signedDivisions ∧ x.toNat = 2 ^ (w - 1) ∧ y.toNat = 2 ^ w - 1) :=
      fun h => hones (h.2.2.symm.trans hzero.2)
    have hwide : ¬ (code ∈ shifts ∧ w ≤ y.toNat) := fun h => hcodes hzero.1 h.1
    exact ⟨iff_of_true heval hzero, iff_of_false (by simp [heval]) hover,
      iff_of_false (by simp [heval]) hwide, fun h => absurd hzero h⟩
  rw [if_neg hzero] at heval
  by_cases hover : code ∈ signedDivisions ∧ x.toNat = 2 ^ (w - 1) ∧ y.toNat = 2 ^ w - 1
  · rw [if_pos hover] at heval
    have hwide : ¬ (code ∈ shifts ∧ w ≤ y.toNat) := fun h => hcodes (hsub hover.1) h.1
    exact ⟨iff_of_false (by simp [heval]) hzero, iff_of_true heval hover,
      iff_of_false (by simp [heval]) hwide, fun _ h => absurd hover h⟩
  rw [if_neg hover] at heval
  by_cases hwide : code ∈ shifts ∧ w ≤ y.toNat
  · rw [if_pos hwide] at heval
    exact ⟨iff_of_false (by simp [heval]) hzero, iff_of_false (by simp [heval]) hover,
      iff_of_true heval hwide, fun _ _ h => absurd hwide h⟩
  rw [if_neg hwide] at heval
  exact ⟨iff_of_false (by simp [heval]) hzero, iff_of_false (by simp [heval]) hover,
    iff_of_false (by simp [heval]) hwide, fun _ _ _ =>
      ⟨_, heval, by rw [toNat_ofBits h2]; exact BitVec.isLt _, toNat_ofBits h2 _⟩⟩

/-- The remainder of minus seven by minus two, in four bits, is minus one. -/
theorem evalBinary_agrees_negative : (9 : UInt64).toNat < 2 ^ 4 ∧ (14 : UInt64).toNat < 2 ^ 4 ∧
    Agrees .srem 4 9 14 ∧ ∃ z, evalBinary .srem 4 9 14 = .ok z ∧ z.toNat = 15 := by
  have hagrees : Agrees .srem 4 9 14 :=
    evalBinary_agrees (by decide) (by decide) rfl rfl (by decide) (by decide)
  obtain ⟨z, hz, -, hval⟩ := hagrees.result (by decide) (by decide) (by decide)
  exact ⟨by decide, by decide, hagrees, z, hz, hval⟩

end Arithmetic
end Disguise
