import Disguise.Syntax.Line
import Mathlib.Data.Nat.Basic

/-!
Numerals that are printed read back. The digits of a number are read from the left, so this is an
induction on the number by its last digit.
-/
namespace Disguise
open Bytes

namespace Bytes

theorem digits_eq_if {base n : Nat} (hb : 1 < base) : digits base n =
    if n < base then [byte (Nat.digitChar n)]
    else digits base (n / base) ++ [byte (Nat.digitChar (n % base))] := by
  unfold digits
  rw [Nat.toDigits_eq_if hb]
  split
  · rfl
  · rw [List.map_append]
    rfl

theorem digits_ne_nil (base n : Nat) : digits base n ≠ [] := by
  simp [digits, Nat.toDigits_ne_nil]

/-- What all digits of a base have, all bytes of a numeral have. -/
theorem forall_mem_digits {base n : Nat} {P : UInt8 → Prop} (hb : 1 < base)
    (h : ∀ d < base, P (byte (Nat.digitChar d))) : ∀ b ∈ digits base n, P b := by
  induction n using Nat.strongRecOn with
  | ind n ih =>
    rw [digits_eq_if hb]
    split
    · rename_i hlt
      intro b hmem
      rw [List.mem_singleton.1 hmem]
      exact h n hlt
    · rename_i hge
      intro b hmem
      rcases List.mem_append.1 hmem with hmem | hmem
      · exact ih (n / base) (Nat.div_lt_self (by omega) hb) b hmem
      · rw [List.mem_singleton.1 hmem]
        exact h _ (Nat.mod_lt n (by omega))

end Bytes

namespace Numeral

theorem digit?_digitChar : ∀ d < 16, digit? (byte (Nat.digitChar d)) = some d := by decide

theorem accumulate_append (base limit acc : Nat) (s t : Bytes) :
    accumulate base limit acc (s ++ t) =
      (accumulate base limit acc s >>= fun n => accumulate base limit n t) := by
  induction s generalizing acc with
  | nil => rfl
  | cons b s ih =>
    rw [List.cons_append, accumulate, accumulate]
    cases digit? b with
    | none => rfl
    | some d =>
      dsimp only
      split
      · rfl
      · split
        · rfl
        · exact ih _

/-- The digits of a number below the limit give the number. -/
theorem accumulate_digits {base limit n : Nat} (hb : 1 < base) (h16 : base ≤ 16) (hn : n < limit) :
    accumulate base limit 0 (digits base n) = .ok n := by
  have last : ∀ acc d, d < base → acc * base + d < limit →
      accumulate base limit acc [byte (Nat.digitChar d)] = .ok (acc * base + d) := by
    intro acc d hd hlt
    unfold accumulate
    rw [digit?_digitChar d (by omega)]
    dsimp only
    rw [if_neg (by omega), if_neg (by omega)]
    rfl
  induction n using Nat.strongRecOn with
  | ind n ih =>
    rw [digits_eq_if hb]
    split
    · rename_i hlt
      rw [last 0 n hlt (by omega)]
      simp
    · have hdiv : n / base < n := Nat.div_lt_self (by omega) hb
      have hmod := Nat.div_add_mod n base
      rw [accumulate_append, ih _ hdiv (by omega)]
      show accumulate base limit (n / base) _ = _
      rw [last _ _ (Nat.mod_lt n (by omega))]
      · rw [Nat.mul_comm, hmod]
      · rw [Nat.mul_comm, hmod]
        exact hn

theorem natural_decimalNat {limit n : Nat} (hn : n < limit) :
    natural 10 limit (decimalNat n) = .ok n := by
  unfold natural
  rw [if_neg (by simp [decimalNat, digits_ne_nil])]
  exact accumulate_digits (by omega) (by omega) hn

theorem decimalNat_injective {m n : Nat} (h : decimalNat m = decimalNat n) : m = n := by
  have hm : natural 10 (m + n + 1) (decimalNat m) = .ok m := natural_decimalNat (by omega)
  have hn : natural 10 (m + n + 1) (decimalNat n) = .ok n := natural_decimalNat (by omega)
  rw [h, hn] at hm
  exact (Except.ok.inj hm).symm

/-- A width that is printed reads back. -/
theorem decimal_decimal {n : Int} (h0 : 0 ≤ n) (hn : n ≤ 64) :
    decimal (Bytes.decimal n) = .ok n := by
  have hprint : Bytes.decimal n = decimalNat n.natAbs := by
    unfold Bytes.decimal
    rw [if_neg (by omega)]
  have hsign : ∀ b ∈ decimalNat n.natAbs, b ≠ byte '-' ∧ b ≠ byte '+' :=
    forall_mem_digits (by omega) (by decide)
  have hunsigned : sign (decimalNat n.natAbs) = (false, decimalNat n.natAbs) := by
    cases hds : decimalNat n.natAbs with
    | nil => rfl
    | cons b ds =>
      obtain ⟨hminus, hplus⟩ := hsign b (by simp [hds])
      simp only [sign, if_neg hminus, if_neg hplus]
  have hsize : UInt64.size = 18446744073709551616 := rfl
  unfold decimal signed
  rw [hprint, hunsigned]
  dsimp only
  rw [natural_decimalNat (by omega)]
  dsimp only
  rw [if_neg (by simp), if_pos (by omega)]
  congr 1
  omega

/-- A constant that is printed reads back. -/
theorem anyBase_hex {limit n : Nat} (hn : n < limit) :
    anyBase limit (text "0x" ++ hex n) = .ok n := by
  have hplain : ∀ b ∈ hex n, b ≠ underscore := forall_mem_digits (by omega) (by decide)
  have hmark : baseMark (text "0x" ++ hex n) = (16, hex n) := by
    cases hds : hex n with
    | nil => exact absurd hds (digits_ne_nil 16 n)
    | cons d ds => rfl
  have hfilter : (hex n).filter (· ≠ underscore) = hex n :=
    List.filter_eq_self.2 fun b hb => by simpa using hplain b hb
  have hnone : (hex n).contains underscore = false := by
    rw [Bool.eq_false_iff]
    intro hmem
    exact hplain underscore (by simpa using hmem) rfl
  unfold anyBase
  rw [if_neg (by simp [hex, digits_ne_nil]), hmark]
  dsimp only
  rw [hfilter, hex, accumulate_digits (by omega) (by omega) hn, ← hex, hnone]
  rfl

end Numeral

namespace Syntax.Reader

theorem isIdentByte_of_mem_digits {base n : Nat} (hb : 1 < base) (h16 : base ≤ 16) :
    ∀ b ∈ digits base n, isIdentByte b := by
  refine forall_mem_digits hb fun d hd => ?_
  have hall : ∀ d < 16, isIdentByte (byte (Nat.digitChar d)) := by decide
  exact hall d (by omega)

theorem isDigitByte_of_mem_decimalNat (n : Nat) : ∀ b ∈ decimalNat n, isDigitByte b :=
  forall_mem_digits (by omega) (by decide)

end Syntax.Reader
end Disguise
