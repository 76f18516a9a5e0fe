import Disguise.Text.Utf8
import Mathlib.Data.Nat.Basic

/-!
Code points and their bytes. A well-formed sequence at the front of a text is the encoding of the
code point that is read from it, and the other way round.
-/
namespace Disguise.Utf8

theorem toNat_toUInt8 {n : Nat} (h : n < 256) : n.toUInt8.toNat = n := by
  simp [Nat.toUInt8, UInt8.toNat_ofNat']
  omega

theorem toUInt8_toNat (b : UInt8) : b.toNat.toUInt8 = b := by
  simp [Nat.toUInt8]

theorem eq_toUInt8 {b : UInt8} {n : Nat} (h : b.toNat = n) : b = n.toUInt8 := by
  rw [← h, toUInt8_toNat]

theorem tail?_eq_some {b : UInt8} {t : Nat} : tail? b = some t ↔ b.toNat = 0x80 + t ∧ t < 64 := by
  have hlt := b.toNat_lt
  unfold tail?
  simp only [UInt8.le_iff_toNat_le, UInt8.lt_iff_toNat_lt, Bool.and_eq_true, decide_eq_true_eq]
  split
  · rename_i h
    have h₁ : (0x80 : UInt8).toNat = 128 := rfl
    have h₂ : (0xC0 : UInt8).toNat = 192 := rfl
    simp only [Option.some.injEq]
    omega
  · rename_i h
    have h₁ : (0x80 : UInt8).toNat = 128 := rfl
    have h₂ : (0xC0 : UInt8).toNat = 192 := rfl
    simp only [reduceCtorEq, false_iff]
    omega

theorem checked_eq_some {least width c : Nat} {r : Nat × Nat} :
    checked least width c = some r ↔ r = (c, width) ∧ least ≤ c ∧ isScalar c := by
  unfold checked
  split
  · rename_i h
    simp only [Bool.and_eq_true, decide_eq_true_eq] at h
    simp [h, eq_comm]
  · rename_i h
    simp only [Bool.and_eq_true, decide_eq_true_eq] at h
    simp only [reduceCtorEq, false_iff]
    exact fun hall => h hall.2

theorem le_of_isScalar {c : Nat} (h : isScalar c) : c ≤ 0x10FFFF := by
  simp only [isScalar, Bool.and_eq_true, decide_eq_true_eq] at h
  exact h.1

/-- The first byte tells how many bytes a sequence has. -/
theorem head?_cons (a : UInt8) (s : Bytes) : head? (a :: s) =
    if a.toNat < 0x80 then some (a.toNat, 1)
    else if a.toNat < 0xC0 then none
    else if a.toNat < 0xE0 then
      match s with
      | b :: _ => do checked 0x80 2 ((a.toNat - 0xC0) * 64 + (← tail? b))
      | _ => none
    else if a.toNat < 0xF0 then
      match s with
      | b :: c :: _ => do
        checked 0x800 3 (((a.toNat - 0xE0) * 64 + (← tail? b)) * 64 + (← tail? c))
      | _ => none
    else if a.toNat < 0xF8 then
      match s with
      | b :: c :: d :: _ => do
        checked 0x10000 4
          ((((a.toNat - 0xF0) * 64 + (← tail? b)) * 64 + (← tail? c)) * 64 + (← tail? d))
      | _ => none
    else none := by
  simp only [head?, UInt8.lt_iff_toNat_lt]
  rfl

theorem head?_encode {c : Nat} (h : isScalar c) (rest : Bytes) :
    head? (encode c ++ rest) = some (c, (encode c).length) := by
  have hle := le_of_isScalar h
  have tail : ∀ t < 64, tail? (0x80 + t).toUInt8 = some t := by
    intro t ht
    exact tail?_eq_some.2 ⟨toNat_toUInt8 (by omega), ht⟩
  unfold encode
  split
  · rename_i h₁
    rw [List.singleton_append, head?_cons, toNat_toUInt8 (by omega), if_pos h₁]
    rfl
  · split
    · rename_i h₁ h₂
      simp only [List.cons_append, List.nil_append]
      rw [head?_cons, toNat_toUInt8 (by omega), if_neg (by omega), if_neg (by omega),
        if_pos (by omega)]
      simp only [tail _ (Nat.mod_lt c (by omega)), Option.bind_eq_bind, Option.bind_some]
      rw [show (0xC0 + c / 64 - 0xC0) * 64 + c % 64 = c by omega]
      exact checked_eq_some.2 ⟨rfl, by omega, h⟩
    · split
      · rename_i h₁ h₂ h₃
        simp only [List.cons_append, List.nil_append]
        rw [head?_cons, toNat_toUInt8 (by omega), if_neg (by omega), if_neg (by omega),
          if_neg (by omega), if_pos (by omega)]
        simp only [tail _ (Nat.mod_lt c (by omega)), tail _ (Nat.mod_lt (c / 64) (by omega)),
          Option.bind_eq_bind, Option.bind_some]
        rw [show ((0xE0 + c / 4096 - 0xE0) * 64 + c / 64 % 64) * 64 + c % 64 = c by omega]
        exact checked_eq_some.2 ⟨rfl, by omega, h⟩
      · rename_i h₁ h₂ h₃
        simp only [List.cons_append, List.nil_append]
        rw [head?_cons, toNat_toUInt8 (by omega), if_neg (by omega), if_neg (by omega),
          if_neg (by omega), if_neg (by omega), if_pos (by omega)]
        simp only [tail _ (Nat.mod_lt c (by omega)), tail _ (Nat.mod_lt (c / 64) (by omega)),
          tail _ (Nat.mod_lt (c / 4096) (by omega)), Option.bind_eq_bind, Option.bind_some]
        rw [show (((0xF0 + c / 262144 - 0xF0) * 64 + c / 4096 % 64) * 64 + c / 64 % 64) * 64 +
          c % 64 = c by omega]
        exact checked_eq_some.2 ⟨rfl, by omega, h⟩

section
variable {a b d e : UInt8} {t u v : Nat}

theorem isScalar_of_lt {c : Nat} (h : c < 0x80) : isScalar c := by
  simp only [isScalar, isSurrogate, Bool.and_eq_true, Bool.not_eq_true', decide_eq_true_eq,
    Bool.and_eq_false_iff, decide_eq_false_iff_not]
  omega

theorem encode_one (ha : a.toNat < 0x80) : encode a.toNat = [a] := by
  rw [encode, if_pos ha, toUInt8_toNat]

theorem encode_two (ha : 0xC0 ≤ a.toNat ∧ a.toNat < 0xE0) (hb : tail? b = some t)
    (hleast : 0x80 ≤ (a.toNat - 0xC0) * 64 + t) :
    encode ((a.toNat - 0xC0) * 64 + t) = [a, b] := by
  obtain ⟨hb, ht⟩ := tail?_eq_some.1 hb
  have hfirst : a = (0xC0 + ((a.toNat - 0xC0) * 64 + t) / 64).toUInt8 := eq_toUInt8 (by omega)
  have hsecond : b = (0x80 + ((a.toNat - 0xC0) * 64 + t) % 64).toUInt8 := eq_toUInt8 (by omega)
  rw [encode, if_neg (by omega), if_pos (by omega), ← hfirst, ← hsecond]

theorem encode_three (ha : 0xE0 ≤ a.toNat ∧ a.toNat < 0xF0) (hb : tail? b = some t)
    (hd : tail? d = some u) (hleast : 0x800 ≤ ((a.toNat - 0xE0) * 64 + t) * 64 + u) :
    encode (((a.toNat - 0xE0) * 64 + t) * 64 + u) = [a, b, d] := by
  obtain ⟨hb, ht⟩ := tail?_eq_some.1 hb
  obtain ⟨hd, hu⟩ := tail?_eq_some.1 hd
  rw [encode, if_neg (by omega), if_neg (by omega), if_pos (by omega)]
  simp only [List.cons.injEq, and_true]
  exact ⟨(eq_toUInt8 (by omega)).symm, (eq_toUInt8 (by omega)).symm, (eq_toUInt8 (by omega)).symm⟩

theorem encode_four (ha : 0xF0 ≤ a.toNat) (hb : tail? b = some t) (hd : tail? d = some u)
    (he : tail? e = some v)
    (hleast : 0x10000 ≤ (((a.toNat - 0xF0) * 64 + t) * 64 + u) * 64 + v)
    (hmost : (((a.toNat - 0xF0) * 64 + t) * 64 + u) * 64 + v ≤ 0x10FFFF) :
    encode ((((a.toNat - 0xF0) * 64 + t) * 64 + u) * 64 + v) = [a, b, d, e] := by
  obtain ⟨hb, ht⟩ := tail?_eq_some.1 hb
  obtain ⟨hd, hu⟩ := tail?_eq_some.1 hd
  obtain ⟨he, hv⟩ := tail?_eq_some.1 he
  rw [encode, if_neg (by omega), if_neg (by omega), if_neg (by omega)]
  simp only [List.cons.injEq, and_true]
  exact ⟨(eq_toUInt8 (by omega)).symm, (eq_toUInt8 (by omega)).symm,
    (eq_toUInt8 (by omega)).symm, (eq_toUInt8 (by omega)).symm⟩

end

/-- What is read as a code point is its encoding. -/
theorem eq_encode_of_head? {a : UInt8} {s : Bytes} {c width : Nat}
    (h : head? (a :: s) = some (c, width)) :
    isScalar c ∧ 0 < width ∧ a :: s.take (width - 1) = encode c := by
  rw [head?_cons] at h
  split at h
  · rename_i h₁
    obtain ⟨rfl, rfl⟩ : a.toNat = c ∧ 1 = width := by simpa using h
    exact ⟨isScalar_of_lt h₁, by omega, (encode_one h₁).symm⟩
  · split at h
    · cases h
    · split at h
      · split at h
        · rename_i hleft hright _ b _
          simp only [Option.bind_eq_bind, Option.bind_eq_some_iff] at h
          obtain ⟨t, ht, h⟩ := h
          obtain ⟨⟨⟩, hleast, hscalar⟩ := checked_eq_some.1 h
          exact ⟨hscalar, by omega, (encode_two ⟨by omega, hright⟩ ht hleast).symm⟩
        · cases h
      · split at h
        · split at h
          · rename_i hleft hright _ b d _
            simp only [Option.bind_eq_bind, Option.bind_eq_some_iff] at h
            obtain ⟨t, ht, u, hu, h⟩ := h
            obtain ⟨⟨⟩, hleast, hscalar⟩ := checked_eq_some.1 h
            exact ⟨hscalar, by omega, (encode_three ⟨by omega, hright⟩ ht hu hleast).symm⟩
          · cases h
        · split at h
          · split at h
            · rename_i hleft hright _ b d e _
              simp only [Option.bind_eq_bind, Option.bind_eq_some_iff] at h
              obtain ⟨t, ht, u, hu, v, hv, h⟩ := h
              obtain ⟨⟨⟩, hleast, hscalar⟩ := checked_eq_some.1 h
              have hmost := le_of_isScalar hscalar
              exact ⟨hscalar, by omega, (encode_four (by omega) ht hu hv hleast hmost).symm⟩
            · cases h
          · cases h

end Disguise.Utf8
