import Disguise.Proofs.CodePoints
import Disguise.Proofs.Numerals
import Mathlib.Algebra.Group.Nat.Defs

/-!
Quoted texts read back. Each piece of a text has an escape that gives its bytes back and hides any
mark in it, so the reader finds the end of a quoted text where it is.
-/
namespace Disguise
open Bytes

namespace Quoted
open Utf8

theorem hexValue?_digitChar : ∀ d < 16, hexValue? (byte (Nat.digitChar d)) = some d := by decide

theorem foldlM_hex (n : Nat) :
    (hex n).foldlM (fun v b => (hexValue? b).map (v * 16 + ·)) 0 = some n := by
  unfold hex
  induction n using Nat.strongRecOn with
  | ind n ih =>
    rw [digits_eq_if (by omega)]
    split
    · rename_i hlt
      simp [hexValue?_digitChar n hlt]
    · have hmod := Nat.div_add_mod n 16
      rw [List.foldlM_append, ih _ (Nat.div_lt_self (by omega) (by omega))]
      simp only [Option.bind_eq_bind, Option.bind_some, List.foldlM_cons, List.foldlM_nil,
        hexValue?_digitChar _ (Nat.mod_lt n (by omega)), Option.map_some, pure]
      congr 1
      omega

theorem length_hexPadded {width n : Nat} (hw : 0 < width) (hn : n < 16 ^ width) :
    (hexPadded width n).length = width := by
  have hlen : (hex n).length ≤ width := by
    unfold hex digits
    rw [List.length_map]
    exact (Nat.length_toDigits_le_iff (by omega) hw).2 hn
  unfold hexPadded
  simp only [List.length_append, List.length_replicate]
  omega

/-- The number behind an escape letter. -/
theorem number?_hexPadded {width n : Nat} (hw : 0 < width) (hn : n < 16 ^ width) (rest : Bytes) :
    number? 16 width hexValue? (hexPadded width n ++ rest) = some n := by
  have hlen := length_hexPadded hw hn
  have htake : (hexPadded width n ++ rest).take width = hexPadded width n := by
    rw [List.take_append_of_le_length (by omega), List.take_of_length_le (by omega)]
  have hzeros : ∀ k, (List.replicate k (byte '0')).foldlM
      (fun v b => (hexValue? b).map (v * 16 + ·)) 0 = some 0 := by
    intro k
    induction k with
    | zero => rfl
    | succ k ih =>
      rw [List.replicate_succ, List.foldlM_cons]
      exact ih
  unfold number?
  dsimp only
  rw [htake, if_neg (by omega)]
  unfold hexPadded
  rw [List.foldlM_append, hzeros]
  exact foldlM_hex n

theorem escape?_letter (rest : Bytes) :
    ∀ l ∈ letters, escape? (byte l.2 :: rest) = some ([l.1.toUInt8], 1) := by
  intro l hl
  simp only [letters, List.mem_cons, List.not_mem_nil, or_false] at hl
  rcases hl with rfl | rfl | rfl | rfl | rfl | rfl | rfl <;> rfl

theorem escape?_byte {n : Nat} (hn : n < 256) (rest : Bytes) :
    escape? (byte 'x' :: (hexPadded 2 n ++ rest)) = some ([n.toUInt8], 3) := by
  have hnumber := @number?_hexPadded 2 n (by omega) (by omega) rest
  rw [escape?, if_neg (by decide), if_pos rfl, hnumber]
  rfl

theorem escape?_short {n : Nat} (hn : n < 0x10000) (hs : isScalar n) (rest : Bytes) :
    escape? (byte 'u' :: (hexPadded 4 n ++ rest)) = some (encode n, 5) := by
  have hnumber := @number?_hexPadded 4 n (by omega) (by omega) rest
  rw [escape?, if_neg (by decide), if_neg (by decide), if_pos rfl, hnumber]
  simp [escape?.scalar, hs]

theorem escape?_long {n : Nat} (hs : isScalar n) (rest : Bytes) :
    escape? (byte 'U' :: (hexPadded 8 n ++ rest)) = some (encode n, 9) := by
  have hle := le_of_isScalar hs
  have hnumber := @number?_hexPadded 8 n (by omega) (by omega) rest
  rw [escape?, if_neg (by decide), if_neg (by decide), if_neg (by decide), if_pos rfl, hnumber]
  simp [escape?.scalar, hs]

theorem body?_escape {s out : Bytes} {width : Nat} (h : escape? s = some (out, width)) :
    body? (backslash :: s) = (body? (s.drop width)).map (out ++ ·) := by
  rw [body?, if_neg (by decide), if_neg (by decide), if_pos rfl, h]

theorem mem_encode {c : Nat} (h : isScalar c) {b : UInt8} (hb : b ∈ encode c) :
    (c < 0x80 ∧ b.toNat = c) ∨ (0x80 ≤ c ∧ 0x80 ≤ b.toNat) := by
  have hle := le_of_isScalar h
  unfold encode at hb
  split at hb
  · rename_i hc
    rw [List.mem_singleton.1 hb]
    exact .inl ⟨hc, toNat_toUInt8 (by omega)⟩
  · right
    refine ⟨by omega, ?_⟩
    split at hb
    · simp only [List.mem_cons, List.not_mem_nil, or_false] at hb
      rcases hb with rfl | rfl <;> rw [toNat_toUInt8 (by omega)] <;> omega
    · split at hb
      · simp only [List.mem_cons, List.not_mem_nil, or_false] at hb
        rcases hb with rfl | rfl | rfl <;> rw [toNat_toUInt8 (by omega)] <;> omega
      · simp only [List.mem_cons, List.not_mem_nil, or_false] at hb
        rcases hb with rfl | rfl | rfl | rfl <;> rw [toNat_toUInt8 (by omega)] <;> omega

/-- A byte of another code point is no byte of the encoding. -/
theorem ne_of_mem_encode {c : Nat} (h : isScalar c) {b k : UInt8} (hb : b ∈ encode c)
    (hk : k.toNat < 0x80) (hne : c ≠ k.toNat) : b ≠ k := by
  rintro rfl
  rcases mem_encode h hb with ⟨-, heq⟩ | ⟨-, hle⟩
  · exact hne heq.symm
  · omega

/-- A code point that needs no escape stands for itself. -/
theorem body?_encode {c : Nat} (h : isScalar c) (hm : c ≠ mark.toNat) (hn : c ≠ newline.toNat)
    (hb : c ≠ backslash.toNat) (rest : Bytes) :
    body? (encode c ++ rest) = (body? rest).map (encode c ++ ·) := by
  have hhead := head?_encode h rest
  obtain ⟨b, s, he⟩ : ∃ b s, encode c = b :: s := by
    unfold encode
    split
    · exact ⟨_, _, rfl⟩
    · split
      · exact ⟨_, _, rfl⟩
      · split <;> exact ⟨_, _, rfl⟩
  have hmem : b ∈ encode c := by simp [he]
  rw [he, List.cons_append] at hhead ⊢
  rw [body?, if_neg (ne_of_mem_encode h hmem (by decide) hm),
    if_neg (ne_of_mem_encode h hmem (by decide) hn),
    if_neg (ne_of_mem_encode h hmem (by decide) hb), hhead]
  simp

theorem body?_escapeCode [Unicode] {c : Nat} (h : isScalar c) (rest : Bytes) :
    body? (escapeCode c ++ rest) = (body? rest).map (encode c ++ ·) := by
  unfold escapeCode
  split
  · rename_i hc
    simp only [Bool.or_eq_true, decide_eq_true_eq] at hc
    have hlt : c < 0x80 := by
      rcases hc with rfl | rfl <;> decide
    have hesc : escape? (c.toUInt8 :: rest) = some ([c.toUInt8], 1) := by
      rcases hc with rfl | rfl <;> rfl
    rw [List.cons_append, List.singleton_append, body?_escape hesc, encode, if_pos hlt]
    rfl
  · rename_i hc
    simp only [Bool.or_eq_true, decide_eq_true_eq, not_or] at hc
    split
    · rename_i hp
      have hn : c ≠ newline.toNat := by
        rintro rfl
        simp [isPrintable, newline] at hp
      exact body?_encode h hc.1 hn hc.2 rest
    · split
      · rename_i l hl
        have hmem : (c, l) ∈ letters := by
          obtain ⟨before, after, heq, -⟩ := List.lookup_eq_some_iff.1 hl
          rw [heq]
          simp
        have hlt : c < 0x80 := by
          have hall : ∀ l ∈ letters, l.1 < 0x80 := by decide
          exact hall _ hmem
        rw [List.cons_append, List.singleton_append, body?_escape (escape?_letter rest _ hmem),
          encode, if_pos hlt]
        rfl
      · split
        · rename_i hctl
          simp only [Bool.or_eq_true, decide_eq_true_eq] at hctl
          have hlen := @length_hexPadded 2 c (by omega) (by omega)
          rw [List.append_assoc, List.cons_append, List.singleton_append,
            body?_escape (escape?_byte (by omega) rest), encode, if_pos (by omega)]
          simp [hlen]
        · split
          · rename_i hshort
            have hlen := @length_hexPadded 4 c (by omega) (by omega)
            rw [List.append_assoc, List.cons_append, List.singleton_append,
              body?_escape (escape?_short hshort h rest)]
            simp [hlen]
          · have hle := le_of_isScalar h
            have hlen := @length_hexPadded 8 c (by omega) (by omega)
            rw [List.append_assoc, List.cons_append, List.singleton_append,
              body?_escape (escape?_long h rest)]
            simp [hlen]

/-- A stray byte is written by its number. -/
theorem body?_stray [Unicode] (b : UInt8) (rest : Bytes) :
    body? (escapePiece ⟨none, [b]⟩ ++ rest) = (body? rest).map (b :: ·) := by
  have hlt : b.toNat < 256 := b.toNat_lt
  have hlen := @length_hexPadded 2 b.toNat (by omega) (by omega)
  simp only [escapePiece, List.flatMap_cons, List.flatMap_nil, List.append_nil]
  rw [List.append_assoc, List.cons_append, List.singleton_append,
    body?_escape (escape?_byte hlt rest), toUInt8_toNat]
  simp [hlen]

/-- The pieces of a text, quoted, read as the text. -/
theorem body?_pieces [Unicode] (s : Bytes) :
    body? ((pieces s).flatMap escapePiece ++ [mark]) = some s := by
  fun_induction pieces s with
  | case1 => rw [List.flatMap_nil, List.nil_append, body?]; rfl
  | case2 a s c width hhead ih =>
    obtain ⟨hscalar, hwidth, hraw⟩ := eq_encode_of_head? hhead
    rw [List.flatMap_cons, List.append_assoc]
    rw [show escapePiece ⟨some c, a :: s.take (width - 1)⟩ = escapeCode c from rfl,
      body?_escapeCode hscalar, ih, Option.map_some, ← hraw]
    simp
  | case3 a s hhead ih =>
    rw [List.flatMap_cons, List.append_assoc, body?_stray, ih]
    rfl

/-- Every text can be read back from its quoted form. -/
theorem unquote?_quote [Unicode] (s : Bytes) : unquote? (quote s) = some s := by
  unfold quote unquote?
  rw [List.cons_append]
  dsimp only
  rw [if_pos rfl]
  exact body?_pieces s

/-- Bytes that neither close a quoted text nor begin an escape. -/
def Plain (s : Bytes) : Prop := ∀ b ∈ s, b ≠ mark ∧ b ≠ backslash ∧ b ≠ newline

/-- What stands for one code point or stray byte: plain bytes, or an escape. -/
inductive Masked : Bytes → Prop
  | plain {s : Bytes} (h : Plain s) : Masked s
  | escape {e : UInt8} {s : Bytes} (he : e ≠ newline) (h : Plain s) : Masked (backslash :: e :: s)

theorem plain_hexPadded (width n : Nat) : Plain (hexPadded width n) := by
  intro b hb
  rcases List.mem_append.1 hb with hb | hb
  · rw [List.eq_of_mem_replicate hb]
    decide
  · exact forall_mem_digits (P := fun b => b ≠ mark ∧ b ≠ backslash ∧ b ≠ newline) (by omega)
      (by decide) b hb

theorem plain_encode {c : Nat} (h : isScalar c) (hm : c ≠ mark.toNat) (hb : c ≠ backslash.toNat)
    (hn : c ≠ newline.toNat) : Plain (encode c) := fun _ hmem =>
  ⟨ne_of_mem_encode h hmem (by decide) hm, ne_of_mem_encode h hmem (by decide) hb,
    ne_of_mem_encode h hmem (by decide) hn⟩

variable [Unicode]

theorem masked_escapeCode {c : Nat} (h : isScalar c) : Masked (escapeCode c) := by
  unfold escapeCode
  split
  · rename_i hc
    simp only [Bool.or_eq_true, decide_eq_true_eq] at hc
    have he : c.toUInt8 ≠ newline := by
      rcases hc with rfl | rfl <;> decide
    exact .escape he (by simp [Plain])
  · rename_i hc
    simp only [Bool.or_eq_true, decide_eq_true_eq, not_or] at hc
    split
    · rename_i hp
      have hn : c ≠ newline.toNat := by
        rintro rfl
        simp [isPrintable, newline] at hp
      exact .plain (plain_encode h hc.1 hc.2 hn)
    · split
      · rename_i l hl
        have hall : ∀ l ∈ letters, byte l.2 ≠ newline := by decide
        obtain ⟨before, after, heq, -⟩ := List.lookup_eq_some_iff.1 hl
        exact .escape (hall (c, l) (by rw [heq]; simp)) (by simp [Plain])
      · split
        · exact .escape (by decide) (plain_hexPadded 2 c)
        · split
          · exact .escape (by decide) (plain_hexPadded 4 c)
          · exact .escape (by decide) (plain_hexPadded 8 c)

theorem masked_pieces (s : Bytes) : ∀ p ∈ pieces s, Masked (escapePiece p) := by
  fun_induction pieces s with
  | case1 => simp
  | case2 a s c width hhead ih =>
    obtain ⟨hscalar, -, -⟩ := eq_encode_of_head? hhead
    intro p hp
    rcases List.mem_cons.1 hp with rfl | hp
    · exact masked_escapeCode hscalar
    · exact ih p hp
  | case3 a s hhead ih =>
    intro p hp
    rcases List.mem_cons.1 hp with rfl | hp
    · simp only [escapePiece, List.flatMap_cons, List.flatMap_nil, List.append_nil]
      exact .escape (by decide) (plain_hexPadded 2 _)
    · exact ih p hp

/-- A quoted text stays on its line. -/
theorem newline_not_mem_quote (s : Bytes) : newline ∉ quote s := by
  have hplain : ∀ t, Plain t → newline ∉ t := fun t ht hmem => (ht newline hmem).2.2 rfl
  have hpiece : ∀ t, Masked t → newline ∉ t := by
    intro t ht
    cases ht with
    | plain h => exact hplain _ h
    | escape he h =>
      intro hmem
      rcases List.mem_cons.1 hmem with heq | hmem
      · cases heq
      · rcases List.mem_cons.1 hmem with heq | hmem
        · exact he heq.symm
        · exact hplain _ h hmem
  unfold quote
  intro hmem
  rcases List.mem_append.1 hmem with hmem | hmem
  · rcases List.mem_cons.1 hmem with heq | hmem
    · cases heq
    · obtain ⟨p, hp, hmem⟩ := List.mem_flatMap.1 hmem
      exact hpiece _ (masked_pieces s p hp) hmem
  · rw [List.mem_singleton] at hmem
    cases hmem

end Quoted

namespace Syntax.Reader
open Quoted

theorem closing_plain {s : Bytes} (h : Plain s) (taken rest : Bytes) :
    closing taken (s ++ rest) = closing (s.reverse ++ taken) rest := by
  induction s generalizing taken with
  | nil => rfl
  | cons b s ih =>
    obtain ⟨hm, hb, -⟩ := h b (by simp)
    rw [List.cons_append, closing.eq_def]
    dsimp only
    rw [if_neg hm, if_neg hb, ih fun c hc => h c (by simp [hc])]
    simp

theorem closing_masked {s : Bytes} (h : Masked s) (taken rest : Bytes) :
    closing taken (s ++ rest) = closing (s.reverse ++ taken) rest := by
  cases h with
  | plain h => exact closing_plain h taken rest
  | @escape e s he h =>
    rw [List.cons_append, List.cons_append, closing.eq_def]
    dsimp only
    rw [if_neg (by decide), if_pos rfl, closing_plain h]
    simp

/-- The end of a quoted text is found. -/
theorem closing_quote [Unicode] (s rest : Bytes) :
    closing [] ((Utf8.pieces s).flatMap escapePiece ++ mark :: rest) =
      some ((Utf8.pieces s).flatMap escapePiece ++ [mark], rest) := by
  have hall : ∀ (ps : List Utf8.Piece) (taken : Bytes), (∀ p ∈ ps, Masked (escapePiece p)) →
      closing taken (ps.flatMap escapePiece ++ mark :: rest) =
        some (taken.reverse ++ ps.flatMap escapePiece ++ [mark], rest) := by
    intro ps
    induction ps with
    | nil =>
      intro taken _
      rw [List.flatMap_nil, List.nil_append, closing.eq_def]
      simp
    | cons p ps ih =>
      intro taken h
      rw [List.flatMap_cons, List.append_assoc, closing_masked (h p (by simp)),
        ih _ fun q hq => h q (by simp [hq])]
      simp
  rw [hall _ _ (masked_pieces s)]
  rfl

end Syntax.Reader
end Disguise
