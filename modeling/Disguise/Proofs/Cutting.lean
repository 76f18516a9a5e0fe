import Disguise.Text.Bytes
import Mathlib.Data.List.Basic

/-!
Texts cut into pieces. Pieces between separators are those of `List.splitOn`, so what is known of
lists applies. Lines are pieces that end in a newline: a text is made of its lines, and a text made
of lines is cut into these lines.
-/
namespace Disguise.Bytes

theorem join_cons_cons (sep p q : Bytes) (ps : List Bytes) :
    join sep (p :: q :: ps) = p ++ (sep ++ join sep (q :: ps)) := by
  simp [join]

theorem join_singleton (sep p : Bytes) : join sep [p] = p := by
  simp [join]

theorem join_eq_intercalate (sep : Bytes) (ps : List Bytes) : join sep ps = sep.intercalate ps :=
  rfl

variable {sep : UInt8}

theorem split_go (piece s : Bytes) :
    split.go sep piece s = List.splitOnPPrepend (· == sep) s piece := by
  induction s generalizing piece with
  | nil => rfl
  | cons b s ih =>
    rw [split.go, List.splitOnPPrepend_cons_eq_if]
    simp [ih]

theorem split_eq_splitOn (sep : UInt8) (s : Bytes) : split sep s = s.splitOn sep := by
  rw [split, split_go, List.splitOnPPrepend_nil_right, List.splitOn_eq_splitOnP]

theorem split_cons_self (sep : UInt8) (s : Bytes) : split sep (sep :: s) = [] :: split sep s := by
  rw [split_eq_splitOn, split_eq_splitOn, List.splitOn_cons_eq_if_modifyHead, if_pos (by simp)]

theorem split_cons_of_ne {b : UInt8} (h : b ≠ sep) (s : Bytes) :
    split sep (b :: s) = (split sep s).modifyHead (b :: ·) := by
  rw [split_eq_splitOn, split_eq_splitOn, List.splitOn_cons_eq_if_modifyHead, if_neg (by simpa)]

theorem exists_split (sep : UInt8) (s : Bytes) : ∃ p ps, split sep s = p :: ps := by
  rw [split_eq_splitOn]
  exact List.exists_cons_of_ne_nil (List.splitOn_ne_nil sep s)

theorem not_mem_of_mem_split {s p : Bytes} (h : p ∈ split sep s) : sep ∉ p := by
  induction s generalizing p with
  | nil =>
    rw [split_eq_splitOn, List.splitOn_nil, List.mem_singleton] at h
    simp [h]
  | cons b s ih =>
    obtain ⟨q, qs, hs⟩ := exists_split sep s
    by_cases hb : b = sep
    · rw [hb, split_cons_self] at h
      rcases List.mem_cons.1 h with rfl | h
      · simp
      · exact ih h
    · rw [split_cons_of_ne hb, hs] at h
      rcases List.mem_cons.1 h with rfl | h
      · have hq : sep ∉ q := ih (by simp [hs])
        exact fun hmem => (List.mem_cons.1 hmem).elim (fun heq => hb heq.symm) hq
      · exact ih (by simp [hs, h])

/-- The first piece ends where the others begin. -/
theorem split_first (sep : UInt8) (s : Bytes) :
    ∃ ps, split sep s = s.takeWhile (· ≠ sep) :: ps ∧
      split sep (s.dropWhile (· ≠ sep)) = [] :: ps := by
  induction s with
  | nil => exact ⟨[], rfl, rfl⟩
  | cons b s ih =>
    by_cases hb : b = sep
    · exact ⟨split sep s, by simp [hb, split_cons_self], by simp [hb, split_cons_self]⟩
    · obtain ⟨ps, hs, hrest⟩ := ih
      exact ⟨ps, by simp [hb, split_cons_of_ne hb, hs], by simpa [hb] using hrest⟩

/-- A line with its end. -/
def IsLine (l : Bytes) : Prop := ∃ body, newline ∉ body ∧ l = body ++ [newline]

/-- Every line of the text ends. -/
def Complete (s : Bytes) : Prop := ∀ l ∈ splitLines s, l.getLast? = some newline

instance (s : Bytes) : Decidable (Complete s) :=
  inferInstanceAs (Decidable (∀ l ∈ splitLines s, l.getLast? = some newline))

theorem splitLines_go (piece s : Bytes) (hs : newline ∉ s) (rest : Bytes) :
    splitLines.go piece (s ++ newline :: rest) =
      (piece.reverse ++ (s ++ [newline])) :: splitLines rest := by
  induction s generalizing piece with
  | nil => simp [splitLines.go, splitLines]
  | cons b s ih =>
    rw [List.mem_cons, not_or] at hs
    obtain ⟨hb, hs⟩ := hs
    rw [List.cons_append, splitLines.go, if_neg (Ne.symm hb), ih (b :: piece) hs,
      List.reverse_cons, List.append_assoc]
    rfl

theorem splitLines_go_last (piece s : Bytes) (hs : newline ∉ s) (hne : piece.reverse ++ s ≠ []) :
    splitLines.go piece s = [piece.reverse ++ s] := by
  induction s generalizing piece with
  | nil => simpa [splitLines.go] using hne
  | cons b s ih =>
    rw [List.mem_cons, not_or] at hs
    obtain ⟨hb, hs⟩ := hs
    rw [splitLines.go, if_neg (Ne.symm hb), ih (b :: piece) hs (by simp)]
    simp

theorem splitLines_line {l : Bytes} (h : IsLine l) (s : Bytes) :
    splitLines (l ++ s) = l :: splitLines s := by
  obtain ⟨body, hbody, rfl⟩ := h
  rw [List.append_assoc]
  exact splitLines_go [] body hbody s

theorem splitLines_last {s : Bytes} (h : newline ∉ s) (hne : s ≠ []) : splitLines s = [s] :=
  splitLines_go_last [] s h hne

/-- A text is a last line without an end, or a line before a text. -/
theorem lines_induction {motive : Bytes → Prop} (last : ∀ s, newline ∉ s → motive s)
    (line : ∀ l s, IsLine l → motive s → motive (l ++ s)) (s : Bytes) : motive s := by
  by_cases h : newline ∈ s
  · obtain ⟨body, rest, hs, hbody⟩ := List.eq_append_cons_of_mem h
    have hline := line (body ++ [newline]) rest ⟨body, hbody, rfl⟩
      (lines_induction last line rest)
    rwa [hs, List.append_cons]
  · exact last s h
termination_by s.length
decreasing_by
  rw [hs, List.length_append, List.length_cons]
  omega

theorem flatten_splitLines (s : Bytes) : (splitLines s).flatten = s := by
  induction s using lines_induction with
  | last s h =>
    by_cases hne : s = []
    · rw [hne]
      rfl
    · rw [splitLines_last h hne, List.flatten_singleton]
  | line l s hl ih => rw [splitLines_line hl, List.flatten_cons, ih]

theorem splitLines_flatten {lines : List Bytes} (h : ∀ l ∈ lines, IsLine l) :
    splitLines lines.flatten = lines := by
  induction lines with
  | nil => rfl
  | cons l lines ih =>
    rw [List.flatten_cons, splitLines_line (h l (by simp)), ih fun k hk => h k (by simp [hk])]

theorem IsLine.getLast? {l : Bytes} (h : IsLine l) : l.getLast? = some newline := by
  obtain ⟨body, -, rfl⟩ := h
  simp

theorem Complete.isLine {s : Bytes} (h : Complete s) : ∀ l ∈ splitLines s, IsLine l := by
  induction s using lines_induction with
  | last s hs =>
    by_cases hne : s = []
    · simp [hne, splitLines, splitLines.go]
    · -- this text would end in the newline that it does not have
      have hlast := h s (by simp [splitLines_last hs hne])
      exact absurd (List.mem_of_getLast? hlast) hs
  | line l s hl ih =>
    rw [Complete, splitLines_line hl, List.forall_mem_cons] at h
    rw [splitLines_line hl, List.forall_mem_cons]
    exact ⟨hl, ih h.2⟩

theorem complete_flatten {lines : List Bytes} (h : ∀ l ∈ lines, IsLine l) :
    Complete lines.flatten := by
  intro l hl
  rw [splitLines_flatten h] at hl
  exact (h l hl).getLast?

end Disguise.Bytes
