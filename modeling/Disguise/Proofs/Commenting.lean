import Disguise.Config.Comments
import Disguise.Proofs.Cutting
import Disguise.Text.Pattern
import Mathlib.Data.List.DropRight

/-!
Comments taken out of a configuration. What is taken out are the matches of a pattern. Line by line,
all that is seen is left as it was: the lines of the result are those of the text without its
comments, but for blank lines.
-/
namespace Disguise.Config
open Bytes Pattern

/-- White space, and all that is behind a mark on its line. -/
def marked : Pattern :=
  .both (.many isLineSpace) (.both (.one (· = byte '#')) (.many (· ≠ newline)))

/-- The same at the start of a line. -/
def commentLine : Pattern := .both (.either .start (.one (· = newline))) marked

/-- The preferred end of repetitions is the farthest. -/
theorem head?_repeats_false (p : UInt8 → Bool) (s : Bytes) :
    (repeats p false s).head? = some ⟨false, s.dropWhile p⟩ := by
  induction s with
  | nil => rfl
  | cons b s ih =>
    rw [repeats, List.dropWhile_cons]
    split
    · rw [List.head?_append, ih, Option.some_or]
    · rfl

theorem head?_ends_mark (atStart : Bool) (s : Bytes) :
    (ends (.both (.one (· = byte '#')) (.many (· ≠ newline))) ⟨atStart, s⟩).head? =
      match s with
      | b :: rest => if b = byte '#' then some ⟨false, rest.dropWhile (· ≠ newline)⟩ else none
      | [] => none := by
  cases s with
  | nil => rfl
  | cons b s =>
    by_cases hb : b = byte '#'
    · simp [ends, hb, head?_repeats_false]
    · simp [ends, hb]

/-- A place before white space is not before a mark. -/
theorem ends_mark_of_space {b : UInt8} (hb : isLineSpace b) (atStart : Bool) (s : Bytes) :
    ends (.both (.one (· = byte '#')) (.many (· ≠ newline))) ⟨atStart, b :: s⟩ = [] := by
  have hne : b ≠ byte '#' := by
    rintro rfl
    exact absurd hb (by decide)
  simp [ends, hne]

/-- Of the places after white space only the farthest can be before a mark. -/
theorem head?_ends_marked (atStart : Bool) (s : Bytes) :
    (marked.ends ⟨atStart, s⟩).head? = (afterComment? s).map (Place.mk false) := by
  change ((repeats isLineSpace atStart s).flatMap _).head? = _
  induction s generalizing atStart with
  | nil => rfl
  | cons b s ih =>
    rw [repeats, afterComment?, List.dropWhile_cons]
    split
    · rename_i hb
      rw [List.flatMap_append, List.flatMap_singleton, ends_mark_of_space hb, List.append_nil,
        ih false]
      rfl
    · rw [List.flatMap_singleton, head?_ends_mark]
      dsimp only
      split <;> rfl

theorem afterComment?_cons {b : UInt8} (hb : isLineSpace b) (s : Bytes) :
    afterComment? (b :: s) = afterComment? s := by
  rw [afterComment?, List.dropWhile_cons_of_pos hb]
  rfl

/-- At the start of the text a comment need not be behind a line break. -/
theorem head?_ends_atStart (s : Bytes) :
    (commentLine.ends ⟨true, s⟩).head? = (afterComment? s).map (Place.mk false) := by
  change ((ends .start ⟨true, s⟩ ++ ends (.one (· = newline)) ⟨true, s⟩).flatMap marked.ends).head?
    = _
  rw [List.flatMap_append, List.head?_append]
  change (([(⟨true, s⟩ : Place)].flatMap marked.ends).head?.or _) = _
  rw [List.flatMap_singleton, head?_ends_marked]
  cases s with
  | nil => rfl
  | cons b s =>
    by_cases hb : b = newline
    · have hbehind : (List.flatMap marked.ends (ends (.one (· = newline)) ⟨true, b :: s⟩)).head? =
          (afterComment? s).map (Place.mk false) := by
        simp [ends, hb, head?_ends_marked]
      rw [hbehind, afterComment?_cons (by rw [hb]; decide), Option.or_self]
    · simp [ends, hb]

theorem head?_ends_newline (s : Bytes) :
    (commentLine.ends ⟨false, newline :: s⟩).head? = (afterComment? s).map (Place.mk false) := by
  simpa [commentLine, ends] using head?_ends_marked false s

theorem head?_ends_other {b : UInt8} (hb : b ≠ newline) (s : Bytes) :
    (commentLine.ends ⟨false, b :: s⟩).head? = none := by
  simp [commentLine, ends, hb]

/-- What is left of a text that starts inside of a line. -/
def strip (s : Bytes) : Bytes := commentLine.deleteFrom ⟨false, s⟩

theorem strip_nil : strip [] = [] := deleteFrom_of_end rfl

theorem strip_comment {s rest : Bytes} (h : afterComment? s = some rest) :
    strip (newline :: s) = strip rest := by
  have hlen := length_afterComment? h
  have hmatch := head?_ends_newline s
  rw [h] at hmatch
  exact deleteFrom_of_match hmatch (by simp only [List.length_cons]; omega)

theorem strip_newline {s : Bytes} (h : afterComment? s = none) :
    strip (newline :: s) = newline :: strip s := by
  have hmatch := head?_ends_newline s
  rw [h] at hmatch
  exact deleteFrom_of_cons hmatch

theorem strip_cons {b : UInt8} (hb : b ≠ newline) (s : Bytes) : strip (b :: s) = b :: strip s :=
  deleteFrom_of_cons (head?_ends_other hb s)

/-- Induction along the text: comments are left out as a whole. -/
theorem strip_induction {motive : Bytes → Prop} (nil : motive [])
    (comment : ∀ s rest, afterComment? s = some rest → motive rest → motive (newline :: s))
    (newline : ∀ s, afterComment? s = none → motive s → motive (newline :: s))
    (other : ∀ b s, b ≠ Bytes.newline → motive s → motive (b :: s)) (s : Bytes) : motive s :=
  match s with
  | [] => nil
  | b :: s =>
    if hb : b = Bytes.newline then
      match h : afterComment? s with
      | some rest => hb ▸ comment s rest h (strip_induction nil comment newline other rest)
      | none => hb ▸ newline s h (strip_induction nil comment newline other s)
    else other b s hb (strip_induction nil comment newline other s)
termination_by s.length
decreasing_by
  · have := length_afterComment? h
    simp only [List.length_cons]
    omega
  all_goals simp

/-- White space before no comment stays. -/
theorem strip_append {w s : Bytes} (hw : ∀ b ∈ w, isLineSpace b) (h : afterComment? s = none) :
    strip (w ++ s) = w ++ strip s := by
  induction w with
  | nil => rfl
  | cons b w ih =>
    have hrest := ih fun c hc => hw c (by simp [hc])
    rw [List.cons_append]
    by_cases hb : b = newline
    · have hnone : afterComment? (w ++ s) = none := by
        rwa [afterComment?, List.dropWhile_append_of_pos fun c hc => hw c (by simp [hc])]
      rw [hb, strip_newline hnone, hrest]
      rfl
    · rw [strip_cons hb, hrest]
      rfl

theorem dropComments_eq_strip (s : Bytes) : dropComments s = strip s := by
  fun_induction dropComments s with
  | case1 => exact strip_nil.symm
  | case2 s rest h ih => rw [ih, strip_comment h]
  | case3 s h ih =>
    have hnone : afterComment? (s.dropWhile isLineSpace) = none := by
      rwa [afterComment?, List.dropWhile_idempotent]
    rw [ih, strip_newline h, ← strip_append (fun b hb => List.mem_takeWhile_imp hb) hnone,
      List.takeWhile_append_dropWhile]
  | case4 b s hb ih => rw [ih, strip_cons hb]

/-- One pass over a text takes out what the pattern matches. -/
theorem stripComments_eq_delete (s : Bytes) : stripComments s = commentLine.delete s := by
  have hmatch := head?_ends_atStart s
  unfold stripComments delete
  split
  · rename_i rest h
    rw [h] at hmatch
    rw [dropComments_eq_strip, deleteFrom_of_match hmatch (length_afterComment? h)]
    rfl
  · rename_i h
    rw [h] at hmatch
    rw [dropComments_eq_strip]
    cases s with
    | nil => rw [strip_nil, deleteFrom_of_end hmatch]
    | cons b s =>
      rw [deleteFrom_of_cons hmatch]
      by_cases hb : b = newline
      · subst hb
        rw [afterComment?_cons (by decide)] at h
        exact strip_newline h
      · exact strip_cons hb s

/-- There is something on the line. -/
def isVisible (line : Bytes) : Bool := !line.all isLineSpace

/-- The first thing on the line is a mark. -/
def isComment (line : Bytes) : Bool := (line.dropWhile isLineSpace).head? = some (byte '#')

/-- The line says something. -/
def isSetting (line : Bytes) : Bool := isVisible line && !isComment line

theorem isComment_cons {b : UInt8} (hb : isLineSpace b) (line : Bytes) :
    isComment (b :: line) = isComment line := by
  rw [isComment, List.dropWhile_cons_of_pos hb]
  rfl

theorem isSetting_cons {b : UInt8} (hb : isLineSpace b) (line : Bytes) :
    isSetting (b :: line) = isSetting line := by
  rw [isSetting, isComment_cons hb, isVisible, List.all_cons, hb, Bool.true_and]
  rfl

theorem isVisible_of_isComment {line : Bytes} (h : isComment line) : isVisible line := by
  rw [isVisible, Bool.not_eq_true', Bool.eq_false_iff]
  intro hall
  rw [isComment, List.dropWhile_eq_nil_iff.2 (List.all_eq_true.1 hall)] at h
  cases h

theorem isComment_mark (line : Bytes) : isComment (byte '#' :: line) := by
  rw [isComment, List.dropWhile_cons_of_neg (by decide)]
  rfl

/-- A comment that comes next takes whole lines, none of which says something. -/
theorem split_of_comment {s rest : Bytes} (h : afterComment? s = some rest) :
    ∃ skipped lines, split newline s = skipped ++ lines ∧ split newline rest = [] :: lines ∧
      (∀ l ∈ skipped, ¬ isSetting l) ∧ ∃ l ∈ skipped, isComment l := by
  induction s with
  | nil => cases h
  | cons b s ih =>
    by_cases hspace : isLineSpace b
    · rw [afterComment?_cons hspace] at h
      obtain ⟨skipped, lines, hs, hrest, hskip, l, hl, hcomment⟩ := ih h
      by_cases hb : b = newline
      · refine ⟨[] :: skipped, lines, by rw [hb, split_cons_self, hs]; rfl, hrest, ?_, l,
          by simp [hl], hcomment⟩
        simpa [isSetting, isVisible] using hskip
      · obtain ⟨p, ps, rfl⟩ := List.exists_cons_of_ne_nil (List.ne_nil_of_mem hl)
        refine ⟨(b :: p) :: ps, lines, by rw [split_cons_of_ne hb, hs]; rfl, hrest, ?_, ?_⟩
        · simpa [isSetting_cons hspace] using hskip
        · rcases List.mem_cons.1 hl with rfl | hl
          · exact ⟨b :: l, by simp, by rwa [isComment_cons hspace]⟩
          · exact ⟨l, by simp [hl], hcomment⟩
    · rw [afterComment?, List.dropWhile_cons_of_neg hspace] at h
      simp only [Option.ite_none_right_eq_some, Option.some.injEq] at h
      obtain ⟨rfl, rfl⟩ := h
      obtain ⟨lines, hs, hrest⟩ := split_first newline s
      refine ⟨[byte '#' :: s.takeWhile (· ≠ newline)], lines,
        by rw [split_cons_of_ne (by decide), hs]; rfl, hrest, ?_, _, List.mem_singleton_self _,
        isComment_mark _⟩
      simp [isSetting, isComment_mark]

/-- Where no comment comes next, the first line is none. -/
theorem split_of_no_comment {s : Bytes} (h : afterComment? s = none) :
    ∃ line lines, split newline s = line :: lines ∧ ¬ isComment line := by
  induction s with
  | nil => exact ⟨[], [], rfl, by decide⟩
  | cons b s ih =>
    by_cases hspace : isLineSpace b
    · rw [afterComment?_cons hspace] at h
      obtain ⟨line, lines, hs, hline⟩ := ih h
      by_cases hb : b = newline
      · exact ⟨[], split newline s, by rw [hb, split_cons_self], by decide⟩
      · exact ⟨b :: line, lines, by rw [split_cons_of_ne hb, hs]; rfl,
          by rwa [isComment_cons hspace]⟩
    · rw [afterComment?, List.dropWhile_cons_of_neg hspace] at h
      have hmark : b ≠ byte '#' := by
        rintro rfl
        simp at h
      obtain ⟨line, lines, hs⟩ := exists_split newline s
      have hb : b ≠ newline := by
        rintro rfl
        exact hspace (by decide)
      refine ⟨b :: line, lines, by rw [split_cons_of_ne hb, hs]; rfl, ?_⟩
      rw [isComment, List.dropWhile_cons_of_neg hspace]
      simpa using hmark

/-- From the first line on the two texts show the same. -/
def Shows (s' s : Bytes) : Prop :=
  ∃ line lines' lines, split newline s' = line :: lines' ∧ split newline s = line :: lines ∧
    lines'.filter isVisible = lines.filter isSetting

theorem isSetting_of_not_comment {line : Bytes} (h : ¬ isComment line) :
    isSetting line = isVisible line := by
  rw [isSetting, Bool.eq_false_iff.2 h]
  simp

theorem shows_strip (s : Bytes) : Shows (strip s) s := by
  induction s using strip_induction with
  | nil => exact ⟨[], [], [], by rw [strip_nil]; rfl, rfl, rfl⟩
  | comment s rest h ih =>
    obtain ⟨skipped, lines, hs, hrest, hskip, -⟩ := split_of_comment h
    obtain ⟨line, lines', lines₂, hs', hrest', hlines⟩ := ih
    obtain ⟨rfl, rfl⟩ := List.cons.inj (hrest.symm.trans hrest')
    refine ⟨[], lines', skipped ++ lines, by rw [strip_comment h, hs'],
      by rw [split_cons_self, hs], ?_⟩
    rw [hlines, List.filter_append, List.filter_eq_nil_iff.2 hskip, List.nil_append]
  | newline s h ih =>
    obtain ⟨line, lines', lines, hs', hs, hlines⟩ := ih
    obtain ⟨line₂, lines₂, hs₂, hcomment⟩ := split_of_no_comment h
    obtain ⟨rfl, rfl⟩ := List.cons.inj (hs.symm.trans hs₂)
    refine ⟨[], line :: lines', line :: lines, by rw [strip_newline h, split_cons_self, hs'],
      by rw [split_cons_self, hs], ?_⟩
    rw [List.filter_cons, List.filter_cons, isSetting_of_not_comment hcomment, hlines]
  | other b s hb ih =>
    obtain ⟨line, lines', lines, hs', hs, hlines⟩ := ih
    exact ⟨b :: line, lines', lines, by rw [strip_cons hb, split_cons_of_ne hb, hs']; rfl,
      by rw [split_cons_of_ne hb, hs]; rfl, hlines⟩

/-- What is seen of a text without comments are its lines that say something. -/
theorem filter_stripComments (s : Bytes) :
    (split newline (stripComments s)).filter isVisible = (split newline s).filter isSetting := by
  -- the start of the text is like a line break before it
  have hstart : (split newline (stripComments s)).filter isVisible =
      (split newline (strip (newline :: s))).filter isVisible := by
    unfold stripComments
    split
    · rename_i rest h
      rw [dropComments_eq_strip, strip_comment h]
    · rename_i h
      rw [dropComments_eq_strip, strip_newline h, split_cons_self]
      rfl
  obtain ⟨line, lines', lines, hs', hs, hlines⟩ := shows_strip (newline :: s)
  rw [split_cons_self] at hs
  obtain ⟨rfl, rfl⟩ := List.cons.inj hs
  rw [hstart, hs', ← hlines]
  rfl

/-- Where the lines behind the first are no comments, all stays. -/
theorem strip_of_plain (s : Bytes) (h : ∀ l ∈ (split newline s).tail, ¬ isComment l) :
    strip s = s := by
  induction s using strip_induction with
  | nil => exact strip_nil
  | comment s rest hc ih =>
    obtain ⟨skipped, lines, hs, -, -, l, hl, hcomment⟩ := split_of_comment hc
    rw [split_cons_self, List.tail_cons, hs] at h
    exact absurd hcomment (h l (List.mem_append_left _ hl))
  | newline s hc ih =>
    rw [split_cons_self, List.tail_cons] at h
    rw [strip_newline hc, ih fun l hl => h l (List.mem_of_mem_tail hl)]
  | other b s hb ih =>
    rw [split_cons_of_ne hb] at h
    rw [strip_cons hb, ih (by simpa using h)]

theorem stripComments_of_plain {s : Bytes} (h : ∀ l ∈ split newline s, ¬ isComment l) :
    stripComments s = s := by
  unfold stripComments
  split
  · rename_i rest hc
    obtain ⟨skipped, lines, hs, -, -, l, hl, hcomment⟩ := split_of_comment hc
    exact absurd hcomment (h l (by rw [hs]; exact List.mem_append_left _ hl))
  · rw [dropComments_eq_strip]
    exact strip_of_plain s fun l hl => h l (List.mem_of_mem_tail hl)

/-- Exactly the comment lines are taken out: those that the pattern matches. All other lines that
can be seen are left byte for byte and in order, and there is nothing to take out a second time. -/
theorem stripComments_exact (s : Bytes) :
    stripComments s = commentLine.delete s ∧
    (split newline (stripComments s)).filter isVisible =
      (split newline s).filter (fun l => isVisible l && !isComment l) ∧
    stripComments (stripComments s) = stripComments s := by
  refine ⟨stripComments_eq_delete s, filter_stripComments s, stripComments_of_plain ?_⟩
  intro l hl hcomment
  have hmem : l ∈ (split newline (stripComments s)).filter isVisible :=
    List.mem_filter.2 ⟨hl, isVisible_of_isComment hcomment⟩
  rw [filter_stripComments] at hmem
  simpa [isSetting, hcomment] using (List.mem_filter.1 hmem).2

end Disguise.Config
