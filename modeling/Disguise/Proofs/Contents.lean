import Disguise.Proofs.RoundTrip
import Mathlib.Data.List.DropRight

/-!
What lines say. Comments, empty lines and blanks around a line say nothing, so what a text is read
as is told by the contents of its lines.
-/
namespace Disguise.Syntax
open Bytes Reader Results

theorem trimRight_isPrefix (s : Bytes) : trimRight s <+: s := List.rdropWhile_prefix endsLine s

theorem trimRight_of_all {s : Bytes} (h : ∀ b ∈ s, endsLine b) : trimRight s = [] :=
  List.rdropWhile_eq_nil_iff.2 h

theorem trimRight_append (s t : Bytes) : trimRight (s ++ t) =
    if (trimRight t).isEmpty then trimRight s else s ++ trimRight t := by
  unfold trimRight Bytes.dropRightWhile
  rw [List.reverse_append, List.dropWhile_append, List.isEmpty_reverse]
  split
  · rfl
  · rw [List.reverse_append, List.reverse_reverse]

theorem trimRight_append_of_ends {s : Bytes} (h : Ends s) (t : Bytes) :
    trimRight (s ++ t) = s ++ trimRight t := by
  rw [trimRight_append, h.trimRight_eq]
  split
  · rename_i hempty
    rw [List.isEmpty_iff.1 hempty, List.append_nil]
  · rfl

/-- Blanks around a line say nothing. -/
theorem content_pad {before after : Bytes} (line : Bytes) (hbefore : ∀ b ∈ before, isSpace b)
    (hafter : ∀ b ∈ after, endsLine b) : content (before ++ (line ++ after)) = content line := by
  have hblank : trimRight before = [] :=
    trimRight_of_all fun b hb => by rw [endsLine, hbefore b hb, Bool.true_or]
  rw [content, content, trimRight_append, trimRight_append line, trimRight_of_all hafter,
    List.isEmpty_nil, if_pos rfl]
  split
  · rename_i hempty
    rw [hblank, List.isEmpty_iff.1 hempty]
  · exact List.dropWhile_append_of_pos hbefore

/-- What the lines of a text say, without comments and empty lines. -/
def contents (lines : List Bytes) : List Bytes := (lines.map content).filter isCode

theorem contents_cons (raw : Bytes) (lines : List Bytes) : contents (raw :: lines) =
    if isCode (content raw) then content raw :: contents lines else contents lines := by
  rw [contents, List.map_cons, List.filter_cons]
  rfl

theorem contents_append (lines lines' : List Bytes) :
    contents (lines ++ lines') = contents lines ++ contents lines' := by
  rw [contents, List.map_append, List.filter_append, contents, contents]

/-- A comment or an empty line says nothing, wherever it stands. -/
theorem contents_insert {line : Bytes} (h : isCode (content line) = false)
    (before after : List Bytes) :
    contents (before ++ line :: after) = contents (before ++ after) := by
  rw [contents_append, contents_cons, if_neg (by simp [h]), contents_append]

/-- Nor do blanks around a line. -/
theorem contents_pad {indent tail : Bytes} (line : Bytes) (hindent : ∀ b ∈ indent, isSpace b)
    (htail : ∀ b ∈ tail, endsLine b) (before after : List Bytes) :
    contents (before ++ (indent ++ (line ++ tail)) :: after) =
      contents (before ++ line :: after) := by
  rw [contents_append, contents_cons, content_pad line hindent htail, contents_append,
    contents_cons]

namespace Reading
variable {s t : Reading} {Q : Reading → Prop}

/-- Lines of these contents, one after the other, lead from the one reading to the other. -/
def Reads : List Bytes → Reading → Reading → Prop
  | [], s, t => s = t
  | c :: cs, s, t =>
    ∃ number raw u, content raw = c ∧ s.addLine number raw = .ok u ∧ Reads cs u t

/-- All lines of these contents lead to a reading of the given kind. -/
def Reaches (Q : Reading → Prop) : List Bytes → Reading → Prop
  | [], s => Q s
  | c :: cs, s => ∀ number raw, content raw = c →
    ∃ t, s.addLine number raw = .ok t ∧ Reaches Q cs t

theorem reads_contents {number : Nat} {lines : List Bytes}
    (h : s.takeLines number lines = .ok t) : Reads (contents lines) s t := by
  induction lines generalizing s number with
  | nil => exact Except.ok.inj h
  | cons raw lines ih =>
    obtain ⟨u, hu, h⟩ := bind_eq_ok.1 h
    rw [contents_cons]
    split
    · exact ⟨number, raw, u, rfl, hu, ih h⟩
    · rename_i hskip
      obtain rfl := Except.ok.inj ((addLine_skipped (by simpa using hskip)).symm.trans hu)
      exact ih h

theorem Reaches.leads {lines : List Bytes} (h : Reaches Q (contents lines) s) :
    s.Leads lines Q := by
  intro number
  induction lines generalizing s number with
  | nil => exact ⟨s, h, rfl⟩
  | cons raw lines ih =>
    rw [contents_cons] at h
    rw [takeLines]
    split at h
    · obtain ⟨u, hu, h⟩ := h number raw rfl
      rw [hu, ok_bind]
      exact ih h (number + 1)
    · rename_i hskip
      rw [addLine_skipped (by simpa using hskip), ok_bind]
      exact ih h (number + 1)

theorem reads_append {cs cs' : List Bytes} :
    Reads (cs ++ cs') s t ↔ ∃ u, Reads cs s u ∧ Reads cs' u t := by
  induction cs generalizing s with
  | nil => simp [Reads]
  | cons c cs ih =>
    simp only [List.cons_append, Reads, ih]
    constructor
    · rintro ⟨number, raw, u, hraw, hu, v, hv, ht⟩
      exact ⟨v, ⟨number, raw, u, hraw, hu, hv⟩, ht⟩
    · rintro ⟨v, ⟨number, raw, u, hraw, hu, hv⟩, ht⟩
      exact ⟨number, raw, u, hraw, hu, v, hv, ht⟩

theorem Reaches.append {cs cs' : List Bytes} (h : Reaches (Reaches Q cs') cs s) :
    Reaches Q (cs ++ cs') s := by
  induction cs generalizing s with
  | nil => exact h
  | cons c cs ih =>
    intro number raw hraw
    obtain ⟨t, ht, h⟩ := h number raw hraw
    exact ⟨t, ht, ih h⟩

theorem Reaches.mono {P : Reading → Prop} {cs : List Bytes} (h : Reaches P cs s)
    (hmono : ∀ t, P t → Q t) : Reaches Q cs s := by
  induction cs generalizing s with
  | nil => exact hmono s h
  | cons c cs ih =>
    intro number raw hraw
    obtain ⟨t, ht, h⟩ := h number raw hraw
    exact ⟨t, ht, ih h⟩

end Reading
end Disguise.Syntax
