import Disguise.Diff.Lines
import Disguise.Proofs.Cutting
import Disguise.Proofs.Results
import Disguise.Proofs.Scripts

/-!
Differences of texts, read line by line. A difference is a list of marked lines, and both texts are
made of the lines with two of the marks. This holds of every way to cut two texts into segments of
whole lines, so of the one that comes from an edit script.
-/
namespace Disguise
open Bytes
namespace Diff

theorem isLine_mark (kind : Kind) {l : Bytes} (h : IsLine l) : IsLine (kind.mark :: l) := by
  obtain ⟨body, hbody, rfl⟩ := h
  have hmark : newline ≠ kind.mark := by cases kind <;> decide
  exact ⟨kind.mark :: body, by simp [hmark, hbody], rfl⟩

theorem mark_injective {k k' : Kind} (h : k.mark = k'.mark) : k = k' := by
  revert h
  cases k <;> cases k' <;> decide

/-- The lines of a segment, each with its mark. -/
def Segment.lines (s : Segment UInt8) : List Bytes :=
  (splitLines s.items).map fun line => s.kind.mark :: line

/-- The lines that have one of the marks, without it. -/
def unmarked (kinds : List Kind) (lines : List Bytes) : Bytes :=
  (lines.filter fun line => kinds.any fun k => line.head? = some k.mark).flatMap List.tail

/-- A difference tells both texts by the marks of its lines. -/
structure Tells (diff old new : Bytes) : Prop where
  marked : ∀ line ∈ splitLines diff, ∃ k : Kind, line.head? = some k.mark
  old : unmarked [.equal, .delete] (splitLines diff) = old
  new : unmarked [.equal, .insert] (splitLines diff) = new

theorem unmarked_append (kinds : List Kind) (lines lines' : List Bytes) :
    unmarked kinds (lines ++ lines') = unmarked kinds lines ++ unmarked kinds lines' := by
  rw [unmarked, List.filter_append, List.flatMap_append]
  rfl

theorem unmarked_lines (kinds : List Kind) (s : Segment UInt8) :
    unmarked kinds s.lines = if s.kind ∈ kinds then s.items else [] := by
  have hkeep : ∀ line : Bytes,
      (kinds.any fun k => (s.kind.mark :: line).head? = some k.mark) = decide (s.kind ∈ kinds) := by
    intro line
    rw [Bool.eq_iff_iff, List.any_eq_true, decide_eq_true_eq]
    constructor
    · rintro ⟨k, hk, heq⟩
      rw [List.head?_cons, decide_eq_true_eq, Option.some.injEq] at heq
      rwa [mark_injective heq]
    · exact fun hk => ⟨s.kind, hk, by simp⟩
  rw [unmarked, Segment.lines, List.filter_map, List.flatMap_map]
  simp only [Function.comp_def, hkeep]
  split
  · rename_i h
    simpa [h] using flatten_splitLines s.items
  · rename_i h
    simp [h]

theorem flatten_lines (s : Segment UInt8) : s.lines.flatten = s.marked := by
  rw [Segment.lines, Segment.marked, List.flatMap_def]

variable {segments : List (Segment UInt8)}

theorem splitLines_render (h : ∀ s ∈ segments, Complete s.items) :
    splitLines (render segments) = segments.flatMap Segment.lines := by
  have hrender : render segments = (segments.flatMap Segment.lines).flatten := by
    rw [render, ← List.flatMap_id, List.flatMap_assoc]
    exact List.flatMap_congr fun s _ => by rw [List.flatMap_id, flatten_lines]
  rw [hrender]
  refine splitLines_flatten fun line hline => ?_
  obtain ⟨s, hs, hline⟩ := List.mem_flatMap.1 hline
  obtain ⟨l, hl, rfl⟩ := List.mem_map.1 hline
  exact isLine_mark s.kind ((h s hs).isLine l hl)

theorem unmarked_segments (kinds : List Kind) (segments : List (Segment UInt8)) :
    unmarked kinds (segments.flatMap Segment.lines) =
      segments.flatMap fun s => if s.kind ∈ kinds then s.items else [] := by
  induction segments with
  | nil => rfl
  | cons s segments ih =>
    rw [List.flatMap_cons, unmarked_append, unmarked_lines, ih, List.flatMap_cons]

theorem tells_render (h : ∀ s ∈ segments, Complete s.items) :
    Tells (render segments) (before segments) (after segments) where
  marked line hline := by
    rw [splitLines_render h] at hline
    obtain ⟨s, -, hline⟩ := List.mem_flatMap.1 hline
    obtain ⟨l, -, rfl⟩ := List.mem_map.1 hline
    exact ⟨s.kind, rfl⟩
  old := by
    rw [splitLines_render h, unmarked_segments]
    refine List.flatMap_congr fun s _ => ?_
    obtain ⟨kind, items⟩ := s
    cases kind <;> rfl
  new := by
    rw [splitLines_render h, unmarked_segments]
    refine List.flatMap_congr fun s _ => ?_
    obtain ⟨kind, items⟩ := s
    cases kind <;> rfl

end Diff

/-- The differ finds segments for every two texts. -/
def Differ.Returns [Differ] : Prop :=
  ∀ old new, ∃ segments, Differ.segments old new = .ok segments

/-- What is relied on of a differ: its segments consist of whole lines if the texts do, and read as
the two texts. -/
class LawfulDiffer [Differ] : Prop where
  whole {old new : Bytes} {segments : List (Diff.Segment UInt8)} :
    Differ.segments old new = .ok segments → Complete old → Complete new →
      ∀ s ∈ segments, Complete s.items
  reads {old new : Bytes} {segments : List (Diff.Segment UInt8)} :
    Differ.segments old new = .ok segments → Diff.Reads segments old new

namespace Diff

theorem before_joined (script : List (Segment Bytes)) :
    before (script.map Segment.joined) = (before script).flatten := by
  rw [before, before, List.flatMap_map, ← List.flatMap_id, List.flatMap_assoc]
  refine List.flatMap_congr fun s _ => ?_
  obtain ⟨kind, items⟩ := s
  cases kind <;> simp [Segment.joined]

theorem after_joined (script : List (Segment Bytes)) :
    after (script.map Segment.joined) = (after script).flatten := by
  rw [after, after, List.flatMap_map, ← List.flatMap_id, List.flatMap_assoc]
  refine List.flatMap_congr fun s _ => ?_
  obtain ⟨kind, items⟩ := s
  cases kind <;> simp [Segment.joined]

theorem reads_lineSegments (old new : Bytes) : Reads (lineSegments old new) old new := by
  have hread := reads_script old.splitLines new.splitLines
  constructor
  · rw [lineSegments, before_joined, hread.before, flatten_splitLines]
  · rw [lineSegments, after_joined, hread.after, flatten_splitLines]

theorem complete_lineSegments {old new : Bytes} (hold : Complete old) (hnew : Complete new) :
    ∀ s ∈ lineSegments old new, Complete s.items := by
  intro s hs
  obtain ⟨t, ht, rfl⟩ := List.mem_map.1 hs
  refine complete_flatten fun l hl => ?_
  exact ((reads_script _ _).mem ht hl).elim (hold.isLine l) (hnew.isLine l)

theorem returns_lineSegments : Differ.Returns := fun old new => ⟨lineSegments old new, rfl⟩

instance : LawfulDiffer where
  whole h hold hnew := by
    obtain rfl := Except.ok.inj h
    exact complete_lineSegments hold hnew
  reads h := by
    obtain rfl := Except.ok.inj h
    exact reads_lineSegments _ _

/-- A difference determines both texts, however they are cut into segments of whole lines. So what a
lawful differ makes of them does. -/
theorem lineDiff_tells {old new : Bytes} (hold : Complete old) (hnew : Complete new) :
    (∀ segments, (∀ s ∈ segments, Complete s.items) → Reads segments old new →
      Tells (render segments) old new) ∧
    (∀ [Differ] [LawfulDiffer] (diff : Bytes), Differ.lineDiff old new = .ok diff →
      Tells diff old new) ∧
    Tells (lineDiff old new) old new := by
  have hrender : ∀ segments, (∀ s ∈ segments, Complete s.items) → Reads segments old new →
      Tells (render segments) old new := by
    intro segments hwhole hread
    rw [← hread.before, ← hread.after]
    exact tells_render hwhole
  refine ⟨hrender, ?_, hrender _ (complete_lineSegments hold hnew) (reads_lineSegments old new)⟩
  intro _ _ diff hdiff
  obtain ⟨segments, hsegments, hrest⟩ := Results.bind_eq_ok.1 hdiff
  obtain rfl := Except.ok.inj hrest
  exact hrender segments (LawfulDiffer.whole hsegments hold hnew) (LawfulDiffer.reads hsegments)

/-- Lines that look like marked ones. -/
theorem lineDiff_tells_signs :
    Tells (lineDiff (text "-a\n\n+b\n") (text "\n+b\n+b\n")) (text "-a\n\n+b\n")
      (text "\n+b\n+b\n") := by
  have hold : Complete (text "-a\n\n+b\n") := by decide
  have hnew : Complete (text "\n+b\n+b\n") := by decide
  exact (lineDiff_tells hold hnew).2.2

example : lineDiff (text "a\nb\nc\n") (text "a\nx\nc\n") = text " a\n-b\n+x\n c\n" := by
  decide +kernel

end Diff
end Disguise
