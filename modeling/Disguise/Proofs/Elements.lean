import Disguise.CommandLine.ListOption
import Disguise.Proofs.Cutting
import Disguise.Proofs.Quoting
import Mathlib.Data.List.DropRight
import Mathlib.Data.List.Infix

/-!
What a list option collects. A value adds its elements up to the first empty one, so a faulty value
changes the list unless it begins with an empty element. The elements in the list have no white
space around them and hold no separator; the list, written as one value, is read as it is.
-/
namespace Disguise

namespace Utf8

/-- A sequence that starts a text starts each longer text. -/
theorem head?_of_prefix {a : UInt8} {s t : Bytes} {c width : Nat}
    (h : head? (a :: s) = some (c, width)) (hp : s <+: t) : ∃ w, head? (a :: t) = some (c, w) := by
  obtain ⟨hscalar, -, henc⟩ := eq_encode_of_head? h
  obtain ⟨u, rfl⟩ := hp
  refine ⟨(encode c).length, ?_⟩
  have heq : a :: (s ++ u) = encode c ++ (s.drop (width - 1) ++ u) := by
    rw [← henc, List.cons_append, ← List.append_assoc, List.take_append_drop]
  rw [heq, head?_encode hscalar]

/-- The pieces of a text, up to some piece, are the pieces of a text. -/
theorem pieces_glue_of_prefix {s : Bytes} {l : List Piece} (h : l <+: pieces s) :
    pieces (Blank.glue l) = l := by
  fun_induction pieces s generalizing l with
  | case1 =>
    rw [List.prefix_nil.1 h]
    simp [Blank.glue, pieces]
  | case2 a s c width hhead ih =>
    obtain ⟨hscalar, -, henc⟩ := eq_encode_of_head? hhead
    rcases List.prefix_cons_iff.1 h with rfl | ⟨l, rfl, hl⟩
    · simp [Blank.glue, pieces]
    · have hread := head?_encode hscalar (Blank.glue l)
      rw [← henc, List.cons_append] at hread
      change pieces (a :: (s.take (width - 1) ++ Blank.glue l)) = _
      rw [pieces, hread]
      dsimp only
      rw [List.length_cons, Nat.add_sub_cancel, List.take_left' rfl, List.drop_left' rfl, ih hl]
  | case3 a s hhead ih =>
    rcases List.prefix_cons_iff.1 h with rfl | ⟨l, rfl, hl⟩
    · simp [Blank.glue, pieces]
    · have hrest : Blank.glue l <+: s := by
        obtain ⟨m, hm⟩ := hl
        refine ⟨Blank.glue m, ?_⟩
        rw [Blank.glue, Blank.glue, ← List.flatMap_append, hm, pieces_raw]
      have hnone : head? (a :: Blank.glue l) = none := by
        refine Option.eq_none_iff_forall_not_mem.2 fun r hr => ?_
        obtain ⟨w, hw⟩ := head?_of_prefix hr hrest
        rw [hhead] at hw
        cases hw
      change pieces (a :: Blank.glue l) = _
      rw [pieces, hnone]
      dsimp only
      rw [ih hl]

/-- The pieces of a text from some piece on are the pieces of a text. -/
theorem exists_pieces_of_suffix {s : Bytes} {l : List Piece} (h : l <:+ pieces s) :
    ∃ t, l = pieces t := by
  fun_induction pieces s with
  | case1 => exact ⟨[], by rw [List.suffix_nil.1 h, pieces]⟩
  | case2 a s c width hhead ih =>
    rcases List.suffix_cons_iff.1 h with rfl | h
    · exact ⟨a :: s, by rw [pieces, hhead]⟩
    · exact ih h
  | case3 a s hhead ih =>
    rcases List.suffix_cons_iff.1 h with rfl | h
    · exact ⟨a :: s, by rw [pieces, hhead]⟩
    · exact ih h

/-- A piece with a code point is its encoding. -/
theorem raw_of_mem_pieces {s : Bytes} {p : Piece} (hp : p ∈ pieces s) {c : Nat}
    (hc : p.code = some c) : isScalar c ∧ p.raw = encode c := by
  fun_induction pieces s with
  | case1 => simp at hp
  | case2 a s d width hhead ih =>
    rcases List.mem_cons.1 hp with rfl | hp
    · obtain ⟨hscalar, -, henc⟩ := eq_encode_of_head? hhead
      cases hc
      exact ⟨hscalar, henc⟩
    · exact ih hp
  | case3 a s hhead ih =>
    rcases List.mem_cons.1 hp with rfl | hp
    · cases hc
    · exact ih hp

end Utf8

namespace Blank
open Utf8

/-- The pieces that are left of a text. -/
def middle (s : Bytes) : List Piece :=
  ((pieces s).dropWhile isBlankPiece).rdropWhile isBlankPiece

theorem trim_eq (s : Bytes) : trim s = glue (middle s) := rfl

theorem pieces_trim (s : Bytes) : pieces (trim s) = middle s := by
  obtain ⟨t, ht⟩ := exists_pieces_of_suffix (List.dropWhile_suffix isBlankPiece (l := pieces s))
  rw [trim_eq]
  refine pieces_glue_of_prefix (s := t) ?_
  rw [← ht]
  exact List.rdropWhile_prefix _ _

/-- A trimmed text has no white space at its ends. -/
theorem trim_trim (s : Bytes) : trim (trim s) = trim s := by
  have hstart : (middle s).dropWhile isBlankPiece = middle s := by
    refine List.dropWhile_eq_self_iff.2 fun hpos => ?_
    have hprefix : middle s <+: (pieces s).dropWhile isBlankPiece := List.rdropWhile_prefix _ _
    have hhead := List.dropWhile_get_zero_not isBlankPiece (pieces s)
      (hpos.trans_le hprefix.length_le)
    rwa [List.get_eq_getElem, ← hprefix.getElem hpos] at hhead
  rw [trim_eq (trim s), middle, pieces_trim, hstart, middle, List.rdropWhile_idempotent]
  rfl

theorem mem_of_mem_trim {b : UInt8} {s : Bytes} (h : b ∈ trim s) : b ∈ s := by
  obtain ⟨p, hp, hb⟩ := List.mem_flatMap.1 h
  rw [← pieces_raw s]
  have hsub := (List.rdropWhile_prefix isBlankPiece ((pieces s).dropWhile isBlankPiece)).subset hp
  exact List.mem_flatMap.2 ⟨p, (List.dropWhile_suffix isBlankPiece).subset hsub, hb⟩

/-- Where there is nothing but white space, there is no byte of another ASCII character. -/
theorem not_mem_of_trim_eq_nil {s : Bytes} (h : trim s = []) {k : UInt8} (hk : k.toNat < 0x80)
    (hvisible : ¬ isBlank k.toNat) : k ∉ s := by
  have hmiddle : middle s = [] := by rw [← pieces_trim, h, pieces]
  have hall : ∀ p ∈ pieces s, isBlankPiece p := by
    have hrest := List.rdropWhile_eq_nil_iff.1 hmiddle
    intro p hp
    rw [← List.takeWhile_append_dropWhile (p := isBlankPiece) (l := pieces s)] at hp
    exact (List.mem_append.1 hp).elim (List.mem_takeWhile_imp) (hrest p)
  intro hmem
  rw [← pieces_raw s] at hmem
  obtain ⟨p, hp, hb⟩ := List.mem_flatMap.1 hmem
  obtain ⟨c, hc, hblank⟩ := (Option.any_eq_true _ _).1 (hall p hp)
  obtain ⟨hscalar, hraw⟩ := raw_of_mem_pieces hp hc
  rw [hraw] at hb
  refine Quoted.ne_of_mem_encode hscalar hb hk ?_ rfl
  rintro rfl
  exact hvisible hblank

end Blank

namespace ListOption

/-- What is between the separators of a value, without white space around it. -/
def elementsOf (value : Bytes) : List Bytes := (value.split separator).map Blank.trim

/-- The value gives no fault, whatever the list is. -/
def fits (value : Bytes) : Bool := (add [] value).2.isNone

/-- The elements that a value adds. -/
def taken (value : Bytes) : List Bytes := (elementsOf value).takeWhile (!·.isEmpty)

theorem elementsOf_ne_nil (value : Bytes) : elementsOf value ≠ [] := by
  rw [elementsOf, Bytes.split_eq_splitOn]
  simp

/-- White space alone has one element, the empty one. -/
theorem elementsOf_of_blank {value : Bytes} (h : Blank.trim value = []) :
    elementsOf value = [[]] := by
  have hsep : separator ∉ value := Blank.not_mem_of_trim_eq_nil h (by decide) (by decide)
  rw [elementsOf, Bytes.split_eq_splitOn, List.splitOn_eq_singleton hsep, List.map_singleton, h]

theorem add_fst (list : List Bytes) (value : Bytes) : (add list value).1 = list ++ taken value := by
  unfold add
  split
  · rename_i h
    rw [taken, elementsOf_of_blank (List.isEmpty_iff.1 h)]
    simp
  · rfl

theorem add_snd (list : List Bytes) (value : Bytes) : (add list value).2.isNone = fits value := by
  unfold fits add
  split <;> rfl

theorem fits_iff (value : Bytes) : fits value ↔ ∀ e ∈ elementsOf value, e ≠ [] := by
  unfold fits add
  split
  · rename_i h
    rw [elementsOf_of_blank (List.isEmpty_iff.1 h)]
    simp
  · change Option.isNone (if (elementsOf value).any (·.isEmpty) then _ else none) ↔ _
    split
    · rename_i h
      obtain ⟨e, he, hempty⟩ := List.any_eq_true.1 h
      simp only [Option.isNone_some, Bool.false_eq_true, false_iff]
      exact fun hall => hall e he (List.isEmpty_iff.1 hempty)
    · rename_i h
      simp only [Option.isNone_none, true_iff]
      rintro e he rfl
      exact h (List.any_eq_true.2 ⟨[], he, rfl⟩)

/-- A value without a fault adds all of its elements. -/
theorem taken_of_fits {value : Bytes} (h : fits value) : taken value = elementsOf value := by
  refine List.takeWhile_eq_self_iff.2 fun e he => ?_
  simpa using (fits_iff value).1 h e he

/-- A value adds nothing if its first element is empty. -/
theorem taken_eq_nil_iff (value : Bytes) :
    taken value = [] ↔ (elementsOf value).head? = some [] := by
  obtain ⟨e, es, h⟩ := List.exists_cons_of_ne_nil (elementsOf_ne_nil value)
  rw [taken, h, List.takeWhile_cons, List.head?_cons, Option.some.injEq]
  split
  · rename_i hne
    simp only [reduceCtorEq, false_iff]
    simpa using hne
  · rename_i hempty
    simpa using hempty

/-- The list after some values. -/
def collect (values : List Bytes) : List Bytes := values.foldl (fun list v => (add list v).1) []

theorem collect_eq (values : List Bytes) : collect values = values.flatMap taken := by
  have hrun : ∀ list, values.foldl (fun list v => (add list v).1) list =
      list ++ values.flatMap taken := by
    induction values with
    | nil => simp
    | cons v values ih =>
      intro list
      rw [List.foldl_cons, ih, add_fst, List.flatMap_cons, List.append_assoc]
  exact hrun []

/-- The list is made of the values without a fault if the others add nothing. -/
theorem flatMap_taken {values : List Bytes} (h : ∀ v ∈ values, ¬ fits v → taken v = []) :
    values.flatMap taken = (values.filter fits).flatMap elementsOf := by
  induction values with
  | nil => rfl
  | cons v values ih =>
    have hrest := ih fun u hu => h u (by simp [hu])
    by_cases hv : fits v
    · rw [List.filter_cons_of_pos hv, List.flatMap_cons, List.flatMap_cons, taken_of_fits hv, hrest]
    · rw [List.filter_cons_of_neg hv, List.flatMap_cons, h v (by simp) hv, hrest]
      rfl

/-- An element that stays one when it is written into a value. -/
structure Settled (e : Bytes) : Prop where
  nonempty : e ≠ []
  trimmed : Blank.trim e = e
  whole : separator ∉ e

theorem settled_of_mem_taken {value e : Bytes} (h : e ∈ taken value) : Settled e := by
  have hne := List.mem_takeWhile_imp h
  obtain ⟨p, hp, rfl⟩ := List.mem_map.1 ((List.takeWhile_prefix _).subset h)
  exact ⟨by simpa using hne, Blank.trim_trim p,
    fun hmem => Bytes.not_mem_of_mem_split hp (Blank.mem_of_mem_trim hmem)⟩

theorem elementsOf_render {list : List Bytes} (hne : list ≠ []) (h : ∀ e ∈ list, Settled e) :
    elementsOf (render list) = list := by
  rw [elementsOf, Bytes.split_eq_splitOn, render, Bytes.join_eq_intercalate,
    List.splitOn_intercalate separator (fun e he => (h e he).whole) hne]
  exact (List.map_congr_left fun e he => (h e he).trimmed).trans (List.map_id list)

theorem add_render {list : List Bytes} (hne : list ≠ []) (h : ∀ e ∈ list, Settled e) :
    add [] (render list) = (list, none) := by
  have hfits : fits (render list) := by
    rw [fits_iff, elementsOf_render hne h]
    exact fun e he => (h e he).nonempty
  refine Prod.ext ?_ (Option.isNone_iff_eq_none.1 hfits)
  rw [add_fst, taken_of_fits hfits, elementsOf_render hne h, List.nil_append]

/-- Values without a fault make up the list exactly if each of the others begins with an empty
element: only such a value leaves the list as it was. The list, as one value, is read as itself. -/
theorem collects_fitting_iff (values : List Bytes) :
    ((∀ n, collect (values.take n) = ((values.take n).filter fits).flatMap elementsOf) ↔
      ∀ v ∈ values, ¬ fits v → (elementsOf v).head? = some []) ∧
    (∀ list v, (add list v).1 = list ↔ (elementsOf v).head? = some []) ∧
    (collect values ≠ [] → add [] (render (collect values)) = (collect values, none)) := by
  refine ⟨⟨fun h v hv hfault => ?_, fun h n => ?_⟩, fun list v => ?_, fun hne => ?_⟩
  · -- the value is none of those that fit, so one more value is no more elements
    obtain ⟨i, hi, rfl⟩ := List.getElem_of_mem hv
    have hnext := h (i + 1)
    rw [← List.take_concat_get' values i hi, List.filter_append, List.filter_cons_of_neg hfault,
      List.filter_nil, List.append_nil, ← h i, collect_eq, collect_eq, List.flatMap_append,
      List.append_right_eq_self, List.flatMap_singleton] at hnext
    exact (taken_eq_nil_iff _).1 hnext
  · rw [collect_eq]
    exact flatMap_taken fun v hv hfault =>
      (taken_eq_nil_iff v).2 (h v (List.mem_of_mem_take hv) hfault)
  · rw [add_fst, ← taken_eq_nil_iff, List.append_right_eq_self]
  · refine add_render hne fun e he => ?_
    rw [collect_eq] at he
    obtain ⟨v, -, he⟩ := List.mem_flatMap.1 he
    exact settled_of_mem_taken he

theorem collects_fitting_spaced :
    (∀ n, collect ([text " a ,b", text ",c", text "d"].take n) =
      (([text " a ,b", text ",c", text "d"].take n).filter fits).flatMap elementsOf) ∧
    add [] (text "a,b,d") = ([text "a", text "b", text "d"], none) := by
  have hlist : collect [text " a ,b", text ",c", text "d"] = [text "a", text "b", text "d"] := by
    decide +kernel
  have hfaulty : (elementsOf (text ",c")).head? = some [] := by decide +kernel
  obtain ⟨hiff, -, hread⟩ := collects_fitting_iff [text " a ,b", text ",c", text "d"]
  refine ⟨hiff.2 fun v hv hfault => ?_, ?_⟩
  · have hfirst : fits (text " a ,b") := by decide +kernel
    have hlast : fits (text "d") := by decide +kernel
    simp only [List.mem_cons, List.not_mem_nil, or_false] at hv
    rcases hv with rfl | rfl | rfl
    · exact absurd hfirst hfault
    · exact hfaulty
    · exact absurd hlast hfault
  · rw [hlist] at hread
    exact hread (List.cons_ne_nil _ _)

/-- A value with a fault changes the list. -/
theorem add_faulty_value : add [text "x"] (text "a,,b") =
    ([text "x", text "a"], some (.emptyElement (text "a,,b"))) := by
  decide +kernel

end ListOption
end Disguise
