import Disguise.Diff.Script
import Mathlib.Data.List.Basic

/-!
Both sequences can be read off an edit script. Each way of putting a script together, or of changing
one, is told by what is read; that the scripts are short plays no part.
-/
namespace Disguise.Diff
variable {α : Type}

/-- The script leads from `a` to `b`. -/
structure Reads (script : List (Segment α)) (a b : List α) : Prop where
  before : Diff.before script = a
  after : Diff.after script = b

theorem before_append (s t : List (Segment α)) : before (s ++ t) = before s ++ before t :=
  List.flatMap_append

theorem after_append (s t : List (Segment α)) : after (s ++ t) = after s ++ after t :=
  List.flatMap_append

namespace Reads
variable {s t : List (Segment α)} {a b c d : List α}

theorem nil : Reads ([] : List (Segment α)) [] [] := ⟨rfl, rfl⟩

theorem equal (l : List α) : Reads [Diff.equal l] l l :=
  ⟨List.append_nil l, List.append_nil l⟩

theorem delete (l : List α) : Reads [Diff.delete l] l [] := ⟨List.append_nil l, rfl⟩

theorem insert (l : List α) : Reads [Diff.insert l] [] l := ⟨rfl, List.append_nil l⟩

theorem append (h : Reads s a b) (h' : Reads t c d) : Reads (s ++ t) (a ++ c) (b ++ d) :=
  ⟨by rw [before_append, h.before, h'.before], by rw [after_append, h.after, h'.after]⟩

/-- The same for a script in reverse, which grows at its front. -/
theorem snoc {x : Segment α} (h : Reads s.reverse a b) (h' : Reads [x] c d) :
    Reads (x :: s).reverse (a ++ c) (b ++ d) := by
  rw [List.reverse_cons]
  exact h.append h'

theorem refl (s : List (Segment α)) : Reads s (Diff.before s) (Diff.after s) := ⟨rfl, rfl⟩

theorem unique (h : Reads s a b) (h' : Reads s c d) : a = c ∧ b = d :=
  ⟨h.before.symm.trans h'.before, h.after.symm.trans h'.after⟩

/-- Every item of a script is one of the sequences. -/
theorem mem (h : Reads s a b) {x : Segment α} (hx : x ∈ s) {i : α} (hi : i ∈ x.items) :
    i ∈ a ∨ i ∈ b := by
  rw [← h.before, ← h.after]
  by_cases hkind : x.kind = .insert
  · exact .inr (List.mem_flatMap.2 ⟨x, hx, by simpa [hkind] using hi⟩)
  · exact .inl (List.mem_flatMap.2 ⟨x, hx, by simpa [hkind] using hi⟩)

end Reads

variable [DecidableEq α]

theorem take_commonPrefix (a b : List α) :
    a.take (commonPrefix a b) = b.take (commonPrefix a b) := by
  fun_induction commonPrefix a b with
  | case1 a as bs ih => rw [List.take_succ_cons, List.take_succ_cons, ih]
  | case2 => rfl
  | case3 => rfl

theorem commonPrefix_le (a b : List α) :
    commonPrefix a b ≤ a.length ∧ commonPrefix a b ≤ b.length := by
  fun_induction commonPrefix a b with
  | case1 a as bs ih => simpa using ih
  | case2 => simp
  | case3 => simp

theorem drop_commonSuffix (a b : List α) :
    a.drop (a.length - commonSuffix a b) = b.drop (b.length - commonSuffix a b) := by
  have h := take_commonPrefix a.reverse b.reverse
  rwa [List.take_reverse, List.take_reverse, List.reverse_inj] at h

theorem commonSuffix_le (a b : List α) :
    commonSuffix a b ≤ a.length ∧ commonSuffix a b ≤ b.length := by
  have h := commonPrefix_le a.reverse b.reverse
  rwa [List.length_reverse, List.length_reverse] at h

omit [DecidableEq α] in
theorem reads_keep {done : List (Segment α)} {a b : List α} (h : Reads done.reverse a b)
    (items : List α) : Reads (keep done items).reverse (a ++ items) (b ++ items) := by
  unfold keep
  split
  · rename_i old rest
    obtain ⟨rfl, rfl⟩ := h.unique ((Reads.refl rest.reverse).snoc (.equal old))
    rw [List.append_assoc, List.append_assoc]
    exact (Reads.refl rest.reverse).snoc (.equal (old ++ items))
  · exact h.snoc (.equal items)

/-- Where no edit of a kind was met there is nothing of it. -/
structure Pending.Sound (p : Pending α) : Prop where
  deleted : p.deletes = 0 → p.deleted = []
  inserted : p.inserts = 0 → p.inserted = []

/-- Removed and inserted items in front of an equal segment, with what they have in common at their
ends taken out of them. -/
theorem reads_factored {done : List (Segment α)} {a b : List α} (h : Reads done.reverse a b)
    (deleted inserted next : List α) :
    let n := commonPrefix inserted deleted
    let done := if n = 0 then done else keep done (inserted.take n)
    let ins := inserted.drop n
    let del := deleted.drop n
    let k := commonSuffix ins del
    Reads (equal (ins.drop (ins.length - k) ++ next) :: insert (ins.take (ins.length - k)) ::
      delete (del.take (del.length - k)) :: done).reverse (a ++ deleted ++ next)
      (b ++ inserted ++ next) := by
  intro n done ins del k
  have hfront : Reads done.reverse (a ++ inserted.take n) (b ++ inserted.take n) := by
    by_cases hn : n = 0
    · simpa [done, hn] using h
    · simpa only [done, hn, if_false] using reads_keep h (inserted.take n)
  have hdeleted : deleted = inserted.take n ++ (del.take (del.length - k) ++
      ins.drop (ins.length - k)) := by
    rw [take_commonPrefix, drop_commonSuffix, List.take_append_drop, List.take_append_drop]
  have hinserted : inserted = inserted.take n ++ (ins.take (ins.length - k) ++
      ins.drop (ins.length - k)) := by
    rw [List.take_append_drop, List.take_append_drop]
  have hread := ((hfront.snoc (.delete (del.take (del.length - k)))).snoc
    (.insert (ins.take (ins.length - k)))).snoc (.equal (ins.drop (ins.length - k) ++ next))
  have hbefore : a ++ deleted ++ next = a ++ inserted.take n ++ del.take (del.length - k) ++ [] ++
      (ins.drop (ins.length - k) ++ next) := by
    conv_lhs => rw [hdeleted]
    simp only [List.append_assoc, List.nil_append]
  have hafter : b ++ inserted ++ next = b ++ inserted.take n ++ [] ++ ins.take (ins.length - k) ++
      (ins.drop (ins.length - k) ++ next) := by
    conv_lhs => rw [hinserted]
    simp only [List.append_assoc, List.nil_append]
  rw [hbefore, hafter]
  exact hread

theorem reads_flush {done : List (Segment α)} {a b : List α} (h : Reads done.reverse a b)
    {p : Pending α} (hp : p.Sound) (next : List α) :
    Reads (flush done p next).reverse (a ++ p.deleted ++ next) (b ++ p.inserted ++ next) := by
  have deleteOnly (hzero : p.inserts = 0) :
      Reads (equal next :: delete p.deleted :: done).reverse (a ++ p.deleted ++ next)
        (b ++ p.inserted ++ next) := by
    rw [hp.inserted hzero]
    exact (h.snoc (.delete p.deleted)).snoc (.equal next)
  have insertOnly (hzero : p.deletes = 0) :
      Reads (equal next :: insert p.inserted :: done).reverse (a ++ p.deleted ++ next)
        (b ++ p.inserted ++ next) := by
    rw [hp.deleted hzero]
    exact (h.snoc (.insert p.inserted)).snoc (.equal next)
  unfold flush
  split
  · split
    · exact deleteOnly (by omega)
    · split
      · exact insertOnly (by omega)
      · rw [hp.deleted (by omega), hp.inserted (by omega), List.append_nil, List.append_nil]
        exact reads_keep h next
  · split
    · exact insertOnly ‹_›
    · split
      · exact deleteOnly ‹_›
      · exact reads_factored h p.deleted p.inserted next

theorem reads_join {done script : List (Segment α)} {a b : List α} (h : Reads done.reverse a b)
    {p : Pending α} (hp : p.Sound) :
    Reads (join done p script) (a ++ p.deleted ++ before script)
      (b ++ p.inserted ++ after script) := by
  fun_induction join done p script generalizing a b with
  | case1 done p => exact reads_flush h hp []
  | case2 done p items rest ih =>
    have hread := ih h ⟨hp.deleted, fun hzero => absurd hzero (Nat.succ_ne_zero _)⟩
    change Reads _ (a ++ p.deleted ++ before rest) (b ++ p.inserted ++ (items ++ after rest))
    simpa only [List.append_assoc] using hread
  | case3 done p items rest ih =>
    have hread := ih h ⟨fun hzero => absurd hzero (Nat.succ_ne_zero _), hp.inserted⟩
    change Reads _ (a ++ p.deleted ++ (items ++ before rest)) (b ++ p.inserted ++ after rest)
    simpa only [List.append_assoc] using hread
  | case4 done p items rest ih =>
    have hread := ih (reads_flush h hp items) ⟨fun _ => rfl, fun _ => rfl⟩
    change Reads _ (a ++ p.deleted ++ (items ++ before rest))
      (b ++ p.inserted ++ (items ++ after rest))
    simpa only [List.append_assoc, List.nil_append] using hread

variable {script : List (Segment α)} {a b : List α}

omit [DecidableEq α] in
/-- An empty segment is read as nothing. -/
theorem reads_of_isEmpty {s : Segment α} (h : s.items.isEmpty) : Reads [s] [] [] := by
  obtain ⟨kind, items⟩ := s
  cases List.isEmpty_iff.1 h
  cases kind <;> exact ⟨rfl, rfl⟩

omit [DecidableEq α] in
theorem reads_dropEmptyEnd (h : Reads script a b) : Reads (dropEmptyEnd script) a b := by
  unfold dropEmptyEnd
  split
  · rename_i s hlast
    split
    · rename_i hempty
      obtain ⟨init, rfl⟩ := List.getLast?_eq_some_iff.1 hlast
      obtain ⟨rfl, rfl⟩ := h.unique ((Reads.refl init).append (reads_of_isEmpty hempty))
      simpa using Reads.refl init
    · exact h
  · exact h

/-- The three segments are the edit between two equal ones, and one of these is a part of it. -/
theorem reads_slide {prev cur next x y : Segment α} (hslide : slide? prev cur next = some (x, y))
    (h : Reads [prev, cur, next] a b) : Reads [x, y] a b := by
  obtain ⟨pk, prev⟩ := prev
  obtain ⟨k, cur⟩ := cur
  obtain ⟨nk, next⟩ := next
  simp only [slide?] at hslide
  split at hslide
  · cases hslide
  · rename_i hkinds
    simp only [Bool.or_eq_true, decide_eq_true_eq, not_or, not_not] at hkinds
    obtain ⟨rfl, rfl⟩ := hkinds
    obtain ⟨rfl, rfl⟩ := h.unique (Reads.refl _)
    split at hslide
    · rename_i hsuffix
      obtain ⟨kept, rfl⟩ := List.isSuffixOf_iff_suffix.1 hsuffix
      simp only [List.length_append, Nat.add_sub_cancel, List.take_left, Option.some.injEq,
        Prod.mk.injEq] at hslide
      obtain ⟨rfl, rfl⟩ := hslide
      cases k <;> constructor <;> simp [Diff.before, Diff.after, equal]
    · split at hslide
      · rename_i hprefix
        obtain ⟨kept, rfl⟩ := List.isPrefixOf_iff_prefix.1 hprefix
        simp only [List.drop_left, Option.some.injEq, Prod.mk.injEq] at hslide
        obtain ⟨rfl, rfl⟩ := hslide
        cases k <;> constructor <;> simp [Diff.before, Diff.after, equal]
      · cases hslide

theorem reads_sweep {done : List (Segment α)} {moved : Bool}
    (h : Reads (done.reverse ++ script) a b) : Reads (sweep done moved script).1 a b := by
  fun_induction sweep done moved script generalizing a b with
  | case1 done moved prev cur next rest x y hslide ih =>
    refine ih ?_
    have hread := (Reads.refl [prev, cur, next]).append (Reads.refl rest)
    obtain ⟨rfl, rfl⟩ := h.unique ((Reads.refl done.reverse).append hread)
    have hslid := reads_slide hslide (Reads.refl [prev, cur, next])
    rw [List.reverse_cons, List.append_assoc]
    exact (Reads.refl done.reverse).append (hslid.append (Reads.refl rest))
  | case2 done moved prev cur next rest hslide ih =>
    refine ih ?_
    rw [List.reverse_cons, List.append_assoc]
    exact h
  | case3 done moved rest => exact h

theorem reads_normalizeFor (fuel : Nat) (h : Reads script a b) :
    Reads (normalizeFor fuel script) a b := by
  induction fuel generalizing script with
  | zero => exact h
  | succ fuel ih =>
    have hjoin : Reads (join [] {} script) a b := by
      obtain ⟨rfl, rfl⟩ := h.unique (Reads.refl script)
      have hnone : Reads ([] : List (Segment α)).reverse [] [] := .nil
      have hpending : ({} : Pending α).Sound := ⟨fun _ => rfl, fun _ => rfl⟩
      exact reads_join hnone hpending
    have hsweep : Reads (sweep [] false (dropEmptyEnd (join [] {} script))).1 a b :=
      reads_sweep (reads_dropEmptyEnd hjoin)
    rw [normalizeFor]
    generalize sweep [] false (dropEmptyEnd (join [] {} script)) = swept at hsweep ⊢
    obtain ⟨script', moved⟩ := swept
    cases moved with
    | true => exact ih hsweep
    | false => exact hsweep

theorem reads_normalize (h : Reads script a b) : Reads (normalize script) a b :=
  reads_normalizeFor _ h

theorem eq_of_indexOf? {part l : List α} {i : Nat} (h : indexOf? part l = some i) :
    l.take i ++ part ++ l.drop (i + part.length) = l := by
  induction l generalizing i with
  | nil =>
    simp only [indexOf?, Option.ite_none_right_eq_some, List.isEmpty_iff, Option.some.injEq] at h
    obtain ⟨rfl, rfl⟩ := h
    rfl
  | cons x l ih =>
    rw [indexOf?] at h
    split at h
    · rename_i hprefix
      obtain ⟨rest, hrest⟩ := List.isPrefixOf_iff_prefix.1 hprefix
      cases h
      simp [← hrest]
    · obtain ⟨j, hj, rfl⟩ := Option.map_eq_some_iff.1 h
      simpa [Nat.add_right_comm j 1] using ih hj

/-- The parts make up the two sequences. -/
structure Overlap.Fits (o : Overlap α) (a b : List α) : Prop where
  first : o.before₁ ++ o.common ++ o.after₁ = a
  second : o.before₂ ++ o.common ++ o.after₂ = b

omit [DecidableEq α] in
theorem Overlap.Fits.swap {o : Overlap α} (h : o.Fits a b) : o.swap.Fits b a :=
  ⟨h.second, h.first⟩

omit [DecidableEq α] in
/-- Items before and behind a position. -/
theorem take_drop_around {l : List α} {j s : Nat} (hj : j ≤ l.length) (hs : s ≤ j) (p : Nat) :
    (l.drop (j - s)).take (s + p) = (l.take j).drop (j - s) ++ (l.drop j).take p := by
  have hlen : ((l.take j).drop (j - s)).length = s := by
    rw [List.length_drop, List.length_take, Nat.min_eq_left hj]
    omega
  have hsplit : l.drop (j - s) = (l.take j).drop (j - s) ++ l.drop j := by
    conv_lhs => rw [← List.take_append_drop j l]
    exact List.drop_append_of_le_length (by rw [List.length_take]; omega)
  rw [hsplit, List.take_append, hlen, List.take_of_length_le (by omega), Nat.add_sub_cancel_left]

omit [DecidableEq α] in
theorem take_append_around (l : List α) {j s : Nat} (hs : s ≤ j) (p : Nat) :
    l.take (j - s) ++ (l.drop (j - s)).take (s + p) ++ l.drop (j + p) = l := by
  have hdrop : l.drop (j + p) = (l.drop (j - s)).drop (s + p) := by
    rw [List.drop_drop]
    congr 1
    omega
  rw [hdrop, List.append_assoc, List.take_append_drop, List.take_append_drop]

theorem fits_overlapAt {i j : Nat} (hi : i ≤ a.length) (hj : j ≤ b.length) :
    (overlapAt a b i j).Fits a b := by
  have hlen := commonSuffix_le (a.take i) (b.take j)
  have hsuffix := drop_commonSuffix (a.take i) (b.take j)
  have hprefix := take_commonPrefix (a.drop i) (b.drop j)
  rw [List.length_take, List.length_take, Nat.min_eq_left hi, Nat.min_eq_left hj] at hlen hsuffix
  unfold overlapAt
  generalize commonSuffix (a.take i) (b.take j) = s at hlen hsuffix ⊢
  generalize commonPrefix (a.drop i) (b.drop j) = p at hprefix ⊢
  refine ⟨?_, take_append_around b hlen.2 p⟩
  have hcommon : (b.drop (j - s)).take (s + p) = (a.drop (i - s)).take (s + p) := by
    rw [take_drop_around hi hlen.1, take_drop_around hj hlen.2, hsuffix, hprefix]
  change a.take (i - s) ++ (b.drop (j - s)).take (s + p) ++ a.drop (i + p) = a
  rw [hcommon]
  exact take_append_around a hlen.1 p

theorem le_of_mem_positions {part l : List α} {start j : Nat} (h : j ∈ positions part start l) :
    j ≤ start + l.length := by
  induction l generalizing start with
  | nil =>
    rw [positions] at h
    split at h
    · simpa using Nat.le_of_eq (List.mem_singleton.1 h)
    · cases h
  | cons x l ih =>
    rw [positions] at h
    rw [List.length_cons]
    split at h
    · rcases List.mem_cons.1 h with rfl | h
      · omega
      · have := ih h
        omega
    · have := ih h
      omega

/-- Each candidate is cut at a position of the shorter sequence. -/
theorem fits_foldl {long short : List α} {i : Nat} (hi : i ≤ long.length) {js : List Nat}
    (hjs : ∀ j ∈ js, j ≤ short.length) {best : Option (Overlap α)}
    (hbest : ∀ o, best = some o → o.Fits long short) {o : Overlap α}
    (h : js.foldl (fun best j =>
      let new := overlapAt long short i j
      match best with
      | some old => if old.common.length < new.common.length then some new else best
      | none => if new.common.isEmpty then none else some new) best = some o) :
    o.Fits long short := by
  induction js generalizing best with
  | nil => exact hbest o h
  | cons j js ih =>
    refine ih (fun k hk => hjs k (by simp [hk])) (fun o ho => ?_) h
    have hnew := fits_overlapAt (a := long) (b := short) hi (hjs j (by simp))
    dsimp only at ho
    split at ho
    · split at ho
      · cases ho
        exact hnew
      · exact hbest o ho
    · split at ho
      · cases ho
      · cases ho
        exact hnew

theorem fits_seeded {long short : List α} {i : Nat} (hi : i ≤ long.length) {o : Overlap α}
    (h : seeded? long short i = some o) : o.Fits long short := by
  obtain ⟨hbest, -⟩ := Option.filter_eq_some_iff.1 h
  refine fits_foldl hi (fun j hj => ?_) (by simp) hbest
  simpa using le_of_mem_positions hj

/-- Of two candidates one is taken. -/
theorem fits_longer {long short : List α} (hlen : 4 ≤ long.length) {o : Overlap α}
    (h : (match seeded? long short ((long.length + 3) / 4),
        seeded? long short ((long.length + 1) / 2) with
      | some p, some q => if p.common.length > q.common.length then some p else some q
      | some p, none => some p
      | none, q => q) = some o) : o.Fits long short := by
  have hsecond {o : Overlap α} (h : seeded? long short ((long.length + 3) / 4) = some o) :
      o.Fits long short := fits_seeded (by omega) h
  have hthird {o : Overlap α} (h : seeded? long short ((long.length + 1) / 2) = some o) :
      o.Fits long short := fits_seeded (by omega) h
  split at h
  · split at h
    · cases h
      exact hsecond ‹_›
    · cases h
      exact hthird ‹_›
  · cases h
    exact hsecond ‹_›
  · exact hthird h

theorem fits_overlap {o : Overlap α} (h : overlap? a b = some o) : o.Fits a b := by
  by_cases hle : a.length ≤ b.length
  · simp only [overlap?, hle, if_true, Option.ite_none_left_eq_some] at h
    obtain ⟨hlong, hbest⟩ := h
    rw [Bool.or_eq_true, not_or, decide_eq_true_eq, Nat.not_lt] at hlong
    obtain ⟨o', ho', rfl⟩ := Option.map_eq_some_iff.1 hbest
    exact (fits_longer hlong.1 ho').swap
  · simp only [overlap?, hle, if_false, Option.ite_none_left_eq_some] at h
    obtain ⟨hlong, hbest⟩ := h
    rw [Bool.or_eq_true, not_or, decide_eq_true_eq, Nat.not_lt] at hlong
    exact fits_longer hlong.1 hbest

omit [DecidableEq α] in
theorem reads_replace (a b : List α) : Reads [delete a, insert b] a b := by
  simpa using (Reads.delete a).append (Reads.insert b)

theorem reads_divide {smaller : List α → List α → List (Segment α)}
    (hsmaller : ∀ a b, Reads (smaller a b) a b) (a b : List α) :
    Reads (divide smaller a b) a b := by
  simp only [divide]
  split
  · rename_i hempty
    cases List.isEmpty_iff.1 hempty
    exact .insert b
  split
  · rename_i hempty
    cases List.isEmpty_iff.1 hempty
    exact .delete a
  split
  · rename_i i hindex
    have hcut := eq_of_indexOf? hindex
    by_cases hlonger : a.length > b.length
    · simp only [hlonger, if_true] at hcut ⊢
      have hread := ((Reads.delete (a.take i)).append (.equal b)).append
        (.delete (a.drop (i + b.length)))
      rwa [List.nil_append, List.append_nil, hcut] at hread
    · simp only [hlonger, if_false] at hcut ⊢
      have hread := ((Reads.insert (b.take i)).append (.equal a)).append
        (.insert (b.drop (i + a.length)))
      rwa [List.nil_append, List.append_nil, hcut] at hread
  · generalize (if a.length > b.length then b else a) = short
    split
    · exact reads_replace a b
    split
    · rename_i o hoverlap
      have hfits := fits_overlap hoverlap
      have hread := ((hsmaller o.before₁ o.before₂).append (.equal o.common)).append
        (hsmaller o.after₁ o.after₂)
      rwa [hfits.first, hfits.second, List.append_assoc] at hread
    split
    · rename_i x y hmiddle
      have hread := (hsmaller (a.take x) (b.take y)).append (hsmaller (a.drop x) (b.drop y))
      rwa [List.take_append_drop, List.take_append_drop] at hread
    · exact reads_replace a b

omit [DecidableEq α] in
/-- A common end, as a segment that stands only where there is one. -/
theorem reads_end {n : Nat} {l : List α} (h : n = 0 → l = []) :
    Reads (if n = 0 then [] else [equal l]) l l := by
  split
  · rw [h ‹_›]
    exact .nil
  · exact .equal l

theorem reads_scriptFor (depth : Nat) (a b : List α) : Reads (scriptFor depth a b) a b := by
  induction depth generalizing a b with
  | zero => exact reads_replace a b
  | succ depth ih =>
    simp only [scriptFor]
    split
    · rename_i heq
      subst heq
      split
      · rename_i hempty
        cases List.isEmpty_iff.1 hempty
        exact .nil
      · exact .equal a
    · have hprefix := take_commonPrefix a b
      generalize commonPrefix a b = n at hprefix ⊢
      have hsuffix := drop_commonSuffix (a.drop n) (b.drop n)
      generalize commonSuffix (a.drop n) (b.drop n) = k at hsuffix ⊢
      have hfront : Reads (if n = 0 then [] else [equal (a.take n)]) (a.take n) (b.take n) := by
        rw [← hprefix]
        exact reads_end fun hn => by rw [hn, List.take_zero]
      have hback : Reads (if k = 0 then [] else [equal ((a.drop n).drop ((a.drop n).length - k))])
          ((a.drop n).drop ((a.drop n).length - k)) ((b.drop n).drop ((b.drop n).length - k)) := by
        rw [← hsuffix]
        exact reads_end fun hk => by rw [hk, Nat.sub_zero, List.drop_length]
      have hinner := reads_divide ih ((a.drop n).take ((a.drop n).length - k))
        ((b.drop n).take ((b.drop n).length - k))
      have hread := (hfront.append hinner).append hback
      rw [List.append_assoc (a.take n), List.append_assoc (b.take n), List.take_append_drop,
        List.take_append_drop, List.take_append_drop, List.take_append_drop] at hread
      exact reads_normalize hread

/-- An edit script leads from the first sequence to the second. -/
theorem reads_script (a b : List α) : Reads (Diff.script a b) a b := reads_scriptFor _ a b

end Disguise.Diff
