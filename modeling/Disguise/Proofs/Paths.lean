import Disguise.Dominance
import Disguise.Proofs.Lookup
import Mathlib.Algebra.Order.BigOperators.Group.Finset
import Mathlib.Data.List.Perm.Subperm

/-!
Paths and computed dominators. The search from the entry finds every block that a path leads to,
the shrinking rounds come to a standstill before their number runs out, and at a standstill a block
that is kept in a set lies on every path (`mem_path_of_dominators`).
-/
namespace Disguise
namespace Flow

/-- A path of branches from the entry to a block, the last block first. -/
inductive Path (c : Flow) : List Nat → Nat → Prop
  | entry : Path c [0] 0
  | step {p : List Nat} {i j : Nat} (path : Path c p i) (edge : j ∈ c.successors i) :
      Path c (j :: p) j

/-- All branches go to blocks of the flow, which has an entry. -/
structure Closed (c : Flow) : Prop where
  entry : 0 < c.size
  inside : ∀ i, ∀ j ∈ c.successors i, j < c.size

section Search
variable {c : Flow} (hc : c.Closed)
include hc

/-- What a search keeps: blocks are seen once, and a branch out of a seen block leads to a block
that is seen or waiting. -/
structure Searching (c : Flow) (stack seen : List Nat) : Prop where
  nodup : seen.Nodup
  seenInside : ∀ i ∈ seen, i < c.size
  stackInside : ∀ i ∈ stack, i < c.size
  followed : ∀ i ∈ seen, ∀ j ∈ c.successors i, j ∈ seen ∨ j ∈ stack

omit hc in
/-- A block that is dropped has been seen, since a search that has seen `size` blocks has seen
all. -/
theorem Searching.seen_of_skip {i : Nat} {rest seen : List Nat} (h : Searching c (i :: rest) seen)
    (hskip : i ∈ seen ∨ c.size ≤ seen.length) : i ∈ seen := by
  rcases hskip with hi | hfull
  · exact hi
  · have hsub : seen.Subperm (List.range c.size) :=
      List.subperm_of_subset h.nodup fun j hj => List.mem_range.2 (h.seenInside j hj)
    have hperm := hsub.perm_of_length_le (by simpa using hfull)
    exact hperm.mem_iff.2 (List.mem_range.2 (h.stackInside i (by simp)))

omit hc in
theorem Searching.drop {i : Nat} {rest seen : List Nat} (h : Searching c (i :: rest) seen)
    (hi : i ∈ seen) : Searching c rest seen := by
  refine ⟨h.nodup, h.seenInside, fun j hj => h.stackInside j (by simp [hj]), ?_⟩
  intro j hj k hk
  rcases h.followed j hj k hk with hk | hk
  · exact .inl hk
  · rcases List.mem_cons.1 hk with rfl | hk
    · exact .inl hi
    · exact .inr hk

theorem Searching.visit {i : Nat} {rest seen : List Nat} (h : Searching c (i :: rest) seen)
    (hi : i ∉ seen) : Searching c (c.successors i ++ rest) (i :: seen) := by
  refine ⟨List.nodup_cons.2 ⟨hi, h.nodup⟩, ?_, ?_, ?_⟩
  · intro j hj
    rcases List.mem_cons.1 hj with rfl | hj
    · exact h.stackInside j (by simp)
    · exact h.seenInside j hj
  · intro j hj
    rcases List.mem_append.1 hj with hj | hj
    · exact hc.inside i j hj
    · exact h.stackInside j (by simp [hj])
  · intro j hj k hk
    rcases List.mem_cons.1 hj with rfl | hj
    · exact .inr (List.mem_append_left _ hk)
    · rcases h.followed j hj k hk with hk | hk
      · exact .inl (by simp [hk])
      · rcases List.mem_cons.1 hk with rfl | hk
        · exact .inl (by simp)
        · exact .inr (List.mem_append_right _ hk)

theorem explore_spec (stack seen : List Nat) (h : Searching c stack seen) :
    (∀ i ∈ seen, i ∈ c.explore stack seen) ∧ (∀ i ∈ stack, i ∈ c.explore stack seen) ∧
      Searching c [] (c.explore stack seen) := by
  fun_induction explore c stack seen with
  | case1 seen => exact ⟨fun _ hi => hi, by simp, h⟩
  | case2 seen i rest hskip ih =>
    have hi : i ∈ seen := h.seen_of_skip hskip
    obtain ⟨h1, h2, h3⟩ := ih (h.drop hi)
    refine ⟨h1, ?_, h3⟩
    intro j hj
    rcases List.mem_cons.1 hj with rfl | hj
    · exact h1 j hi
    · exact h2 j hj
  | case3 seen i rest hnew ih =>
    obtain ⟨h1, h2, h3⟩ := ih (h.visit hc fun hm => hnew (.inl hm))
    refine ⟨fun j hj => h1 j (by simp [hj]), ?_, h3⟩
    intro j hj
    rcases List.mem_cons.1 hj with rfl | hj
    · exact h1 j (by simp)
    · exact h2 j (by simp [hj])

theorem searching_entry : Searching c [0] [] :=
  ⟨.nil, by simp, by simp [hc.entry], by simp⟩

theorem mem_reachable {p : List Nat} {i : Nat} (path : Path c p i) : i ∈ c.reachable := by
  obtain ⟨-, h2, h3⟩ := explore_spec hc [0] [] (searching_entry hc)
  induction path with
  | entry => exact h2 0 (by simp)
  | step _ edge ih =>
    rcases h3.followed _ ih _ edge with h | h
    · exact h
    · simp at h

theorem reachable_lt {i : Nat} (h : i ∈ c.reachable) : i < c.size :=
  (explore_spec hc [0] [] (searching_entry hc)).2.2.seenInside i h

end Search

/-- The search finds only blocks that a path leads to. -/
theorem exists_path_of_explore {c : Flow} (stack seen : List Nat)
    (hstack : ∀ i ∈ stack, ∃ p, Path c p i) (hseen : ∀ i ∈ seen, ∃ p, Path c p i) :
    ∀ i ∈ c.explore stack seen, ∃ p, Path c p i := by
  fun_induction explore c stack seen with
  | case1 seen => exact hseen
  | case2 seen i rest hskip ih => exact ih (fun j hj => hstack j (by simp [hj])) hseen
  | case3 seen i rest hnew ih =>
    obtain ⟨p, path⟩ := hstack i (by simp)
    refine ih (fun j hj => ?_) (List.forall_mem_cons.2 ⟨⟨p, path⟩, hseen⟩)
    rcases List.mem_append.1 hj with hj | hj
    · exact ⟨j :: p, path.step hj⟩
    · exact hstack j (by simp [hj])

theorem exists_path_of_reachable {c : Flow} {i : Nat} (h : i ∈ c.reachable) :
    ∃ p, Path c p i :=
  exists_path_of_explore [0] [] (by simpa using ⟨[0], Path.entry⟩) (by simp) i h

theorem lt_of_mem_path {c : Flow} (hc : c.Closed) {p : List Nat} {i : Nat} (path : Path c p i) :
    ∀ j ∈ p, j < c.size := by
  induction path with
  | entry => simpa using hc.entry
  | @step p i k path edge ih => exact List.forall_mem_cons.2 ⟨hc.inside i k edge, ih⟩

theorem mem_predecessors {c : Flow} {seen : List Nat} {p i : Nat} :
    p ∈ (c.predecessors seen).get i ↔ p ∈ seen ∧ i ∈ c.successors p := by
  have inner : ∀ (js : List Nat) (q : Nat) (t : Table (List Nat)),
      p ∈ (js.foldl (fun t i => t.modify i (q :: ·)) t).get i ↔
        p ∈ t.get i ∨ p = q ∧ i ∈ js := by
    intro js q
    induction js with
    | nil => simp
    | cons j js ih =>
      intro t
      rw [List.foldl_cons, ih, Table.get_modify]
      by_cases hj : i = j
      · subst hj
        simp
        tauto
      · simp [hj]
  have outer : ∀ (qs : List Nat) (t : Table (List Nat)),
      p ∈ (qs.foldl (fun t q => (c.successors q).foldl (fun t i => t.modify i (q :: ·)) t) t).get i
        ↔ p ∈ t.get i ∨ p ∈ qs ∧ i ∈ c.successors p := by
    intro qs
    induction qs with
    | nil => simp
    | cons q qs ih =>
      intro t
      rw [List.foldl_cons, ih, inner]
      by_cases hq : p = q
      · subst hq
        simp
        tauto
      · simp [hq]
  rw [predecessors, outer]
  simp
  exact fun h => absurd h (by simp [default])

end Flow

theorem PlaceSet.eq_of_contains {s t : PlaceSet} (h : ∀ j, s.contains j = t.contains j) :
    s = t := by
  have hb : s.bits = t.bits := Nat.eq_of_testBit_eq h
  cases s; cases t; simp_all

namespace Flow

theorem contains_meet {c : Flow} {preds : List Nat} {rows : Table PlaceSet} {i j : Nat} :
    (c.meet preds rows i).contains j ↔
      (j < c.size ∧ ∀ p ∈ preds, (rows.get p).contains j) ∨ j = i := by
  have hfold : ∀ (ps : List Nat) (s : PlaceSet),
      (ps.foldl (fun s p => s.inter (rows.get p)) s).contains j ↔
        s.contains j ∧ ∀ p ∈ ps, (rows.get p).contains j := by
    intro ps
    induction ps with
    | nil => simp
    | cons p ps ih =>
      intro s
      rw [List.foldl_cons, ih]
      simp [and_assoc]
  rw [meet, PlaceSet.contains_insert, Bool.or_eq_true, hfold]
  simp only [PlaceSet.contains_below, decide_eq_true_eq]
  exact or_congr_right eq_comm

/-- The sets of `rows` are within those of `rows'`. -/
def Below (rows rows' : Table PlaceSet) : Prop :=
  ∀ i j, (rows.get i).contains j → (rows'.get i).contains j

/-- Rows on the way down: no set is smaller than what its predecessors leave standing. -/
structure Shrinking (c : Flow) (order : List (Nat × List Nat)) (rows : Table PlaceSet) : Prop where
  size : rows.size = c.size
  bounded : ∀ i j, (rows.get i).contains j → j < c.size
  above : ∀ e ∈ order, ∀ j, (c.meet e.2 rows e.1).contains j → (rows.get e.1).contains j

section Rounds
variable {c : Flow} {order : List (Nat × List Nat)} (ho : ∀ e ∈ order, e.1 < c.size)
  (hk : ∀ e ∈ order, ∀ e' ∈ order, e.1 = e'.1 → e.2 = e'.2)
include ho hk

theorem shrinking_set {rows : Table PlaceSet} (h : Shrinking c order rows) {e : Nat × List Nat}
    (he : e ∈ order) :
    Shrinking c order (rows.set e.1 (c.meet e.2 rows e.1)) ∧
      Below (rows.set e.1 (c.meet e.2 rows e.1)) rows := by
  have hbelow : Below (rows.set e.1 (c.meet e.2 rows e.1)) rows := by
    intro i j hj
    rw [Table.get_set] at hj
    split at hj
    · rename_i hi
      subst hi
      exact h.above e he j hj
    · exact hj
  refine ⟨⟨?_, fun i j hj => h.bounded i j (hbelow i j hj), ?_⟩, hbelow⟩
  · have hlt := ho e he
    rw [Table.size_set, h.size]
    omega
  · intro e' he' j hj
    -- a meet over smaller rows is smaller
    have hold : (c.meet e'.2 rows e'.1).contains j := by
      rw [contains_meet] at hj ⊢
      exact hj.imp_left fun ⟨hlt, hall⟩ => ⟨hlt, fun p hp => hbelow p j (hall p hp)⟩
    rw [Table.get_set]
    split
    · rename_i hi
      rwa [hi, hk e' he' e he hi] at hold
    · exact h.above e' he' j hold

theorem shrinking_fold (es : List (Nat × List Nat)) (hes : ∀ e ∈ es, e ∈ order)
    {rows : Table PlaceSet} (h : Shrinking c order rows) :
    Shrinking c order (c.shrink es rows) ∧ Below (c.shrink es rows) rows := by
  induction es generalizing rows with
  | nil => exact ⟨h, fun _ _ hj => hj⟩
  | cons e es ih =>
    obtain ⟨h₁, hb₁⟩ := shrinking_set ho hk h (hes e (by simp))
    obtain ⟨h₂, hb₂⟩ := ih (fun e' he' => hes e' (by simp [he'])) h₁
    exact ⟨h₂, fun i j hj => hb₁ i j (hb₂ i j hj)⟩

/-- Rows that a whole round leaves alone are left alone by each of its steps. -/
theorem meet_of_shrink_eq (es : List (Nat × List Nat)) (hes : ∀ e ∈ es, e ∈ order)
    {rows : Table PlaceSet} (h : Shrinking c order rows)
    (hfix : Below rows (c.shrink es rows)) {e : Nat × List Nat} (he : e ∈ es) (j : Nat)
    (hj : (rows.get e.1).contains j) : (c.meet e.2 rows e.1).contains j := by
  induction es generalizing rows with
  | nil => simp at he
  | cons e' es ih =>
    obtain ⟨h₁, hb₁⟩ := shrinking_set ho hk h (hes e' (by simp))
    obtain ⟨-, hb₂⟩ := shrinking_fold ho hk es (fun e he => hes e (by simp [he])) h₁
    have hsame : Below rows (rows.set e'.1 (c.meet e'.2 rows e'.1)) :=
      fun i j hj => hb₂ i j (hfix i j hj)
    rcases List.mem_cons.1 he with rfl | he
    · have := hsame e.1 j hj
      rwa [Table.get_set, if_pos rfl] at this
    · have hrest := fun e (he : e ∈ es) => hes e (List.mem_cons_of_mem e' he)
      have hrec := ih hrest h₁ (fun i j hj => hfix i j (hb₁ i j hj)) he (hsame e.1 j hj)
      rw [contains_meet] at hrec ⊢
      exact hrec.imp_left fun ⟨hlt, hall⟩ => ⟨hlt, fun p hp => hb₁ p j (hall p hp)⟩

end Rounds

/-- The number of pairs of a row and a block in it. -/
def weight (c : Flow) (rows : Table PlaceSet) : Nat :=
  ∑ i ∈ Finset.range c.size, ((Finset.range c.size).filter fun j => (rows.get i).contains j).card

theorem weight_le (c : Flow) (rows : Table PlaceSet) : weight c rows ≤ c.size * c.size := by
  calc weight c rows ≤ ∑ _i ∈ Finset.range c.size, c.size := by
        apply Finset.sum_le_sum
        intro i _
        exact (Finset.card_filter_le _ _).trans (by simp)
    _ = c.size * c.size := by simp

/-- A round that changes something takes a block out of a set. -/
theorem weight_lt {c : Flow} {order : List (Nat × List Nat)} {rows rows' : Table PlaceSet}
    (h : Shrinking c order rows) (h' : Shrinking c order rows') (hb : Below rows' rows)
    (hne : rows' ≠ rows) : weight c rows' < weight c rows := by
  have hsub : ∀ i, ((Finset.range c.size).filter fun j => (rows'.get i).contains j) ⊆
      (Finset.range c.size).filter fun j => (rows.get i).contains j := by
    intro i j hj
    simp only [Finset.mem_filter] at hj ⊢
    exact ⟨hj.1, hb i j hj.2⟩
  apply Finset.sum_lt_sum
  · exact fun i _ => Finset.card_le_card (hsub i)
  · by_contra hnone
    apply hne
    apply Table.eq_of_get (h'.size.trans h.size.symm)
    intro i hi
    rw [h'.size] at hi
    apply PlaceSet.eq_of_contains
    intro j
    rw [Bool.eq_iff_iff]
    refine ⟨hb i j, fun hj => ?_⟩
    by_contra hj'
    apply hnone
    refine ⟨i, Finset.mem_range.2 hi, Finset.card_lt_card ⟨hsub i, fun hsup => ?_⟩⟩
    have hmem : j ∈ (Finset.range c.size).filter fun j => (rows.get i).contains j := by
      simp [h.bounded i j hj, hj]
    have := hsup hmem
    simp only [Finset.mem_filter] at this
    exact hj' this.2

/-- With rounds enough, shrinking comes to a standstill. -/
theorem settle_spec {c : Flow} {order : List (Nat × List Nat)} (ho : ∀ e ∈ order, e.1 < c.size)
    (hk : ∀ e ∈ order, ∀ e' ∈ order, e.1 = e'.1 → e.2 = e'.2) (fuel : Nat)
    {rows : Table PlaceSet} (h : Shrinking c order rows) (hf : weight c rows < fuel) :
    Shrinking c order (c.settle order fuel rows) ∧ Below (c.settle order fuel rows) rows ∧
      c.shrink order (c.settle order fuel rows) = c.settle order fuel rows := by
  induction fuel generalizing rows with
  | zero => omega
  | succ fuel ih =>
    obtain ⟨h₁, hb₁⟩ := shrinking_fold ho hk order (fun e he => he) h
    unfold settle
    dsimp only
    split
    · rename_i heq
      exact ⟨h, fun _ _ hj => hj, heq⟩
    · rename_i hne
      have hlt := weight_lt h h₁ hb₁ hne
      obtain ⟨h2, hb2, hfix⟩ := ih h₁ (by omega)
      exact ⟨h2, fun i j hj => hb₁ i j (hb2 i j hj), hfix⟩

/-- A row holds every block that lies on all paths to its own. -/
def Covers (c : Flow) (rows : Table PlaceSet) : Prop :=
  ∀ i ∈ c.reachable, ∀ j, (∀ p, Path c p i → j ∈ p) → (rows.get i).contains j

section Covering
variable {c : Flow} (hc : c.Closed) {order : List (Nat × List Nat)}
  (hp : ∀ e ∈ order, ∀ p ∈ e.2, p ∈ c.reachable ∧ e.1 ∈ c.successors p)
include hc hp

/-- What lies on all paths to a block, but is not the block, lies on all paths to its
predecessors. -/
theorem covers_set {rows : Table PlaceSet} (h : Covers c rows) {e : Nat × List Nat}
    (he : e ∈ order) : Covers c (rows.set e.1 (c.meet e.2 rows e.1)) := by
  intro i hi j hj
  rw [Table.get_set]
  split
  · rename_i heq
    subst heq
    rw [contains_meet]
    by_cases hje : j = e.1
    · exact .inr hje
    · obtain ⟨p, path⟩ := exists_path_of_reachable hi
      refine .inl ⟨lt_of_mem_path hc path j (hj p path), fun q hq => ?_⟩
      obtain ⟨hreach, edge⟩ := hp e he q hq
      exact h q hreach j fun p' path' =>
        (List.mem_cons.1 (hj _ (path'.step edge))).resolve_left hje
  · exact h i hi j hj

theorem covers_shrink (es : List (Nat × List Nat)) (hes : ∀ e ∈ es, e ∈ order)
    {rows : Table PlaceSet} (h : Covers c rows) : Covers c (c.shrink es rows) :=
  List.foldlRecOn es _ h fun _ h e he => covers_set hc hp h (hes e he)

theorem covers_settle (fuel : Nat) {rows : Table PlaceSet} (h : Covers c rows) :
    Covers c (c.settle order fuel rows) := by
  induction fuel generalizing rows with
  | zero => exact h
  | succ fuel ih =>
    unfold settle
    dsimp only
    split
    · exact h
    · exact ih (covers_shrink hc hp order (fun _ he => he) h)

end Covering

theorem get_fullRows (c : Flow) (i : Nat) :
    c.fullRows.size = c.size ∧ c.fullRows.get i =
      if i < c.size then if i = 0 then .singleton 0 else .below c.size else default := by
  have key : ∀ n, let rows := (List.range n).foldl (fun rows i =>
        rows.push (if i = 0 then PlaceSet.singleton 0 else .below c.size)) Table.empty
      rows.size = n ∧ rows.get i =
        if i < n then if i = 0 then .singleton 0 else .below c.size else default := by
    intro n
    induction n with
    | zero => exact ⟨rfl, by simp⟩
    | succ n ih =>
      obtain ⟨hs, hg⟩ := ih
      simp only [List.range_succ, List.foldl_append, List.foldl_cons, List.foldl_nil]
      refine ⟨by rw [Table.size_push, hs], ?_⟩
      rw [Table.get_push, hs, hg]
      by_cases hi : i = n
      · subst hi
        simp
      · have : i < n ↔ i < n + 1 := by omega
        simp [hi, this]
  exact key c.size

/-- The blocks that a round visits, with their predecessors: all that can be reached but the
entry. -/
def schedule (c : Flow) : List (Nat × List Nat) :=
  (c.reachable.reverse.filter (· ≠ 0)).map fun i => (i, (c.predecessors c.reachable).get i)

theorem mem_schedule {c : Flow} {e : Nat × List Nat} : e ∈ c.schedule ↔
    e.1 ∈ c.reachable ∧ e.1 ≠ 0 ∧ e.2 = (c.predecessors c.reachable).get e.1 := by
  obtain ⟨i, ps⟩ := e
  simp only [schedule, List.mem_map, List.mem_filter, List.mem_reverse, decide_eq_true_eq,
    Prod.mk.injEq]
  constructor
  · rintro ⟨k, ⟨hk, hk0⟩, rfl, rfl⟩
    exact ⟨hk, hk0, rfl⟩
  · rintro ⟨hi, hi0, rfl⟩
    exact ⟨i, ⟨hi, hi0⟩, rfl, rfl⟩

/-- Rows that hold what they should: the entry has itself, no other row holds more than its
predecessors leave standing, and no row has lost a block that lies on all paths to its own. -/
structure Standing (c : Flow) (rows : Table PlaceSet) : Prop where
  entry : ∀ j, (rows.get 0).contains j → j = 0
  meets : ∀ i ∈ c.reachable, i ≠ 0 → ∀ j, (rows.get i).contains j →
    j = i ∨ ∀ p ∈ c.reachable, i ∈ c.successors p → (rows.get p).contains j
  covers : Covers c rows

/-- A row holds the blocks that lie on every path to its own. -/
theorem Standing.contains_iff {c : Flow} {rows : Table PlaceSet} (hc : c.Closed)
    (h : Standing c rows) {i : Nat} (hi : i ∈ c.reachable) (j : Nat) :
    (rows.get i).contains j ↔ ∀ p, Path c p i → j ∈ p := by
  refine ⟨fun hj p path => ?_, h.covers i hi j⟩
  clear hi
  induction path with
  | entry => simp [h.entry j hj]
  | @step p i k path edge ih =>
    by_cases hk0 : k = 0
    · subst hk0
      simp [h.entry j hj]
    · rcases h.meets k (mem_reachable hc (path.step edge)) hk0 j hj with rfl | hall
      · simp
      · exact List.mem_cons_of_mem _ (ih (hall i (mem_reachable hc path) edge))

theorem covers_fullRows {c : Flow} (hc : c.Closed) : Covers c c.fullRows := by
  intro i hi j hj
  rw [(get_fullRows c i).2, if_pos (reachable_lt hc hi)]
  split
  · rename_i hzero
    subst hzero
    rw [List.mem_singleton.1 (hj [0] .entry), PlaceSet.contains_singleton, decide_eq_true rfl]
  · obtain ⟨p, path⟩ := exists_path_of_reachable hi
    rw [PlaceSet.contains_below]
    exact decide_eq_true (lt_of_mem_path hc path j (hj p path))

section Order
variable {c : Flow} (hc : c.Closed) {order : List (Nat × List Nat)}
  (hsame : ∀ e, e ∈ order ↔ e ∈ c.schedule)
include hc hsame

theorem shrinking_fullRows : Shrinking c order c.fullRows := by
  refine ⟨(get_fullRows c 0).1, ?_, ?_⟩
  · intro i j hj
    rw [(get_fullRows c i).2] at hj
    split at hj
    · split at hj
      · simp only [PlaceSet.contains_singleton, decide_eq_true_eq] at hj
        have := hc.entry
        omega
      · simpa using hj
    · change Nat.testBit 0 j = true at hj
      simp at hj
  · intro e he j hj
    obtain ⟨hreach, hne, -⟩ := mem_schedule.1 ((hsame e).1 he)
    have hlt := reachable_lt hc hreach
    rw [(get_fullRows c e.1).2, if_pos hlt, if_neg hne]
    rw [contains_meet] at hj
    rcases hj with ⟨hj, -⟩ | rfl
    · simpa using hj
    · simpa using hlt

/-- The rounds come to a standstill, and the rows are then as they should be. -/
theorem settle_standing :
    let rows := c.settle order (c.size * c.size + 1) c.fullRows
    c.shrink order rows = rows ∧ Standing c rows := by
  intro rows
  have hmem : ∀ e ∈ order, _ := fun e he => mem_schedule.1 ((hsame e).1 he)
  have hlt : ∀ e ∈ order, e.1 < c.size := fun e he => reachable_lt hc (hmem e he).1
  have hkey : ∀ e ∈ order, ∀ e' ∈ order, e.1 = e'.1 → e.2 = e'.2 := by
    intro e he e' he' heq
    rw [(hmem e he).2.2, (hmem e' he').2.2, heq]
  have hpreds : ∀ e ∈ order, ∀ p ∈ e.2, p ∈ c.reachable ∧ e.1 ∈ c.successors p := by
    intro e he p hp
    rw [(hmem e he).2.2] at hp
    exact mem_predecessors.1 hp
  have hfuel : weight c c.fullRows < c.size * c.size + 1 :=
    Nat.lt_succ_of_le (weight_le c c.fullRows)
  obtain ⟨hs, hb, hfix⟩ := settle_spec hlt hkey _ (shrinking_fullRows hc hsame) hfuel
  refine ⟨hfix, fun j hj => ?_, fun i hi hi0 j hj => ?_,
    covers_settle hc hpreds _ (covers_fullRows hc)⟩
  · have hfull := hb 0 j hj
    rw [(get_fullRows c 0).2, if_pos hc.entry, if_pos rfl] at hfull
    simpa [eq_comm] using hfull
  · have he := (hsame (i, (c.predecessors c.reachable).get i)).2 (mem_schedule.2 ⟨hi, hi0, rfl⟩)
    have hstill : Below rows (c.shrink order rows) := by
      rw [hfix]
      exact fun _ _ hj => hj
    have hmeet := meet_of_shrink_eq hlt hkey order (fun e he => he) hs hstill he j hj
    rw [contains_meet] at hmeet
    rcases hmeet with ⟨-, hall⟩ | hji
    · exact .inr fun p hp hip => hall p (mem_predecessors.2 ⟨hp, hip⟩)
    · exact .inl hji

end Order

theorem getElem?_dominators (c : Flow) (i : Nat) : c.dominators[i]? =
    if i < c.size then some (if i ∈ c.reachable then
      some ((c.settle c.schedule (c.size * c.size + 1) c.fullRows).get i) else none)
    else none := by
  simp only [dominators, List.getElem?_map]
  by_cases hi : i < c.size
  · rw [List.getElem?_range hi, if_pos hi]
    rfl
  · rw [List.getElem?_eq_none (by simpa using hi), if_neg hi]
    rfl

/-- A block has a set of dominators if it can be reached, and the set holds the blocks that lie on
every path to it. -/
theorem dominators_of_reachable {c : Flow} (hc : c.Closed) {i : Nat} (hi : i ∈ c.reachable) :
    ∃ above, c.dominators[i]? = some (some above) ∧
      ∀ j, above.contains j ↔ ∀ p, Path c p i → j ∈ p :=
  ⟨_, by rw [getElem?_dominators, if_pos (reachable_lt hc hi), if_pos hi],
    (settle_standing hc fun _ => Iff.rfl).2.contains_iff hc hi⟩

theorem reachable_of_dominators {c : Flow} {i : Nat} {above : PlaceSet}
    (h : c.dominators[i]? = some (some above)) : i ∈ c.reachable := by
  rw [getElem?_dominators] at h
  split at h
  · split at h
    · assumption
    · cases Option.some.inj h
  · cases h

/-- A block in the computed set of another one lies on every path to it. -/
theorem mem_path_of_dominators {c : Flow} (hc : c.Closed) {p : List Nat} {i j : Nat}
    {above : PlaceSet} (path : Path c p i) (h : c.dominators[i]? = some (some above))
    (hj : above.contains j) : j ∈ p := by
  obtain ⟨above', habove', hiff⟩ := dominators_of_reachable hc (reachable_of_dominators h)
  rw [h] at habove'
  obtain rfl := Option.some.inj (Option.some.inj habove')
  exact (hiff j).1 hj p path

/-- Blocks that a path leads to have a set of dominators. -/
theorem exists_dominators {c : Flow} (hc : c.Closed) {p : List Nat} {i : Nat}
    (path : Path c p i) : ∃ above, c.dominators[i]? = some (some above) := by
  obtain ⟨above, habove, -⟩ := dominators_of_reachable hc (mem_reachable hc path)
  exact ⟨above, habove⟩

/-- A block with a set of dominators is one that a path leads to, and the set holds every block that
lies on all these paths. -/
theorem exists_path_of_dominators {c : Flow} (hc : c.Closed) {i : Nat} {above : PlaceSet}
    (h : c.dominators[i]? = some (some above)) :
    (∃ p, Path c p i) ∧ ∀ j, (∀ p, Path c p i → j ∈ p) → above.contains j := by
  have hi := reachable_of_dominators h
  obtain ⟨above', habove', hiff⟩ := dominators_of_reachable hc hi
  rw [h] at habove'
  obtain rfl := Option.some.inj (Option.some.inj habove')
  exact ⟨exists_path_of_reachable hi, fun j => (hiff j).2⟩

end Flow

namespace Graph
variable {g : Graph} {f : FuncId}

theorem placesOf_concat (blocks : List BlockId) (a : BlockId) :
    placesOf (blocks ++ [a]) = (placesOf blocks).set a.idx (some blocks.length) := by
  simp [placesOf, List.zipIdx_append]

/-- A block has the place of its last occurrence. -/
theorem placesOf_eq_some_iff {blocks : List BlockId} {b : BlockId} {i : Nat} :
    (placesOf blocks).get b.idx = some i ↔ blocks[i]? = some b ∧ b ∉ blocks.drop (i + 1) := by
  induction blocks using List.reverseRecOn with
  | nil => simp [placesOf, default]
  | append_singleton blocks a ih =>
    rw [placesOf_concat, Table.get_set]
    by_cases hb : b = a
    · subst hb
      rw [if_pos rfl, Option.some.injEq]
      constructor
      · rintro rfl
        simp
      · rintro ⟨hget, hlast⟩
        by_contra hne
        have hlt := (List.getElem?_eq_some_iff.1 hget).1
        rw [List.length_append, List.length_singleton] at hlt
        apply hlast
        rw [List.drop_append_of_le_length (by omega)]
        simp
    · rw [if_neg (mt BlockId.idx_inj.1 hb), ih]
      by_cases hlt : i < blocks.length
      · rw [List.getElem?_append_left hlt, List.drop_append_of_le_length hlt]
        simp [hb]
      · have hnone : blocks[i]? = none := List.getElem?_eq_none (by omega)
        rw [hnone, List.getElem?_append_right (by omega)]
        simp only [reduceCtorEq, false_and, false_iff, not_and]
        intro hget
        exact absurd (List.mem_singleton.1 (List.mem_of_getElem? hget)) hb

theorem getElem?_of_placesOf {blocks : List BlockId} {b : BlockId} {i : Nat}
    (h : (placesOf blocks).get b.idx = some i) : blocks[i]? = some b :=
  (placesOf_eq_some_iff.1 h).1

theorem placesOf_of_getElem? {blocks : List BlockId} (hn : blocks.Nodup) {b : BlockId} {i : Nat}
    (h : blocks[i]? = some b) : (placesOf blocks).get b.idx = some i := by
  refine placesOf_eq_some_iff.2 ⟨h, fun hmem => ?_⟩
  obtain ⟨hlt, rfl⟩ := List.getElem?_eq_some_iff.1 h
  have hsplit := hn
  rw [← List.take_append_drop (i + 1) blocks, List.nodup_append] at hsplit
  exact hsplit.2.2 _ (List.mem_take_iff_getElem.2 ⟨i, by omega, rfl⟩) _ hmem rfl

theorem successors_flow (i : Nat) :
    (g.flow f).successors i = match (g.func f).blocks[i]? with
      | none => []
      | some b => match g.terminator? b with
        | none => []
        | some t => (g.op t).targets.filterMap fun t =>
          t.bind fun b => (placesOf (g.func f).blocks).get b.idx := by
  simp only [flow, Flow.successors, Table.get, List.getElem?_toArray, List.getElem?_map]
  cases hb : (g.func f).blocks[i]? with
  | none => rfl
  | some b => cases ht : g.terminator? b <;> simp [ht]

theorem closed_flow (h : (g.func f).blocks ≠ []) : (g.flow f).Closed := by
  refine ⟨List.length_pos_iff.2 h, ?_⟩
  intro i j hj
  rw [successors_flow] at hj
  split at hj
  · simp at hj
  · split at hj
    · simp at hj
    · obtain ⟨t, -, ht⟩ := List.mem_filterMap.1 hj
      cases t with
      | none => simp at ht
      | some b =>
        have := getElem?_of_placesOf ht
        exact (List.getElem?_eq_some_iff.1 this).1

/-- A target of the op that ends a block is a successor of the block. -/
theorem mem_successors_flow (hn : (g.func f).blocks.Nodup) {i k : Nat} {b c : BlockId} {t : OpId}
    (hi : (g.func f).blocks[i]? = some b) (hk : (g.func f).blocks[k]? = some c)
    (ht : g.terminator? b = some t) (hc : some c ∈ (g.op t).targets) :
    k ∈ (g.flow f).successors i := by
  rw [successors_flow, hi]
  simp only [ht]
  exact List.mem_filterMap.2 ⟨some c, hc, placesOf_of_getElem? hn hk⟩

end Graph
end Disguise
