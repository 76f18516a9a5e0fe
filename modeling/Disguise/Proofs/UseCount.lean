import Disguise.Graph.UseSet
import Mathlib.Data.List.Nodup
import Mathlib.Data.List.Perm.Subperm

/-!
Use sets are known by their counts: two use sets with the same counts are equal, and the counts
after `add` and `remove` are one more and one less for the user and the same for all others.
-/
namespace Disguise.UseSet

/-- The count that a list of entries holds for a user. -/
def countIn (l : List (OpId × Nat)) (u : OpId) : Nat := (l.lookup u).getD 0

theorem count_eq_countIn (s : UseSet) (u : OpId) : s.count u = countIn s.entries u := rfl

@[simp] theorem countIn_nil (u : OpId) : countIn [] u = 0 := rfl

theorem countIn_cons (k : OpId) (n : Nat) (l : List (OpId × Nat)) (u : OpId) :
    countIn ((k, n) :: l) u = if u = k then n else countIn l u := by
  by_cases h : u = k
  · simp [countIn, h]
  · have hb : (u == k) = false := by simp [h]
    simp [countIn, List.lookup_cons, hb, h]

/-- Users later than all entries have no slots. -/
theorem countIn_eq_zero {l : List (OpId × Nat)} {u : OpId} (h : ∀ e ∈ l, e.1 ≠ u) :
    countIn l u = 0 := by
  induction l with
  | nil => rfl
  | cons e l ih =>
    obtain ⟨k, n⟩ := e
    have hk : u ≠ k := fun heq => h (k, n) (by simp) heq.symm
    rw [countIn_cons, if_neg hk]
    exact ih fun e he => h e (List.mem_cons_of_mem _ he)

theorem countIn_raise (user w : OpId) (l : List (OpId × Nat))
    (hs : l.Pairwise fun a b => b.1.idx < a.1.idx) :
    countIn (raise user l) w = countIn l w + if w = user then 1 else 0 := by
  induction l with
  | nil => simp [raise, countIn_cons]
  | cons e l ih =>
    obtain ⟨k, n⟩ := e
    obtain ⟨head, tail⟩ := List.pairwise_cons.1 hs
    unfold raise
    split
    · -- the user is later than every entry, so it had no slot
      rename_i hlt
      have hzero : countIn ((k, n) :: l) user = 0 := by
        apply countIn_eq_zero
        intro e he heq
        rcases List.mem_cons.1 he with rfl | hm
        · simp only at heq
          rw [heq] at hlt
          omega
        · have := head e hm
          rw [heq] at this
          simp only at this
          omega
      by_cases hw : w = user
      · subst hw
        rw [countIn_cons, if_pos rfl, hzero]
        simp
      · rw [countIn_cons, if_neg hw]
        simp [hw]
    · split
      · rename_i heq
        subst heq
        by_cases hw : w = user
        · simp [countIn_cons, hw]
        · simp [countIn_cons, hw]
      · rename_i hne
        rw [countIn_cons, countIn_cons, ih tail]
        by_cases hw : w = k
        · have hwu : w ≠ user := fun heq => hne (heq.symm.trans hw)
          simp [hw, Ne.symm hne]
        · simp [hw]

theorem countIn_lower (user w : OpId) (l : List (OpId × Nat))
    (hs : l.Pairwise fun a b => b.1.idx < a.1.idx) :
    countIn (lower user l) w = countIn l w - if w = user then 1 else 0 := by
  induction l with
  | nil => simp [lower]
  | cons e l ih =>
    obtain ⟨k, n⟩ := e
    obtain ⟨head, tail⟩ := List.pairwise_cons.1 hs
    unfold lower
    split
    · rename_i heq
      subst heq
      have hzero : countIn l user = 0 := by
        apply countIn_eq_zero
        intro e he heq
        have := head e he
        rw [heq] at this
        simp only at this
        omega
      split
      · by_cases hw : w = user
        · subst hw
          simp only [countIn_cons, if_pos, hzero]
          omega
        · simp [countIn_cons, hw]
      · by_cases hw : w = user
        · simp [countIn_cons, hw]
        · simp [countIn_cons, hw]
    · rename_i hne
      rw [countIn_cons, countIn_cons, ih tail]
      by_cases hw : w = k
      · simp [hw, Ne.symm hne]
      · simp [hw]

@[simp] theorem count_empty (w : OpId) : empty.count w = 0 := rfl

theorem count_add (s : UseSet) (user w : OpId) :
    (s.add user).count w = s.count w + if w = user then 1 else 0 :=
  countIn_raise user w s.entries s.sorted

theorem count_remove (s : UseSet) (user w : OpId) :
    (s.remove user).count w = s.count w - if w = user then 1 else 0 :=
  countIn_lower user w s.entries s.sorted

/-- A list with the counts of another one starts no earlier than that one. -/
theorem exists_first_of_count {k : OpId} {n : Nat} {l r : List (OpId × Nat)} (hn : 0 < n)
    (hr : r.Pairwise fun a b => b.1.idx < a.1.idx)
    (h : ∀ w, countIn ((k, n) :: l) w = countIn r w) :
    ∃ k' n' r', r = (k', n') :: r' ∧ k.idx ≤ k'.idx := by
  have hk := h k
  rw [countIn_cons, if_pos rfl] at hk
  match r, hr, hk with
  | [], _, hk => simp at hk; omega
  | (k', n') :: r', hr, hk =>
    refine ⟨k', n', r', rfl, ?_⟩
    by_contra hlt
    have hz : countIn ((k', n') :: r') k = 0 := by
      apply countIn_eq_zero
      intro e he hek
      rcases List.mem_cons.1 he with rfl | hm
      · simp only at hek
        rw [hek] at hlt
        omega
      · have := (List.pairwise_cons.1 hr).1 e hm
        rw [hek] at this
        simp only at this
        omega
    omega

/-- A list of entries in order, none of them zero, is determined by its counts. -/
theorem entries_eq_of_count {l r : List (OpId × Nat)}
    (hl : l.Pairwise fun a b => b.1.idx < a.1.idx) (hlp : ∀ e ∈ l, 0 < e.2)
    (hr : r.Pairwise fun a b => b.1.idx < a.1.idx) (hrp : ∀ e ∈ r, 0 < e.2)
    (h : ∀ w, countIn l w = countIn r w) : l = r := by
  induction l generalizing r with
  | nil =>
    match r with
    | [] => rfl
    | (k, n) :: r =>
      obtain ⟨_, _, _, hnil, _⟩ := exists_first_of_count (hrp (k, n) (by simp)) .nil fun w =>
        (h w).symm
      cases hnil
  | cons e l ih =>
    obtain ⟨k, n⟩ := e
    obtain ⟨k', n', r, rfl, hle⟩ := exists_first_of_count (hlp (k, n) (by simp)) hr h
    obtain ⟨_, _, _, heq, hge⟩ := exists_first_of_count (hrp (k', n') (by simp)) hl fun w =>
      (h w).symm
    simp only [List.cons.injEq, Prod.mk.injEq] at heq
    have hk : k = k' := by
      have : k.idx = k'.idx := by
        rw [heq.1.1] at hle ⊢
        omega
      cases k; cases k'; simp_all
    subst hk
    obtain ⟨headl, taill⟩ := List.pairwise_cons.1 hl
    obtain ⟨headr, tailr⟩ := List.pairwise_cons.1 hr
    have hn : n = n' := by
      have := h k
      rwa [countIn_cons, countIn_cons, if_pos rfl, if_pos rfl] at this
    subst hn
    have hrest : l = r := by
      apply ih taill (fun e he => hlp e (List.mem_cons_of_mem _ he)) tailr
        (fun e he => hrp e (List.mem_cons_of_mem _ he))
      intro w
      by_cases hw : w = k
      · rw [countIn_eq_zero, countIn_eq_zero]
        · intro e he hek
          have := headr e he
          rw [hek, hw] at this
          simp only at this
          omega
        · intro e he hek
          have := headl e he
          rw [hek, hw] at this
          simp only at this
          omega
      · have := h w
        rwa [countIn_cons, countIn_cons, if_neg hw, if_neg hw] at this
    rw [hrest]

theorem eq_of_count {s t : UseSet} (h : ∀ w, s.count w = t.count w) : s = t := by
  have he := entries_eq_of_count s.sorted s.positive t.sorted t.positive h
  cases s; cases t; simp_all

/-- An entry stands in a use set that has its count for its user. -/
theorem mem_entries_of_count {s : UseSet} {e : OpId × Nat} (hpos : 0 < e.2)
    (h : s.count e.1 = e.2) : e ∈ s.entries := by
  have hfound : s.entries.lookup e.1 = some e.2 := by
    unfold count at h
    cases hlookup : s.entries.lookup e.1 with
    | none =>
      rw [hlookup, Option.getD_none] at h
      omega
    | some n =>
      rw [hlookup, Option.getD_some] at h
      rw [h]
  obtain ⟨before, after, hentries, -⟩ := List.lookup_eq_some_iff.1 hfound
  rw [hentries]
  simp

/-- A use set with all entries of another one, and with as many users, is that use set. -/
theorem eq_of_entries {s t : UseSet} (hsize : s.size = t.size)
    (h : ∀ e ∈ t.entries, s.count e.1 = e.2) : s = t := by
  have hnodup : t.entries.Nodup := by
    refine t.sorted.imp fun {a b} hlt heq => ?_
    rw [heq] at hlt
    omega
  have hsub : t.entries ⊆ s.entries :=
    fun e he => mem_entries_of_count (t.positive e he) (h e he)
  have hperm : t.entries.Perm s.entries :=
    (hnodup.subperm hsub).perm_of_length_le (Nat.le_of_eq hsize)
  have hentries : s.entries = t.entries :=
    hperm.symm.eq_of_pairwise (fun a b _ _ hab hba => by omega) s.sorted t.sorted
  cases s
  cases t
  simp_all

theorem count_of_mem_entries {s : UseSet} {e : OpId × Nat} (he : e ∈ s.entries) :
    s.count e.1 = e.2 := by
  have key : ∀ l : List (OpId × Nat), (l.Pairwise fun a b => b.1.idx < a.1.idx) → e ∈ l →
      countIn l e.1 = e.2 := by
    intro l hl hmem
    induction l with
    | nil => cases hmem
    | cons d l ih =>
      obtain ⟨k, n⟩ := d
      obtain ⟨head, tail⟩ := List.pairwise_cons.1 hl
      rw [countIn_cons]
      rcases List.mem_cons.1 hmem with rfl | hmem
      · rw [if_pos rfl]
      · have hlt := head e hmem
        have hne : e.1 ≠ k := by
          intro heq
          rw [heq] at hlt
          simp only at hlt
          omega
        rw [if_neg hne]
        exact ih tail hmem
  exact key s.entries s.sorted he

theorem mem_users {s : UseSet} {w : OpId} : w ∈ s.users ↔ 0 < s.count w := by
  have key : ∀ l : List (OpId × Nat), (∀ e ∈ l, 0 < e.2) →
      (w ∈ l.map (·.1) ↔ 0 < countIn l w) := by
    intro l hp
    induction l with
    | nil => simp
    | cons e l ih =>
      obtain ⟨k, n⟩ := e
      have hn : 0 < n := hp (k, n) (by simp)
      rw [countIn_cons, List.map_cons, List.mem_cons,
        ih fun e he => hp e (List.mem_cons_of_mem _ he)]
      by_cases hw : w = k <;> simp [hw, hn]
  rw [users, List.mem_reverse, count_eq_countIn]
  exact key s.entries s.positive

theorem size_eq_zero_iff {s : UseSet} : s.size = 0 ↔ ∀ w, s.count w = 0 := by
  constructor
  · intro h w
    have hnil : s.entries = [] := List.length_eq_zero_iff.1 h
    simp [count_eq_countIn, hnil]
  · intro h
    have he : s = empty := eq_of_count h
    rw [he]
    rfl

theorem nodup_users (s : UseSet) : s.users.Nodup := by
  rw [users, List.nodup_reverse, List.Nodup, List.pairwise_map]
  refine s.sorted.imp ?_
  intro a b hlt heq
  rw [heq] at hlt
  omega

end Disguise.UseSet
