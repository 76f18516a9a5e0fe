import Disguise.Proofs.Registering
import Mathlib.Data.List.Nodup

/-!
What a registry reports. Of the metrics that were made under one name the newest is listed, if its
level is high enough; higher levels come first, and within a level metrics go by their numbers.
Numbers differ, so that this order is the only one, in whatever order the names are gone through.
-/
namespace Disguise

/-- A stable sort leaves those that compare both ways in the order they were in. -/
theorem pairwise_mergeSort_stable {α : Type} {le : α → α → Bool} {R : α → α → Prop}
    (trans : ∀ a b c, le a b → le b c → le a c) (total : ∀ a b, le a b || le b a) {l : List α}
    (hl : l.Pairwise R) : (l.mergeSort le).Pairwise fun a b => le a b ∧ (le b a → R a b) := by
  rw [← List.mergeSort_zipIdx, List.pairwise_map]
  have hperm := List.mergeSort_perm l.zipIdx (List.zipIdxLE le)
  have hn : (l.zipIdx.map (·.2)).Nodup := by
    rw [List.zipIdx_map_snd]
    exact List.nodup_range'
  have hdiffer := List.pairwise_map.1 ((hperm.map (·.2)).symm.nodup hn)
  have hsorted := List.pairwise_mergeSort (List.zipIdxLE_trans trans)
    (List.zipIdxLE_total total) l.zipIdx
  refine (hdiffer.and hsorted).imp_of_mem fun {x y} hx hy hxy => ?_
  obtain ⟨a, i⟩ := x
  obtain ⟨b, j⟩ := y
  have ha : l[i]? = some a := List.mem_zipIdx_iff_getElem?.1 (hperm.mem_iff.1 hx)
  have hb : l[j]? = some b := List.mem_zipIdx_iff_getElem?.1 (hperm.mem_iff.1 hy)
  obtain ⟨hi, rfl⟩ := List.getElem?_eq_some_iff.1 ha
  obtain ⟨hj, rfl⟩ := List.getElem?_eq_some_iff.1 hb
  obtain ⟨hne, hle⟩ := hxy
  dsimp only [List.zipIdxLE] at hne hle ⊢
  split at hle
  · refine ⟨‹_›, fun hback => List.pairwise_iff_getElem.1 hl i j hi hj ?_⟩
    rw [if_pos hback, decide_eq_true_eq] at hle
    omega
  · cases hle

theorem MetricId.idx_inj {a b : MetricId} : a.idx = b.idx ↔ a = b := by
  cases a; cases b; simp

namespace Registry
variable {r : Registry} {id : MetricId} {m : Metric} {level : Int} {events : List Event}

/-- A metric with its number that is the latest of its name. -/
def IsLatest (r : Registry) (id : MetricId) (m : Metric) : Prop :=
  r.get? id = some m ∧ ∀ i m', r.get? i = some m' → m'.name = m.name → i.idx ≤ id.idx

/-- Higher levels come first, and on one level the metric that was made first. -/
def Before (a b : MetricId × Metric) : Prop :=
  b.2.level < a.2.level ∨ a.2.level = b.2.level ∧ a.1.idx < b.1.idx

theorem IsLatest.eq_of_name {id' : MetricId} {m' : Metric} (h : r.IsLatest id m)
    (h' : r.IsLatest id' m') (hname : m.name = m'.name) : (id, m) = (id', m') := by
  have hidx := Nat.le_antisymm (h'.2 id m h.1 hname) (h.2 id' m' h'.1 hname.symm)
  obtain rfl := MetricId.idx_inj.1 hidx
  rw [Option.some.inj (h.1.symm.trans h'.1)]

theorem Before.asymm {a b : MetricId × Metric} (h : Before a b) : ¬ Before b a := by
  unfold Before at *
  omega

/-- Metrics with different numbers have an order. -/
theorem Before.total {a b : MetricId × Metric} (h : a.1 ≠ b.1) : Before a b ∨ Before b a := by
  rw [Ne, ← MetricId.idx_inj] at h
  unfold Before
  omega

/-- Metrics with different numbers are ranked in one way only, however they are sorted. -/
theorem eq_of_before {ranked listed : List (MetricId × Metric)} (hperm : ranked.Perm listed)
    (hranked : ranked.Pairwise fun a b => ¬ Before b a) (hlisted : listed.Pairwise Before)
    (hnumbers : ∀ a ∈ listed, ∀ b ∈ listed, a.1 = b.1 → a = b) : ranked = listed := by
  refine hperm.eq_of_pairwise (fun a b ha hb hab hba => ?_) hranked (hlisted.imp Before.asymm)
  by_contra hne
  have hnumber : a.1 ≠ b.1 := fun heq => hne (hnumbers a (hperm.subset ha) b hb heq)
  exact (Before.total hnumber).elim hba hab

/-- The metrics with their numbers. -/
def numbered (r : Registry) : List (MetricId × Metric) :=
  r.metrics.zipIdx.map fun e => (⟨e.2⟩, e.1)

theorem mem_numbered : (id, m) ∈ r.numbered ↔ r.get? id = some m := by
  rw [numbered, List.mem_map]
  refine ⟨?_, fun h => ⟨(m, id.idx), List.mem_zipIdx_iff_getElem?.2 h, rfl⟩⟩
  rintro ⟨e, he, heq⟩
  obtain ⟨rfl, rfl⟩ := Prod.mk.inj heq
  exact List.mem_zipIdx_iff_getElem?.1 he

theorem pairwise_numbered (r : Registry) : r.numbered.Pairwise fun a b => a.1.idx < b.1.idx := by
  have hrange : (r.metrics.zipIdx.map (·.2)).Pairwise (· < ·) := by
    rw [List.zipIdx_map_snd]
    exact List.pairwise_lt_range'
  exact List.pairwise_map.2 (List.pairwise_map.1 hrange)

theorem map_numbered (r : Registry) : r.numbered.map (·.2) = r.metrics := by
  rw [numbered, List.map_map]
  exact List.zipIdx_map_fst 0 r.metrics

/-- Those that no other one of their name comes after. -/
def newest (l : List (MetricId × Metric)) : List (MetricId × Metric) :=
  l.filter fun e => ∀ e' ∈ l, e'.2.name = e.2.name → e'.1.idx ≤ e.1.idx

theorem mem_newest {l : List (MetricId × Metric)} {e : MetricId × Metric} : e ∈ newest l ↔
    e ∈ l ∧ ∀ e' ∈ l, e'.2.name = e.2.name → e'.1.idx ≤ e.1.idx := by
  rw [newest, List.mem_filter, decide_eq_true_eq]

/-- The first one stays unless another one has its name; to the others it makes no difference. -/
theorem newest_cons {a : MetricId × Metric} {l : List (MetricId × Metric)}
    (h : ∀ e ∈ l, a.1.idx < e.1.idx) : newest (a :: l) =
      if ∀ e ∈ l, e.2.name ≠ a.2.name then a :: newest l else newest l := by
  have hothers : l.filter (fun e => ∀ e' ∈ a :: l, e'.2.name = e.2.name → e'.1.idx ≤ e.1.idx) =
      newest l := by
    refine List.filter_congr fun e he => decide_eq_decide.2 ?_
    rw [List.forall_mem_cons, and_iff_right_iff_imp]
    exact fun _ _ => Nat.le_of_lt (h e he)
  have hfirst : (∀ e ∈ a :: l, e.2.name = a.2.name → e.1.idx ≤ a.1.idx) ↔
      ∀ e ∈ l, e.2.name ≠ a.2.name := by
    rw [List.forall_mem_cons, and_iff_right fun _ => Nat.le_refl _]
    exact forall₂_congr fun e he =>
      ⟨fun hall hname => Nat.not_le_of_lt (h e he) (hall hname), fun hne hname => absurd hname hne⟩
  rw [newest, List.filter_cons, hothers]
  simp only [decide_eq_true_eq, hfirst]

theorem latest_map {l : List (MetricId × Metric)} (hl : l.Pairwise fun a b => a.1.idx < b.1.idx) :
    latest (l.map (·.2)) = (newest l).map (·.2) := by
  induction l with
  | nil => rfl
  | cons a l ih =>
    obtain ⟨hfirst, hrest⟩ := List.pairwise_cons.1 hl
    have hany : (l.map (·.2)).any (·.name == a.2.name) = true ↔
        ¬ ∀ e ∈ l, e.2.name ≠ a.2.name := by
      simp
    rw [newest_cons hfirst, List.map_cons, latest, ih hrest]
    by_cases hall : ∀ e ∈ l, e.2.name ≠ a.2.name
    · rw [if_pos hall, if_neg fun h => hany.1 h hall, List.map_cons]
    · rw [if_neg hall, if_pos (hany.2 hall)]

/-- Metrics are collected with their numbers. -/
theorem collect_eq (r : Registry) (level : Int) : r.collect level =
    (((newest r.numbered).filter (level ≤ ·.2.level)).mergeSort
      fun a b => b.2.level ≤ a.2.level).map (·.2) := by
  rw [List.map_mergeSort (s := fun a b : Metric => b.level ≤ a.level) fun _ _ _ _ => rfl, collect,
    ← map_numbered, latest_map r.pairwise_numbered, List.filter_map]
  rfl

theorem collect_spec (r : Registry) (level : Int) : ∃ listed : List (MetricId × Metric),
    r.collect level = listed.map (·.2) ∧
    (∀ id m, (id, m) ∈ listed ↔ r.IsLatest id m ∧ level ≤ m.level) ∧ listed.Pairwise Before := by
  refine ⟨_, r.collect_eq level, fun id m => ?_, ?_⟩
  · rw [List.mem_mergeSort, List.mem_filter, mem_newest, mem_numbered, decide_eq_true_eq, IsLatest,
      Prod.forall]
    simp only [mem_numbered]
  · have hsub : ((newest r.numbered).filter (level ≤ ·.2.level)).Sublist r.numbered :=
      List.filter_sublist.trans List.filter_sublist
    refine (pairwise_mergeSort_stable ?_ ?_ (r.pairwise_numbered.sublist hsub)).imp ?_
    · intro a b c hab hbc
      rw [decide_eq_true_eq] at *
      exact Int.le_trans hbc hab
    · intro a b
      rw [Bool.or_eq_true, decide_eq_true_eq, decide_eq_true_eq]
      exact Int.le_total _ _
    · rintro a b ⟨hle, hback⟩
      rw [decide_eq_true_eq] at hle hback
      unfold Before
      omega

/-- The latest metric of a name is the one that was made last under it. -/
theorem isLatest_run : (run events).IsLatest id m ↔
    (run events).get? id = some m ∧ ∃ m₀, Newest events m₀ id := by
  constructor
  · rintro ⟨hm, hlast⟩
    obtain ⟨k, m₀, hmakes⟩ := exists_makes hm
    refine ⟨hm, m₀, k, hmakes, fun k' m' id' hmakes' hname => Nat.le_of_not_lt fun hlt => ?_⟩
    obtain ⟨m'', hm'', hsame⟩ := hmakes'.exists_same
    have hid := hmakes.idx_lt hmakes' hlt
    have hle := hlast id' m'' hm'' (hsame.name.trans (hname.trans (hmakes.same hm).name.symm))
    omega
  · rintro ⟨hm, m₀, k, hmakes, hlast⟩
    refine ⟨hm, fun i m' hm' hname => Nat.le_of_not_lt fun hlt => ?_⟩
    obtain ⟨k', m₁, hmakes'⟩ := exists_makes hm'
    have hk := (hmakes.lt_iff hmakes').2 hlt
    have hle := hlast k' m₁ i hmakes'
      ((hmakes'.same hm').name.symm.trans (hname.trans (hmakes.same hm).name))
    omega

/-- What is listed after a run: of each name the metric made last, if it is of the level. -/
structure Reports [Digest] (events : List Event) (level : Int) (listed : List (MetricId × Metric)) :
    Prop where
  /-- Each name that a metric was made under has a newest one. -/
  newest : ∀ k m id, Makes events k m id → ∃ m₀ id₀, Newest events m₀ id₀ ∧ m₀.name = m.name
  names : (listed.map (·.2.name)).Nodup
  entry : ∀ id m, (id, m) ∈ listed ↔
    (run events).get? id = some m ∧ ∃ m₀, Newest events m₀ id ∧ m₀.Same m ∧ level ≤ m₀.level
  ranked : listed.Pairwise Before
  /-- Numbers tell which of two metrics was made first. -/
  numbers : ∀ k m id k' m' id', Makes events k m id → Makes events k' m' id' →
    (k < k' ↔ id.idx < id'.idx)
  /-- The names may be gone through in any order, and what is found may be sorted in any way. -/
  walked : ∀ walk ranked : List (MetricId × Metric), walk.Nodup →
    (∀ id m, (id, m) ∈ walk ↔ (run events).get? id = some m ∧ ∃ m₀, Newest events m₀ id) →
    ranked.Perm (walk.filter (level ≤ ·.2.level)) →
    ranked.Pairwise (fun a b => ¬ Before b a) → ranked = listed
  /-- A counter shows the sum of what was added since it was made, modulo `2 ^ 64` with a sign. -/
  totals : ∀ k m id, Makes events k m id → m.Counts → ∃ m', (run events).get? id = some m' ∧
    m'.value = Int.bmod ((events.drop (k + 1)).map (Event.amount id)).sum Int64.size

/-- After every run the metrics collected are the newest of their names, in the order of their
levels and then of their making, and counters show exact totals. -/
theorem collect_reports [Digest] (events : List Event) (level : Int) :
    ∃ listed, (run events).collect level = listed.map (·.2) ∧ Reports events level listed := by
  obtain ⟨listed, hcollect, hmem, hranked⟩ := (run events).collect_spec level
  refine ⟨listed, hcollect, {
    newest := fun k m id h => exists_newest h
    names := ?names
    entry := ?entry
    ranked := hranked
    numbers := fun k m id k' m' id' h h' => h.lt_iff h'
    walked := ?walked
    totals := fun k m id h hm => h.exists_value hm }⟩
  case names =>
    rw [List.Nodup, List.pairwise_map]
    refine hranked.imp_of_mem fun {a b} ha hb hab hname => ?_
    obtain rfl : a = b := ((hmem _ _).1 ha).1.eq_of_name ((hmem _ _).1 hb).1 hname
    exact hab.asymm hab
  case entry =>
    intro id m
    rw [hmem, isLatest_run]
    constructor
    · rintro ⟨⟨hm, m₀, k, hmakes, hlast⟩, hlevel⟩
      have hsame := hmakes.same hm
      exact ⟨hm, m₀, ⟨k, hmakes, hlast⟩, hsame, hsame.level ▸ hlevel⟩
    · rintro ⟨hm, m₀, hnew, hsame, hlevel⟩
      exact ⟨⟨hm, m₀, hnew⟩, hsame.level ▸ hlevel⟩
  case walked =>
    intro walk ranked hn hwalk hperm hordered
    have hsame : ∀ e, e ∈ ranked ↔ e ∈ listed := fun ⟨id, m⟩ => by
      rw [hperm.mem_iff, List.mem_filter, hwalk, ← isLatest_run, decide_eq_true_eq, hmem]
    have hdiffer : listed.Nodup := hranked.imp fun hab heq => (heq ▸ hab).asymm (heq ▸ hab)
    have hperm := (List.perm_ext_iff_of_nodup (hperm.symm.nodup (hn.filter _)) hdiffer).2 hsame
    refine eq_of_before hperm hordered hranked fun a ha b hb heq => Prod.ext heq ?_
    have hma := ((hmem a.1 a.2).1 ha).1.1
    have hmb := ((hmem b.1 b.2).1 hb).1.1
    rw [heq, hmb] at hma
    exact (Option.some.inj hma).symm

end Registry
end Disguise
