import Disguise.Metric.Registry
import Disguise.Proofs.Results
import Mathlib.Algebra.Ring.Int.Defs
import Mathlib.Data.List.Basic

/-!
Runs of a registry. Metrics are numbered in the order in which they are made, and a number stays
with its metric: later events change its total, its samples or the value that it shows, and nothing
else. The total of a counter is what has been added to it since it was made.
-/
namespace Disguise
open Results

theorem modify_eq_mapIdx {α : Type} (l : List α) (i : Nat) (f : α → α) :
    l.modify i f = l.mapIdx fun j a => if i = j then f a else a := by
  refine (List.mapIdx_eq_iff.2 fun j => ?_).symm
  rw [List.getElem?_modify]
  split <;> rfl

namespace Metric
variable {m m' : Metric}

/-- What a metric is made with, and keeps. -/
structure Same (m m' : Metric) : Prop where
  name : m'.name = m.name
  desc : m'.desc = m.desc
  level : m'.level = m.level
  distribution : m'.distribution = m.distribution
  external : m'.external.isSome = m.external.isSome

/-- A metric that sums up what is added to it. -/
def Counts (m : Metric) : Prop := m.external = none ∧ m.distribution = false

theorem Same.refl (m : Metric) : m.Same m := ⟨rfl, rfl, rfl, rfl, rfl⟩

theorem Same.trans {m'' : Metric} (h : m.Same m') (h' : m'.Same m'') : m.Same m'' where
  name := h'.name.trans h.name
  desc := h'.desc.trans h.desc
  level := h'.level.trans h.level
  distribution := h'.distribution.trans h.distribution
  external := h'.external.trans h.external

theorem Same.counts (h : m.Same m') (hm : m.Counts) : m'.Counts := by
  refine ⟨?_, h.distribution.trans hm.2⟩
  rw [← Option.isNone_iff_eq_none, ← Option.not_isSome, h.external, hm.1]
  rfl

theorem same_of_add {n : Int} (h : m.add n = .ok m') : m.Same m' := by
  unfold add at h
  split at h
  · cases h
  · split at h
    · obtain rfl := Except.ok.inj h
      exact ⟨rfl, rfl, rfl, rfl, rfl⟩
    · obtain rfl := Except.ok.inj h
      exact ⟨rfl, rfl, rfl, rfl, rfl⟩

theorem Counts.add (h : m.Counts) (n : Int) :
    m.add n = .ok { m with total := m.total + (Int64.ofInt n).toUInt64 } := by
  simp [Metric.add, h.1, h.2]

theorem Counts.value [Digest] (h : m.Counts) : m.value = m.total.toInt64.toInt := by
  simp [Metric.value, h.1, h.2]

/-- A metric begins with nothing added to it. -/
theorem fresh_of_settings {name desc : Bytes} {settings : List Setting}
    (h : settings.foldlM set { name, desc } = .ok m) :
    m.name = name ∧ m.desc = desc ∧ m.total = 0 := by
  refine foldlM_keeps (P := fun m => m.name = name ∧ m.desc = desc ∧ m.total = 0)
    ⟨rfl, rfl, rfl⟩ ?_ h
  rintro s - m m' hm hs
  cases s with
  | unknown n => cases hs
  | level _ | distribution | external _ | exported _ =>
    obtain rfl := Except.ok.inj hs
    exact hm

end Metric

namespace Registry
variable {r r' : Registry} {id : MetricId} {m m₀ : Metric} {name desc : Bytes}
  {settings : List Metric.Setting}

/-- What happens to a registry: the two calls, and changes of what is behind external metrics. -/
inductive Event where
  | make (name desc : Bytes) (settings : List Metric.Setting)
  | add (id : MetricId) (n : Int)
  | turn (id : MetricId) (value : Int)

/-- An external metric shows another value from now on. -/
def turn (r : Registry) (id : MetricId) (value : Int) : Registry :=
  ⟨r.metrics.modify id.idx fun m => { m with external := m.external.map fun _ => value }⟩

/-- The registry after an event. A call that fails leaves it as it was. -/
def after (r : Registry) : Event → Registry
  | .make name desc settings => ((r.make name desc settings).toOption.map (·.1)).getD r
  | .add id n => (r.add id n).toOption.getD r
  | .turn id value => r.turn id value

def run (events : List Event) : Registry := events.foldl after {}

namespace Event
variable {e : Event}

/-- What becomes of a metric with the given number. -/
def touch (id : MetricId) (m : Metric) : Event → Metric
  | .make .. => m
  | .add i n => if i = id then (m.add n).toOption.getD m else m
  | .turn i value =>
    if i = id then { m with external := m.external.map fun _ => value } else m

/-- What is added to the metric with the given number. -/
def amount (id : MetricId) : Event → Int
  | .add i n => if i = id then n else 0
  | _ => 0

theorem same_touch (id : MetricId) (m : Metric) (e : Event) : m.Same (e.touch id m) := by
  cases e with
  | make name desc settings => exact .refl m
  | add i n =>
    simp only [touch]
    split
    · cases hadd : m.add n with
      | error v => exact .refl m
      | ok m' => exact Metric.same_of_add hadd
    · exact .refl m
  | turn i value =>
    simp only [touch]
    split
    · exact ⟨rfl, rfl, rfl, rfl, Option.isSome_map⟩
    · exact .refl m

/-- Totals are words: what is added is added to the signed word that the total stands for. -/
theorem total_touch (h : m.Counts) (id : MetricId) (e : Event) :
    (e.touch id m).total.toInt64 = m.total.toInt64 + Int64.ofInt (e.amount id) := by
  cases e with
  | make name desc settings => simp [touch, amount]
  | add i n =>
    simp only [touch, amount]
    split
    · rw [h.add n]
      simp [Except.toOption]
    · simp
  | turn i value =>
    simp only [touch, amount]
    split <;> simp

/-- The metric that an event makes, if it makes one. -/
def made : Event → List Metric
  | .make name desc settings => (settings.foldlM Metric.set { name, desc }).toOption.toList
  | _ => []

end Event

theorem make_eq_ok : r.make name desc settings = .ok (r', id) ↔
    ∃ m, settings.foldlM Metric.set { name, desc } = .ok m ∧ ⟨r.metrics ++ [m]⟩ = r' ∧
      ⟨r.metrics.length⟩ = id := by
  simp only [make, bind_eq_ok, pure_eq_ok, Prod.mk.injEq]

/-- An addition that fails leaves the metric as it was. -/
theorem after_add (r : Registry) (id : MetricId) (n : Int) :
    r.after (.add id n) = ⟨r.metrics.modify id.idx fun m => (m.add n).toOption.getD m⟩ := by
  simp only [after, add, get?, List.modify_eq_set_getElem?]
  cases hget : r.metrics[id.idx]? with
  | none => rfl
  | some m =>
    dsimp only [Option.map_eq_map, Option.map_some, Option.getD_some]
    cases m.add n with
    | error v =>
      obtain ⟨hid, rfl⟩ := List.getElem?_eq_some_iff.1 hget
      change r = ⟨r.metrics.set id.idx r.metrics[id.idx]⟩
      rw [List.set_getElem_self]
    | ok m' => rfl

/-- An event touches the metrics that are there and may make one more. -/
theorem metrics_after (r : Registry) (e : Event) :
    (r.after e).metrics = r.metrics.mapIdx (fun i => e.touch ⟨i⟩) ++ e.made := by
  cases e with
  | make name desc settings =>
    have hsame : r.metrics.mapIdx (fun i => (Event.make name desc settings).touch ⟨i⟩) =
        r.metrics := List.mapIdx_eq_iff.2 fun i => Option.map_id'.symm
    rw [hsame]
    simp only [after, make, Event.made]
    cases settings.foldlM Metric.set { name, desc } with
    | error v => exact (List.append_nil _).symm
    | ok m => rfl
  | add id n =>
    refine .trans ?_ (List.append_nil _).symm
    obtain ⟨k⟩ := id
    rw [after_add, modify_eq_mapIdx]
    simp only [Event.touch, MetricId.mk.injEq]
  | turn id value =>
    refine .trans ?_ (List.append_nil _).symm
    obtain ⟨k⟩ := id
    rw [after, turn, modify_eq_mapIdx]
    simp only [Event.touch, MetricId.mk.injEq]

theorem get?_after (h : r.get? id = some m) (e : Event) :
    (r.after e).get? id = some (e.touch id m) := by
  have hlt := (List.getElem?_eq_some_iff.1 h).1
  rw [get?, metrics_after, List.getElem?_append_left (by simpa using hlt), List.getElem?_mapIdx]
  exact congrArg (Option.map _) h

theorem length_after (r : Registry) (e : Event) :
    (r.after e).metrics.length = r.metrics.length + e.made.length := by
  rw [metrics_after, List.length_append, List.length_mapIdx]

/-- A metric that was not there before has been made. -/
theorem make_of_new {e : Event} (hnone : r.get? id = none) (h : (r.after e).get? id = some m) :
    ∃ settings r', e = .make m.name m.desc settings ∧
      r.make m.name m.desc settings = .ok (r', id) ∧ r'.get? id = some m := by
  obtain ⟨k⟩ := id
  have hk : r.metrics.length ≤ k := List.getElem?_eq_none_iff.1 hnone
  have hmade := h
  rw [get?, metrics_after, List.getElem?_append_right (by simpa using hk),
    List.length_mapIdx] at hmade
  cases e with
  | make name desc settings =>
    simp only [Event.made] at hmade
    cases hset : settings.foldlM Metric.set { name, desc } with
    | error v =>
      rw [hset] at hmade
      cases hmade
    | ok m' =>
      simp only [hset, Except.toOption, Option.toList, List.getElem?_singleton,
        Option.ite_none_right_eq_some, Option.some.injEq] at hmade
      obtain ⟨hzero, rfl⟩ := hmade
      obtain rfl : k = r.metrics.length := by omega
      obtain ⟨rfl, rfl, -⟩ := Metric.fresh_of_settings hset
      exact ⟨settings, _, rfl, make_eq_ok.2 ⟨m', hset, rfl, rfl⟩, by simp [get?]⟩
  | add i n => cases hmade
  | turn i value => cases hmade

theorem run_append (events later : List Event) :
    run (events ++ later) = later.foldl after (run events) :=
  List.foldl_append

theorem run_take_succ {events : List Event} {k : Nat} {e : Event} (h : events[k]? = some e) :
    run (events.take (k + 1)) = (run (events.take k)).after e := by
  rw [List.take_add_one, h, run_append]
  rfl

/-- A metric stays under its number, and the events touch it one after the other. -/
theorem get?_foldl_after (h : r.get? id = some m) (events : List Event) :
    (events.foldl after r).get? id = some (events.foldl (fun m e => e.touch id m) m) := by
  induction events generalizing r m with
  | nil => exact h
  | cons e events ih => exact ih (get?_after h e)

theorem same_foldl_touch (id : MetricId) (m : Metric) (events : List Event) :
    m.Same (events.foldl (fun m e => e.touch id m) m) := by
  induction events generalizing m with
  | nil => exact .refl m
  | cons e events ih => exact (e.same_touch id m).trans (ih _)

/-- Totals add up. -/
theorem total_foldl_touch (h : m.Counts) (id : MetricId) (events : List Event) :
    (events.foldl (fun m e => e.touch id m) m).total.toInt64 =
      m.total.toInt64 + Int64.ofInt (events.map (Event.amount id)).sum := by
  induction events generalizing m with
  | nil => simp
  | cons e events ih =>
    rw [List.foldl_cons, ih ((e.same_touch id m).counts h), e.total_touch h, List.map_cons,
      List.sum_cons, Int64.ofInt_add, Int64.add_assoc]

theorem length_le_foldl_after (r : Registry) (events : List Event) :
    r.metrics.length ≤ (events.foldl after r).metrics.length := by
  induction events generalizing r with
  | nil => exact Nat.le_refl _
  | cons e events ih =>
    have hstep := r.length_after e
    exact Nat.le_trans (by omega) (ih (r.after e))

/-- The event at place `k` of a run makes the metric `m` and gives it the number `id`. -/
def Makes (events : List Event) (k : Nat) (m : Metric) (id : MetricId) : Prop :=
  ∃ settings r, events[k]? = some (.make m.name m.desc settings) ∧
    (run (events.take k)).make m.name m.desc settings = .ok (r, id) ∧ r.get? id = some m

namespace Makes
variable {events : List Event} {k k' : Nat} {id' : MetricId} {m' : Metric}

theorem lt_length (h : Makes events k m id) : k < events.length := by
  obtain ⟨settings, r, hk, -, -⟩ := h
  exact (List.getElem?_eq_some_iff.1 hk).1

/-- The number is that of the metrics made before. -/
theorem idx_eq (h : Makes events k m id) : id.idx = (run (events.take k)).metrics.length := by
  obtain ⟨settings, r, -, hmake, -⟩ := h
  obtain ⟨-, -, -, rfl⟩ := make_eq_ok.1 hmake
  rfl

theorem get?_run_take (h : Makes events k m id) : (run (events.take (k + 1))).get? id = some m := by
  obtain ⟨settings, r, hk, hmake, hm⟩ := h
  rw [run_take_succ hk, after, hmake]
  exact hm

/-- What has become of the metric in the end. -/
theorem get?_run (h : Makes events k m id) : (run events).get? id =
    some ((events.drop (k + 1)).foldl (fun m e => e.touch id m) m) := by
  have hrun := get?_foldl_after h.get?_run_take (events.drop (k + 1))
  rwa [← run_append, List.take_append_drop] at hrun

theorem exists_same (h : Makes events k m id) : ∃ m', (run events).get? id = some m' ∧ m.Same m' :=
  ⟨_, h.get?_run, same_foldl_touch id m _⟩

theorem same (h : Makes events k m id) (hm : (run events).get? id = some m') : m.Same m' := by
  obtain ⟨m'', hm'', hsame⟩ := h.exists_same
  rwa [← Option.some.inj (hm''.symm.trans hm)]

theorem fresh (h : Makes events k m id) : m.total = 0 := by
  obtain ⟨settings, r, -, hmake, hm⟩ := h
  obtain ⟨m', hset, rfl, rfl⟩ := make_eq_ok.1 hmake
  simp only [get?, List.getElem?_concat_length, Option.some.injEq] at hm
  obtain ⟨-, -, htotal⟩ := Metric.fresh_of_settings hset
  exact hm ▸ htotal

/-- What a counter shows in the end has been added to it since it was made. -/
theorem exists_value [Digest] (h : Makes events k m id) (hm : m.Counts) : ∃ m',
    (run events).get? id = some m' ∧
      m'.value = Int.bmod ((events.drop (k + 1)).map (Event.amount id)).sum Int64.size := by
  refine ⟨_, h.get?_run, ?_⟩
  have hzero : m.total.toInt64 = 0 := by
    rw [h.fresh]
    rfl
  rw [((same_foldl_touch id m _).counts hm).value, total_foldl_touch hm, hzero, Int64.zero_add,
    Int64.toInt_ofInt]

/-- Numbers go up. -/
theorem idx_lt (h : Makes events k m id) (h' : Makes events k' m' id') (hk : k < k') :
    id.idx < id'.idx := by
  obtain ⟨d, rfl⟩ := Nat.exists_eq_add_of_le (Nat.succ_le_of_lt hk)
  have hthere := (List.getElem?_eq_some_iff.1 h.get?_run_take).1
  rw [h'.idx_eq, List.take_add, run_append]
  exact Nat.lt_of_lt_of_le hthere (length_le_foldl_after _ _)

theorem lt_iff (h : Makes events k m id) (h' : Makes events k' m' id') :
    k < k' ↔ id.idx < id'.idx := by
  refine ⟨h.idx_lt h', fun hid => Nat.lt_of_not_le fun hle => ?_⟩
  rcases Nat.lt_or_eq_of_le hle with hlt | rfl
  · exact Nat.lt_asymm hid (h'.idx_lt h hlt)
  · rw [h.idx_eq, h'.idx_eq] at hid
    exact Nat.lt_irrefl _ hid

end Makes

/-- Metrics are those that have been made. -/
theorem exists_makes {events : List Event} (h : (run events).get? id = some m) :
    ∃ k m₀, Makes events k m₀ id := by
  have hprefix : ∀ n m, (run (events.take n)).get? id = some m → ∃ k m₀, Makes events k m₀ id := by
    intro n
    induction n with
    | zero => exact fun m hm => nomatch hm
    | succ n ih =>
      intro m hm
      cases hn : events[n]? with
      | none =>
        rw [List.take_add_one, hn] at hm
        exact ih m (by simpa using hm)
      | some e =>
        rw [run_take_succ hn] at hm
        cases hold : (run (events.take n)).get? id with
        | some m' => exact ih m' hold
        | none =>
          obtain ⟨settings, r, rfl, hmake, hr⟩ := make_of_new hold hm
          exact ⟨n, m, settings, r, hn, hmake, hr⟩
  exact hprefix events.length m (by rwa [List.take_length])

/-- The metric with the given number was made as `m`, and none has been made under its name
since. -/
def Newest (events : List Event) (m : Metric) (id : MetricId) : Prop :=
  ∃ k, Makes events k m id ∧ ∀ k' m' id', Makes events k' m' id' → m'.name = m.name → k' ≤ k

/-- Each name has a newest metric. -/
theorem exists_newest {events : List Event} {k : Nat} {m : Metric} {id : MetricId}
    (h : Makes events k m id) : ∃ m₀ id₀, Newest events m₀ id₀ ∧ m₀.name = m.name := by
  by_cases hlast : ∀ k' m' id', Makes events k' m' id' → m'.name = m.name → k' ≤ k
  · exact ⟨m, id, ⟨k, h, hlast⟩, rfl⟩
  · simp only [Classical.not_forall, Nat.not_le] at hlast
    obtain ⟨k', m', id', h', hname, hlt⟩ := hlast
    have hk' := h'.lt_length
    obtain ⟨m₀, id₀, hnew, hname'⟩ := exists_newest h'
    exact ⟨m₀, id₀, hnew, hname'.trans hname⟩
termination_by events.length - k

end Registry
end Disguise
