import Disguise.Proofs.Paths

/-!
Dominance by paths. A block is known by its place in the function. The dominator sets of a function
say of every place whether a path of branches leads to it and, if so, which places lie on all these
paths (`dominators_of_routes`). The rounds that shrink the sets come to a standstill in whatever
order they visit the blocks, and always at the same sets.
-/
namespace Disguise
namespace Flow
variable {c : Flow} {order : List (Nat × List Nat)}

theorem settle_eq_iterate (c : Flow) (order : List (Nat × List Nat)) (fuel : Nat)
    (rows : Table PlaceSet) : ∃ n ≤ fuel, c.settle order fuel rows = (c.shrink order)^[n] rows := by
  induction fuel generalizing rows with
  | zero => exact ⟨0, Nat.le_refl 0, rfl⟩
  | succ fuel ih =>
    unfold settle
    dsimp only
    split
    · exact ⟨0, Nat.zero_le _, rfl⟩
    · obtain ⟨n, hn, heq⟩ := ih (c.shrink order rows)
      exact ⟨n + 1, Nat.succ_le_succ hn, heq⟩

/-- Rounds in any order come to a standstill at the sets that `dominators` gives. -/
theorem exists_standstill (hc : c.Closed) (hsame : ∀ e, e ∈ order ↔ e ∈ c.schedule) :
    ∃ n ≤ c.size * c.size + 1, c.shrink order ((c.shrink order)^[n] c.fullRows) =
      (c.shrink order)^[n] c.fullRows ∧
      ∀ (i : Nat) (above : PlaceSet), c.dominators[i]? = some (some above) →
        ((c.shrink order)^[n] c.fullRows).get i = above := by
  obtain ⟨hfix, hstanding⟩ := settle_standing hc hsame
  obtain ⟨n, hn, heq⟩ := settle_eq_iterate c order (c.size * c.size + 1) c.fullRows
  rw [heq] at hfix hstanding
  refine ⟨n, hn, hfix, fun i above habove => ?_⟩
  have hi := reachable_of_dominators habove
  obtain ⟨above', habove', hiff⟩ := dominators_of_reachable hc hi
  rw [habove] at habove'
  obtain rfl := Option.some.inj (Option.some.inj habove')
  apply PlaceSet.eq_of_contains
  intro j
  rw [Bool.eq_iff_iff, hstanding.contains_iff hc hi, hiff j]

/-- The blocks of a round in the given order, with their predecessors. -/
def visiting (c : Flow) (places : List Nat) : List (Nat × List Nat) :=
  places.map fun i => (i, (c.predecessors c.reachable).get i)

theorem mem_visiting_iff {places : List Nat} (h : ∀ i, i ∈ places ↔ i ≠ 0 ∧ i ∈ c.reachable)
    (e : Nat × List Nat) : e ∈ c.visiting places ↔ e ∈ c.schedule := by
  obtain ⟨i, ps⟩ := e
  simp only [mem_schedule, visiting, List.mem_map, Prod.mk.injEq]
  constructor
  · rintro ⟨k, hk, rfl, rfl⟩
    exact ⟨((h k).1 hk).2, ((h k).1 hk).1, rfl⟩
  · rintro ⟨hi, hi0, rfl⟩
    exact ⟨i, (h i).2 ⟨hi0, hi⟩, rfl, rfl⟩

end Flow

namespace Graph
variable {g : Graph} {f : FuncId}

/-- The op that ends block number `i` has a target that is block number `j`; a block that is listed
several times has the number of its last occurrence. -/
def HasBranch (g : Graph) (f : FuncId) (i j : Nat) : Prop :=
  ∃ b t c, (g.func f).blocks[i]? = some b ∧ (g.block b).ops.getLast? = some t ∧
    (g.op t).code.isTerminator ∧ some c ∈ (g.op t).targets ∧
    (g.func f).blocks[j]? = some c ∧ c ∉ (g.func f).blocks.drop (j + 1)

/-- A path of branches from block number zero, the last block first. -/
inductive Route (g : Graph) (f : FuncId) : List Nat → Nat → Prop
  | entry (nonempty : (g.func f).blocks ≠ []) : Route g f [0] 0
  | step {p : List Nat} {i j : Nat} (route : Route g f p i) (branch : g.HasBranch f i j) :
      Route g f (j :: p) j

theorem Route.nonempty {p : List Nat} {i : Nat} (h : g.Route f p i) : (g.func f).blocks ≠ [] := by
  induction h with
  | entry nonempty => exact nonempty
  | step _ _ ih => exact ih

theorem mem_successors_iff {i j : Nat} : j ∈ (g.flow f).successors i ↔ g.HasBranch f i j := by
  rw [successors_flow]
  unfold HasBranch
  cases hb : (g.func f).blocks[i]? with
  | none => simp
  | some b =>
    cases hlast : (g.block b).ops.getLast? with
    | none => simp [terminator?, hlast]
    | some t =>
      have hterm : g.terminator? b = if (g.op t).code.isTerminator then some t else none := by
        rw [terminator?, hlast, Option.filter_some]
      by_cases hcode : (g.op t).code.isTerminator
      · rw [if_pos hcode] at hterm
        simp [hterm, hlast, hcode, Option.bind_eq_some_iff, placesOf_eq_some_iff]
      · rw [if_neg hcode] at hterm
        simp [hterm, hlast, hcode]

theorem path_iff_route (hne : (g.func f).blocks ≠ []) {p : List Nat} {i : Nat} :
    (g.flow f).Path p i ↔ g.Route f p i := by
  constructor
  · intro h
    induction h with
    | entry => exact .entry hne
    | step _ edge ih => exact ih.step (mem_successors_iff.1 edge)
  · intro h
    induction h with
    | entry => exact .entry
    | step _ branch ih => exact ih.step (mem_successors_iff.2 branch)

theorem mem_reachable_iff (hne : (g.func f).blocks ≠ []) {i : Nat} :
    i ∈ (g.flow f).reachable ↔ ∃ p, g.Route f p i := by
  constructor
  · intro hi
    obtain ⟨p, path⟩ := Flow.exists_path_of_reachable hi
    exact ⟨p, (path_iff_route hne).1 path⟩
  · rintro ⟨p, route⟩
    exact Flow.mem_reachable (closed_flow hne) ((path_iff_route hne).2 route)

theorem length_dominators (g : Graph) (f : FuncId) :
    (g.dominators f).length = (g.func f).blocks.length := by
  simp [dominators, Flow.dominators, flow]

/-- A function has a dominator set for each block that a path leads to. The set holds the blocks
that lie on all these paths. Rounds over the blocks in any order end at these sets. -/
theorem dominators_of_routes (g : Graph) (f : FuncId) :
    (g.dominators f).length = (g.func f).blocks.length ∧
    (∀ i < (g.func f).blocks.length,
      ((g.dominators f)[i]? = some none ↔ ¬ ∃ p, g.Route f p i) ∧
      ∀ above, (g.dominators f)[i]? = some (some above) →
        ∀ j, above.contains j ↔ ∀ p, g.Route f p i → j ∈ p) ∧
    ∀ places : List Nat, (∀ i, i ∈ places ↔ i ≠ 0 ∧ ∃ p, g.Route f p i) →
      let c := g.flow f
      let rows n := (c.shrink (c.visiting places))^[n] c.fullRows
      ∃ n ≤ c.size * c.size + 1, rows (n + 1) = rows n ∧
        ∀ (i : Nat) (above : PlaceSet), (g.dominators f)[i]? = some (some above) →
          (rows n).get i = above := by
  refine ⟨length_dominators g f, fun i hi => ?_, fun places hplaces => ?_⟩
  · have hne : (g.func f).blocks ≠ [] := List.ne_nil_of_length_pos (Nat.zero_lt_of_lt hi)
    refine ⟨?_, fun above habove j => ?_⟩
    · have hsize : i < (g.flow f).size := hi
      rw [← mem_reachable_iff hne, dominators, Flow.getElem?_dominators, if_pos hsize]
      split <;> simp [*]
    · have hreach := Flow.reachable_of_dominators habove
      obtain ⟨above', habove', hiff⟩ := Flow.dominators_of_reachable (closed_flow hne) hreach
      rw [dominators, habove'] at habove
      obtain rfl := Option.some.inj (Option.some.inj habove)
      simp only [hiff j, path_iff_route hne]
  · by_cases hne : (g.func f).blocks = []
    · -- without blocks there is nothing to visit
      have hnone : places = [] := by
        refine List.eq_nil_iff_forall_not_mem.2 fun i hi => ?_
        obtain ⟨-, p, route⟩ := (hplaces i).1 hi
        exact route.nonempty hne
      subst hnone
      refine ⟨0, Nat.zero_le _, rfl, fun i above habove => ?_⟩
      have hlen := length_dominators g f
      rw [hne] at hlen
      rw [List.length_eq_zero_iff.1 hlen] at habove
      cases habove
    · have hsame : ∀ e, e ∈ (g.flow f).visiting places ↔ e ∈ (g.flow f).schedule := by
        apply Flow.mem_visiting_iff
        intro i
        rw [hplaces i, mem_reachable_iff hne]
      obtain ⟨n, hn, hfix, hrows⟩ := Flow.exists_standstill (closed_flow hne) hsame
      refine ⟨n, hn, ?_, hrows⟩
      dsimp only
      rw [Function.iterate_succ_apply', hfix]

/-- A function that goes round and round: block one may branch to itself, block two goes back to
the entry, and nothing leads to block three. -/
def loopGraph : Graph :=
  { ops := ⟨#[
      { code := .br, targets := [some ⟨1⟩], block := some ⟨0⟩ },
      { code := .brif, args := [some (.const ⟨1, 1⟩)], targets := [some ⟨1⟩, some ⟨2⟩]
        block := some ⟨1⟩ },
      { code := .br, targets := [some ⟨0⟩], block := some ⟨2⟩ },
      { code := .br, targets := [some ⟨2⟩], block := some ⟨3⟩ }]⟩
    blocks := ⟨#[{ ops := [⟨0⟩] }, { ops := [⟨1⟩] }, { ops := [⟨2⟩] }, { ops := [⟨3⟩] }]⟩
    funcs := ⟨#[{ blocks := [⟨0⟩, ⟨1⟩, ⟨2⟩, ⟨3⟩] }]⟩ }

theorem loopGraph_branches {i j : Nat} (h : loopGraph.HasBranch ⟨0⟩ i j) :
    j < 3 ∧ (j = 2 → i = 1 ∨ i = 3) := by
  have hall : ∀ i < 4, ∀ j ∈ (loopGraph.flow ⟨0⟩).successors i,
      j < 3 ∧ (j = 2 → i = 1 ∨ i = 3) := by
    decide
  have hlt : i < 4 := by
    obtain ⟨b, -, -, hb, -⟩ := h
    exact (List.getElem?_eq_some_iff.1 hb).1
  exact hall i hlt j (mem_successors_iff.2 h)

/-- Block one lies on every way to block two, and block three on none. -/
theorem loopGraph_dominators : (loopGraph.dominators ⟨0⟩)[3]? = some none ∧
    ∃ above, (loopGraph.dominators ⟨0⟩)[2]? = some (some above) ∧
      above.contains 1 = true ∧ above.contains 3 = false := by
  have hlt : ∀ {p i}, loopGraph.Route ⟨0⟩ p i → i < 3 := by
    intro p i route
    cases route with
    | entry => decide
    | step _ branch => exact (loopGraph_branches branch).1
  have hinside : ∀ {p i}, loopGraph.Route ⟨0⟩ p i → 3 ∉ p := by
    intro p i route
    induction route with
    | entry => decide
    | step route branch ih =>
      have := (loopGraph_branches branch).1
      simp only [List.mem_cons, not_or]
      exact ⟨by omega, ih⟩
  have hhead : ∀ {p i}, loopGraph.Route ⟨0⟩ p i → i ∈ p := by
    intro p i route
    cases route <;> simp
  have hback : ∀ {p}, loopGraph.Route ⟨0⟩ p 2 → 1 ∈ p := by
    intro p route
    cases route with
    | step route branch =>
      rcases (loopGraph_branches branch).2 rfl with rfl | rfl
      · exact List.mem_cons_of_mem _ (hhead route)
      · exact absurd (hlt route) (by decide)
  have hroute : loopGraph.Route ⟨0⟩ [2, 1, 0] 2 :=
    ((Route.entry (by decide)).step (mem_successors_iff.1 (by decide))).step
      (mem_successors_iff.1 (by decide))
  obtain ⟨hlen, hsets, -⟩ := dominators_of_routes loopGraph ⟨0⟩
  obtain ⟨hnone, -⟩ := hsets 3 (by decide)
  obtain ⟨hsome, hiff⟩ := hsets 2 (by decide)
  refine ⟨hnone.2 fun ⟨p, route⟩ => absurd (hlt route) (by decide), ?_⟩
  have hget : (loopGraph.dominators ⟨0⟩)[2]? = some (loopGraph.dominators ⟨0⟩)[2] := by
    exact List.getElem?_eq_getElem (by rw [hlen]; decide)
  cases hset : (loopGraph.dominators ⟨0⟩)[2] with
  | none =>
    rw [hset] at hget
    exact absurd ⟨_, hroute⟩ (hsome.1 hget)
  | some above =>
    rw [hset] at hget
    refine ⟨above, hget, (hiff above hget 1).2 fun p route => hback route, ?_⟩
    rw [← Bool.not_eq_true, hiff above hget 3]
    exact fun hall => hinside hroute (hall _ hroute)

end Graph
end Disguise
