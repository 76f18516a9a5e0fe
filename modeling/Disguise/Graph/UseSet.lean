/-!
Use sets: how often each op refers to a value. Entries are ordered by op, the latest op first, and
never zero, so two use sets with the same counts are equal.
-/
namespace Disguise

/-- An op of a graph. -/
structure OpId where
  idx : Nat
  deriving DecidableEq, Repr, Inhabited

structure UseSet where
  entries : List (OpId × Nat)
  sorted : entries.Pairwise fun a b => b.1.idx < a.1.idx
  positive : ∀ e ∈ entries, 0 < e.2
  deriving DecidableEq, Repr

namespace UseSet

def empty : UseSet := ⟨[], .nil, by simp⟩

instance : Inhabited UseSet := ⟨empty⟩

/-- The number of operand slots of `user` that hold the value. -/
def count (s : UseSet) (user : OpId) : Nat := (s.entries.lookup user).getD 0

/-- The number of different users. -/
def size (s : UseSet) : Nat := s.entries.length

/-- The different users, the earliest op first. -/
def users (s : UseSet) : List OpId := (s.entries.map (·.1)).reverse

/-- One more slot of `user`. -/
def raise (user : OpId) : List (OpId × Nat) → List (OpId × Nat)
  | [] => [(user, 1)]
  | (k, n) :: rest =>
    if k.idx < user.idx then (user, 1) :: (k, n) :: rest
    else if user = k then (k, n + 1) :: rest
    else (k, n) :: raise user rest

/-- One slot of `user` less; an entry that comes to zero goes away. -/
def lower (user : OpId) : List (OpId × Nat) → List (OpId × Nat)
  | [] => []
  | (k, n) :: rest =>
    if user = k then if n ≤ 1 then rest else (k, n - 1) :: rest
    else (k, n) :: lower user rest

theorem mem_raise {user : OpId} {e : OpId × Nat} {l : List (OpId × Nat)} (h : e ∈ raise user l) :
    0 < e.2 ∧ e.1 = user ∨ e ∈ l := by
  fun_induction raise user l <;> grind

theorem mem_lower {user : OpId} {e : OpId × Nat} {l : List (OpId × Nat)} (h : e ∈ lower user l) :
    e ∈ l ∨ 0 < e.2 ∧ e.1 = user ∧ ∃ n, (user, n) ∈ l := by
  fun_induction lower user l <;> grind

theorem sorted_raise (user : OpId) (l : List (OpId × Nat))
    (h : l.Pairwise fun a b => b.1.idx < a.1.idx) :
    (raise user l).Pairwise fun a b => b.1.idx < a.1.idx := by
  induction l with
  | nil => simp [raise]
  | cons e rest ih =>
    obtain ⟨k, n⟩ := e
    obtain ⟨head, tail⟩ := List.pairwise_cons.1 h
    unfold raise
    split
    · exact List.pairwise_cons.2 ⟨fun b hb => by grind, h⟩
    · split
      · exact List.pairwise_cons.2 ⟨head, tail⟩
      · refine List.pairwise_cons.2 ⟨fun b hb => ?_, ih tail⟩
        have ne : user.idx ≠ k.idx := fun e => by
          rename_i _ differ
          exact differ (by cases user; cases k; simp_all)
        rcases mem_raise hb with ⟨_, same⟩ | old
        · simp only [same]
          omega
        · exact head b old

theorem sorted_lower (user : OpId) (l : List (OpId × Nat))
    (h : l.Pairwise fun a b => b.1.idx < a.1.idx) :
    (lower user l).Pairwise fun a b => b.1.idx < a.1.idx := by
  induction l with
  | nil => simp [lower]
  | cons e rest ih =>
    obtain ⟨k, n⟩ := e
    obtain ⟨head, tail⟩ := List.pairwise_cons.1 h
    unfold lower
    split
    · split
      · exact tail
      · exact List.pairwise_cons.2 ⟨head, tail⟩
    · refine List.pairwise_cons.2 ⟨fun b hb => ?_, ih tail⟩
      rcases mem_lower hb with old | ⟨_, same, m, hm⟩
      · exact head b old
      · simpa [same] using head _ hm

def add (s : UseSet) (user : OpId) : UseSet :=
  ⟨raise user s.entries, sorted_raise user _ s.sorted,
    fun _ h => (mem_raise h).elim (·.1) (s.positive _)⟩

def remove (s : UseSet) (user : OpId) : UseSet :=
  ⟨lower user s.entries, sorted_lower user _ s.sorted,
    fun _ h => (mem_lower h).elim (s.positive _) (·.1)⟩

end UseSet
end Disguise
