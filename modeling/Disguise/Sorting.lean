/-!
Sorting in place by insertion. The elements are taken from the front to the back, and each is
swapped towards the front for as long as the one before it comes after it.
-/
namespace Disguise.Sorting
variable {α : Type} {n : Nat} (le : α → α → Bool)

/-- Moves the element at place `j` in front of those before it that come after it. -/
def sink (v : Vector α n) : (j : Nat) → j < n → Vector α n
  | 0, _ => v
  | j + 1, h => if le v[j] v[j + 1] then v else sink (v.swap j (j + 1)) j (by omega)

/-- Sorts the first `i` elements. -/
def sortFirst (v : Vector α n) : (i : Nat) → i ≤ n → Vector α n
  | 0, _ => v
  | i + 1, h => sink le (sortFirst v i (by omega)) i h

def sort (l : List α) : List α := (sortFirst le ⟨l.toArray, rfl⟩ l.length (Nat.le_refl _)).toList

section
variable {le}

theorem getElem_of_toList {v : Vector α n} {l r : List α} {x : α} {j : Nat} (h : j < n)
    (hj : l.length = j) (hv : v.toList = l ++ x :: r) : v[j] = x := by
  subst hj
  have hx : v.toList[l.length]? = some x := by simp [hv]
  simpa [Vector.getElem?_eq_getElem h] using hx

variable (trans : ∀ a b c, le a b → le b c → le a c) (total : ∀ a b, le a b ∨ le b a)
include trans total

/-- An element that sinks into sorted ones leaves them sorted. -/
theorem sink_spec {v : Vector α n} {l r : List α} {x : α} {j : Nat} (h : j < n)
    (hj : l.length = j) (hv : v.toList = l ++ x :: r) (hl : l.Pairwise fun a b => le a b) :
    ∃ l', (sink le v j h).toList = l' ++ r ∧ l'.Perm (l ++ [x]) ∧
      l'.Pairwise fun a b => le a b := by
  induction j generalizing v l r with
  | zero =>
    obtain rfl := List.length_eq_zero_iff.1 hj
    exact ⟨[x], hv, .refl _, List.pairwise_singleton _ _⟩
  | succ j ih =>
    obtain ⟨l, y, rfl⟩ :=
      (List.eq_nil_or_concat l).resolve_left (List.ne_nil_of_length_eq_add_one hj)
    rw [List.concat_eq_append] at hj hv hl ⊢
    obtain ⟨hsorted, -, hlast⟩ := List.pairwise_append.1 hl
    have hlast : ∀ a ∈ l, le a y := fun a ha => hlast a ha y (List.mem_singleton_self y)
    have hy : v[j] = y := getElem_of_toList (by omega) (by simpa using hj) (by simpa using hv)
    have hx : v[j + 1] = x := getElem_of_toList h hj hv
    unfold sink
    rw [hy, hx]
    split
    · rename_i hle
      refine ⟨l ++ [y] ++ [x], by simpa using hv, .refl _, List.pairwise_append.2
        ⟨hl, List.pairwise_singleton _ _, fun a ha b hb => ?_⟩⟩
      obtain rfl := List.mem_singleton.1 hb
      rcases List.mem_append.1 ha with ha | ha
      · exact trans a y b (hlast a ha) hle
      · rwa [List.mem_singleton.1 ha]
    · rename_i hgt
      have hswap : (v.swap j (j + 1)).toList = l ++ x :: (y :: r) := by
        have hj : l.length = j := by simpa using hj
        subst hj
        simp [Vector.toList_swap, hv, hx, hy]
      obtain ⟨l', hl', hperm, hsorted'⟩ := ih (by omega) (by simpa using hj) hswap hsorted
      refine ⟨l' ++ [y], by simpa using hl', ?_, List.pairwise_append.2
        ⟨hsorted', List.pairwise_singleton _ _, fun a ha b hb => ?_⟩⟩
      · refine (hperm.append_right [y]).trans ?_
        simpa using List.Perm.append_left l (.swap y x [])
      · obtain rfl := List.mem_singleton.1 hb
        rcases List.mem_append.1 (hperm.mem_iff.1 ha) with ha | ha
        · exact hlast a ha
        · rw [List.mem_singleton.1 ha]
          exact (total b x).resolve_left hgt

/-- The elements before place `i` are sorted, and those from there on have not been moved. -/
theorem sortFirst_spec (v : Vector α n) {i : Nat} (h : i ≤ n) :
    ∃ l, (sortFirst le v i h).toList = l ++ v.toList.drop i ∧ l.Perm (v.toList.take i) ∧
      l.Pairwise fun a b => le a b := by
  induction i with
  | zero => exact ⟨[], rfl, .refl _, .nil⟩
  | succ i ih =>
    obtain ⟨l, hl, hperm, hsorted⟩ := ih (by omega)
    have hlen : l.length = i := by
      rw [hperm.length_eq, List.length_take, Vector.length_toList]
      omega
    have hi : i < v.toList.length := by rwa [Vector.length_toList]
    rw [List.drop_eq_getElem_cons hi] at hl
    obtain ⟨l', hl', hperm', hsorted'⟩ := sink_spec trans total h hlen hl hsorted
    refine ⟨l', hl', ?_, hsorted'⟩
    rw [List.take_add_one, List.getElem?_eq_getElem hi]
    exact hperm'.trans (hperm.append_right _)

theorem sort_spec (l : List α) : (sort le l).Perm l ∧ (sort le l).Pairwise fun a b => le a b := by
  obtain ⟨l', hl', hperm, hsorted⟩ :=
    sortFirst_spec trans total ⟨l.toArray, rfl⟩ (Nat.le_refl l.length)
  rw [List.drop_of_length_le (by simp), List.append_nil] at hl'
  rw [List.take_of_length_le (by simp)] at hperm
  rw [sort, hl']
  exact ⟨hperm, hsorted⟩

end
end Disguise.Sorting
