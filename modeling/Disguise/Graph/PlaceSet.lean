/-!
Sets of places, held as the bits of a number, so that whole sets are met at once.
-/
namespace Disguise

structure PlaceSet where
  bits : Nat
  deriving DecidableEq, Repr, Inhabited

namespace PlaceSet

def contains (s : PlaceSet) (i : Nat) : Bool := s.bits.testBit i

/-- All places before the given one. -/
def below (n : Nat) : PlaceSet := ⟨1 <<< n - 1⟩

def singleton (i : Nat) : PlaceSet := ⟨1 <<< i⟩

def inter (s t : PlaceSet) : PlaceSet := ⟨s.bits &&& t.bits⟩

def insert (s : PlaceSet) (i : Nat) : PlaceSet := ⟨s.bits ||| 1 <<< i⟩

@[simp] theorem contains_below (n i : Nat) : (below n).contains i = decide (i < n) := by
  simp [contains, below, Nat.one_shiftLeft]

@[simp] theorem contains_singleton (i j : Nat) : (singleton i).contains j = decide (i = j) := by
  simp [contains, singleton, Nat.one_shiftLeft, Nat.testBit_two_pow]

@[simp] theorem contains_inter (s t : PlaceSet) (i : Nat) :
    (s.inter t).contains i = (s.contains i && t.contains i) := by
  simp [contains, inter]

@[simp] theorem contains_insert (s : PlaceSet) (i j : Nat) :
    (s.insert i).contains j = (s.contains j || decide (i = j)) := by
  simp [contains, insert, Nat.one_shiftLeft, Nat.testBit_two_pow]

end PlaceSet
end Disguise
