/-!
Tables: total functions on the natural numbers that take their default value from some index on.
Writing an entry never fails, so `get_set` needs no bound.
-/
namespace Disguise

structure Table (α : Type) where
  cells : Array α
  deriving DecidableEq, Repr

namespace Table
variable {α : Type}

def empty : Table α := ⟨#[]⟩

instance : Inhabited (Table α) := ⟨empty⟩

/-- The first index behind all written ones. -/
def size (t : Table α) : Nat := t.cells.size

def push (t : Table α) (a : α) : Table α := ⟨t.cells.push a⟩

@[simp] theorem size_push (t : Table α) (a : α) : (t.push a).size = t.size + 1 := by
  simp [size, push]

variable [Inhabited α]

def get (t : Table α) (i : Nat) : α := t.cells[i]?.getD default

def set (t : Table α) (i : Nat) (a : α) : Table α :=
  if i < t.cells.size then ⟨t.cells.setIfInBounds i a⟩
  else ⟨(t.cells ++ Array.replicate (i - t.cells.size) default).push a⟩

def modify (t : Table α) (i : Nat) (f : α → α) : Table α := t.set i (f (t.get i))

@[simp] theorem get_empty (i : Nat) : (empty : Table α).get i = default := by
  simp [empty, get]

theorem get_of_size_le (t : Table α) {i : Nat} (h : t.size ≤ i) : t.get i = default := by
  simp only [size] at h
  grind [get]

theorem get_push (t : Table α) (a : α) (i : Nat) :
    (t.push a).get i = if i = t.size then a else t.get i := by
  grind [get, push, size]

theorem get_set (t : Table α) (i j : Nat) (a : α) :
    (t.set i a).get j = if j = i then a else t.get j := by
  grind [get, set]

theorem get_modify (t : Table α) (i j : Nat) (f : α → α) :
    (t.modify i f).get j = if j = i then f (t.get i) else t.get j :=
  t.get_set i j _

theorem size_set (t : Table α) (i : Nat) (a : α) : (t.set i a).size = max t.size (i + 1) := by
  grind [size, set]

end Table
end Disguise
