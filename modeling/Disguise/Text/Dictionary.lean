import Disguise.Text.Bytes

/-!
Dictionaries: values under names. A dictionary branches on the bytes of a name one after the other,
so a look-up takes as many steps as the name has bytes, however many names there are.
-/
namespace Disguise

inductive Dictionary (α : Type) where
  | node (value : Option α) (branches : List (UInt8 × Dictionary α))

namespace Dictionary
variable {α : Type}

def empty : Dictionary α := .node none []

instance : Inhabited (Dictionary α) := ⟨empty⟩

/-- The value under a name. -/
def find? : Dictionary α → (name : Bytes) → Option α
  | .node value _, [] => value
  | .node _ branches, b :: name => (branches.lookup b).bind (find? · name)

/-- Puts a value under a name, in place of the one that is there. -/
def insert (a : α) : Dictionary α → (name : Bytes) → Dictionary α
  | .node _ branches, [] => .node (some a) branches
  | .node value branches, b :: name =>
    .node value ((b, ((branches.lookup b).getD empty).insert a name) ::
      branches.filter fun branch => branch.1 ≠ b)

def contains (d : Dictionary α) (name : Bytes) : Bool := (d.find? name).isSome

@[simp] theorem find?_empty (name : Bytes) : (empty : Dictionary α).find? name = none := by
  cases name <;> rfl

theorem lookup_filter_ne (b c : UInt8) (h : c ≠ b) (branches : List (UInt8 × Dictionary α)) :
    (branches.filter fun branch => branch.1 ≠ b).lookup c = branches.lookup c := by
  induction branches with
  | nil => rfl
  | cons branch rest ih =>
    obtain ⟨k, d⟩ := branch
    simp only [ne_eq, decide_not] at ih ⊢
    by_cases hk : k = b
    · have hc : (c == b) = false := by simp [h]
      simp [hk, List.lookup_cons, ih, hc]
    · simp [hk, List.lookup_cons, ih]

theorem find?_insert (a : α) (name other : Bytes) (d : Dictionary α) :
    (d.insert a name).find? other = if other = name then some a else d.find? other := by
  induction name generalizing other d with
  | nil =>
    obtain ⟨value, branches⟩ := d
    cases other <;> simp [insert, find?]
  | cons b name ih =>
    obtain ⟨value, branches⟩ := d
    cases other with
    | nil => simp [insert, find?]
    | cons c other =>
      by_cases h : c = b
      · subst h
        cases hd : branches.lookup c <;> simp [insert, find?, ih, hd]
      · have hc : (c == b) = false := by simp [h]
        simp only [insert, find?, List.lookup_cons, hc, lookup_filter_ne b c h]
        simp [h]

theorem contains_insert (a : α) (name other : Bytes) (d : Dictionary α) :
    (d.insert a name).contains other = (decide (other = name) || d.contains other) := by
  by_cases h : other = name <;> simp [contains, find?_insert, h]

end Dictionary
end Disguise
