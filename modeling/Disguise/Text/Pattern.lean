import Disguise.Text.Bytes

/-!
Regular expressions over bytes. Of the matches that start at the leftmost place the preferred one
counts: the left alternative before the right one, and more repetitions before fewer.
-/
namespace Disguise

/-- A place in a text: whether the text starts there, and what is behind it. -/
structure Place where
  atStart : Bool
  rest : Bytes
  deriving DecidableEq, Repr

inductive Pattern where
  /-- The empty text at the start of the whole text. -/
  | start
  | one (p : UInt8 → Bool)
  | many (p : UInt8 → Bool)
  | either (r r' : Pattern)
  | both (r r' : Pattern)

namespace Pattern

/-- Where repetitions of a byte may end, the longest first. -/
def repeats (p : UInt8 → Bool) : (atStart : Bool) → Bytes → List Place
  | atStart, [] => [⟨atStart, []⟩]
  | atStart, b :: s =>
    if p b then repeats p false s ++ [⟨atStart, b :: s⟩] else [⟨atStart, b :: s⟩]

/-- Where the matches from a place on end, in order of preference. -/
def ends : Pattern → Place → List Place
  | start, q => if q.atStart then [q] else []
  | one p, q =>
    match q.rest with
    | b :: s => if p b then [⟨false, s⟩] else []
    | [] => []
  | many p, q => repeats p q.atStart q.rest
  | either r r', q => r.ends q ++ r'.ends q
  | both r r', q => (r.ends q).flatMap r'.ends

/-- What is left from a place on without the matches. An empty match takes nothing out. -/
def deleteFrom (r : Pattern) (q : Place) : Bytes :=
  match _h : (r.ends q).head?.filter fun q' => q'.rest.length < q.rest.length with
  | some q' => r.deleteFrom q'
  | none =>
    match _hr : q.rest with
    | [] => []
    | b :: s => b :: r.deleteFrom ⟨false, s⟩
termination_by q.rest.length
decreasing_by
  · simpa using (Option.filter_eq_some_iff.1 _h).2
  · simp [_hr]

theorem deleteFrom_of_match {r : Pattern} {q q' : Place} (h : (r.ends q).head? = some q')
    (hlt : q'.rest.length < q.rest.length) : r.deleteFrom q = r.deleteFrom q' := by
  rw [deleteFrom]
  split
  · rename_i q'' hmatch
    simp only [h, Option.filter_some, hlt, decide_true, if_true, Option.some.injEq] at hmatch
    rw [hmatch]
  · rename_i hmatch
    simp only [h, Option.filter_some, hlt, decide_true, if_true, reduceCtorEq] at hmatch

theorem deleteFrom_of_end {r : Pattern} {atStart : Bool} (h : (r.ends ⟨atStart, []⟩).head? = none) :
    r.deleteFrom ⟨atStart, []⟩ = [] := by
  rw [deleteFrom]
  split
  · rename_i hmatch
    simp [h] at hmatch
  · rfl

theorem deleteFrom_of_cons {r : Pattern} {atStart : Bool} {b : UInt8} {s : Bytes}
    (h : (r.ends ⟨atStart, b :: s⟩).head? = none) :
    r.deleteFrom ⟨atStart, b :: s⟩ = b :: r.deleteFrom ⟨false, s⟩ := by
  rw [deleteFrom]
  split
  · rename_i hmatch
    simp [h] at hmatch
  · rfl

/-- A text without the matches of a pattern, which are looked for from left to right. -/
def delete (r : Pattern) (s : Bytes) : Bytes := r.deleteFrom ⟨true, s⟩

end Pattern
end Disguise
