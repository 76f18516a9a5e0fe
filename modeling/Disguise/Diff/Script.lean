import Disguise.Diff.Normalize
import Disguise.Diff.Snake

/-!
The edit script between two sequences. Common ends are kept, then a long common middle is looked
for, and what is left is cut at the middle of a shortest edit path.
-/
namespace Disguise.Diff

variable {α : Type} [DecidableEq α]

/-- Where `part` first occurs in a sequence. -/
def indexOf? (part : List α) : List α → Option Nat
  | [] => if part.isEmpty then some 0 else none
  | a :: as =>
    if part.isPrefixOf (a :: as) then some 0 else (indexOf? part as).map (· + 1)

/-- Both sequences cut around a common part. -/
structure Overlap (α : Type) where
  before₁ : List α
  after₁ : List α
  before₂ : List α
  after₂ : List α
  common : List α

/-- Cuts at two positions and moves the equal items around them into the common part. -/
def overlapAt (a b : List α) (i j : Nat) : Overlap α :=
  let s := commonSuffix (a.take i) (b.take j)
  let p := commonPrefix (a.drop i) (b.drop j)
  { before₁ := a.take (i - s)
    after₁ := a.drop (i + p)
    before₂ := b.take (j - s)
    after₂ := b.drop (j + p)
    common := (b.drop (j - s)).take (s + p) }

/-- Every position of `part` in a sequence whose first item has position `start`. -/
def positions (part : List α) (start : Nat) : List α → List Nat
  | [] => if part.isEmpty then [start] else []
  | a :: as =>
    if part.isPrefixOf (a :: as) then start :: positions part (start + 1) as
    else positions part (start + 1) as

/-- The first of the longest overlaps grown from the seed at position `i` of the longer sequence;
it has to cover half of that. -/
def seeded? (long short : List α) (i : Nat) : Option (Overlap α) :=
  let seed := (long.drop i).take (long.length / 4)
  let best := (positions seed 0 short).foldl (fun best j =>
    let new := overlapAt long short i j
    match best with
    | some old => if old.common.length < new.common.length then some new else best
    | none => if new.common.isEmpty then none else some new) none
  best.filter fun o => 2 * o.common.length ≥ long.length

def Overlap.swap (o : Overlap α) : Overlap α :=
  { o with before₁ := o.before₂, after₁ := o.after₂, before₂ := o.before₁, after₂ := o.after₁ }

/-- A common part of at least half the longer sequence, grown from its second or third quarter. -/
def overlap? (a b : List α) : Option (Overlap α) :=
  let swapped := a.length ≤ b.length
  let long := if swapped then b else a
  let short := if swapped then a else b
  if long.length < 4 || 2 * short.length < long.length then none
  else
    let second := seeded? long short ((long.length + 3) / 4)
    let third := seeded? long short ((long.length + 1) / 2)
    let best := match second, third with
      | some p, some q => if p.common.length > q.common.length then some p else some q
      | some p, none => some p
      | none, q => q
    if swapped then best.map Overlap.swap else best

/-- The script of two sequences without common ends, in terms of the scripts of smaller ones. -/
def divide (smaller : List α → List α → List (Segment α)) (a b : List α) : List (Segment α) :=
  if a.isEmpty then [insert b]
  else if b.isEmpty then [delete a]
  else
    let longer := a.length > b.length
    let long := if longer then a else b
    let short := if longer then b else a
    let edit : List α → Segment α := if longer then delete else insert
    match indexOf? short long with
    | some i => [edit (long.take i), equal short, edit (long.drop (i + short.length))]
    | none =>
      if short.length = 1 then [delete a, insert b]
      else match overlap? a b with
        | some o =>
          smaller o.before₁ o.before₂ ++ equal o.common :: smaller o.after₁ o.after₂
        | none => match middle? a b with
          | some (x, y) => smaller (a.take x) (b.take y) ++ smaller (a.drop x) (b.drop y)
          | none => [delete a, insert b]

/-- Every division makes the sequences shorter, so their length bounds the depth. -/
def scriptFor : (depth : Nat) → List α → List α → List (Segment α)
  | 0, a, b => [delete a, insert b]
  | depth + 1, a, b =>
    if a = b then if a.isEmpty then [] else [equal a]
    else
      let n := commonPrefix a b
      let a' := a.drop n
      let b' := b.drop n
      let k := commonSuffix a' b'
      let inner := divide (scriptFor depth) (a'.take (a'.length - k)) (b'.take (b'.length - k))
      let front := if n = 0 then [] else [equal (a.take n)]
      let back := if k = 0 then [] else [equal (a'.drop (a'.length - k))]
      normalize (front ++ inner ++ back)

/-- The edit script from the first sequence to the second. -/
def script (a b : List α) : List (Segment α) := scriptFor (a.length + b.length + 1) a b

end Disguise.Diff
