/-!
The middle of a shortest edit path. Two paths grow through the grid of the two sequences, one from
each end, by one more edit in every round; where they first overlap the sequences can be cut so
that both parts have shortest paths of their own.
-/
namespace Disguise.Diff

variable {α : Type} [DecidableEq α]

/-- A growing path. `reach` holds, for every diagonal, how far the path got on it, or -1; diagonal
`k` is stored at `offset + k`. Diagonals that left the grid are counted at both ends. -/
structure Front where
  offset : Nat
  reach : Array Int
  skippedLow : Nat := 0
  skippedHigh : Nat := 0

def Front.start (offset : Nat) : Front :=
  { offset, reach := (Array.replicate (2 * offset) (-1)).set! (offset + 1) 0 }

/-- How far the path got on a diagonal, -1 outside of the stored range. -/
def Front.at (f : Front) (k : Int) : Int :=
  let i := f.offset + k
  if i < 0 then -1 else (f.reach[i.toNat]?).getD (-1)

def Front.put (f : Front) (k x : Int) : Front :=
  { f with reach := f.reach.setIfInBounds (f.offset + k).toNat x }

/-- Number of equal items from two positions on. -/
def run (a b : Array α) (i j : Nat) : Nat :=
  match a[i]?, b[j]? with
  | some x, some y => if i < a.size ∧ x = y then run a b (i + 1) (j + 1) + 1 else 0
  | _, _ => 0
termination_by a.size - i

/-- One more edit on diagonal `k`, then as many equal items as follow. -/
def Front.reached (f : Front) (a b : Array α) (d k : Int) : Int :=
  let x := if k = -d || (k ≠ d && f.at (k - 1) < f.at (k + 1)) then f.at (k + 1)
    else f.at (k - 1) + 1
  let y := x - k
  if x < 0 || y < 0 then x else x + run a b x.toNat y.toNat

/-- Walks the diagonals from `k` on, every other one, with `d` edits. `meets` tells where the path
overlaps the other one. -/
def Front.walk (a b : Array α) (d : Nat) (meets : Int → Int → Option (Nat × Nat)) :
    (fuel : Nat) → Front → (k : Int) → Except (Nat × Nat) Front
  | 0, f, _ => .ok f
  | fuel + 1, f, k =>
    if k > d - f.skippedHigh then .ok f
    else
      let x := f.reached a b d k
      let f := f.put k x
      if x > a.size then
        walk a b d meets fuel { f with skippedHigh := f.skippedHigh + 2 } (k + 2)
      else if x - k > b.size then
        walk a b d meets fuel { f with skippedLow := f.skippedLow + 2 } (k + 2)
      else match meets k x with
        | some cut => .error cut
        | none => walk a b d meets fuel f (k + 2)

def Front.grow (f : Front) (a b : Array α) (d : Nat)
    (meets : Int → Int → Option (Nat × Nat)) : Except (Nat × Nat) Front :=
  Front.walk a b d meets (d + 1) f (f.skippedLow - d)

/-- The overlap seen from the path that starts at the front: `x` items into `a` on diagonal `k`. -/
def meetsBackward (n m : Nat) (backward : Front) (k x : Int) : Option (Nat × Nat) :=
  let other := backward.at (n - m - k)
  if other ≠ -1 && x ≥ n - other then some (x.toNat, (x - k).toNat) else none

/-- The overlap seen from the path that starts at the end. -/
def meetsForward (n m : Nat) (forward : Front) (k x : Int) : Option (Nat × Nat) :=
  let diagonal : Int := n - m - k
  let other := forward.at diagonal
  if other ≠ -1 && other ≥ n - x then some (other.toNat, (other - diagonal).toNat) else none

/-- Grows both paths for the given number of rounds. The paths can only meet in the forward step if
the lengths differ by an odd number, and in the backward step otherwise. -/
def growBoth (a b ra rb : Array α) : (rounds d : Nat) → (forward backward : Front) →
    Except (Nat × Nat) Unit
  | 0, _, _, _ => .ok ()
  | rounds + 1, d, forward, backward => do
    let odd := (a.size + b.size) % 2 = 1
    let never := fun (_ _ : Int) => none
    let forward ← forward.grow a b d (if odd then meetsBackward a.size b.size backward else never)
    let backward ← backward.grow ra rb d
      (if odd then never else meetsForward a.size b.size forward)
    growBoth a b ra rb rounds (d + 1) forward backward

/-- Where to cut both sequences, if they have anything in common. -/
def middle? (a b : List α) : Option (Nat × Nat) :=
  let rounds := (a.length + b.length + 1) / 2
  let start := Front.start rounds
  match growBoth a.toArray b.toArray a.reverse.toArray b.reverse.toArray rounds 0 start start with
  | .ok _ => none
  | .error cut => some cut

end Disguise.Diff
