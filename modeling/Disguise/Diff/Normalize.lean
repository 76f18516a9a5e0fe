import Disguise.Diff.Basic

/-!
Edit scripts in normal form. `normalize` joins neighbouring segments and slides single edits over
equal neighbours, and changes neither of the two sequences that a script reads as.
-/
namespace Disguise.Diff

variable {α : Type}

def equal (items : List α) : Segment α := ⟨.equal, items⟩
def delete (items : List α) : Segment α := ⟨.delete, items⟩
def insert (items : List α) : Segment α := ⟨.insert, items⟩

variable [DecidableEq α]

/-- Length of the longest common start. -/
def commonPrefix : List α → List α → Nat
  | a :: as, b :: bs => if a = b then commonPrefix as bs + 1 else 0
  | _, _ => 0

/-- Length of the longest common end. -/
def commonSuffix (a b : List α) : Nat := commonPrefix a.reverse b.reverse

/-- The edits met since the last equal segment. -/
structure Pending (α : Type) where
  deletes : Nat := 0
  inserts : Nat := 0
  deleted : List α := []
  inserted : List α := []

/-- Appends to the last finished segment, which is equal, or starts an equal segment. The finished
segments are in reverse. -/
def keep (done : List (Segment α)) (items : List α) : List (Segment α) :=
  match done with
  | ⟨.equal, old⟩ :: rest => equal (old ++ items) :: rest
  | _ => equal items :: done

/-- Finishes pending edits before an equal segment: what removed and inserted items have in common
at their ends goes into the neighbouring equal segments. -/
def flush (done : List (Segment α)) (p : Pending α) (next : List α) : List (Segment α) :=
  if p.deletes + p.inserts ≤ 1 then
    if p.deletes = 1 then equal next :: delete p.deleted :: done
    else if p.inserts = 1 then equal next :: insert p.inserted :: done
    else keep done next
  else if p.deletes = 0 then equal next :: insert p.inserted :: done
  else if p.inserts = 0 then equal next :: delete p.deleted :: done
  else
    let n := commonPrefix p.inserted p.deleted
    let done := if n = 0 then done else keep done (p.inserted.take n)
    let ins := p.inserted.drop n
    let del := p.deleted.drop n
    let k := commonSuffix ins del
    equal (ins.drop (ins.length - k) ++ next) :: insert (ins.take (ins.length - k)) ::
      delete (del.take (del.length - k)) :: done

/-- Joins edits between equal segments into one removal and one insertion. -/
def join (done : List (Segment α)) (p : Pending α) : List (Segment α) → List (Segment α)
  | [] => (flush done p []).reverse
  | ⟨.insert, items⟩ :: rest =>
    join done { p with inserts := p.inserts + 1, inserted := p.inserted ++ items } rest
  | ⟨.delete, items⟩ :: rest =>
    join done { p with deletes := p.deletes + 1, deleted := p.deleted ++ items } rest
  | ⟨.equal, items⟩ :: rest => join (flush done p items) {} rest

def dropEmptyEnd (script : List (Segment α)) : List (Segment α) :=
  match script.getLast? with
  | some s => if s.items.isEmpty then script.dropLast else script
  | none => script

/-- Slides a single edit between two equal segments over one of them, if that is a part of the
edit. Gives the two segments that take the place of the three. -/
def slide? (prev cur next : Segment α) : Option (Segment α × Segment α) :=
  if prev.kind ≠ .equal || next.kind ≠ .equal then none
  else if prev.items.isSuffixOf cur.items then
    let kept := cur.items.take (cur.items.length - prev.items.length)
    some (⟨cur.kind, prev.items ++ kept⟩, equal (prev.items ++ next.items))
  else if next.items.isPrefixOf cur.items then
    some (equal (prev.items ++ next.items),
      ⟨cur.kind, cur.items.drop next.items.length ++ next.items⟩)
  else none

/-- One sweep of slides from left to right; `done` is in reverse. Tells whether anything moved. -/
def sweep (done : List (Segment α)) (moved : Bool) : List (Segment α) → List (Segment α) × Bool
  | prev :: cur :: next :: rest =>
    match slide? prev cur next with
    | some (a, b) => sweep (a :: done) true (b :: rest)
    | none => sweep (prev :: done) moved (cur :: next :: rest)
  | rest => (done.reverse ++ rest, moved)
termination_by script => script.length

/-- Joins and sweeps until nothing moves. -/
def normalizeFor : (fuel : Nat) → List (Segment α) → List (Segment α)
  | 0, script => script
  | fuel + 1, script =>
    let (script, moved) := sweep [] false (dropEmptyEnd (join [] {} script))
    if moved then normalizeFor fuel script else script

/-- Every round that moves something makes the script shorter or shifts an edit, so the square of
its size bounds the rounds. -/
def normalize (script : List (Segment α)) : List (Segment α) :=
  let size := script.length + (script.flatMap (·.items)).length + 2
  normalizeFor (size * size) script

end Disguise.Diff
