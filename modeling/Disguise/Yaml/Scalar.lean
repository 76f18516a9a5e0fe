import Disguise.Yaml.Cursor

/-!
The three ways to write a scalar: plain, between quotes, or as a block of indented lines. Line
breaks within a scalar are folded: one of them is a space, and of more the first is left out.
-/
namespace Disguise.Yaml.Scan

/-- Blanks and line breaks between two words of a scalar. -/
structure Gap where
  /-- The blanks, in reverse. -/
  blanks : List Char := []
  /-- What the first line break stands for. -/
  first : List Char := []
  /-- What the others stand for, in reverse. -/
  others : List Char := []
  /-- There is a line break. -/
  broken : Bool := false

/-- What a gap stands for. -/
def Gap.folded (g : Gap) : List Char :=
  if !g.broken then g.blanks.reverse
  else if g.first = ['\n'] then if g.others.isEmpty then [' '] else g.others.reverse
  else g.first ++ g.others.reverse

/-- Passes a gap. Behind a line break no tab may stand in the first `least` columns. -/
def gap (least : Nat) : (fuel : Nat) → Gap → Scan Gap
  | 0, _ => failure
  | fuel + 1, g => do
    let c ← peek 0
    if isBlank c then
      if g.broken && c = '\t' && (← column) < least then failure
      skip
      need 1
      gap least fuel (if g.broken then g else { g with blanks := c :: g.blanks })
    else if isBreak c then
      need 2
      let b ← lineBreak
      need 1
      gap least fuel <|
        if g.broken then { g with others := b.reverse ++ g.others }
        else { first := b, broken := true }
    else pure g

/-- Whether a plain scalar ends before a character. -/
def endsPlain (flow : Bool) (c next : Char) : Bool :=
  (c = ':' && endsWord next) ||
    (flow && (c = ',' || c = '?' || c = '[' || c = ']' || c.toNat = 0x7B || c.toNat = 0x7D))

/-- One word of a plain scalar. The gap before it counts only if there is a word. -/
def plainWord (flow : Bool) : (fuel : Nat) → (done : List Char) → Gap → Scan (List Char × Gap)
  | 0, _, _ => failure
  | fuel + 1, done, g => do
    let c ← peek 0
    if endsWord c || endsPlain flow c (← peek 1) then pure (done, g)
    else do
      skip
      need 2
      plainWord flow fuel (c :: (g.folded.reverse ++ done)) {}

def plainWords (flow : Bool) (least : Nat) : (fuel : Nat) → (done : List Char) → Gap →
    Scan (List Char × Gap)
  | 0, _, _ => failure
  | fuel + 1, done, g => do
    need 4
    if (← documentMark?).isSome || (← peek 0) = '#' then pure (done, g)
    else do
      let all := (← get).fuel
      let (done, g) ← plainWord flow all done g
      let c ← peek 0
      if !isBlank c && !isBreak c then pure (done, g)
      else do
        need 1
        let g ← gap least all g
        if !flow && (← column) < least then pure (done, g) else plainWords flow least fuel done g

/-- A plain scalar whose lines are indented by at least `least`, and whether line breaks follow
it. -/
def plain (flow : Bool) (least : Nat) : Scan (List Char × Bool) := do
  let (done, g) ← plainWords flow least (← get).fuel [] {}
  pure (done.reverse, g.broken)

/-- Escapes of one letter and what they stand for. -/
def escapes : List (Char × Nat) :=
  [('0', 0), ('a', 7), ('b', 8), ('t', 9), ('\t', 9), ('n', 10), ('v', 11), ('f', 12), ('r', 13),
    ('e', 27), (' ', 32), ('"', 34), ('\'', 39), ('\\', 92), ('N', 0x85), ('_', 0xA0),
    ('L', 0x2028), ('P', 0x2029)]

/-- The number of digits behind the escapes that have some. -/
def digitsOf? (c : Char) : Option Nat :=
  if c = 'x' then some 2 else if c = 'u' then some 4 else if c = 'U' then some 8 else none

def hexDigit? (c : Char) : Option Nat :=
  if '0' ≤ c && c ≤ '9' then some (c.toNat - 48)
  else if 'a' ≤ c && c ≤ 'f' then some (c.toNat - 87)
  else if 'A' ≤ c && c ≤ 'F' then some (c.toNat - 55)
  else none

def hexDigits : (n : Nat) → (value : Nat) → Scan Nat
  | 0, value => pure value
  | n + 1, value => do
    match hexDigit? (← peek 0) with
    | some d =>
      skip
      hexDigits n (value * 16 + d)
    | none => failure

/-- What an escape stands for; the backslash is here. -/
def escape : Scan Char := do
  let e ← peek 1
  skip
  skip
  match digitsOf? e with
  | some n =>
    need n
    let c ← hexDigits n 0
    if Utf8.isScalar c then pure (Char.ofNat c) else failure
  | none =>
    match escapes.lookup e with
    | some c => pure (Char.ofNat c)
    | none => failure

/-- One word of a quoted scalar, and whether an escaped line break ends it. -/
def quotedWord (mark : Char) : (fuel : Nat) → (done : List Char) → Scan (List Char × Bool)
  | 0, _ => failure
  | fuel + 1, done => do
    let c ← peek 0
    if endsWord c then pure (done, false)
    else if c = mark then
      if mark = '\'' && (← peek 1) = mark then do
        skip
        skip
        need 2
        quotedWord mark fuel (mark :: done)
      else pure (done, false)
    else if mark = '"' && c = '\\' then
      if isBreak (← peek 1) then do
        need 3
        skip
        discard lineBreak
        pure (done, true)
      else do
        let c ← escape
        need 2
        quotedWord mark fuel (c :: done)
    else do
      skip
      need 2
      quotedWord mark fuel (c :: done)

def quotedWords (mark : Char) : (fuel : Nat) → (done : List Char) → Scan (List Char)
  | 0, _ => failure
  | fuel + 1, done => do
    need 4
    if (← documentMark?).isSome || (← peek 0) = nul then failure
    let all := (← get).fuel
    let (done, broken) ← quotedWord mark all done
    need 1
    if (← peek 0) = mark then pure done
    else do
      let g ← gap 0 all { broken }
      quotedWords mark fuel (g.folded.reverse ++ done)

/-- A quoted scalar; its opening mark is here. -/
def quoted (mark : Char) : Scan (List Char) := do
  skip
  let done ← quotedWords mark (← get).fuel []
  skip
  pure done.reverse

/-- What happens to the line breaks at the end of a block. -/
inductive Chomping where
  | strip
  | clip
  | keep
  deriving DecidableEq, Repr

def chomping? : Scan (Option Chomping) := do
  let c ← peek 0
  if c = '+' || c = '-' then do
    skip
    need 1
    pure (some (if c = '+' then .keep else .strip))
  else pure none

/-- The indentation that a header gives; zero if it gives none. -/
def increment : Scan Nat := do
  let c ← peek 0
  if c = '0' then failure
  if '1' ≤ c && c ≤ '9' then do
    skip
    need 1
    pure (c.toNat - 48)
  else pure 0

/-- The marks behind the first one, in either order, and the rest of their line. -/
def blockHeader : Scan (Chomping × Nat) := do
  need 1
  let early ← chomping?
  let size ← increment
  let late ← if early.isNone && size ≠ 0 then chomping? else pure none
  discard (takeWhile isBlank)
  if (← peek 0) = '#' then comment
  let c ← peek 0
  if !endsLine c then failure
  if isBreak c then do
    need 2
    discard lineBreak
  pure ((early.or late).getD .clip, size)

/-- Passes indentation and empty lines. An indentation of zero is one that is not known yet; the
result has the line breaks in reverse and the widest column that was met. -/
def blockBreaks (indent : Nat) : (fuel : Nat) → (breaks : List Char) → (widest : Nat) →
    Scan (List Char × Nat)
  | 0, _, _ => failure
  | fuel + 1, breaks, widest => do
    need 1
    indentation indent (← get).fuel
    let col ← column
    let c ← peek 0
    if (indent = 0 || col < indent) && c = '\t' then failure
    if isBreak c then do
      need 2
      let b ← lineBreak
      blockBreaks indent fuel (b.reverse ++ breaks) (max widest col)
    else pure (breaks, max widest col)
where
  indentation (indent : Nat) : (fuel : Nat) → Scan PUnit
    | 0 => failure
    | fuel + 1 => do
      if (indent = 0 || (← column) < indent) && (← peek 0) = ' ' then do
        skip
        need 1
        indentation indent fuel

/-- The part of a block that was read last: the line break behind its last line, the ones of empty
lines below it in reverse, and whether that line starts with a blank. -/
structure BlockEnd where
  last : List Char := []
  below : List Char
  blank : Bool := false

/-- What stands for the line breaks between two lines of a block. -/
def BlockEnd.between (e : BlockEnd) (literal blank : Bool) : List Char :=
  if !literal && e.last = ['\n'] && !e.blank && !blank then
    if e.below.isEmpty then [' '] else e.below.reverse
  else e.last ++ e.below.reverse

def blockLines (literal : Bool) (indent : Nat) : (fuel : Nat) → (done : List Char) → BlockEnd →
    Scan (List Char × BlockEnd)
  | 0, _, _ => failure
  | fuel + 1, done, e => do
    let c ← peek 0
    if (← column) ≠ indent || c = nul then pure (done, e)
    else do
      let done := (e.between literal (isBlank c)).reverse ++ done
      let line ← takeWhile (!endsLine ·)
      need 2
      let last ← lineBreak
      let (below, _) ← blockBreaks indent (← get).fuel [] 0
      blockLines literal indent fuel (line.reverse ++ done) { last, below, blank := isBlank c }

/-- A block scalar; its first mark is here. Its lines are indented more than `indent`. -/
def block (literal : Bool) (indent : Int) : Scan (List Char) := do
  skip
  let (chomping, size) ← blockHeader
  let fuel := (← get).fuel
  let given := if size = 0 then 0 else size + indent.toNat
  let (below, widest) ← blockBreaks given fuel [] 0
  let indent := if given = 0 then max (max widest (indent + 1).toNat) 1 else given
  need 1
  let (done, e) ← blockLines literal indent fuel [] { below }
  pure <| done.reverse ++ match chomping with
    | .strip => []
    | .clip => e.last
    | .keep => e.last ++ e.below.reverse

end Disguise.Yaml.Scan
