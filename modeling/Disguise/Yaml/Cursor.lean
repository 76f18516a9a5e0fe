import Disguise.Yaml.Source

/-!
A place in a text that is being read. Moving on counts lines and columns. `need` makes sure that
characters can be looked at, which fails where a text is malformed; behind its end there is nothing
but `nul`.
-/
namespace Disguise.Yaml

/-- What stands behind the end of a text. -/
def nul : Char := Char.ofNat 0

def byteOrderMark : Char := Char.ofNat 0xFEFF

def isBlank (c : Char) : Bool := c = ' ' || c = '\t'

def isBreak (c : Char) : Bool :=
  c = '\n' || c = '\r' || c.toNat = 0x85 || c.toNat = 0x2028 || c.toNat = 0x2029

def endsLine (c : Char) : Bool := isBreak c || c = nul

def endsWord (c : Char) : Bool := isBlank c || endsLine c

structure Cursor where
  /-- The characters from here on. -/
  rest : List Char
  index : Nat := 0
  line : Nat := 0
  column : Nat := 0
  /-- Nothing but blanks stands between here and a line break before. -/
  fresh : Bool := false
  /-- Characters up to this index have been needed. -/
  loaded : Nat := 0
  /-- The ends of the portions that have not been needed. -/
  ends : List Nat
  sound : Bool
  /-- A byte order mark stood here when a portion was needed last. -/
  marked : Bool := false
  /-- More than the number of steps that any reading takes. -/
  fuel : Nat

def Cursor.ofSource (s : Source) : Cursor :=
  { rest := s.chars, ends := s.ends, sound := s.sound, fuel := s.chars.length + 8 }

/-- Loads portions until characters up to an index can be looked at. -/
def Cursor.load (c : Cursor) (index : Nat) : List Nat → Option Cursor
  | [] => if c.sound then some { c with loaded := c.loaded + 1, ends := [] } else none
  | e :: ends =>
    if index ≤ e then some { c with loaded := e, ends } else { c with loaded := e }.load index ends

abbrev Scan := StateT Cursor Option

namespace Scan

/-- Fails unless the next `n` characters can be looked at. -/
def need (n : Nat) : Scan PUnit := do
  let c ← get
  if c.loaded < c.index + n then
    set (← ({ c with marked := c.rest.head? = some byteOrderMark }.load (c.index + n) c.ends))

/-- A character from here on. -/
def peek (k : Nat) : Scan Char := do pure ((← get).rest.getD k nul)

def column : Scan Nat := do pure (← get).column

def skip : Scan PUnit := modify fun c =>
  { c with
    rest := c.rest.tail, index := c.index + 1, column := c.column + 1
    fresh := c.fresh && c.rest.head?.any isBlank }

/-- Passes a line break, which may take two characters. What it stands for is a newline, except for
the two separators that stand for themselves. -/
def lineBreak : Scan (List Char) := do
  let c ← get
  let pass (n : Nat) : Scan PUnit := set
    { c with
      rest := c.rest.drop n, index := c.index + n, line := c.line + 1, column := 0, fresh := true }
  match c.rest with
  | b :: rest =>
    if b = '\r' && rest.head? = some '\n' then do pass 2; pure ['\n']
    else if isBreak b then do
      pass 1
      pure [if b.toNat = 0x2028 || b.toNat = 0x2029 then b else '\n']
    else pure []
  | [] => pure []

/-- Characters that belong to a class, up to the first that does not. -/
def while_ (p : Char → Bool) : (fuel : Nat) → (done : List Char) → Scan (List Char)
  | 0, _ => failure
  | fuel + 1, done => do
    let c ← peek 0
    if p c then
      skip
      need 1
      while_ p fuel (c :: done)
    else pure done.reverse

def takeWhile (p : Char → Bool) : Scan (List Char) := do while_ p (← get).fuel []

/-- The mark between documents that stands here, told by its character. -/
def documentMark? : Scan (Option Char) := do
  let c ← get
  match c.rest with
  | a :: b :: d :: rest =>
    if c.column = 0 && (a = '-' || a = '.') && a = b && b = d && endsWord (rest.headD nul) then
      pure (some a)
    else pure none
  | _ => pure none

/-- Passes a comment up to the end of its line. -/
def comment : Scan PUnit := do discard (takeWhile (!endsLine ·))

/-- How far comments are looked for. -/
def reach : Nat := 512

/-- The number of blanks before a comment on this line; `none` if there is no comment. -/
def commentAhead? : (fuel k : Nat) → List Char → Scan (Option Nat)
  | 0, _, _ => pure none
  | fuel + 1, k, ahead => do
    need (k + 1)
    match ahead with
    | c :: ahead =>
      if isBlank c then commentAhead? fuel (k + 1) ahead
      else pure (if c = '#' then some k else none)
    | [] => pure none

/-- Passes a comment that shares its line with what was read last. -/
def lineComment : Scan PUnit := do
  let c ← get
  if !c.fresh then
    match ← commentAhead? reach 0 c.rest with
    | some _ => do
      discard (takeWhile isBlank)
      comment
    | none => pure ()

/-- Whether nothing but blanks and line breaks stands between the line break here and the next
comment. -/
def commentBelow? : (fuel k : Nat) → List Char → Scan Bool
  | 0, _, _ => pure false
  | fuel + 1, k, ahead => do
    need (k + 1)
    match ahead with
    | c :: ahead =>
      if isBlank c || c = '\n' || c = '\r' then commentBelow? fuel (k + 1) ahead
      else if isBreak c then
        if fuel ≠ 0 then need (k + 2)
        pure false
      else pure (c = '#')
    | [] => pure false

/-- Passes blanks and line breaks. -/
def gapBelow : (fuel : Nat) → Scan PUnit
  | 0 => failure
  | fuel + 1 => do
    need 1
    let c ← peek 0
    if isBlank c then do
      skip
      gapBelow fuel
    else if isBreak c then do
      need 2
      discard lineBreak
      gapBelow fuel

/-- Passes a comment and those right below it. -/
def commentLines : (fuel : Nat) → Scan PUnit
  | 0 => failure
  | fuel + 1 => do
    comment
    let c ← get
    match c.rest with
    | b :: below =>
      if b = '\n' || b = '\r' then
        if ← commentBelow? (reach - 1) 1 below then do
          gapBelow c.fuel
          commentLines fuel
      else need 2
    | [] => need 2

/-- Passes blanks and comments up to the next token. Tabs may stand where no key can start, and a
byte order mark at the start of a line. The result tells whether a line break was passed. -/
def toToken (flow : Bool) : (fuel : Nat) → (keyAllowed : Bool) → Scan Bool
  | 0, _ => failure
  | fuel + 1, keyAllowed => do
    need 1
    let c ← get
    if c.column = 0 && c.marked then skip
    need 1
    discard (takeWhile fun b => b = ' ' || ((flow || !keyAllowed) && b = '\t'))
    if (← peek 0) = '#' then commentLines c.fuel
    if isBreak (← peek 0) then do
      need 2
      discard lineBreak
      toToken flow fuel (keyAllowed || !flow)
    else pure keyAllowed

end Scan
end Disguise.Yaml
