import Disguise.Yaml.Token

/-!
The tokens of a text, in the order in which a reader takes them. Indentation opens and closes
blocks. Whether something is a key shows only at the colon behind it, so the tokens since a place
where a key may have started are held back in a queue, and `key` is put before them if need be.
-/
namespace Disguise.Yaml

/-- A place where a key may have started. -/
structure PendingKey where
  possible : Bool := false
  /-- What stands there can be nothing but a key. -/
  required : Bool := false
  /-- The number of the first token of the key. -/
  number : Nat := 0
  index : Nat := 0
  line : Nat := 0
  column : Nat := 0

structure Tokens where
  cursor : Cursor
  queue : List Token := []
  /-- The number of tokens that were taken. -/
  taken : Nat := 0
  /-- The number of open flow collections. -/
  flow : Nat := 0
  /-- The indentation of the innermost block, and those of the blocks around it. -/
  indent : Int := -1
  indents : List Int := []
  /-- A key may start here. -/
  keyAllowed : Bool := true
  /-- One place for every open flow collection, and one for what is around them. -/
  keys : Array PendingKey := #[{}]
  /-- The positions in `keys` of places, by the numbers of their tokens. -/
  levels : List (Nat × Nat) := []

abbrev Lexer := StateT Tokens Option

namespace Lexer

def scan {α : Type} (a : Scan α) : Lexer α := fun s =>
  (a s.cursor).map fun (v, cursor) => (v, { s with cursor })

/-- The number that the next token to be queued has. -/
def nextNumber : Lexer Nat := do
  let s ← get
  pure (s.taken + s.queue.length)

def append (t : Token) : Lexer PUnit := modify fun s => { s with queue := s.queue ++ [t] }

/-- Puts a token before the one with a number; if that was taken already it goes to the end. -/
def insertAt (number : Nat) (t : Token) : Lexer PUnit := modify fun s =>
  if number < s.taken then { s with queue := s.queue ++ [t] }
  else { s with queue := s.queue.insertIdx (number - s.taken) t }

/-- The most characters that a key without a mark may have. -/
def keyLength : Nat := 1024

def allowKey (allowed : Bool) : Lexer PUnit := modify fun s => { s with keyAllowed := allowed }

def topLevel : Lexer Nat := do pure ((← get).keys.size - 1)

/-- Whether there may still be a key at a place: it ends on the line on which it starts. -/
def isLive (level : Nat) : Lexer Bool := do
  let s ← get
  let k := s.keys.getD level {}
  if !k.possible then pure false
  else if k.line < s.cursor.line || k.index + keyLength < s.cursor.index then
    if k.required then failure
    set { s with keys := s.keys.setIfInBounds level { k with possible := false } }
    pure false
  else pure true

def forget (number : Nat) : Lexer PUnit := modify fun s =>
  { s with levels := s.levels.filter (·.1 ≠ number) }

/-- There is no key at the last place. -/
def dropKey : Lexer PUnit := do
  let s ← get
  let level := s.keys.size - 1
  let k := s.keys.getD level {}
  if k.possible then do
    if k.required then failure
    set { s with keys := s.keys.setIfInBounds level { k with possible := false } }
    forget k.number

/-- A key may start here. -/
def markKey : Lexer PUnit := do
  if (← get).keyAllowed then do
    dropKey
    let number ← nextNumber
    modify fun s =>
      let level := s.keys.size - 1
      let k : PendingKey :=
        { possible := true, required := s.flow = 0 && s.indent = s.cursor.column, number
          index := s.cursor.index, line := s.cursor.line, column := s.cursor.column }
      { s with
        keys := s.keys.setIfInBounds level k
        levels := (number, level) :: s.levels.filter (·.1 ≠ number) }

/-- The most collections that may be open. -/
def maxDepth : Nat := 10000

/-- Opens a block at a column, unless one is open there. -/
def openBlock (column : Nat) (put : Lexer PUnit) : Lexer PUnit := do
  let s ← get
  if s.flow = 0 && s.indent < column then do
    if maxDepth < s.indents.length + 1 then failure
    set { s with indent := column, indents := s.indent :: s.indents }
    put

/-- Closes the blocks that are indented more than a column. -/
def closeBlocks (column : Int) : Lexer PUnit := modify fun s =>
  if s.flow ≠ 0 then s else go s s.indents
where
  go (s : Tokens) : List Int → Tokens
    | [] => s
    | outer :: indents =>
      if column < s.indent then
        go { s with queue := s.queue ++ [.blockEnd], indent := outer, indents } indents
      else s

def openFlow : Lexer PUnit := do
  let number ← nextNumber
  let s ← get
  if maxDepth < s.flow + 1 then failure
  set { s with flow := s.flow + 1, keys := s.keys.push { number } }

def closeFlow : Lexer PUnit := do
  let s ← get
  if s.flow ≠ 0 then do
    set { s with flow := s.flow - 1, keys := s.keys.pop }
    forget (s.keys.getD (s.keys.size - 1) {}).number

/-- A token that is one character. -/
def single (t : Token) : Lexer PUnit := do
  scan Scan.skip
  append t

def fetchEnd : Lexer PUnit := do
  modify fun s =>
    if s.cursor.column = 0 then s
    else { s with cursor := { s.cursor with column := 0, line := s.cursor.line + 1 } }
  closeBlocks (-1)
  dropKey
  allowKey false
  append .streamEnd

/-- A directive or a mark between documents: everything that is open ends. -/
def fetchOutermost (read : Scan Token) : Lexer PUnit := do
  closeBlocks (-1)
  dropKey
  allowKey false
  append (← scan read)

def documentMark (t : Token) : Scan Token := do
  Scan.skip
  Scan.skip
  Scan.skip
  pure t

def fetchFlowStart (t : Token) : Lexer PUnit := do
  markKey
  openFlow
  allowKey true
  single t

def fetchFlowEnd (t : Token) : Lexer PUnit := do
  dropKey
  closeFlow
  allowKey false
  single t

def fetchFlowEntry : Lexer PUnit := do
  dropKey
  allowKey true
  single .flowEntry

/-- Opens a block here for an item or a key with a mark. -/
def openBlockHere (t : Token) : Lexer PUnit := do
  let s ← get
  if s.flow = 0 && !s.keyAllowed then failure
  openBlock s.cursor.column (append t)

def fetchBlockEntry : Lexer PUnit := do
  openBlockHere .blockSequence
  dropKey
  allowKey true
  single .blockEntry

def fetchKey : Lexer PUnit := do
  openBlockHere .blockMapping
  dropKey
  allowKey ((← get).flow = 0)
  single .key

def fetchValue : Lexer PUnit := do
  let level ← topLevel
  if ← isLive level then do
    let k := (← get).keys.getD level {}
    insertAt k.number .key
    openBlock k.column (insertAt k.number .blockMapping)
    modify fun s => { s with keys := s.keys.setIfInBounds level { k with possible := false } }
    forget k.number
    allowKey false
  else do
    openBlockHere .blockMapping
    allowKey ((← get).flow = 0)
  single .value

/-- A token that may be a key. -/
def fetchWord (read : Scan Token) : Lexer PUnit := do
  markKey
  allowKey false
  append (← scan read)

def fetchBlockScalar (literal : Bool) : Lexer PUnit := do
  dropKey
  allowKey true
  let s ← scan (Scan.block literal (← get).indent)
  append (.scalar (encode s) false)

def fetchPlain : Lexer PUnit := do
  markKey
  allowKey false
  let s ← get
  let (content, broken) ← scan (Scan.plain (s.flow ≠ 0) (s.indent + 1).toNat)
  if broken then allowKey true
  append (.scalar (encode content) true)

/-- Characters that start a token of their own. -/
def indicators : List Char :=
  ['-', '?', ':', ',', '[', ']', Char.ofNat 0x7B, Char.ofNat 0x7D, '#', '&', '*', '!', '|', '>',
    '\'', '"', '%', '@', Char.ofNat 0x60]

/-- Whether a plain scalar starts with a character. -/
def startsPlain (flow : Bool) (c next : Char) : Bool :=
  (!endsWord c && !indicators.contains c) || (c = '-' && !isBlank next) ||
    (!flow && (c = '?' || c = ':') && !endsWord next)

/-- A token that starts with a character. -/
def fetchAt (flow : Bool) (c next : Char) : Lexer PUnit :=
  if c = '[' then fetchFlowStart .flowSequence
  else if c.toNat = 0x7B then fetchFlowStart .flowMapping
  else if c = ']' then fetchFlowEnd .flowSequenceEnd
  else if c.toNat = 0x7D then fetchFlowEnd .flowMappingEnd
  else if c = ',' then fetchFlowEntry
  else if c = '-' && endsWord next then fetchBlockEntry
  else if c = '?' && (flow || endsWord next) then fetchKey
  else if c = ':' && (flow || endsWord next) then fetchValue
  else if c = '*' then fetchWord do pure (.alias (← Scan.anchorName))
  else if c = '&' then fetchWord do pure (.anchor (← Scan.anchorName))
  else if c = '!' then fetchWord Scan.tag
  else if c = '|' && !flow then fetchBlockScalar true
  else if c = '>' && !flow then fetchBlockScalar false
  else if c = '\'' || c = '"' then fetchWord do pure (.scalar (encode (← Scan.quoted c)) false)
  else if startsPlain flow c next then fetchPlain
  else failure

/-- Queues the next token, and with it those that open and close blocks. -/
def fetch : Lexer PUnit := do
  scan (Scan.need 1)
  let s ← get
  let flow : Bool := s.flow ≠ 0
  allowKey (← scan (Scan.toToken flow s.cursor.fuel s.keyAllowed))
  closeBlocks (← scan Scan.column)
  scan (Scan.need 4)
  let c ← scan (Scan.peek 0)
  let mark ← scan Scan.documentMark?
  if c = nul then fetchEnd
  else if c = '%' && (← scan Scan.column) = 0 then fetchOutermost Scan.directive
  else if mark = some '-' then fetchOutermost (documentMark .documentStart)
  else if mark = some '.' then fetchOutermost (documentMark .documentEnd)
  else do
    fetchAt flow c (← scan (Scan.peek 1))
    if (← get).queue.getLast? ≠ some .blockEntry then scan Scan.lineComment

/-- The number of tokens that are looked at together. -/
def lookAhead : Nat := 3

/-- Queues tokens until it is known what the first one is. -/
def fill : (fuel : Nat) → Lexer PUnit
  | 0 => failure
  | fuel + 1 => do
    let s ← get
    let more ← if s.queue.length < lookAhead then pure true
      else match s.levels.lookup s.taken with
        | some level => isLive level
        | none => pure false
    if more then do
      fetch
      fill fuel

/-- The next token. -/
def peek : Lexer Token := do
  fill (2 * (← get).cursor.fuel)
  match (← get).queue with
  | t :: _ => pure t
  | [] => failure

def advance : Lexer PUnit := modify fun s =>
  { s with
    queue := s.queue.tail, taken := s.taken + 1
    levels := s.levels.filter (s.taken < ·.1) }

end Lexer
end Disguise.Yaml
