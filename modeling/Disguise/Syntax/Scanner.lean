import Disguise.Syntax.Parser

/-!
Reading with a cursor. A fault is noted at the cursor and the reading goes on with whatever values
there are, so each step has to be harmless behind a fault. Here an index or a slice out of range, a
broken promise and a loop without end are results of their own.
-/
namespace Disguise.Syntax
open Bytes

/-- What stops a program at once. -/
inductive Crash where
  | badIndex
  | badSlice
  | endless
  | broken (v : Violation)
  deriving DecidableEq, Repr

/-- A place in a line, and the first error. -/
structure Cursor where
  number : Nat := 0
  line : Bytes := []
  pos : Nat := 0
  error : Option SyntaxError := none
  deriving DecidableEq, Repr

abbrev Scan := StateT Cursor (Except Crash)

namespace Scan

def crash {α : Type} (e : Crash) : Scan α := fun _ => .error e

/-- Breaks off where a promise is broken. -/
def keeping {α : Type} : Except Violation α → Scan α
  | .ok a => pure a
  | .error v => crash (.broken v)

/-- Notes a fault; an earlier one stays. -/
def fail (fault : LineFault) : Scan Unit := modify fun c =>
  { c with error := c.error.or (some (.inLine c.number c.line fault)) }

def faulty : Scan Bool := do pure (← get).error.isSome

def atEnd : Scan Bool := do
  let c ← get
  pure (c.pos = c.line.length)

def index (s : Bytes) (i : Nat) : Scan UInt8 :=
  match s[i]? with
  | some b => pure b
  | none => crash .badIndex

/-- The bytes from `i` on that are in front of `j`. -/
def slice (s : Bytes) (i j : Nat) : Scan Bytes :=
  if i ≤ j ∧ j ≤ s.length then pure ((s.take j).drop i) else crash .badSlice

/-- Goes round as long as it is wanted. What is not over after `fuel` rounds counts as endless. -/
def repeatWhile {σ : Type} (again : σ → Scan Bool) (round : σ → Scan σ) :
    (fuel : Nat) → σ → Scan σ
  | 0, _ => crash .endless
  | fuel + 1, s => do
    if ← again s then repeatWhile again round fuel (← round s) else pure s

/-- A loop over the bytes of a line: one round for each, one that meets a fault, one that stops. -/
def loop {σ : Type} (again : σ → Scan Bool) (round : σ → Scan σ) (s : σ) : Scan σ := do
  repeatWhile again round ((← get).line.length + 2) s

def advance : Scan Unit := modify fun c => { c with pos := c.pos + 1 }

/-- Whether there is a next byte, and of this kind. -/
def ahead (p : UInt8 → Bool) : Scan Bool := do
  let c ← get
  if c.pos < c.line.length then return p (← index c.line c.pos) else pure false

def skipWhile (p : UInt8 → Bool) : Scan Unit := loop (fun _ => ahead p) (fun _ => advance) ()

/-- The next byte, which stays; zero behind a fault. -/
def char : Scan UInt8 := do
  if ← faulty then pure 0
  else if ← atEnd then
    fail .endsEarly
    pure 0
  else
    let c ← get
    index c.line c.pos

/-- Takes a given byte. -/
def expect (want : UInt8) : Scan Unit := do
  if ← faulty then pure ()
  else if ← atEnd then fail (.wantByteAtEnd want)
  else
    let c ← get
    let got ← index c.line c.pos
    if got = want then
      advance
      skipWhile Reader.isSpace
    else fail (.wantByte want got)

/-- An identifier; empty behind a fault. -/
def ident : Scan Bytes := do
  if ← faulty then pure []
  else
    let start := (← get).pos
    skipWhile Reader.isIdentByte
    let c ← get
    if c.pos = start then
      fail (.noIdentifier (c.line.length - start))
      pure []
    else
      let name ← slice c.line start c.pos
      skipWhile Reader.isSpace
      pure name

/-- An integer type; of width zero behind a fault. -/
def type : Scan Int := do
  let name ← ident
  if ← faulty then pure 0
  else
    let typed := name.head? = some (byte 'i')
    match Numeral.decimal (if typed then name.drop 1 else name) with
    | .ok bits =>
      if typed && Word.goodWidth bits then pure bits
      else
        fail (.badType name)
        pure 0
    | .error _ =>
      fail (.badType name)
      pure 0

/-- Whether the place is in the line and no mark stands there. -/
def unmarked (i : Nat) : Scan Bool := do
  let line := (← get).line
  if i < line.length then return (← index line i) ≠ Quoted.mark else pure false

/-- The place behind a byte; a backslash hides another one, also where there is none. -/
def nextPlace (i : Nat) : Scan Nat := do
  return if (← index (← get).line i) = Quoted.backslash then i + 2 else i + 1

/-- A double-quoted text; empty behind a fault. -/
def quoted : Scan Bytes := do
  if ← faulty then pure []
  else if ← atEnd then
    fail .noString
    pure []
  else
    let c ← get
    let b ← index c.line c.pos
    if b ≠ Quoted.mark then
      fail .noString
      pure []
    else
      let i ← loop unmarked nextPlace (c.pos + 1)
      if c.line.length ≤ i then
        fail .openString
        pure []
      else
        match Quoted.unquote? (← slice c.line c.pos (i + 1)) with
        | none =>
          fail .badString
          pure []
        | some s =>
          modify fun c => { c with pos := i + 1 }
          skipWhile Reader.isSpace
          pure s

/-- Nothing went wrong, and the next byte is not the given one. -/
def goesOn (close : UInt8) : Scan Bool := do
  if ← faulty then pure false else return (← char) ≠ close

/-- A comma stands between two items and may stand behind the last. -/
def commaUnless (close : UInt8) : Scan Unit := do
  if (← char) ≠ close then expect (byte ',')

/-- More items up to a closing byte, which stays. -/
def listUntil {α : Type} (close : UInt8) (item : Scan α) : List α → Scan (List α) :=
  loop (fun _ => goesOn close) fun l => do
    let a ← item
    commaUnless close
    pure (l ++ [a])

/-- The line has to end here. -/
def done : Scan Unit := do
  if ← faulty then pure () else if !(← atEnd) then fail .trailing

/-- A result, unless a fault has been noted. -/
def checked {α : Type} (r : Scan α) : Scan (Except SyntaxError α) := do
  let a ← r
  match (← get).error with
  | some e => pure (.error e)
  | none => pure (.ok a)

def param : Scan (Bytes × Int) := do
  let bits ← type
  expect (byte '%')
  let name ← ident
  if name ≠ [] then
    if Reader.isDigitByte (← index name 0) then fail (.digitParam name)
  pure (name, bits)

/-- What stands behind the name of an attribute. Metadata is kept in order. -/
def tagged (a : Attributes) (name : Bytes) : Scan Attributes := do
  if name = text "annotate" then
    expect (byte '(')
    let s ← quoted
    expect (byte ')')
    pure { a with annotation := s }
  else if name = text "metadata" then
    expect (byte '(')
    let metadata ← listUntil (byte ')') quoted a.metadata
    expect (byte ')')
    pure { a with metadata }
  else
    fail (.unknownAttribute name)
    pure a

def tag (a : Attributes) : Scan Attributes := do tagged a (← ident)

def attributes : Attributes → Scan Attributes :=
  loop (fun _ => do
    if ← faulty then pure false
    else if ← atEnd then pure false
    else return (← char) ≠ openBrace) tag

/-- A header from the name of the function on. -/
def signature (external hasBody : Bool) : Scan Header := do
  let name ← ident
  expect (byte '(')
  let params ← listUntil (byte ')') param []
  expect (byte ')')
  let retBits ← type
  let a ← attributes {}
  if hasBody then expect openBrace
  done
  pure {
    name, external, params, retBits, hasBody
    annotation := a.annotation, metadata := a.metadata }

def header : Scan Header := do
  let first ← ident
  let word ← if first = text "external" then ident else pure first
  if word ≠ text "func" ∧ word ≠ text "declare" then fail (.noKeyword word)
  signature (first = text "external") (word = text "func")

/-- Puts a constant or a name behind the operands that are there; none behind a fault. A slot keeps
the name it waits for, so no slot is looked up by its number when names are resolved. -/
def operand (bits : Int) (args : List DraftArg) : Scan (List DraftArg) := do
  let b ← char
  if b = byte '%' then
    expect (byte '%')
    let name ← ident
    pure (args ++ [.named name])
  else if Reader.isDigitByte b then
    let numeral ← ident
    match Numeral.anyBase UInt64.size numeral with
    | .error fault =>
      fail (.badConst numeral fault)
      pure args
    | .ok n =>
      let v := UInt64.ofNat n
      -- a width that is no width breaks a promise here
      if v ≠ (← keeping (Word.truncate v bits)) then
        fail (.wideConst numeral bits)
        pure args
      else
        let val ← keeping (Word.truncate v bits)
        pure (args ++ [.const ⟨val, bits⟩])
  else
    fail .noOperand
    pure args

def commaUnlessEnd : Scan Unit := do
  if !(← atEnd) then expect (byte ',')

/-- More operands up to the end of the line. -/
def operands (bits : Int) : List DraftArg → Scan (List DraftArg) :=
  loop (fun _ => do if ← faulty then pure false else return !(← atEnd)) fun args => do
    let args ← operand bits args
    commaUnlessEnd
    pure args

def terminatorParts (retBits : Int) : Opcode → Scan (List DraftArg × List Bytes)
  | .ret => do
    if ← atEnd then pure ([], []) else return (← operand retBits [], [])
  | .br => do return ([], [← ident])
  | .brif => do
    let args ← operand 1 []
    expect (byte ',')
    let yes ← ident
    expect (byte ',')
    let no ← ident
    pure (args, [yes, no])
  | _ => pure ([], [])

def terminator (d : Draft) (name : Bytes) : Scan (Except SyntaxError Draft) := do
  let number := (← get).number
  match (Opcode.parse? name).filter (·.isTerminator) with
  | none => pure (.error (.unknownTerminator name number))
  | some code =>
    let parts ← checked do
      let parts ← terminatorParts d.header.retBits code
      done
      pure parts
    pure do
      let (args, targets) ← parts
      d.addOp { code, args, targets, line := number }

/-- An op with a result, behind its name. -/
def assignment (d : Draft) (result name : Bytes) : Scan (Except SyntaxError Draft) := do
  let number := (← get).number
  match (Opcode.parse? name).filter (!·.isTerminator) with
  | none => pure (.error (.unknownOpcode name number))
  | some code =>
    let parts ← checked do
      let bits ← type
      return (bits, ← operands bits [])
    pure do
      let (bits, args) ← parts
      if d.values.contains result then .error (.redefined result number)
      else d.addOp { code, bits, args, result := some result, line := number }

def value (d : Draft) : Scan (Except SyntaxError Draft) := do
  let start ← checked do
    expect (byte '%')
    let result ← ident
    expect (byte '=')
    return (result, ← ident)
  match start with
  | .error e => pure (.error e)
  | .ok (result, name) => assignment d result name

/-- Whether a label ends here. -/
def colonAhead : Scan Bool := do
  if ← faulty then pure false
  else if ← atEnd then pure false
  else return (← char) = byte ':'

/-- The end of a label; its line must not go on. -/
def label (d : Draft) (name : Bytes) : Scan (Except SyntaxError Draft) := do
  let number := (← get).number
  expect (byte ':')
  if !(← atEnd) then pure (.error (.trailingLabel number))
  else if d.labels.contains name then pure (.error (.duplicateBlock name number))
  else pure (.ok (d.addBlock name))

def bodyLine (d : Draft) : Scan (Except SyntaxError Draft) := do
  if (← char) = byte '%' then value d
  else
    let name ← ident
    if ← colonAhead then label d name
    else
      match (← get).error with
      | some e => pure (.error e)
      | none => terminator d name

end Scan
end Disguise.Syntax
