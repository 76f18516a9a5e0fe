import Disguise.Syntax.Error

/-!
Reading within a line. The state is what is left of the line; every reader also skips the blanks
behind what it takes.
-/
namespace Disguise.Syntax
open Bytes

abbrev Reader := StateT Bytes (Except LineFault)

namespace Reader

def fail {α : Type} (fault : LineFault) : Reader α := fun _ => .error fault

def isSpace (b : UInt8) : Bool := b = 32 || b = 9

def skipBlanks : Reader Unit := modify (·.dropWhile isSpace)

def atEnd : Reader Bool := do pure (← get).isEmpty

/-- The next byte, which stays. -/
def peek : Reader UInt8 := do
  match ← get with
  | [] => fail .endsEarly
  | b :: _ => pure b

/-- Takes a given byte. -/
def expect (want : UInt8) : Reader Unit := do
  match ← get with
  | [] => fail (.wantByteAtEnd want)
  | b :: rest =>
    if b = want then do
      set rest
      skipBlanks
    else fail (.wantByte want b)

def isIdentByte (b : UInt8) : Bool :=
  (byte 'a' ≤ b && b ≤ byte 'z') || (byte 'A' ≤ b && b ≤ byte 'Z') ||
    (byte '0' ≤ b && b ≤ byte '9') || b = byte '_' || b = byte '.' || b = byte '$'

def isDigitByte (b : UInt8) : Bool := byte '0' ≤ b && b ≤ byte '9'

/-- A nonempty run of letters, digits, underscores, dots and dollar signs. -/
def ident : Reader Bytes := do
  let s ← get
  let (name, rest) := s.span isIdentByte
  if name.isEmpty then fail (.noIdentifier s.length)
  else do
    set rest
    skipBlanks
    pure name

/-- An integer type such as `i8`, of width one to sixty-four. -/
def type : Reader Int := do
  let name ← ident
  match name with
  | i :: ds =>
    match Numeral.decimal ds with
    | .ok bits => if i = byte 'i' && Word.goodWidth bits then pure bits else fail (.badType name)
    | .error _ => fail (.badType name)
  | [] => fail (.badType name)

/-- Splits behind the mark that closes a quoted text; a backslash hides the byte behind it. -/
def closing (taken : Bytes) : Bytes → Option (Bytes × Bytes)
  | [] => none
  | b :: rest =>
    if b = Quoted.mark then some ((b :: taken).reverse, rest)
    else if b = Quoted.backslash then
      match rest with
      | [] => none
      | c :: rest => closing (c :: b :: taken) rest
    else closing (b :: taken) rest

/-- A double-quoted text. -/
def quoted : Reader Bytes := do
  match ← get with
  | [] => fail .noString
  | b :: rest =>
    if b ≠ Quoted.mark then fail .noString
    else match closing [] rest with
      | none => fail .openString
      | some (body, rest) =>
        match Quoted.unquote? (b :: body) with
        | none => fail .badString
        | some s => do
          set rest
          skipBlanks
          pure s

/-- Items up to a closing byte, which stays; a comma stands between two items and may stand behind
the last. Every item takes at least a byte, so the length of the line bounds their number. -/
def listUntil {α : Type} (close : UInt8) (item : Reader α) : Nat → Reader (List α)
  | 0 => pure []
  | fuel + 1 => do
    if (← peek) = close then pure []
    else
      let a ← item
      if (← peek) ≠ close then expect (byte ',')
      let rest ← listUntil close item fuel
      pure (a :: rest)

/-- Items up to the end of the line, with commas as in `listUntil`. -/
def listToEnd {α : Type} (item : Reader α) : Nat → Reader (List α)
  | 0 => pure []
  | fuel + 1 => do
    if ← atEnd then pure []
    else
      let a ← item
      if !(← atEnd) then expect (byte ',')
      let rest ← listToEnd item fuel
      pure (a :: rest)

/-- The line has to end here. -/
def done : Reader Unit := do
  if !(← atEnd) then fail .trailing

end Reader
end Disguise.Syntax
