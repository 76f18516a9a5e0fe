import Disguise.Yaml.Scalar

/-!
Tokens, and the reading of those that are no scalars but have a text of their own: anchors, aliases,
tags and directives.
-/
namespace Disguise.Yaml

inductive Token where
  | streamEnd
  | version (major minor : Nat)
  /-- From here on a tag with the handle stands for one with the stem. -/
  | shorthand (handle stem : Bytes)
  | documentStart
  | documentEnd
  | blockSequence
  | blockMapping
  | blockEnd
  | flowSequence
  | flowSequenceEnd
  | flowMapping
  | flowMappingEnd
  | blockEntry
  | flowEntry
  | key
  | value
  | alias (name : Bytes)
  | anchor (name : Bytes)
  | tag (handle suffix : Bytes)
  | scalar (text : Bytes) (plain : Bool)
  deriving DecidableEq, Repr

/-- The UTF-8 bytes of characters. -/
def encode (cs : List Char) : Bytes := cs.flatMap fun c => Utf8.encode c.toNat

namespace Scan

def isWordChar (c : Char) : Bool := c.isAlphanum || c = '_' || c = '-'

/-- The name behind an anchor or alias mark, which is here. -/
def anchorName : Scan Bytes := do
  skip
  need 1
  let name ← takeWhile isWordChar
  let c ← peek 0
  let follows := endsWord c || c = '?' || c = ':' || c = ',' || c = ']' || c.toNat = 0x7D ||
    c = '%' || c = '@' || c.toNat = 0x60
  if name.isEmpty || !follows then failure
  pure (encode name)

def isUriChar (c : Char) : Bool :=
  isWordChar c || c = ';' || c = '/' || c = '?' || c = ':' || c = '@' || c = '&' || c = '=' ||
    c = '+' || c = '$' || c = ',' || c = '.' || c = '!' || c = '~' || c = '*' || c = '\'' ||
    c = '(' || c = ')' || c = '[' || c = ']' || c = '%'

/-- A byte written as a percent sign and two digits, which is here. -/
def uriByte : Scan UInt8 := do
  need 3
  if (← peek 0) ≠ '%' then failure
  skip
  pure (← hexDigits 2 0).toUInt8

def uriBytes : (n : Nat) → Scan Bytes
  | 0 => pure []
  | n + 1 => do
    let b ← uriByte
    if b &&& 0xC0 ≠ 0x80 then failure
    pure (b :: (← uriBytes n))

/-- The bytes of one escaped character. -/
def uriEscape : Scan Bytes := do
  let b ← uriByte
  match announced? b with
  | some width => pure (b :: (← uriBytes (width - 1)))
  | none => failure

/-- The text of a tag; what has been read is kept in reverse. -/
def uri : (fuel : Nat) → (done : Bytes) → Scan Bytes
  | 0, _ => failure
  | fuel + 1, done => do
    let c ← peek 0
    if !isUriChar c then pure done.reverse
    else if c = '%' then do
      let bs ← uriEscape
      need 1
      uri fuel (bs.reverse ++ done)
    else do
      skip
      need 1
      uri fuel ((encode [c]).reverse ++ done)

/-- The text of a tag that starts with a head. Without a head it may not be empty. -/
def tagText (head : Option Bytes) : Scan Bytes := do
  need 1
  let found ← uri (← get).fuel []
  if head.isNone && found.isEmpty then failure
  pure (head.getD [] ++ found)

/-- Letters between exclamation marks; the second mark may be missing. -/
def handle : Scan (List Char × Bool) := do
  need 1
  if (← peek 0) ≠ '!' then failure
  skip
  need 1
  let name ← takeWhile isWordChar
  if (← peek 0) = '!' then do
    skip
    pure (name, true)
  else pure (name, false)

def exclamation : Bytes := text "!"

/-- A tag, which starts here. -/
def tag : Scan Token := do
  need 2
  let token ← if (← peek 1) = '<' then do
      skip
      skip
      let suffix ← tagText none
      if (← peek 0) ≠ '>' then failure
      skip
      pure (Token.tag [] suffix)
    else do
      let (name, closed) ← handle
      if closed then
        pure (.tag (exclamation ++ encode name ++ exclamation) (← tagText none))
      else do
        let suffix ← tagText (some (encode name))
        pure (if suffix.isEmpty then .tag [] exclamation else .tag exclamation suffix)
  need 1
  if !endsWord (← peek 0) then failure
  pure token

/-- A number of one or two digits. -/
def versionNumber : Scan Nat := do
  need 1
  let ds ← takeWhile Char.isDigit
  if ds.isEmpty || 2 < ds.length then failure
  pure (ds.foldl (fun n d => n * 10 + (d.toNat - 48)) 0)

def version : Scan Token := do
  need 1
  discard (takeWhile isBlank)
  let major ← versionNumber
  if (← peek 0) ≠ '.' then failure
  skip
  pure (.version major (← versionNumber))

def shorthand : Scan Token := do
  need 1
  discard (takeWhile isBlank)
  let (name, closed) ← handle
  if !closed && !name.isEmpty then failure
  need 1
  if !isBlank (← peek 0) then failure
  discard (takeWhile isBlank)
  let stem ← tagText none
  need 1
  if !endsWord (← peek 0) then failure
  let handle := if closed then exclamation ++ encode name ++ exclamation else exclamation
  pure (.shorthand handle stem)

/-- A directive with the rest of its line; its mark is here. -/
def directive : Scan Token := do
  skip
  need 1
  let name ← takeWhile isWordChar
  if name.isEmpty || !endsWord (← peek 0) then failure
  let token ← if name = "YAML".toList then version
    else if name = "TAG".toList then shorthand
    else failure
  need 1
  discard (takeWhile isBlank)
  if (← peek 0) = '#' then comment
  let c ← peek 0
  if !endsLine c then failure
  if isBreak c then do
    need 2
    discard lineBreak
  pure token

end Scan
end Disguise.Yaml
