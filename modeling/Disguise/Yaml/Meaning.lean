import Disguise.Text.Base64
import Disguise.Text.Numeral
import Disguise.Yaml.Date
import Disguise.Yaml.Node

/-!
What scalars stand for. A plain scalar is told by its spelling, and a quoted one is a text. A tag
may ask for a meaning, which the spelling then has to allow.
-/
namespace Disguise.Yaml
open Bytes

inductive Meaning where
  | null
  | bool (b : Bool)
  | int (n : Int)
  /-- A whole number that fits an unsigned word only. -/
  | unsigned (n : Nat)
  | float (x : Float)
  | date
  | text (s : Bytes)

inductive Kind where
  | null
  | bool
  | int
  | float
  | date
  | text
  deriving DecidableEq, Repr

def Meaning.kind : Meaning → Kind
  | null => .null
  | bool _ => .bool
  | int _ | unsigned _ => .int
  | float _ => .float
  | date => .date
  | text _ => .text

def spelled (words : List String) (s : Bytes) : Bool := words.any fun w => Disguise.text w == s

def isDigit (b : UInt8) : Bool := byte '0' ≤ b && b ≤ byte '9'

/-- The digits of a number before the point, behind it, and its exponent. -/
structure Parts where
  whole : Bytes
  fraction : Bytes
  exponent : Int

/-- The digits of an exponent; it stops growing once it is larger than any that matters. -/
def exponentSize (ds : Bytes) : Nat :=
  ds.foldl (fun n d => if n < 10000 then n * 10 + (d.toNat - 48) else n) 0

/-- The exponent at the end of a number; zero if there is none. -/
def exponent? : Bytes → Option Int
  | [] => some 0
  | e :: s =>
    if e = byte 'e' || e = byte 'E' then
      let (negative, ds) := Numeral.sign s
      if ds.isEmpty || !ds.all isDigit then none
      else some (if negative then -(exponentSize ds : Int) else exponentSize ds)
    else none

def parts? (s : Bytes) : Option Parts :=
  let whole := s.takeWhile isDigit
  match s.dropWhile isDigit with
  | b :: rest =>
    if b = byte '.' then
      let fraction := rest.takeWhile isDigit
      if whole.isEmpty && fraction.isEmpty then none
      else (exponent? (rest.dropWhile isDigit)).map fun e => ⟨whole, fraction, e⟩
    else if whole.isEmpty then none
    else (exponent? (b :: rest)).map fun e => ⟨whole, [], e⟩
  | [] => if whole.isEmpty then none else some ⟨whole, [], 0⟩

/-- More digits than it takes to tell two doubles apart. -/
def maxDigits : Nat := 800

/-- The double nearest to a decimal number; `none` if it is too large for one. Of the digits behind
the first `maxDigits` it matters only whether they are all zero. -/
def Parts.float? (p : Parts) : Option Float :=
  let all := p.whole ++ p.fraction
  let ds := all.dropWhile (· = byte '0')
  let point := (p.whole.length : Int) - (all.length - ds.length) + p.exponent
  let tail := if (ds.drop maxDigits).all (· = byte '0') then byte '0' else byte '1'
  let kept := if maxDigits < ds.length then ds.take maxDigits ++ [tail] else ds
  if ds.isEmpty || point < -400 then some 0
  else if 400 < point then none
  else
    let mantissa := kept.foldl (fun n d => n * 10 + (d.toNat - 48)) 0
    let exponent := point - kept.length
    let x := Float.ofScientific mantissa (exponent < 0) exponent.natAbs
    if x.isInf then none else some x

def float? (s : Bytes) : Option Float := do
  let (negative, ds) := Numeral.sign s
  let x ← (← parts? ds).float?
  pure (if negative then -x else x)

/-- Every underscore stands between two digits. -/
def separated : (digitBefore : Bool) → Bytes → Bool
  | _, [] => true
  | digitBefore, b :: s =>
    if b = Numeral.underscore then digitBefore && s.head?.any isDigit && separated false s
    else separated (isDigit b) s

def withoutSeparators (s : Bytes) : Bytes := s.filter (· ≠ Numeral.underscore)

/-- A number in a base that a mark tells, with its sign behind the mark. -/
def marked? (mark : String) (base : Nat) (s : Bytes) : Option Meaning :=
  match stripPrefix? (Disguise.text mark) s, stripPrefix? (Disguise.text ("-" ++ mark)) s with
  | some ds, _ =>
    match Numeral.signed (Numeral.natural base) ds, Numeral.natural base UInt64.size ds with
    | .ok n, _ => some (.int n)
    | .error _, .ok n => some (.unsigned n)
    | .error _, .error _ => none
  | none, some ds =>
    (Numeral.signed (Numeral.natural base) (byte '-' :: ds)).toOption.map .int
  | none, none => none

/-- The meaning of a text that starts like a number. Underscores in it do not count. -/
def numberOf? (s : Bytes) : Option Meaning :=
  let ds := withoutSeparators s
  match Numeral.integer ds, Numeral.anyBase UInt64.size ds with
  | .ok n, _ => some (.int n)
  | .error _, .ok n => some (.unsigned n)
  | .error _, .error _ =>
    ((float? ds).map .float).or ((marked? "0b" 2 ds).or (marked? "0o" 8 ds))

/-- The meanings that stand in a list. -/
def word? (s : Bytes) : Option Meaning :=
  if spelled ["", "~", "null", "Null", "NULL"] s then some .null
  else if spelled ["true", "True", "TRUE"] s then some (.bool true)
  else if spelled ["false", "False", "FALSE"] s then some (.bool false)
  else if spelled [".inf", ".Inf", ".INF", "+.inf", "+.Inf", "+.INF"] s then
    some (.float (1.0 / 0.0))
  else if spelled ["-.inf", "-.Inf", "-.INF"] s then some (.float (-1.0 / 0.0))
  else if spelled [".nan", ".NaN", ".NAN"] s then some (.float (0.0 / 0.0))
  else none

/-- What a spelling stands for, where dates may be among the meanings. -/
def spelling (dates : Bool) (s : Bytes) : Meaning :=
  match word? s with
  | some m => m
  | none =>
    let b := s.headD 0
    if isDigit b || b = byte '+' || b = byte '-' then
      if dates && Date.isDate s then .date else (numberOf? s).getD (.text s)
    else if b = byte '.' && separated false s then
      ((float? (withoutSeparators s)).map Meaning.float).getD (.text s)
    else .text s

/-- The kinds that a tag may ask for. -/
def kind? (tag : Bytes) : Option Kind :=
  if tag = Disguise.text "!!null" then some .null
  else if tag = Disguise.text "!!bool" then some .bool
  else if tag = Disguise.text "!!int" then some .int
  else if tag = Disguise.text "!!float" then some .float
  else if tag = Disguise.text "!!timestamp" then some .date
  else none

/-- A meaning as one of a kind: a whole number is a float too. -/
def Meaning.as? (k : Kind) (m : Meaning) : Option Meaning :=
  match k, m with
  | .float, .int n => some (.float (Float.ofInt n))
  | k, m => if m.kind = k then some m else none

/-- The key that takes over the pairs of other mappings. -/
def mergeText : Bytes := Disguise.text "<<"

def mergeTag : Bytes := Disguise.text "!!merge"

def Scalar.isMerge (s : Scalar) : Bool :=
  s.text = mergeText && (s.style = .plain || s.style = .tagged mergeTag)

/-- What a scalar stands for; `none` if its tag does not fit. -/
def Scalar.meaning? (s : Scalar) : Option Meaning :=
  match s.style with
  | .quoted => some (.text s.text)
  | .plain => some (spelling true s.text)
  | .tagged tag =>
    if tag = Disguise.text "!!binary" then (Base64.decode? s.text).map .text
    else match kind? tag with
      | none => some (.text s.text)
      | some k => (spelling (k = .date) s.text).as? k

/-- The text of a scalar, which a null has not. -/
def Scalar.string? (s : Scalar) : Option (Option Bytes) :=
  s.meaning?.map fun
    | .null => none
    | .text t => some t
    | _ => some s.text

end Disguise.Yaml
