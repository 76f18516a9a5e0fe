import Disguise.Text.Bytes

/-!
Days and times as plain scalars: a day such as `2001-12-14`, and behind it a time of day, either
with a letter between the two and a time zone at the end, or with blanks and no zone.
-/
namespace Disguise.Yaml.Date
open Bytes

def digit? : Bytes → Option (Nat × Bytes)
  | [] => none
  | b :: s => if byte '0' ≤ b && b ≤ byte '9' then some (b.toNat - 48, s) else none

/-- A number of one or two digits. -/
def short? (s : Bytes) : Option (Nat × Bytes) := do
  let (a, s) ← digit? s
  match digit? s with
  | some (b, s) => pure (a * 10 + b, s)
  | none => pure (a, s)

/-- A number of two digits. -/
def pair? (s : Bytes) : Option (Nat × Bytes) := do
  let (a, s) ← digit? s
  let (b, s) ← digit? s
  pure (a * 10 + b, s)

def mark? (c : Char) : Bytes → Option Bytes
  | [] => none
  | b :: s => if b = byte c then some s else none

def isLeap (year : Nat) : Bool := year % 4 = 0 && (year % 100 ≠ 0 || year % 400 = 0)

def daysIn (year month : Nat) : Nat :=
  if month = 2 then if isLeap year then 29 else 28
  else if month = 4 || month = 6 || month = 9 || month = 11 then 30
  else 31

/-- What stands behind a day. -/
def day? (s : Bytes) : Option Bytes := do
  let (century, s) ← pair? s
  let (year, s) ← pair? s
  let (month, s) ← short? (← mark? '-' s)
  let (day, s) ← short? (← mark? '-' s)
  if 1 ≤ month && month ≤ 12 && 1 ≤ day && day ≤ daysIn (century * 100 + year) month then pure s
  else none

/-- What stands behind a time of day. -/
def time? (s : Bytes) : Option Bytes := do
  let (hour, s) ← short? s
  let (minute, s) ← short? (← mark? ':' s)
  let (second, s) ← short? (← mark? ':' s)
  if hour < 24 && minute < 60 && second < 60 then
    match (mark? '.' s).or (mark? ',' s) with
    | some fraction =>
      pure (if (digit? fraction).isSome then fraction.dropWhile fun b => (digit? [b]).isSome else s)
    | none => pure s
  else none

/-- Whether a text is a time zone. -/
def isZone (s : Bytes) : Bool :=
  s = text "Z" || (do
    let s ← (mark? '+' s).or (mark? '-' s)
    let (hours, s) ← pair? s
    let (minutes, s) ← pair? (← mark? ':' s)
    pure (hours ≤ 24 && minutes ≤ 60 && s.isEmpty : Bool)).getD false

def isDate (s : Bytes) : Bool :=
  match day? s with
  | none => false
  | some [] => true
  | some (b :: s) =>
    if b = byte 'T' || b = byte 't' then (time? s).any isZone
    else b = byte ' ' && (time? (s.dropWhile (· = byte ' '))).any (·.isEmpty)

end Disguise.Yaml.Date
