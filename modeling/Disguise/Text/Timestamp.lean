import Disguise.Text.Bytes

/-!
The time of day as it stands before a line of a log, such as `2024/05/17 08:30:00 `.
-/
namespace Disguise.Timestamp
open Bytes

structure Date where
  year : Nat
  month : Nat
  day : Nat
  deriving DecidableEq, Repr

/-- The date a number of days after the first of January 1970. Years are counted from March on, so
that a leap day is the last day of its year. -/
def dateOf (days : Nat) : Date :=
  let z := days + 719468
  let era := z / 146097
  let dayOfEra := z % 146097
  let yearOfEra := (dayOfEra - dayOfEra / 1460 + dayOfEra / 36524 - dayOfEra / 146096) / 365
  let dayOfYear := dayOfEra - (365 * yearOfEra + yearOfEra / 4 - yearOfEra / 100)
  let m := (5 * dayOfYear + 2) / 153
  let month := if m < 10 then m + 3 else m - 9
  { year := yearOfEra + era * 400 + (if month ≤ 2 then 1 else 0)
    month
    day := dayOfYear - (153 * m + 2) / 5 + 1 }

def padded (width n : Nat) : Bytes :=
  let ds := decimalNat n
  List.replicate (width - ds.length) (byte '0') ++ ds

/-- The stamp for a number of seconds since 1970, with a blank at its end. -/
def render (seconds : Nat) : Bytes :=
  let date := dateOf (seconds / 86400)
  let clock := [seconds / 3600 % 24, seconds / 60 % 60, seconds % 60]
  join (text "/") [padded 4 date.year, padded 2 date.month, padded 2 date.day] ++ text " " ++
    join (text ":") (clock.map (padded 2)) ++ text " "

end Disguise.Timestamp
