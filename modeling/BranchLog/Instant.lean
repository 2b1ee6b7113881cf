/-!
# Points in time

Written as `2026-01-31T23:59:59.5Z`: the date and time of day in UTC, and as many places of the
second as are not zero.
-/
namespace BranchLog

/-- Since the beginning of 1970. -/
structure Instant where
  seconds : Nat
  nanoseconds : Nat
  deriving DecidableEq, Repr

namespace Instant

/-- Year, month and day. The calendar repeats every 146097 days; years are taken to begin in March,
so that a leap day is the last of its year. -/
def date (t : Instant) : Nat × Nat × Nat :=
  let day := t.seconds / 86400 + 719468
  let ofEra := day % 146097
  let year := (ofEra - ofEra / 1460 + ofEra / 36524 - ofEra / 146096) / 365
  let ofYear := ofEra - (365 * year + year / 4 - year / 100)
  let month := (5 * ofYear + 2) / 153
  let number := ofYear - (153 * month + 2) / 5 + 1
  if month < 10 then (year + day / 146097 * 400, month + 3, number)
  else (year + day / 146097 * 400 + 1, month - 9, number)

/-- With zeros in front up to `width` digits. -/
def padded (width n : Nat) : String :=
  String.ofList (List.replicate (width - n.repr.length) '0') ++ n.repr

def places (t : Instant) : String :=
  if t.nanoseconds = 0 then ""
  else "." ++ String.ofList ((padded 9 t.nanoseconds).toList.reverse.dropWhile (· = '0')).reverse

def text (t : Instant) : String :=
  let (year, month, day) := t.date
  let second := t.seconds % 86400
  padded 4 year ++ "-" ++ padded 2 month ++ "-" ++ padded 2 day ++ "T" ++
    padded 2 (second / 3600) ++ ":" ++ padded 2 (second / 60 % 60) ++ ":" ++
    padded 2 (second % 60) ++ t.places ++ "Z"

end Instant

end BranchLog
