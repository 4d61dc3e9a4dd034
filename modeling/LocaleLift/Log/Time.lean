import LocaleLift.Text

/-! Times of day, as log files show them. -/
namespace LocaleLift.Log

/-- A date of the Gregorian calendar. -/
structure Date where
  year : Int
  month : Nat
  day : Nat
  deriving DecidableEq, Repr

/-- The date so many days after the first of March of the year 0. Years are counted from March, so
that a leap day is the last day of its year. -/
def Date.ofDays (days : Int) : Date :=
  let era := days.fdiv 146097
  let inEra := (days.fmod 146097).toNat
  let year := (inEra - inEra / 1460 + inEra / 36524 - inEra / 146096) / 365
  let inYear := inEra - (365 * year + year / 4 - year / 100)
  let month := (5 * inYear + 2) / 153
  let day := inYear - (153 * month + 2) / 5 + 1
  ⟨era * 400 + year + (if month < 10 then 0 else 1),
    if month < 10 then month + 3 else month - 9, day⟩

/-- The days from the first of March of the year 0 to the first of January 1970. -/
def daysToEpoch : Int := 719468

private def padded (width n : Nat) : Text :=
  let digits := Text.ofNat n
  List.replicate (width - digits.length) (.scalar '0') ++ digits

def timeText (seconds : Int) (milliseconds : Nat) : Text :=
  let d := Date.ofDays (seconds.fdiv 86400 + daysToEpoch)
  let s := (seconds.fmod 86400).toNat
  Text.ofInt d.year ++ "-" ++ padded 2 d.month ++ "-" ++ padded 2 d.day ++ " " ++
    padded 2 (s / 3600) ++ ":" ++ padded 2 (s / 60 % 60) ++ ":" ++ padded 2 (s % 60) ++ "," ++
    padded 3 milliseconds

end LocaleLift.Log
