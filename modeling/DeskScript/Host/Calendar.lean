import DeskScript.Number.Binary
import DeskScript.Number.Layout
import DeskScript.Script.Fault

set_option autoImplicit false

/-!
# Dates and times of day

Seconds since the start of 1970 as a date and a time of day, in universal time. Years from 1 to 9999 are shown.
-/

namespace DeskScript.Calendar

structure Moment where
  year : Int
  month : Nat
  day : Nat
  second : Nat

/-- The date of a day counted from the start of 1970: eras of 400 years begin on the first of March. -/
def ofDays (days : Int) (second : Nat) : Moment :=
  let z := days + 719468
  let era := z / 146097
  let doe := (z % 146097).toNat
  let yoe := (doe - doe / 1460 + doe / 36524 - doe / 146096) / 365
  let doy := doe - (365 * yoe + yoe / 4 - yoe / 100)
  let mp := (5 * doy + 2) / 153
  let day := doy - (153 * mp + 2) / 5 + 1
  let month := if mp < 10 then mp + 3 else mp - 9
  let year : Int := yoe + era * 400 + (if month ≤ 2 then 1 else 0)
  ⟨year, month, day, second⟩

def ofSeconds (seconds : Int) : Moment := ofDays (seconds / 86400) (seconds % 86400).toNat

/-- A number of seconds rounded to microseconds, a tie going to the even one, and then down to seconds. -/
def wholeSeconds (x : Float) : Int :=
  let b := Number.Binary.ofFloat x
  let (num, den) := b.ratio
  let micros : Int := Number.roundedQuotient (num * 1000000) den
  (if b.negative then -micros else micros) / 1000000

def secondLimit : Int := Nat.pow 2 63

def yearLimit : Int := Nat.pow 2 31

/-- The moment of a time in seconds. The moment one day before has to be a date, too. -/
def moment (x : Float) : Except Fault Moment :=
  if x.isNaN then .error .timeNotANumber
  else if x.isInf then .error .timeOutOfRange
  else
    let seconds := wholeSeconds x
    if seconds < -secondLimit || secondLimit ≤ seconds then .error .timeOutOfRange
    else
      let m := ofSeconds seconds
      let earlier := ofSeconds (seconds - 86400)
      if m.year - 1900 < -yearLimit || yearLimit ≤ m.year - 1900 then .error .timeTooLarge
      else if m.year < 1 || 9999 < m.year then .error (.yearOutOfRange m.year)
      else if earlier.year < 1 then .error (.yearOutOfRange earlier.year)
      else .ok m

def twoDigits (n : Nat) : String := (if n < 10 then "0" else "") ++ toString n

def Moment.timeText (m : Moment) : String :=
  twoDigits (m.second / 3600) ++ ":" ++ twoDigits (m.second / 60 % 60) ++ ":" ++ twoDigits (m.second % 60)

def Moment.dateText (m : Moment) : String :=
  Number.intText m.year ++ "-" ++ twoDigits m.month ++ "-" ++ twoDigits m.day

end DeskScript.Calendar
