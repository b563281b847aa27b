import Scim.Error
import Scim.Number.Numeral
import Scim.Text.Blank
import Scim.Text.LowerCase

/-!
# Instants

A dateTime text names an instant: a civil date, a time of day with any number of fraction digits,
and a zone. An instant counts milliseconds from the start of 1970 and keeps the digits below them.
Days past the end of a month run into the next one, and hour 24 is the start of the next day.
-/

namespace Scim

open CodeUnit

structure Instant where
  /-- Whole milliseconds since the start of 1970, rounded down. -/
  millis : Int
  /-- The decimal digits below the millisecond, without zeros at the end. -/
  below : Text
  deriving DecidableEq, Inhabited

namespace Instant

/-! ### The civil calendar -/

def millisPerDay : Int := 86400000

/-- The number of the day `day` of a month, counted from the start of 1970. Years are counted from
March, so that the leap day is the last day of its year. -/
def dayNumber (year month day : Int) : Int :=
  let y := if month ≤ 2 then year - 1 else year
  let era := y / 400
  let ofEra := y % 400
  let ofYear := (153 * ((month + 9) % 12) + 2) / 5 + day - 1
  era * 146097 + (ofEra * 365 + ofEra / 4 - ofEra / 100 + ofYear) - 719468

/-- The year, month and day of a day number. -/
def civilDate (number : Int) : Int × Int × Int :=
  let days := number + 719468
  let era := days / 146097
  let ofEra := days % 146097
  let year := (ofEra - ofEra / 1460 + ofEra / 36524 - ofEra / 146096) / 365
  let ofYear := ofEra - (365 * year + year / 4 - year / 100)
  let fromMarch := (5 * ofYear + 2) / 153
  let day := ofYear - (153 * fromMarch + 2) / 5 + 1
  let month := if fromMarch < 10 then fromMarch + 3 else fromMarch - 9
  (era * 400 + year + (if month ≤ 2 then 1 else 0), month, day)

/-! ### Reading -/

/-- Takes `n` digits off the front of a text. -/
def takeDigits? (n : Nat) (t : Text) : Option (Nat × Text) :=
  if (t.take n).length = n && (t.take n).all isDigit then some (decimalValue (t.take n), t.drop n)
  else none

/-- Takes one unit, given in lower case, off the front of a text. -/
def takeLetter? (c : CodeUnit) (t : Text) : Option Text :=
  match t with
  | d :: rest => if d = c || d + 0x20 = c && 0x61 ≤ c then some rest else none
  | [] => none

/-- The sign of a zone: ahead of universal time, or behind it. -/
def takeSign? (t : Text) : Option (Int × Text) :=
  match t with
  | c :: rest => if c = plus then some (1, rest) else if c = minus then some (-1, rest) else none
  | [] => none

/-- The minutes by which a zone, the whole rest of a text, is ahead of universal time. -/
def readZone? (t : Text) : Option Int :=
  if takeLetter? 0x7A t = some [] then some 0
  else do
    let (sign, t) ← takeSign? t
    let (hours, t) ← takeDigits? 2 t
    let (minutes, t) ← takeDigits? 2 ((takeLetter? colon t).getD t)
    if t.isEmpty && hours ≤ 23 && minutes ≤ 59 then some (sign * (hours * 60 + minutes : Nat))
    else none

/-- The digits of a fraction, if a point stands at the front of a text. -/
def readFraction? (t : Text) : Option (Text × Text) :=
  match takeLetter? dot t with
  | none => some ([], t)
  | some t =>
    if (t.takeWhile isDigit).isEmpty then none else some (t.takeWhile isDigit, t.dropWhile isDigit)

/-- The first three digits of a fraction, as milliseconds. -/
def millisOfFraction (digits : Text) : Nat :=
  decimalValue ((digits ++ [zero, zero, zero]).take 3)

/-- The instant of a text without white space around it. -/
def readTrimmed? (t : Text) : Option Instant := do
  let (year, t) ← takeDigits? 4 t
  let (month, t) ← (takeLetter? minus t).bind (takeDigits? 2)
  let (day, t) ← (takeLetter? minus t).bind (takeDigits? 2)
  let (hour, t) ← (takeLetter? 0x74 t).bind (takeDigits? 2)
  let (minute, t) ← (takeLetter? colon t).bind (takeDigits? 2)
  let (second, t) ← (takeLetter? colon t).bind (takeDigits? 2)
  let (fraction, t) ← readFraction? t
  let ahead ← readZone? t
  let ofDay : Int := ((hour * 60 + minute) * 60 + second) * 1000 + millisOfFraction fraction
  if 1 ≤ month && month ≤ 12 && 1 ≤ day && day ≤ 31 && minute ≤ 59 && second ≤ 59 &&
      (hour ≤ 23 || ofDay = millisPerDay) then
    some {
      millis := dayNumber year month day * millisPerDay + ofDay - ahead * 60000
      below := ((fraction.drop 3).reverse.dropWhile (· == zero)).reverse }
  else none

/-- The instant that a dateTime text names; white space around it is allowed. -/
def read? (t : Text) : Option Instant := readTrimmed? t.trim

/-! ### Order -/

/-- Which of two texts comes first, unit by unit. -/
def compareText (a b : Text) : Ordering :=
  if a < b then .lt else if b < a then .gt else .eq

def compare (a b : Instant) : Ordering :=
  if a.millis < b.millis then .lt
  else if b.millis < a.millis then .gt
  else compareText a.below b.below

def compareTexts? (a b : Text) : Option Ordering := do
  let a ← read? a
  let b ← read? b
  return compare a b

/-! ### Writing -/

/-- A number with at least `width` digits. -/
def padded (width n : Nat) : Text :=
  List.replicate (width - (decimalDigits n).length) zero ++ decimalDigits n

/-- Years of more or less than four digits are written with a sign and six digits. -/
def formatYear (year : Int) : Text :=
  if 0 ≤ year && year ≤ 9999 then padded 4 year.toNat
  else (if year < 0 then minus else plus) :: padded 6 year.natAbs

/-- The canonical text of an instant of whole milliseconds, in universal time. -/
def format (millis : Int) : Text :=
  let (year, month, day) := civilDate (millis / millisPerDay)
  let ofDay := (millis % millisPerDay).toNat
  formatYear year ++ "-" ++ padded 2 month.toNat ++ "-" ++ padded 2 day.toNat ++ "T" ++
    padded 2 (ofDay / 3600000) ++ ":" ++ padded 2 (ofDay / 60000 % 60) ++ ":" ++
    padded 2 (ofDay / 1000 % 60) ++ "." ++ padded 3 (ofDay % 1000) ++ "Z"

/-- The farthest instant from the start of 1970, in milliseconds. -/
def maxMillis : Int := 8640000000000000

/-- The text of the instant `x` milliseconds after the start of 1970; a part of a millisecond is
dropped. -/
def formatNumber (x : Number) : Except Error Text :=
  if x.value < -maxMillis || maxMillis < x.value then .error .invalidTime
  else .ok (format (x.value.num.tdiv x.value.den))

end Instant

end Scim
