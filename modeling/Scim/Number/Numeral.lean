import Scim.Number
import Scim.Text

/-!
# Numerals

The written form of a number: an optional minus, digits without a needless leading zero, and
optionally a fraction and an exponent. `scan?` takes the longest numeral off the front of a text,
`Numeral.text` writes one back unchanged, and `Numeral.toNumber?` is the number it denotes.
-/

namespace Scim

open CodeUnit

/-- An exponent as it is written; the sign may be left out. -/
structure Exponent where
  mark : CodeUnit
  sign : Option CodeUnit
  digits : Text
  deriving DecidableEq, Inhabited

/-- A numeral as it is written. An empty fraction stands for none. -/
structure Numeral where
  negative : Bool
  whole : Text
  fraction : Text
  exponent : Option Exponent
  deriving DecidableEq, Inhabited

def decimalValue (digits : Text) : Nat := digits.foldl (fun n d => n * 10 + d.digitValue) 0

/-- The decimal digits of a natural number, without leading zeros. -/
def decimalDigits (n : Nat) : Text :=
  if n < 10 then [UInt16.ofNat (0x30 + n)]
  else decimalDigits (n / 10) ++ [UInt16.ofNat (0x30 + n % 10)]
termination_by n

namespace Exponent

def text (e : Exponent) : Text := e.mark :: (e.sign.toList ++ e.digits)

def value (e : Exponent) : Int :=
  if e.sign = some minus then -(decimalValue e.digits : Int) else decimalValue e.digits

/-- Takes an exponent off the front of a text if a whole one stands there. -/
def scan (t : Text) : Option Exponent × Text :=
  match t with
  | [] => (none, t)
  | c :: rest =>
    if c = 0x65 || c = 0x45 then
      let sign := rest.head?.filter fun s => s = plus || s = minus
      let rest := if sign.isSome then rest.drop 1 else rest
      if (rest.takeWhile isDigit).isEmpty then (none, t)
      else (some ⟨c, sign, rest.takeWhile isDigit⟩, rest.dropWhile isDigit)
    else (none, t)

end Exponent

namespace Number

/-- The number nearest to `m * 10 ^ e`. Far outside the range of the format the power is not
computed: there the answer is zero or a failure by magnitude alone. -/
def ofDecimal? (negative : Bool) (m : Nat) (e : Int) : Option Number :=
  let magnitude := (decimalDigits m).length + e
  if m = 0 || magnitude < -330 then some zero
  else if 310 < magnitude then none
  else nearest? ((if negative then -(m : Int) else m : Int) * 10 ^ e)

end Number

namespace Numeral

def text (n : Numeral) : Text :=
  (if n.negative then [minus] else []) ++ n.whole ++
    (if n.fraction.isEmpty then [] else dot :: n.fraction) ++
    (match n.exponent with
      | some e => e.text
      | none => [])

/-- Written without a fraction and without an exponent. -/
def isInteger (n : Numeral) : Bool := n.fraction.isEmpty && n.exponent.isNone

def toNumber? (n : Numeral) : Option Number :=
  Number.ofDecimal? n.negative (decimalValue (n.whole ++ n.fraction))
    ((n.exponent.map Exponent.value).getD 0 - n.fraction.length)

/-- Takes the digits before the point off the front of a text; a zero stands alone. -/
def scanWhole? (t : Text) : Option (Text × Text) :=
  if t.head? = some zero then some ([zero], t.drop 1)
  else if (t.takeWhile isDigit).isEmpty then none
  else some (t.takeWhile isDigit, t.dropWhile isDigit)

/-- Takes a point and the digits after it off the front of a text, if both stand there. -/
def scanFraction (t : Text) : Text × Text :=
  let digits := (t.drop 1).takeWhile isDigit
  if t.head? = some dot && !digits.isEmpty then (digits, (t.drop 1).dropWhile isDigit) else ([], t)

/-- Takes the longest numeral off the front of a text. -/
def scan? (t : Text) : Option (Numeral × Text) := do
  let negative := t.head? == some minus
  let (whole, t) ← scanWhole? (if negative then t.drop 1 else t)
  let (fraction, t) := scanFraction t
  let (exponent, t) := Exponent.scan t
  return (⟨negative, whole, fraction, exponent⟩, t)

end Numeral

end Scim
