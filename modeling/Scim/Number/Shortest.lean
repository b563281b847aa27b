import Scim.Number.Numeral

/-!
# The shortest numeral

The numeral a number is written with has the fewest digits that read back as the number, and of
those the nearest. `layout` places the point: positional notation for magnitudes from 1e-6 up to
1e21, an exponent with its sign outside.
-/

namespace Scim

open CodeUnit

namespace Numeral

/-- The numeral with the digits `ds` and the point after `point` of them. -/
def layout (negative : Bool) (ds : Text) (point : Int) : Numeral :=
  if ds.length ≤ point && point ≤ 21 then
    ⟨negative, ds ++ List.replicate (point - ds.length).toNat zero, [], none⟩
  else if 0 < point && point ≤ 21 then ⟨negative, ds.take point.toNat, ds.drop point.toNat, none⟩
  else if -6 < point && point ≤ 0 then
    ⟨negative, [zero], List.replicate (-point).toNat zero ++ ds, none⟩
  else
    ⟨negative, ds.take 1, ds.drop 1, some ⟨0x65, some (if point ≤ 0 then minus else plus),
      decimalDigits (point - 1).natAbs⟩⟩

/-- The numeral of `m * 10 ^ e`, with no needless zeros at the end of its digits. -/
def ofDecimal (negative : Bool) (m : Nat) (e : Int) : Numeral :=
  let ds := decimalDigits m
  layout negative (ds.reverse.dropWhile (· == zero)).reverse (ds.length + e)

end Numeral

namespace Number

/-- How many digits a positive rational has before the point; zero or less counts the zeros that
follow the point. -/
def decimalPoint (q : Rat) : Int :=
  let k : Int := ((decimalDigits q.num.natAbs).length : Int) - (decimalDigits q.den).length
  if q < 10 ^ k then k else k + 1

/-- The numeral with `digits` digits that reads back as `x`: the nearer of the two around `x`. -/
def numeralOfLength? (x : Number) (digits : Nat) : Option Numeral :=
  let negative := x.value < 0
  let q := x.value.abs
  let e := decimalPoint q - digits
  let low := (q / 10 ^ e).floor.toNat
  let part := q / 10 ^ e - low
  let below := Numeral.ofDecimal negative low e
  let above := Numeral.ofDecimal negative (low + 1) e
  let aboveFirst := 1 / 2 < part || (part = 1 / 2 && low % 2 = 1)
  (if aboveFirst then [above, below] else [below, above]).find? fun n => n.toNumber? = some x

/-- The numeral that writes out every digit of a number. -/
def exactNumeral (x : Number) : Numeral :=
  let places := x.value.den.log2
  Numeral.ofDecimal (x.value < 0) (x.value.num.natAbs * Nat.pow 5 places) (-places)

def toNumeral (x : Number) : Numeral :=
  if x.value = 0 then ⟨false, [CodeUnit.zero], [], none⟩
  else ((List.range 17).findSome? fun k => x.numeralOfLength? (k + 1)).getD x.exactNumeral

def text (x : Number) : Text := x.toNumeral.text

end Number

end Scim
