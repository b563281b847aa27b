/-!
# Numbers

A number is a rational that the binary64 format holds: an integer of at most 53 bits times a power
of two. Zero has one sign, and there is no infinity. `nearest?` rounds any rational to a number,
half to the even neighbour, and fails where the magnitude is too large for the format.
-/

namespace Scim

/-- Held by binary64: a significand below 2^53 times a power of two within the exponent range. -/
def IsBinary64 (q : Rat) : Prop :=
  ∃ m e : Int, m.natAbs < 0x20000000000000 ∧ -1074 ≤ e ∧ e ≤ 971 ∧ q = m * 2 ^ e

/-- A finite number of the binary64 format. -/
structure Number where
  value : Rat
  isBinary64 : IsBinary64 value

namespace Number

instance : DecidableEq Number := fun a b =>
  if h : a.value = b.value then isTrue (by cases a; cases b; cases h; rfl)
  else isFalse fun e => h (e ▸ rfl)

@[ext] theorem ext {a b : Number} (h : a.value = b.value) : a = b := by
  cases a; cases b; cases h; rfl

/-- The number `m * 2 ^ e`, if both are in range. -/
def scaled? (m e : Int) : Option Number :=
  if h : m.natAbs < 0x20000000000000 ∧ -1074 ≤ e ∧ e ≤ 971 then
    some ⟨m * 2 ^ e, m, e, h.1, h.2.1, h.2.2, rfl⟩
  else none

def zero : Number := ⟨0, 0, 0, by decide, by decide, by decide, by simp⟩

instance : Inhabited Number := ⟨zero⟩

/-- The nearest integer; halfway between two, the even one. -/
def roundHalfEven (q : Rat) : Int :=
  let low := q.floor
  let part := q - low
  if part < 1 / 2 then low
  else if 1 / 2 < part then low + 1
  else if low % 2 = 0 then low
  else low + 1

/-- The largest `k` with `2 ^ k ≤ q`, for a positive `q`. -/
def binaryLog (q : Rat) : Int :=
  let k : Int := (q.num.natAbs.log2 : Int) - (q.den.log2 : Int)
  if q < 2 ^ k then k - 1 else k

/-- The power of two that the last bit of a number near `q` counts. -/
def unitExponent (q : Rat) : Int :=
  if q = 0 then -1074 else max (-1074) (binaryLog q.abs - 52)

/-- The number nearest to `q`, if it is below 2^1024 in magnitude. -/
def nearest? (q : Rat) : Option Number :=
  let e := unitExponent q
  let m := roundHalfEven (q / 2 ^ e)
  if m.natAbs < 0x20000000000000 then scaled? m e else scaled? (m / 2) (e + 1)

def isInteger (x : Number) : Bool := x.value.den == 1

/-- The largest magnitude up to which every integer is a number and no two are confused. -/
def maxSafe : Nat := 0x1FFFFFFFFFFFFF

def isSafeInteger (x : Number) : Bool := x.isInteger && x.value.num.natAbs ≤ maxSafe

end Number

end Scim
