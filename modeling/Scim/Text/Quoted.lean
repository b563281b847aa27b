import Scim.Text

/-!
# Quoted strings

The written form of a text between double quotes. `encode` escapes the quote, the backslash, the
control characters and lone surrogate halves, so what it writes is well-formed text for any list of
units; `read` takes one string off the front of a text, behind its opening quote, and accepts every
escape of the format; `readRange` does so within a range of a text. Offsets in a `Reading` or a
`Fault` count from the opening quote.
-/

namespace Scim.Quoted

open CodeUnit

/-! ### Writing -/

/-- A hexadecimal digit, in lower case. -/
def hexDigit (n : Nat) : CodeUnit := UInt16.ofNat (if n < 10 then 0x30 + n else 0x57 + n)

/-- The unit as a backslash, a `u` and four digits. -/
def unicodeEscape (c : CodeUnit) : Text :=
  [backslash, 0x75, hexDigit (c.toNat / 0x1000), hexDigit (c.toNat / 0x100 % 0x10),
    hexDigit (c.toNat / 0x10 % 0x10), hexDigit (c.toNat % 0x10)]

/-- The letter that names a unit after a backslash, for the units that are written so. -/
def shortEscape? (c : CodeUnit) : Option CodeUnit :=
  if c = quote then some quote
  else if c = backslash then some backslash
  else if c = 0x08 then some 0x62
  else if c = 0x09 then some 0x74
  else if c = 0x0A then some 0x6E
  else if c = 0x0C then some 0x66
  else if c = 0x0D then some 0x72
  else none

def encodeUnit (c : CodeUnit) : Text :=
  match shortEscape? c with
  | some e => [backslash, e]
  | none => if c < 0x20 || c.isSurrogate then unicodeEscape c else [c]

/-- The text between the quotes. A surrogate pair is written as it is. -/
def encodeBody : Text → Text
  | [] => []
  | [c] => encodeUnit c
  | c :: d :: rest =>
    if c.isHigh && d.isLow then c :: d :: encodeBody rest
    else encodeUnit c ++ encodeBody (d :: rest)

def encode (t : Text) : Text := quote :: (encodeBody t ++ [quote])

/-! ### Reading -/

def hexValue? (c : CodeUnit) : Option Nat :=
  if 0x30 ≤ c && c ≤ 0x39 then some (c.toNat - 0x30)
  else if 0x41 ≤ c && c ≤ 0x46 then some (c.toNat - 0x37)
  else if 0x61 ≤ c && c ≤ 0x66 then some (c.toNat - 0x57)
  else none

def hexUnit? (a b c d : CodeUnit) : Option CodeUnit := do
  let a ← hexValue? a
  let b ← hexValue? b
  let c ← hexValue? c
  let d ← hexValue? d
  return UInt16.ofNat (((a * 0x10 + b) * 0x10 + c) * 0x10 + d)

/-- The unit that a backslash and `c` stand for. -/
def unescape? (c : CodeUnit) : Option CodeUnit :=
  if c = quote then some quote
  else if c = backslash then some backslash
  else if c = 0x2F then some 0x2F
  else if c = 0x62 then some 0x08
  else if c = 0x66 then some 0x0C
  else if c = 0x6E then some 0x0A
  else if c = 0x72 then some 0x0D
  else if c = 0x74 then some 0x09
  else none

inductive Fault where
  | unterminated
  /-- No four hexadecimal digits after the `u` of the escape at `offset`. -/
  | unicodeEscape (offset : Nat)
  /-- The escape at `offset` names no unit by `letter`. -/
  | escape (offset : Nat) (letter : CodeUnit)
  deriving DecidableEq, Inhabited

/-- One string taken off a text: its value, its written length with both quotes, and the text after
it. -/
structure Reading where
  value : Text
  length : Nat
  rest : Text
  deriving DecidableEq, Inhabited

def Reading.cons (c : CodeUnit) (r : Reading) : Reading := { r with value := c :: r.value }

/-- Reads on inside a string, `n` units after its opening quote. -/
def readBody (n : Nat) (t : Text) : Except Fault Reading :=
  match t with
  | [] => .error .unterminated
  | c :: rest =>
    if c = quote then .ok ⟨[], n + 1, rest⟩
    else if c = backslash then
      match rest with
      | [] => .error .unterminated
      | e :: rest =>
        if e = 0x75 then
          match rest with
          | h₁ :: h₂ :: h₃ :: h₄ :: rest =>
            match hexUnit? h₁ h₂ h₃ h₄ with
            | some u => (readBody (n + 6) rest).map (.cons u)
            | none => .error (.unicodeEscape n)
          | _ => .error (.unicodeEscape n)
        else
          match unescape? e with
          | some u => (readBody (n + 2) rest).map (.cons u)
          | none => .error (.escape n e)
    else (readBody (n + 1) rest).map (.cons c)
termination_by structural t

def read (t : Text) : Except Fault Reading := readBody 1 t

/-- Reads the string whose opening quote is at `start` from the units before `stop`. A range that
goes on past the text ends with it. -/
def readRange (t : Text) (start stop : Nat) : Except Fault Reading :=
  read ((t.take stop).drop (start + 1))

end Scim.Quoted
