/-!
# Text as code units

Positions, lengths, order and "one character" are all counted in UTF-16 code units, and a value may
hold half of a surrogate pair, so a text is the list of its code units. A code point beyond the
basic plane is two units (`ofPoint`); `points` reads the pairs back and leaves a lone half as it is.
-/

namespace Scim

/-- One UTF-16 code unit. -/
abbrev CodeUnit := UInt16

/-- A text, as its code units in order. -/
abbrev Text := List CodeUnit

namespace CodeUnit

/-- The first half of a surrogate pair. -/
def isHigh (c : CodeUnit) : Bool := 0xD800 ≤ c && c < 0xDC00

/-- The second half of a surrogate pair. -/
def isLow (c : CodeUnit) : Bool := 0xDC00 ≤ c && c < 0xE000

def isSurrogate (c : CodeUnit) : Bool := c.isHigh || c.isLow

/-- An ASCII decimal digit. -/
def isDigit (c : CodeUnit) : Bool := 0x30 ≤ c && c ≤ 0x39

def digitValue (c : CodeUnit) : Nat := c.toNat - 0x30

@[match_pattern] abbrev quote : CodeUnit := 0x22
@[match_pattern] abbrev openParen : CodeUnit := 0x28
@[match_pattern] abbrev closeParen : CodeUnit := 0x29
@[match_pattern] abbrev plus : CodeUnit := 0x2B
@[match_pattern] abbrev comma : CodeUnit := 0x2C
@[match_pattern] abbrev minus : CodeUnit := 0x2D
@[match_pattern] abbrev dot : CodeUnit := 0x2E
@[match_pattern] abbrev zero : CodeUnit := 0x30
@[match_pattern] abbrev colon : CodeUnit := 0x3A
@[match_pattern] abbrev openBracket : CodeUnit := 0x5B
@[match_pattern] abbrev backslash : CodeUnit := 0x5C
@[match_pattern] abbrev closeBracket : CodeUnit := 0x5D

end CodeUnit

namespace Text

/-- The code units of one code point; a surrogate code point stands for itself. -/
def ofPoint (n : Nat) : Text :=
  if n < 0x10000 then [UInt16.ofNat n]
  else
    [UInt16.ofNat (0xD800 + (n - 0x10000) / 0x400), UInt16.ofNat (0xDC00 + (n - 0x10000) % 0x400)]

def ofString (s : String) : Text := s.toList.flatMap fun c => ofPoint c.toNat

instance : Coe String Text := ⟨ofString⟩

/-- The code points of a text. A high half before a low half is one point; any other half is a
point of its own. -/
def points : Text → List Nat
  | [] => []
  | [c] => [c.toNat]
  | c :: d :: rest =>
    if c.isHigh && d.isLow then
      (0x10000 + (c.toNat - 0xD800) * 0x400 + (d.toNat - 0xDC00)) :: points rest
    else c.toNat :: points (d :: rest)

def ofPoints (ps : List Nat) : Text := ps.flatMap ofPoint

/-- Writes a text for display; each lone surrogate becomes U+FFFD. -/
def display (t : Text) : String :=
  String.ofList (t.points.map fun n => if n.isValidChar then Char.ofNat n else Char.ofNat 0xFFFD)

def ofNat (n : Nat) : Text := ofString (toString n)

def join (sep : Text) (ts : List Text) : Text := sep.intercalate ts

/-- Cuts a text at every occurrence of `sep`; there is always at least one piece. -/
def splitOn (sep : CodeUnit) : Text → List Text
  | [] => [[]]
  | c :: rest =>
    if c = sep then [] :: splitOn sep rest
    else match splitOn sep rest with
      | [] => [[c]]
      | piece :: pieces => (c :: piece) :: pieces

/-- The part before the last `sep` and the part after it, if there is one. -/
def splitAtLast? (sep : CodeUnit) : Text → Option (Text × Text)
  | [] => none
  | c :: rest =>
    match splitAtLast? sep rest with
    | some (before, after) => some (c :: before, after)
    | none => if c = sep then some ([], rest) else none

/-- Whether `part` occurs in `t` without gaps. -/
def includes (part : Text) : Text → Bool
  | [] => part.isEmpty
  | c :: rest => part.isPrefixOf (c :: rest) || includes part rest

theorem splitOn_ne_nil (sep : CodeUnit) (t : Text) : splitOn sep t ≠ [] := by
  cases t with
  | nil => simp [splitOn]
  | cons c rest =>
    rw [splitOn]
    split
    · simp
    · split <;> simp

theorem join_cons {sep t : Text} {ts : List Text} (h : ts ≠ []) :
    join sep (t :: ts) = t ++ sep ++ join sep ts := by
  cases ts with
  | nil => exact absurd rfl h
  | cons u us => simp [join, List.intercalate]

theorem join_singleton (sep t : Text) : join sep [t] = t := by simp [join, List.intercalate]

theorem join_splitOn (sep : CodeUnit) (t : Text) : join [sep] (splitOn sep t) = t := by
  induction t with
  | nil => rfl
  | cons c rest ih =>
    rw [splitOn]
    split
    · rename_i h
      rw [join_cons (splitOn_ne_nil sep rest), ih, h]
      rfl
    · split
      · rename_i h
        exact absurd h (splitOn_ne_nil sep rest)
      · rename_i piece pieces h
        rw [h] at ih
        cases pieces with
        | nil => rw [join_singleton] at ih ⊢; rw [ih]
        | cons p ps =>
          rw [join_cons (by simp)] at ih ⊢
          rw [← ih]
          rfl

end Text

end Scim
