import Scim.Filter
import Scim.Options
import Scim.Syntax.Fault
import Scim.Number.Numeral
import Scim.Text.LowerCase
import Scim.Text.Quoted

/-!
# Tokens

A filter is a row of tokens with white space between them: words, quoted strings, numerals and
brackets. Keywords and operators are words read without regard to letter case. A word that is a
numeral as a whole is a number, and it must be one that documents can hold: finite, and exact if it
is written as an integer. A string may touch brackets, but neither a word nor another string.
-/

namespace Scim

inductive Token.Kind where
  /-- An attribute path. -/
  | word
  | value (value : Literal)
  | comparison (op : Comparison)
  | present
  | connective (op : Connective)
  | not
  | openParen
  | closeParen
  | openBracket
  | closeBracket
  | comma
  deriving DecidableEq, Inhabited

/-- A token with its source text and the position of its first unit. -/
structure Token where
  kind : Token.Kind
  text : Text
  position : Nat
  deriving DecidableEq, Inhabited

namespace Token

open CodeUnit

namespace Kind

def ofPunctuation? (c : CodeUnit) : Option Kind :=
  if c = CodeUnit.openParen then some openParen
  else if c = CodeUnit.closeParen then some closeParen
  else if c = CodeUnit.openBracket then some openBracket
  else if c = CodeUnit.closeBracket then some closeBracket
  else if c = CodeUnit.comma then some comma
  else none

/-- The words that are not attribute paths, in lower case; comparison operators apart. -/
def keywords : List (Text × Kind) :=
  [("pr", present), ("and", connective .and), ("or", connective .or), ("not", not),
    ("true", value (.bool true)), ("false", value (.bool false)), ("null", value .null)]

def ofWord (text : Text) : Kind :=
  match Comparison.ofName? text.lower with
  | some op => comparison op
  | none => ((keywords.find? fun k => k.1 == text.lower).map (·.2)).getD word

end Kind

/-- The kind of a token and how many units follow its first one. -/
structure Lexeme where
  kind : Kind
  more : Nat
  deriving DecidableEq, Inhabited

def stringFault : Quoted.Fault → SyntaxFault
  | .unterminated => ⟨.unterminatedString, 0⟩
  | .unicodeEscape offset => ⟨.invalidUnicodeEscape, offset⟩
  | .escape offset letter => ⟨.invalidEscape letter, offset⟩

def stringLexeme (o : ParserOptions) (before : Option CodeUnit) (rest : Text) :
    Except SyntaxFault Lexeme :=
  if before.any o.isWordUnit then .error ⟨.unexpectedCharacter quote, 0⟩
  else match Quoted.read rest with
    | .error fault => .error (stringFault fault)
    | .ok r =>
      match r.rest with
      | next :: _ =>
        if o.isWordUnit next || next = quote then .error ⟨.unexpectedCharacter next, r.length⟩
        else .ok ⟨.value (.str r.value), r.length - 1⟩
      | [] => .ok ⟨.value (.str r.value), r.length - 1⟩

/-- The number that the numeral denotes, as far as it is finite and, for an integer, exact. -/
def numberValue? (n : Numeral) : Option Number :=
  n.toNumber?.filter fun x => !n.isInteger || x.isSafeInteger

/-- A text with another one behind it; with an empty one behind it, the text is not copied. -/
def followedBy (t : Text) : Text → Text
  | [] => t
  | beyond => t ++ beyond

theorem followedBy_eq (t beyond : Text) : followedBy t beyond = t ++ beyond := by
  cases beyond <;> simp [followedBy]

/-- The number at the front of `t`, if the numeral that starts there ends within `t` and no word
unit follows it. The numeral is looked for in `t` and the text `beyond` it. -/
def numberLexeme? (o : ParserOptions) (beyond t : Text) : Option (Except SyntaxFault Lexeme) :=
  match Numeral.scan? (followedBy t beyond) with
  | none => none
  | some (n, _) =>
    let length := n.text.length
    if t.length < length || (t.drop length).head?.any o.isWordUnit then none
    else match numberValue? n with
      | some x => some (.ok ⟨.value (.num x), length - 1⟩)
      | none => some (.error ⟨.numberOutOfRange n.text, 0⟩)

/-- The token that starts with `c`, after `before` and in front of `rest`. -/
def lexeme (o : ParserOptions) (beyond : Text) (before : Option CodeUnit) (c : CodeUnit)
    (rest : Text) : Except SyntaxFault Lexeme :=
  match Kind.ofPunctuation? c with
  | some kind => .ok ⟨kind, 0⟩
  | none =>
    if c = quote then stringLexeme o before rest
    else if !o.isWordUnit c then .error ⟨.unexpectedCharacter c, 0⟩
    else match numberLexeme? o beyond (c :: rest) with
      | some result => result
      | none =>
        let more := rest.takeWhile o.isWordUnit
        .ok ⟨Kind.ofWord (c :: more), more.length⟩

/-- The tokens of `t`, which stands at `position`, after the unit `before` and in front of the text
`beyond`. -/
def scanFrom (o : ParserOptions) (beyond : Text) (before : Option CodeUnit) (position : Nat)
    (t : Text) : Except SyntaxFault (List Token) :=
  match t with
  | [] => .ok []
  | c :: rest =>
    if c.isBlank then scanFrom o beyond (some c) (position + 1) rest
    else match lexeme o beyond before c rest with
      | .error fault => .error (fault.shift position)
      | .ok l =>
        let text := c :: rest.take l.more
        (scanFrom o beyond text.getLast? (position + text.length) (rest.drop l.more)).map
          (⟨l.kind, text, position⟩ :: ·)
termination_by t.length
decreasing_by
  · simp
  · simp only [List.length_drop, List.length_cons]; omega

def scan (o : ParserOptions) (t : Text) : Except SyntaxFault (List Token) := scanFrom o [] none 0 t

/-! ### Ranges -/

/-- A unit that is part of words but of no numeral, keyword or escape. -/
def standIn : CodeUnit := 0x5F

/-- The word without the stand-in at its end. -/
def withoutStandIn (t : Token) : Token :=
  let text := t.text.dropLast
  ⟨Kind.ofWord text, text, t.position⟩

/-- The fault that the stand-in at position `n` gives rise to is one of a missing unit. -/
def standInFault (n : Nat) (f : SyntaxFault) : SyntaxFault :=
  match f.cause with
  | .unexpectedCharacter _ => if f.position = n then ⟨.missingCharacter, n⟩ else f
  | .invalidEscape _ => if f.position + 1 = n then ⟨.missingEscape, f.position⟩ else f
  | _ => f

/-- The tokens of the units from `start` up to a place past the end of the text. What is missing
there belongs to a word, which may consist of nothing else. -/
def scanPast (o : ParserOptions) (t : Text) (start : Nat) : Except SyntaxFault (List Token) :=
  match scanFrom o [] none start (t.drop start ++ [standIn]) with
  | .ok tokens => .ok (tokens.dropLast ++ (tokens.getLast?.map withoutStandIn).toList)
  | .error f => .error (standInFault t.length f)

/-- The tokens of the units from `start` up to `stop`, at their positions in the whole text. -/
def scanRange (o : ParserOptions) (t : Text) (start stop : Nat) : Except SyntaxFault (List Token) :=
  if t.length < stop && start < stop then scanPast o t start
  else scanFrom o (t.drop stop) none start ((t.take stop).drop start)

theorem scanRange_of_le {o : ParserOptions} {t : Text} {start stop : Nat} (h : stop ≤ t.length) :
    scanRange o t start stop = scanFrom o (t.drop stop) none start ((t.take stop).drop start) := by
  simp only [scanRange, Nat.not_lt.mpr h, decide_false, Bool.false_and, Bool.false_eq_true,
    if_false]

end Token

end Scim
