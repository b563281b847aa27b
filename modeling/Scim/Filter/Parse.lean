import Scim.Token

/-!
# Reading filters

A filter is a row of operands with connectives between them; `and` binds before `or`, and a run of
operands under one connective is one filter. An operand is a group in parentheses, a negated group,
a condition on an attribute, or a filter in brackets after an attribute.
-/

namespace Scim

/-- True if the text starts with `urn:` in any letter case and has more after it. -/
def Text.isUrn (t : Text) : Bool := 4 < t.length && Text.lower (t.take 4) == "urn:"

namespace Path

open CodeUnit

/-- The names in a dotted text at `position`; `word` is the whole word it is part of. -/
def namesOf (o : ParserOptions) (word : Text) : (position : Nat) → List Text →
    Except SyntaxFault (List PathElement)
  | _, [] => .ok []
  | position, name :: rest =>
    let valid := name.points.takeWhile o.isNamePoint
    if name.isEmpty || valid.length < name.points.length then
      .error ⟨.invalidAttributePath word, position + valid.length⟩
    else (namesOf o word (position + name.length + 1) rest).map (⟨name, none⟩ :: ·)

/-- The path written by one word of a filter. A word that starts as a URN is split at its last
colon. -/
def ofWord (o : ParserOptions) (word : Text) (position : Nat) : Except SyntaxFault Path :=
  match if word.isUrn then Text.splitAtLast? colon word else none with
  | some (urn, names) =>
    let start := position + urn.length + 1
    if names.isEmpty then .error ⟨.attributePathExpected, start⟩
    else (namesOf o word start (Text.splitOn dot names)).map (⟨some urn, ·⟩)
  | none => (namesOf o word position (Text.splitOn dot word)).map (⟨none, ·⟩)

end Path

/-- Operands in order, with the connective that follows each but the last. -/
inductive Operands where
  | single (filter : Filter)
  | cons (filter : Filter) (op : Connective) (rest : Operands)

namespace Operands

/-- The operands as alternatives, each a run of operands joined by `and`. -/
def alternatives : Operands → (Filter × List Filter) × List (Filter × List Filter)
  | single f => ((f, []), [])
  | cons f .and rest => ((f, rest.alternatives.1.1 :: rest.alternatives.1.2), rest.alternatives.2)
  | cons f .or rest => ((f, []), rest.alternatives.1 :: rest.alternatives.2)

def toFilter (s : Operands) : Filter :=
  let conjunction (fs : Filter × List Filter) := Filter.chain .and fs.1 fs.2
  Filter.chain .or (conjunction s.alternatives.1) (s.alternatives.2.map conjunction)

end Operands

namespace Filter

/-- What is read from the front of `tokens`, and the shorter row of tokens after it. -/
abbrev Parsed (α : Type) (tokens : List Token) :=
  Except SyntaxFault { r : α × List Token // r.2.length < tokens.length }

def Parsed.weaken {α : Type} {ts ts' : List Token} (h : ts.length ≤ ts'.length) :
    Parsed α ts → Parsed α ts'
  | .error f => .error f
  | .ok ⟨r, hr⟩ => .ok ⟨r, Nat.lt_of_lt_of_le hr h⟩

def Parsed.map {α β : Type} {ts : List Token} (g : α → β) : Parsed α ts → Parsed β ts
  | .error f => .error f
  | .ok ⟨r, hr⟩ => .ok ⟨(g r.1, r.2), hr⟩

/-- A pair of brackets around a filter. -/
inductive Bracket where
  | round | square

namespace Bracket

def closing : Bracket → Token.Kind
  | round => .closeParen
  | square => .closeBracket

/-- The cause where the tokens end before the closing bracket. -/
def unmatched : Bracket → SyntaxCause
  | round => .unmatchedOpenParen
  | square => .unmatchedOpenBracket

/-- The cause where another token stands in the place of the closing bracket. -/
def expected : Bracket → SyntaxCause
  | round => .closeParenExpected
  | square => .closeBracketExpected

end Bracket

def closeGroup (b : Bracket) (opening : Token) {ts : List Token} :
    Parsed Operands ts → Parsed Filter ts
  | .error f => .error f
  | .ok ⟨(_, []), _⟩ => .error ⟨b.unmatched, opening.position⟩
  | .ok ⟨(operands, t :: rest), h⟩ =>
    if t.kind = b.closing then .ok ⟨(operands.toFilter, rest), Nat.lt_of_succ_lt h⟩
    else .error ⟨b.expected, t.position⟩

mutual

/-- Reads operands up to the first token that is no connective. `stop` is the end of the text. -/
def parseOperands (o : ParserOptions) (stop : Nat) (tokens : List Token) :
    Parsed Operands tokens :=
  match parseOperand o stop tokens with
  | .error f => .error f
  | .ok ⟨(f, []), h⟩ => .ok ⟨(.single f, []), h⟩
  | .ok ⟨(f, t :: rest), h⟩ =>
    match t.kind with
    | .connective op =>
      ((parseOperands o stop rest).weaken (Nat.le_of_succ_le (Nat.le_of_lt h))).map (.cons f op)
    | _ => .ok ⟨(.single f, t :: rest), h⟩
termination_by 2 * tokens.length + 1
decreasing_by
  · omega
  · simp only [List.length_cons] at h; omega

def parseOperand (o : ParserOptions) (stop : Nat) (tokens : List Token) : Parsed Filter tokens :=
  match tokens with
  | [] => .error ⟨.endOfFilter, stop⟩
  | t :: rest =>
    match t.kind with
    | .not =>
      match rest with
      | [] => .error ⟨.endOfFilter, stop⟩
      | opening :: rest =>
        if opening.kind = .openParen then
          ((closeGroup .round opening (parseOperands o stop rest)).weaken
            (by simp only [List.length_cons]; omega)).map .not
        else .error ⟨.openParenExpected, opening.position⟩
    | .openParen => (closeGroup .round t (parseOperands o stop rest)).weaken (by simp)
    | .closeParen => .error ⟨.unmatchedCloseParen, t.position⟩
    | .word =>
      match Path.ofWord o t.text t.position with
      | .error f => .error f
      | .ok path =>
        match rest with
        | [] => .error ⟨.endOfFilter, stop⟩
        | operator :: rest =>
          match operator.kind with
          | .openBracket =>
            ((closeGroup .square operator (parseOperands o stop rest)).weaken
              (by simp only [List.length_cons]; omega)).map (.complex path)
          | .present => .ok ⟨(.present path, rest), by simp only [List.length_cons]; omega⟩
          | .comparison op =>
            match rest with
            | [] => .error ⟨.endOfFilter, stop⟩
            | v :: rest =>
              match v.kind with
              | .value x => .ok ⟨(.compare op path x, rest), by simp only [List.length_cons]; omega⟩
              | _ => .error ⟨.invalidValue, v.position⟩
          | _ => .error ⟨.unknownOperator operator.text, operator.position⟩
    | _ => .error ⟨.attributeNameExpected, t.position⟩
termination_by 2 * tokens.length
decreasing_by all_goals (simp only [List.length_cons]; omega)

end

/-- The filter that a whole row of tokens writes. -/
def ofTokens (o : ParserOptions) (stop : Nat) (tokens : List Token) : Except SyntaxFault Filter :=
  match parseOperands o stop tokens with
  | .error f => .error f
  | .ok ⟨(operands, []), _⟩ => .ok operands.toFilter
  | .ok ⟨(_, t :: _), _⟩ =>
    if t.kind = .closeParen then .error ⟨.unmatchedCloseParen, t.position⟩
    else .error ⟨.unexpectedToken t.text, t.position⟩

/-- The filter that the units from `start` up to `stop` write, with faults at their positions in the
whole text. -/
def parseRange (o : ParserOptions) (t : Text) (start stop : Nat) : Except SyntaxFault Filter :=
  match Token.scanRange o t start stop with
  | .error f => .error f
  | .ok tokens => ofTokens o stop tokens

def parse (o : ParserOptions) (t : Text) : Except SyntaxFault Filter := parseRange o t 0 t.length

end Filter

end Scim
