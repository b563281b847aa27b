import Scim.Filter.Parse

/-!
# Reading paths

A path is an optional schema URN with a colon, and attribute names with points between them, each
with an optional filter in square brackets. The URN reaches to the last colon before the first
bracket. Blank text is the path of the resource itself.
-/

namespace Scim.Path

open CodeUnit

/-- The text up to the bracket that closes the one just passed, and the text after it. Brackets
inside quoted strings do not count; `depth` brackets are open inside. -/
def splitBracket (depth : Nat) (quoted : Bool) (t : Text) : Option (Text × Text) :=
  match t with
  | [] => none
  | c :: rest =>
    if quoted then
      if c = backslash then
        match rest with
        | [] => none
        | e :: rest => (splitBracket depth true rest).map fun r => (c :: e :: r.1, r.2)
      else (splitBracket depth (c != quote) rest).map fun r => (c :: r.1, r.2)
    else if c = quote then (splitBracket depth true rest).map fun r => (c :: r.1, r.2)
    else if c = openBracket then
      (splitBracket (depth + 1) false rest).map fun r => (c :: r.1, r.2)
    else if c = closeBracket then
      match depth with
      | 0 => some ([], rest)
      | depth + 1 => (splitBracket depth false rest).map fun r => (c :: r.1, r.2)
    else (splitBracket depth false rest).map fun r => (c :: r.1, r.2)
termination_by structural t

/-- Reads one element off the front of a text, with the number of its units. -/
def parseElement (o : ParserOptions) (t : Text) : Except SyntaxFault (PathElement × Nat) :=
  let name := t.takeWhile o.isNameUnit
  if name.isEmpty then .error ⟨.attributeNameExpected, 0⟩
  else match t.drop name.length with
    | [] => .ok (⟨name, none⟩, name.length)
    | c :: rest =>
      if c = openBracket then
        match splitBracket 0 false rest with
        | none => .error ⟨.unmatchedOpenBracket, name.length⟩
        | some (content, _) =>
          if (Text.trim content).isEmpty then .error ⟨.valueFilterExpected, name.length + 1⟩
          else match Filter.parseRange o t (name.length + 1) (name.length + 1 + content.length) with
            | .error f => .error f
            | .ok f => .ok (⟨name, some f⟩, name.length + content.length + 2)
      else .ok (⟨name, none⟩, name.length)

def parseElements (o : ParserOptions) (t : Text) : Except SyntaxFault (List PathElement) :=
  match parseElement o t with
  | .error f => .error f
  | .ok (e, n) =>
    match _h : t.drop n with
    | [] => .ok [e]
    | c :: rest =>
      if c = dot then
        match parseElements o rest with
        | .error f => .error (f.shift (n + 1))
        | .ok es => .ok (e :: es)
      else .error ⟨.unexpectedCharacter c, n⟩
termination_by t.length
decreasing_by
  have h := congrArg List.length _h
  simp at h
  omega

/-- The path written by a text without white space around it. -/
def parseTrimmed (o : ParserOptions) (t : Text) : Except SyntaxFault Path :=
  if t.isEmpty then .ok root
  else match if t.isUrn then Text.splitAtLast? colon (t.takeWhile (· != openBracket)) else none with
    | some (urn, name) =>
      let rest := name ++ t.dropWhile (· != openBracket)
      if rest.isEmpty then .ok ⟨some urn, []⟩
      else match parseElements o rest with
        | .error f => .error (f.shift (urn.length + 1))
        | .ok es => .ok ⟨some urn, es⟩
    | none =>
      match parseElements o t with
      | .error f => .error f
      | .ok es => .ok ⟨none, es⟩

def parse (o : ParserOptions) (t : Text) : Except SyntaxFault Path :=
  match parseTrimmed o t.trim with
  | .error f => .error (f.shift (t.length - t.trimLeft.length))
  | .ok p => .ok p

end Scim.Path
