import Scim.Text

/-!
# Syntax faults

Why a filter or a path could not be read, and where. Positions count the units before the fault in
the whole text.
-/

namespace Scim

inductive SyntaxCause where
  | unexpectedCharacter (c : CodeUnit)
  /-- A string touches the place of a unit that the text does not have. -/
  | missingCharacter
  | unterminatedString
  | invalidUnicodeEscape
  | invalidEscape (c : CodeUnit)
  /-- A backslash stands in front of a unit that the text does not have. -/
  | missingEscape
  | numberOutOfRange (text : Text)
  | endOfFilter
  | attributeNameExpected
  | openParenExpected
  | closeParenExpected
  | closeBracketExpected
  | unmatchedOpenParen
  | unmatchedCloseParen
  | unmatchedOpenBracket
  | unexpectedToken (text : Text)
  | unknownOperator (text : Text)
  | invalidValue
  | attributePathExpected
  | invalidAttributePath (text : Text)
  | valueFilterExpected
  deriving DecidableEq, Inhabited

structure SyntaxFault where
  cause : SyntaxCause
  position : Nat
  deriving DecidableEq, Inhabited

namespace SyntaxFault

/-- The same fault in a text with `n` more units in front. -/
def shift (n : Nat) (f : SyntaxFault) : SyntaxFault := { f with position := n + f.position }

def message (f : SyntaxFault) : Text :=
  let at_ : Text := " at position " ++ Text.ofNat f.position
  match f.cause with
  | .unexpectedCharacter c => "Unexpected character '" ++ [c] ++ "'" ++ at_
  | .missingCharacter => "Unexpected character 'undefined'" ++ at_
  | .unterminatedString => "Unterminated string starting" ++ at_
  | .invalidUnicodeEscape => "Invalid unicode escape sequence" ++ at_
  | .invalidEscape c => "Invalid escape sequence '\\" ++ [c] ++ "'" ++ at_
  | .missingEscape => "Invalid escape sequence '\\undefined'" ++ at_
  | .numberOutOfRange text => "Number '" ++ text ++ "' out of range" ++ at_
  | .endOfFilter => "Unexpected end of filter string"
  | .attributeNameExpected => "Attribute name expected" ++ at_
  | .openParenExpected => "Expected '('" ++ at_
  | .closeParenExpected => "Expected ')'" ++ at_
  | .closeBracketExpected => "Expected ']'" ++ at_
  | .unmatchedOpenParen => "No closing parenthesis matching opening parenthesis" ++ at_
  | .unmatchedCloseParen => "No opening parenthesis matching closing parenthesis" ++ at_
  | .unmatchedOpenBracket => "No closing bracket matching opening bracket" ++ at_
  | .unexpectedToken text => "Unexpected token '" ++ text ++ "'" ++ at_
  | .unknownOperator text =>
    "Unrecognized attribute operator '" ++ text ++ "'" ++ at_ ++
      ". Expected: eq,ne,co,sw,ew,pr,gt,ge,lt,le"
  | .invalidValue => "Invalid comparison value" ++ at_
  | .attributePathExpected => "Attribute path expected" ++ at_
  | .invalidAttributePath text => "Invalid attribute path '" ++ text ++ "'" ++ at_
  | .valueFilterExpected => "Value selection filter expected" ++ at_

end SyntaxFault

end Scim
