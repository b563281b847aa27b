import Scim.Json.Object

/-!
# Reading documents

The document that a text writes. Of two members with one name the last value counts, in the place
of the first.
-/

namespace Scim.Json

open CodeUnit

def skipBlanks (t : Text) : Text :=
  t.dropWhile fun c => c == 0x20 || c == 0x09 || c == 0x0A || c == 0x0D

/-- Takes a fixed word off the front of a text. -/
def skipWord? (word t : Text) : Option Text :=
  if word.isPrefixOf t then some (t.drop word.length) else none

def parseString? (t : Text) : Option (Text × Text) :=
  match t with
  | c :: rest =>
    if c = quote then
      match Quoted.read rest with
      | .ok r => some (r.value, r.rest)
      | .error _ => none
    else none
  | [] => none

mutual

/-- Takes a value off the front of a text; `fuel` bounds the depth and the number of items. -/
def parseValue? (fuel : Nat) (t : Text) : Option (Json × Text) :=
  match fuel, skipBlanks t with
  | 0, _ => none
  | _, [] => none
  | fuel + 1, c :: rest =>
    if c = quote then (parseString? (c :: rest)).map fun r => (.str r.1, r.2)
    else if c = 0x7B then
      match skipBlanks rest with
      | 0x7D :: rest => some (.obj Object.empty, rest)
      | rest => (parseMembers? fuel Object.empty rest).map fun r => (.obj r.1, r.2)
    else if c = openBracket then
      match skipBlanks rest with
      | 0x5D :: rest => some (.arr [], rest)
      | rest => (parseItems? fuel rest).map fun r => (.arr r.1, r.2)
    else if c = 0x74 then (skipWord? "true" (c :: rest)).map fun rest => (.bool true, rest)
    else if c = 0x66 then (skipWord? "false" (c :: rest)).map fun rest => (.bool false, rest)
    else if c = 0x6E then (skipWord? "null" (c :: rest)).map fun rest => (.null, rest)
    else do
      let (n, rest) ← Numeral.scan? (c :: rest)
      let x ← n.toNumber?
      return (.num x, rest)
termination_by structural fuel

/-- Takes the items of an array and its closing bracket off the front of a text. -/
def parseItems? (fuel : Nat) (t : Text) : Option (List Json × Text) :=
  match fuel with
  | 0 => none
  | fuel + 1 =>
    match parseValue? fuel t with
    | none => none
    | some (v, rest) =>
      match skipBlanks rest with
      | 0x2C :: rest => (parseItems? fuel rest).map fun r => (v :: r.1, r.2)
      | 0x5D :: rest => some ([v], rest)
      | _ => none
termination_by structural fuel

/-- Takes the members of an object and its closing brace off the front of a text, and adds them to
those before. -/
def parseMembers? (fuel : Nat) (before : Object) (t : Text) : Option (Object × Text) :=
  match fuel with
  | 0 => none
  | fuel + 1 =>
    match parseString? (skipBlanks t) with
    | none => none
    | some (key, rest) =>
      match skipBlanks rest with
      | 0x3A :: rest =>
        match parseValue? fuel rest with
        | none => none
        | some (v, rest) =>
          let members := before.insert key v
          match skipBlanks rest with
          | 0x2C :: rest => parseMembers? fuel members rest
          | 0x7D :: rest => some (members, rest)
          | _ => none
      | _ => none
termination_by structural fuel

end

def parse? (t : Text) : Option Json :=
  match parseValue? (t.length + 1) t with
  | some (v, rest) => if (skipBlanks rest).isEmpty then some v else none
  | none => none

end Scim.Json
