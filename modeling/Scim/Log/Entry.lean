import Scim.Instant
import Scim.Log
import Scim.Text.UpperCase

/-!
# Log entries

An entry is an object: the time, the level, the message, the fields of its logger, those of the call
and the error, if there is one. A field may take the name of an earlier one, which keeps its place;
what a line shows is read off the entry. An entry is written as it is or as one line for people.
-/

namespace Scim

namespace Log

/-- What an entry stands for in a line; an entry has a value for each of these names. -/
def textOf (entry : Object) (name : Text) : Text := ((entry.get? name).map Json.inLine).getD []

def moduleName : Text := "module"

/-- The module that the fields name, if any. -/
def moduleOf (fields : Object) : Option Text :=
  ((fields.get? moduleName).filter fun v => !v.isNegative).map Json.inLine

namespace Level

def colour : Level → Text
  | debug => "\x1b[90m"
  | info => "\x1b[36m"
  | warn => "\x1b[33m"
  | error => "\x1b[31m"

end Level

def colourEnd : Text := "\x1b[0m"

/-- The methods that every object has. -/
def objectMethods : List Text :=
  ["hasOwnProperty", "isPrototypeOf", "propertyIsEnumerable", "toLocaleString", "toString",
    "valueOf", "__defineGetter__", "__defineSetter__", "__lookupGetter__", "__lookupSetter__"]

/-- How a line shows a function. -/
def functionText (name : Text) : Text := "function " ++ name ++ "() \x7b [native code] \x7d"

/-- What stands in front of a line for a text that is no level. The colours of the levels are an
object, so the name of a member that every object has brings up that member. -/
def strayColour (level : Text) : Text :=
  if level == "constructor" then functionText "Object"
  else if level == reservedName then Json.inLine (.obj Object.empty)
  else if objectMethods.contains level then functionText level
  else "undefined"

/-- What a line starts with: the colour of its level. -/
def colourOf (level : Text) : Text :=
  ((Level.ofName? level).map Level.colour).getD (strayColour level)

/-- The line for people: the time of day, the level in its colour, the module and the message. -/
def pretty (entry : Object) : Text :=
  let level := textOf entry "level"
  let module := match moduleOf entry with
    | some name => "[" ++ name ++ "] "
    | none => ""
  colourOf level ++ ((textOf entry "timestamp").take 23).drop 11 ++ " " ++
    level.upper.rightpad 5 0x20 ++ colourEnd ++ " " ++ module ++ textOf entry "message"

namespace Format

def line : Format → Object → Text
  | json, entry => (Json.obj entry).render
  | pretty, entry => Log.pretty entry

end Format

structure Line where
  level : Level
  text : Text
  deriving DecidableEq, Inhabited

/-- A logger: the fields of all its entries, and settings that go before the configuration. -/
structure Logger where
  fields : Object
  settings : List (Text × Json)
  deriving Inhabited

namespace Logger

def child (l : Logger) (fields : List (Text × Json)) : Logger :=
  { l with fields := l.fields.insertAll fields }

def ofModule (l : Logger) (name : Text) : Logger := l.child [(moduleName, .str name)]

/-- The entry of a call; only warnings and errors tell of an error. -/
def entry (l : Logger) (millis : Int) (level : Level) (message : Text)
    (fields : List (Text × Json)) (error : Option Text) : Object :=
  let told := match level with
    | .warn | .error => error
    | .debug | .info => none
  (Object.ofList [("timestamp", .str (Instant.format millis)), ("level", .str level.name),
    ("message", .str message)]).insertAll (l.fields.members ++ fields ++
    Object.single "error" (told.map fun t => .ofMembers [("message", .str t)]))

/-- The line that a call writes, if its level is admitted. The module of the logger counts, not one
among the fields of the call. -/
def write (l : Logger) (c : Config) (millis : Int) (level : Level) (message : Text)
    (fields : List (Text × Json)) (error : Option Text) : Option Line :=
  let c := c.update l.settings
  if c.admits (moduleOf l.fields) level then
    some ⟨level, c.format.line (l.entry millis level message fields error)⟩
  else none

end Logger

end Log

end Scim
