import Scim.Json.InLine
import Scim.Json.Object

/-!
# Log configuration

Entries have a level, and only those at least as severe as the configuration demands are written. A
configuration is an object of settings, kept as they are given; what they demand is read off them. It
may demand another level of single modules. Where it names no level, nothing is severe enough.
-/

namespace Scim.Log

inductive Level where
  | debug | info | warn | error
  deriving DecidableEq, Inhabited

namespace Level

def all : List Level := [.debug, .info, .warn, .error]

def name : Level → Text
  | debug => "debug"
  | info => "info"
  | warn => "warn"
  | error => "error"

def ofName? (name : Text) : Option Level := all.find? fun level => level.name == name

theorem ofName?_name (level : Level) : ofName? level.name = some level := by cases level <;> decide

def severity : Level → Nat
  | debug => 0
  | info => 1
  | warn => 2
  | error => 3

def stream : Level → Text
  | info => "log"
  | level => level.name

end Level

inductive Format where
  | json | pretty
  deriving DecidableEq, Inhabited

namespace Format

def all : List Format := [.json, .pretty]

def name : Format → Text
  | json => "json"
  | pretty => "pretty"

def ofName? (name : Text) : Option Format := all.find? fun format => format.name == name

theorem ofName?_name (format : Format) : ofName? format.name = some format := by
  cases format <;> decide

end Format

structure Config where
  settings : Object
  deriving Inhabited

namespace Config

def default : Config :=
  ⟨.ofList [("level", .str Level.info.name), ("format", .str Format.json.name)]⟩

/-- The configuration with further settings, which go before its own. -/
def update (c : Config) (settings : List (Text × Json)) : Config :=
  ⟨c.settings.insertAll settings⟩

def ofSettings (settings : List (Text × Json)) : Config := default.update settings

/-- The configuration that the texts of an environment name. One that is no name counts as
missing. -/
def ofEnvironment (level format : Option Text) : Config :=
  ofSettings (
    Object.single "level" ((level.bind Level.ofName?).map fun level => .str level.name) ++
    Object.single "format" ((format.bind Format.ofName?).map fun format => .str format.name))

/-- The format of the lines, which are objects unless they are demanded to be pretty. -/
def format (c : Config) : Format :=
  match (c.settings.get? "format").bind Json.text? with
  | some name => (Format.ofName? name).getD .json
  | none => .json

def override? (c : Config) (module : Text) : Option Object := do
  (← (← c.settings.get? "moduleOverrides").parts.lookup module).object?

/-- What is demanded as the level of a module. -/
def demand (c : Config) (module : Option Text) : Json :=
  let own := do (← c.override? (← module)).get? "level"
  ((own.filter fun v => !v.isNull).or (c.settings.get? "level")).getD .null

def levelOf? (c : Config) (module : Option Text) : Option Level :=
  Level.ofName? (c.demand module).inLine

def admits (c : Config) (module : Option Text) (level : Level) : Bool :=
  (c.levelOf? module).any fun demanded => demanded.severity ≤ level.severity

/-- More severe entries are written wherever less severe ones are. -/
theorem admits_of_le {c : Config} {module : Option Text} {level level' : Level}
    (h : level.severity ≤ level'.severity) (ha : c.admits module level = true) :
    c.admits module level' = true := by
  simp only [admits, Option.any_eq_true, decide_eq_true_eq] at ha ⊢
  obtain ⟨demanded, hd, hl⟩ := ha
  exact ⟨demanded, hd, Nat.le_trans hl h⟩

end Config

end Scim.Log
