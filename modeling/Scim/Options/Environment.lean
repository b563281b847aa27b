import Scim.Flag
import Scim.Options.Check

/-!
# Options from an environment

The configuration that environment variables give: a text of further name characters, a flag for
removing members by value, and a list of core schema URNs with commas.
-/

namespace Scim

structure Environment where
  extended : Option Text
  removeByValue : Option Text
  coreUrns : Option Text
  deriving Inhabited

namespace Environment

/-- The configuration as a document, before it is checked. -/
def document (e : Environment) : Json :=
  .ofMembers [
    ("parser", .ofMembers [("extendedAttributeNameCharacters",
      .arr ((e.extended.getD []).points.map fun n => .str (Text.ofPoint n)))]),
    ("patch", .ofMembers (
      ("allowMemberRemoveByValue", .bool (Flag.boolean true e.removeByValue)) ::
      Object.single "coreSchemaUrns" ((Flag.list? "," e.coreUrns).map fun urns =>
        .arr (urns.map .str))))]

def config (e : Environment) : Except Error Config := Config.read (some e.document)

end Environment

end Scim
