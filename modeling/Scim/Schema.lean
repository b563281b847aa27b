import Scim.Text

/-!
# Schema names

The URNs of the schemas and messages of the protocol, and the names of the attributes and members
that carry a meaning of their own.
-/

namespace Scim.Schema

def user : Text := "urn:ietf:params:scim:schemas:core:2.0:User"

def group : Text := "urn:ietf:params:scim:schemas:core:2.0:Group"

def enterpriseUser : Text := "urn:ietf:params:scim:schemas:extension:enterprise:2.0:User"

def errorMessage : Text := "urn:ietf:params:scim:api:messages:2.0:Error"

def patchMessage : Text := "urn:ietf:params:scim:api:messages:2.0:PatchOp"

end Scim.Schema
