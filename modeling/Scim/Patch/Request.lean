import Scim.Options.Check
import Scim.Patch.Apply
import Scim.Patch.Wire

/-!
# Applying requests

A request is applied to a resource, or to whatever holds one: then the patched resource is put back
even if the request fails. The trace of a run is what it does step by step.
-/

namespace Scim

structure Container (σ : Type) where
  get : σ → Object
  set : σ → Object → σ

inductive Event where
  | applying (index : Nat) (op : Operation)
  | failed (index : Nat) (op : Operation) (error : Error)

namespace Operation

/-- What happens when operations are applied, the first of them being number `index`. -/
def traceFrom (options : PatchOptions) (index : Nat) : List Operation → Object → List Event
  | [], _ => []
  | op :: rest, resource =>
    let outcome := op.apply options resource
    .applying index op ::
      (match outcome.result with
        | .ok _ => traceFrom options (index + 1) rest outcome.resource
        | .error e => [.failed index op e])

end Operation

namespace Request

def apply (options : PatchOptions) (r : Request) (resource : Object) : Outcome :=
  Operation.applyAll options r.operations resource

def trace (options : PatchOptions) (r : Request) (resource : Object) : List Event :=
  Operation.traceFrom options 0 r.operations resource

def applyWith (options : Option Json) (r : Request) (resource : Object) : Outcome :=
  match PatchOptions.read options with
  | .ok options => r.apply options resource
  | .error e => .failed e resource

/-- What happens when a request is applied with options that are still to be checked. -/
def traceWith (options : Option Json) (r : Request) (resource : Object) : List Event :=
  match PatchOptions.read options with
  | .ok options => r.trace options resource
  | .error _ => []

/-- Applies a request to the resource in a container and puts the patched resource back. -/
def applyIn {σ : Type} (c : Container σ) (options : Option Json) (r : Request) (s : σ) :
    Except Error Unit × σ :=
  let outcome := r.applyWith options (c.get s)
  (outcome.result, c.set s outcome.resource)

end Request

end Scim
