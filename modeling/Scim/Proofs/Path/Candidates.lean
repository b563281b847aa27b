import Mathlib.Data.List.Basic
import Mathlib.Tactic.Common
import Scim.Resource

/-!
# Conditions and reading walk alike

A condition follows a path level by level, with every value reached so far in hand
(`Path.follow`); reading follows each branch to its end and keeps the places (`Path.resolveFrom`).
Along elements without filters both come to the same values in the same order
(`map_value_resolveFrom`): whatever is no object ends both walks, and the level by level walk may
be cut into the walks from the single values (`follow_flatMap`).
-/

namespace Scim

namespace Json

theorem allUnassigned_eq_all (items : List Json) :
    allUnassigned items = items.all Json.isUnassigned := by
  induction items with
  | nil => rfl
  | cons v rest ih => rw [allUnassigned, ih, List.all_cons]

theorem flatten_obj (o : Object) : flatten (.obj o) = [.obj o] := rfl

/-- A value counts as assigned as soon as one of its items does; null never does. -/
theorem any_assigned_flatten (v : Json) :
    (v.flatten.filter fun w => !w.isNull).any (fun w => !w.isUnassigned) = !v.isUnassigned := by
  have hnull : ∀ w : Json, (!w.isNull && !w.isUnassigned) = !w.isUnassigned := by
    intro w; cases w <;> rfl
  simp only [List.any_filter, hnull]
  cases v with
  | arr items => simp [flatten, isUnassigned, allUnassigned_eq_all, List.not_all_eq_any_not]
  | _ => simp [flatten, isUnassigned]

end Json

namespace Path

variable {core : List Text} {elements : List PathElement} {values : List Json}

theorem follow_cons (e : PathElement) (rest : List PathElement) (values : List Json) :
    follow core (e :: rest) values =
      follow core rest ((values.flatMap Json.flatten).flatMap fun v => e.valuesIn core v) := rfl

/-- Values do not meet on the way. -/
theorem follow_flatMap (core : List Text) (elements : List PathElement) (values : List Json) :
    follow core elements values = values.flatMap fun v => follow core elements [v] := by
  induction elements generalizing values with
  | nil => simp [follow]
  | cons e rest ih =>
    simp only [follow_cons, List.flatMap_cons, List.flatMap_nil, List.append_nil]
    rw [ih]
    simp only [List.flatMap_assoc]
    refine List.flatMap_congr fun v _ => ?_
    rw [ih (v.flatten.flatMap _), List.flatMap_assoc]

/-- What a condition looks at: the values, arrays replaced by their items and nulls left out. -/
def entries (values : List Json) : List Json :=
  (values.flatMap Json.flatten).filter fun w => !w.isNull

theorem entries_flatMap {α : Type} (xs : List α) (values : α → List Json) :
    entries (xs.flatMap values) = xs.flatMap fun x => entries (values x) := by
  simp only [entries, List.flatMap_assoc, List.filter_flatMap]

theorem candidates_obj (p : Path) (doc : Object) : p.candidates core (.obj doc) =
    (Schema.rootOf? core doc p.schemaUrn).toList.flatMap fun root =>
      entries (follow core p.elements [.obj root.2]) := by
  obtain ⟨urn, elements⟩ := p
  unfold candidates
  cases hroot : Schema.rootOf? core doc urn <;> simp [hroot, entries]

theorem candidates_scalar (p : Path) {v : Json} (hv : v.object? = none) :
    p.candidates core v = p.ofScalar v := by
  obtain ⟨urn, elements⟩ := p
  cases v with
  | obj o => cases hv
  | _ => rfl

theorem valuesIn_eq (e : PathElement) (v : Json) : e.valuesIn core v =
    v.object?.toList.flatMap fun o => e.valuesIn core (.obj o) := by
  obtain ⟨name, selector⟩ := e
  cases v with
  | obj o => exact (List.flatMap_singleton ..).symm
  | _ => cases selector <;> rfl

theorem valuesIn_plain (name : Text) (v : Json) :
    PathElement.valuesIn core ⟨name, none⟩ v =
      (v.object?.bind (Object.field? · name)).toList := by
  unfold PathElement.valuesIn
  cases v.object?.bind (Object.field? · name) <;> rfl

theorem valuesIn_selector (name : Text) (f : Filter) (v : Json) :
    PathElement.valuesIn core ⟨name, some f⟩ v =
      (v.object?.bind (Object.field? · name)).toList.flatMap fun field =>
        field.flatten.filter (f.holds core) := by
  conv_lhs => unfold PathElement.valuesIn
  cases v.object?.bind (Object.field? · name) <;> simp

/-- Only objects lead on, those in an array one after the other. -/
theorem follow_inside (e : PathElement) (rest : List PathElement) (v : Json) :
    follow core (e :: rest) [v] = v.flatten.flatMap fun w =>
      w.object?.toList.flatMap fun o => follow core (e :: rest) [.obj o] := by
  rw [follow_cons, List.flatMap_singleton, follow_flatMap, List.flatMap_assoc]
  refine List.flatMap_congr fun w _ => ?_
  rw [valuesIn_eq, List.flatMap_assoc]
  refine List.flatMap_congr fun o _ => ?_
  rw [follow_cons, List.flatMap_singleton, Json.flatten_obj, List.flatMap_singleton,
    follow_flatMap core rest (e.valuesIn core _)]

theorem follow_field (name : Text) (rest : List PathElement) (o : Object) :
    follow core (⟨name, none⟩ :: rest) [.obj o] =
      (o.field? name).toList.flatMap fun v => follow core rest [v] := by
  rw [follow_cons, List.flatMap_singleton, Json.flatten_obj, List.flatMap_singleton, valuesIn_plain,
    follow_flatMap]
  rfl

/-- At its end the walk by places is at the field itself. -/
theorem map_value_resolveFrom_last (name : Text) (location : Location) (o : Object) :
    (resolveFrom core [⟨name, none⟩] location o).map Found.value = (o.field? name).toList := by
  unfold resolveFrom Object.field?
  cases o.findKey? name with
  | none => rfl
  | some key =>
    cases hv : o.get? key with
    | none => simp [hv]
    | some v => cases v <;> simp [hv, PathElement.admits]

/-- One step of the walk by places: into the field, and into the objects that it holds. -/
theorem map_value_resolveFrom_cons {name : Text} {rest : List PathElement} (hrest : rest ≠ [])
    {values : Object → List Json} {o : Object}
    (h : ∀ v ∈ o.field? name, ∀ inner, .obj inner ∈ v.flatten → ∀ location,
      (resolveFrom core rest location inner).map Found.value = values inner)
    (location : Location) :
    (resolveFrom core (⟨name, none⟩ :: rest) location o).map Found.value =
      (o.field? name).toList.flatMap fun v => v.flatten.flatMap fun w =>
        w.object?.toList.flatMap values := by
  have hempty : rest.isEmpty = false := by simpa using hrest
  unfold resolveFrom
  cases hkey : o.findKey? name with
  | none => simp [Object.field?, hkey]
  | some key =>
    have hfield : o.field? name = o.get? key := by rw [Object.field?, hkey, Option.bind_some]
    rw [hfield] at h ⊢
    cases hv : o.get? key with
    | none => simp [hv]
    | some v =>
      simp only [hv, Option.toList_some, List.flatMap_singleton]
      -- an array is entered item by item, any other value as a single one
      cases v with
      | arr items =>
        simp only [hempty, Bool.false_and, Bool.false_eq_true, if_false, PathElement.selects,
          List.filter_true, List.map_flatMap, Json.flatten]
        conv_rhs => rw [← List.zipIdx_map_fst 0 items, List.flatMap_map]
        refine List.flatMap_congr fun i hi => ?_
        have hin := h _ hv
        cases hi1 : i.1 with
        | obj inner =>
          simpa [Json.object?] using hin inner (hi1 ▸ List.fst_mem_of_mem_zipIdx hi) _
        | _ => simp [Json.object?]
      | obj inner =>
        simpa [hempty, PathElement.admits, Json.flatten, Json.object?] using
          h _ hv inner (List.mem_singleton_self _) _
      | _ => simp [hempty, PathElement.admits, Json.flatten, Json.object?]

/-- The walk by places reaches the values of the walk by levels. -/
theorem map_value_resolveFrom (hes : ∀ e ∈ elements, e.selector = none) (hne : elements ≠ [])
    (location : Location) (o : Object) :
    (resolveFrom core elements location o).map Found.value = follow core elements [.obj o] := by
  induction elements generalizing location o with
  | nil => exact absurd rfl hne
  | cons e rest ih =>
    obtain ⟨name, selector⟩ := e
    obtain rfl : selector = none := hes _ (List.mem_cons_self ..)
    have hrest : ∀ e ∈ rest, e.selector = none := fun e he => hes e (List.mem_cons_of_mem _ he)
    rw [follow_field]
    cases rest with
    | nil => simp [map_value_resolveFrom_last, follow]
    | cons e' rest' =>
      rw [map_value_resolveFrom_cons (by simp) fun v _ inner _ location =>
        ih hrest (by simp) location inner]
      exact List.flatMap_congr fun v _ => (follow_inside e' rest' v).symm

theorem values_eq_follow {p : Path} (h : ∀ e ∈ p.elements, e.selector = none) (core : List Text)
    (doc : Object) : p.values core doc = (Schema.rootOf? core doc p.schemaUrn).toList.flatMap
      fun root => follow core p.elements [.obj root.2] := by
  rw [values, resolve]
  cases Schema.rootOf? core doc p.schemaUrn with
  | none => rfl
  | some root =>
    rw [Option.toList_some, List.flatMap_singleton]
    by_cases hne : p.elements = []
    · simp [hne, follow]
    · simpa [hne] using map_value_resolveFrom h hne _ root.2

/-- What a condition looks at: the values at its path, arrays replaced by their items and nulls left
out. -/
theorem candidates_eq {p : Path} (h : ∀ e ∈ p.elements, e.selector = none) (core : List Text)
    (doc : Object) : p.candidates core (.obj doc) =
      ((p.values core doc).flatMap Json.flatten).filter fun w => !w.isNull := by
  rw [values_eq_follow h, candidates_obj, List.flatMap_assoc, List.filter_flatMap]
  rfl

end Path

/-- On a path that selects nothing, the values that a condition looks at are those that the resource
reads, in the same order; and the attribute is present just if something assigned is read. -/
theorem candidates_eq_values (r : Resource) (p : Path) (h : ∀ e ∈ p.elements, e.selector = none) :
    r.values (.tree p) = .ok (p.candidates r.patch.coreUrns (.obj r.node)) ∧
    (Filter.present p).holds r.patch.coreUrns (.obj r.node) =
      p.hasValue r.patch.coreUrns r.node := by
  rw [Filter.holds, Path.candidates_eq h]
  refine ⟨rfl, ?_⟩
  rw [Path.hasValue, List.filter_flatMap, List.any_flatMap]
  exact congrArg (List.any _) (funext Json.any_assigned_flatten)

/-- Three entries in a list: an address, a gap, and addresses in a list of their own. -/
def mailbox : Resource :=
  ⟨⟨[("emails", .arr [.ofMembers [("value", .str "a")], .null,
    .ofMembers [("value", .arr [.str "b", .null, .str "c"])]])], false⟩, .default, .default⟩

def mailPath : Path := ⟨none, [⟨"emails", none⟩, ⟨"value", none⟩]⟩

theorem candidates_eq_values_mailbox :
    (∀ e ∈ mailPath.elements, e.selector = none) ∧
    mailbox.values (.tree mailPath) = .ok [.str "a", .str "b", .str "c"] ∧
    (Filter.present mailPath).holds mailbox.patch.coreUrns (.obj mailbox.node) =
      mailPath.hasValue mailbox.patch.coreUrns mailbox.node := by
  have h : ∀ e ∈ mailPath.elements, e.selector = none := by simp [mailPath]
  have hwalk := candidates_eq_values mailbox mailPath h
  exact ⟨h, hwalk.1.trans rfl, hwalk.2⟩

end Scim
