import Scim.Proofs.Patch.Accepted
import Scim.Proofs.Patch.Independent
import Scim.Proofs.Path.Selection

/-!
# Removing from one object

What a removal makes of the object that its path starts at (`Operation.removeFrom`) is seen by
reading along the same path: nothing is found in it any more, and where nothing is found there is
nothing to remove (`removeFrom_settled`). A path without filters goes through fields and the items of
arrays, which is what reading by `Path.follow` does as well, so that part is an induction on the
elements; with a filter on the first element there is one array whose items are gone through.

The names of each object have to be distinct: otherwise a second field of the name takes the place
of the one removed.
-/

namespace Scim

open Object

namespace Json

variable {f : Object → Object} {v : Json}

/-- A change of a value that is an object. -/
def onObject (f : Object → Object) : Json → Json
  | .obj o => .obj (f o)
  | v => v

/-- A change of the objects that a path goes on from: a value, or the items of an array. -/
def onObjects (f : Object → Object) : Json → Json
  | .arr items => .arr (items.map (onObject f))
  | v => onObject f v

theorem flatten_onObjects (f : Object → Object) (v : Json) :
    (v.onObjects f).flatten = v.flatten.map (onObject f) := by
  cases v <;> rfl

theorem object?_onObject (f : Object → Object) (v : Json) :
    (v.onObject f).object? = v.object?.map f := by
  cases v <;> rfl

theorem onObject_eq_self (h : ∀ o, v = .obj o → f o = o) : v.onObject f = v := by
  cases v with
  | obj o => exact congrArg Json.obj (h o rfl)
  | _ => rfl

theorem onObjects_eq_self (h : ∀ o, .obj o ∈ v.flatten → f o = o) : v.onObjects f = v := by
  cases v with
  | arr items =>
    have hitems : items.map (onObject f) = items := by
      refine (List.map_congr_left fun w hw => onObject_eq_self ?_).trans (List.map_id _)
      rintro o rfl
      exact h o hw
    exact congrArg Json.arr hitems
  | obj o =>
    have ho : Json.obj o ∈ (Json.obj o).flatten := List.mem_singleton_self _
    exact congrArg Json.obj (h o ho)
  | _ => rfl

end Json

namespace Operation

variable {core : List Text} {o o' : Object} {name key sub : Text} {value : Json} {f : Filter}
  {elements rest : List PathElement} {e : PathElement} {items : List Json}
  {location : Location}

/-! ### Without filters -/

theorem removeFields_last (core : List Text) (name : Text) (o : Object) :
    removeFields core [⟨name, none⟩] o = o.removeField name := by
  rw [removeFields_cons, removeField]
  cases hkey : o.findKey? name with
  | none => rfl
  | some key =>
    obtain ⟨v, hv, -⟩ := get?_of_findKey? hkey
    dsimp only
    rw [hv]
    cases v <;> rfl

theorem removeFields_absent (core : List Text) (rest : List PathElement)
    (h : o.findKey? e.name = none) : removeFields core (e :: rest) o = o := by
  rw [removeFields_cons, h]

theorem removeFields_inside (core : List Text) (hrest : rest ≠ [])
    (hkey : o.findKey? name = some key) (hget : o.get? key = some value) :
    removeFields core (⟨name, none⟩ :: rest) o =
      o.overwrite key (value.onObjects (removeFields core rest)) := by
  have hnil : rest.isEmpty = false := by simpa using hrest
  rw [removeFields_cons, hkey]
  dsimp only [removeAt]
  rw [hget, hnil]
  cases value <;> rfl

/-- Where the removal has been, reading finds nothing. -/
theorem follow_removeFields (core : List Text) (hes : ∀ e ∈ elements, e.selector = none)
    (hne : elements ≠ []) (ho : (Json.obj o).Unambiguous) :
    Path.follow core elements [.obj (removeFields core elements o)] = [] := by
  induction elements generalizing o with
  | nil => exact absurd rfl hne
  | cons e rest ih =>
    obtain ⟨hsel, hrest⟩ := List.forall_mem_cons.mp hes
    obtain ⟨name, selector⟩ := e
    obtain rfl : selector = none := hsel
    rw [Path.follow_field]
    cases rest with
    | nil =>
      have hgone : (o.removeField name).field? name = none :=
        field?_eq_none_iff.mpr ho.distinct.findKey?_removeField
      rw [removeFields_last, hgone]
      rfl
    | cons e' rest' =>
      cases hkey : o.findKey? name with
      | none =>
        rw [removeFields_absent core _ hkey, field?_eq_none_iff.mpr hkey]
        rfl
      | some key =>
        obtain ⟨v, hv, hfield⟩ := get?_of_findKey? hkey
        rw [removeFields_inside core (List.cons_ne_nil _ _) hkey hv, ← storedName_of_findKey? hkey,
          field?_overwrite, hfield, Option.map_some, Option.toList_some, List.flatMap_singleton,
          Path.follow_inside, Json.flatten_onObjects, List.flatMap_map, List.flatMap_eq_nil_iff]
        intro w hw
        rw [Json.object?_onObject]
        cases w with
        | obj inner =>
          have hinner : (Json.obj inner).Unambiguous :=
            Json.Throughout.flatten (Json.Throughout.field? ho hfield) hw
          exact (List.flatMap_singleton ..).trans (ih hrest (List.cons_ne_nil _ _) hinner)
        | _ => rfl

/-- Where reading finds nothing, there is nothing to remove. -/
theorem removeFields_of_follow (hes : ∀ e ∈ elements, e.selector = none)
    (ho : (Json.obj o).Unambiguous) (h : Path.follow core elements [.obj o] = []) :
    removeFields core elements o = o := by
  induction elements generalizing o with
  | nil => rfl
  | cons e rest ih =>
    obtain ⟨hsel, hrest⟩ := List.forall_mem_cons.mp hes
    obtain ⟨name, selector⟩ := e
    obtain rfl : selector = none := hsel
    rw [Path.follow_field] at h
    cases hkey : o.findKey? name with
    | none => exact removeFields_absent core _ hkey
    | some key =>
      obtain ⟨v, hv, hfield⟩ := get?_of_findKey? hkey
      rw [hfield, Option.toList_some, List.flatMap_singleton] at h
      cases rest with
      | nil => cases h
      | cons e' rest' =>
        rw [Path.follow_inside, List.flatMap_eq_nil_iff] at h
        have hsame : v.onObjects (removeFields core (e' :: rest')) = v := by
          refine Json.onObjects_eq_self fun inner hinner => ih hrest ?_ ?_
          · exact Json.Throughout.flatten (Json.Throughout.field? ho hfield) hinner
          · simpa [Json.object?] using h _ hinner
        rw [removeFields_inside core (List.cons_ne_nil _ _) hkey hv, hsame]
        exact overwrite_self (.of_map _ ho.distinct) hv

theorem resolveFrom_eq_nil_iff (hes : ∀ e ∈ elements, e.selector = none) (hne : elements ≠ []) :
    Path.resolveFrom core elements location o = [] ↔
      Path.follow core elements [.obj o] = [] := by
  rw [← Path.map_value_resolveFrom hes hne location o, List.map_eq_nil_iff]

/-! ### With a filter -/

/-- The item without the sub-attribute, if it is a selected object. -/
def clearSub (core : List Text) (f : Filter) (sub : Text) (v : Json) : Json :=
  match v with
  | .obj inner => if f.holds core v then .obj (Object.removeField inner sub) else v
  | v => v

theorem clearSub_obj (core : List Text) (f : Filter) (sub : Text) (o : Object) :
    clearSub core f sub (.obj o) =
      if f.holds core (.obj o) then .obj (o.removeField sub) else .obj o := rfl

theorem removeSelection_sub (core : List Text) (name : Text) (f : Filter) (items : List Json)
    (sub : Text) (o : Object) : removeSelection core name f items (some sub) o =
      o.setField name (.arr (items.map (clearSub core f sub))) := rfl

theorem removeSelection_whole (core : List Text) (name : Text) (f : Filter) (items : List Json)
    (o : Object) : removeSelection core name f items none o =
      if (items.filter fun v => !f.holds core v).isEmpty && !items.isEmpty then o.removeField name
      else o.setField name (.arr (items.filter fun v => !f.holds core v)) := rfl

/-- If nothing is left, something was there because something was selected. -/
theorem none_left_iff {selected : Json → Bool} :
    ((items.filter (!selected ·)).isEmpty && !items.isEmpty) = true ↔
      items.filter (!selected ·) = [] ∧ ∃ v ∈ items, selected v = true := by
  rw [Bool.and_eq_true, List.isEmpty_iff, Bool.not_eq_true', List.isEmpty_eq_false_iff]
  refine and_congr_right fun hnil => ?_
  constructor
  · intro hitems
    obtain ⟨v, hv⟩ := List.exists_mem_of_ne_nil items hitems
    exact ⟨v, hv, by simpa using List.filter_eq_nil_iff.mp hnil v hv⟩
  · rintro ⟨v, hv, -⟩
    exact List.ne_nil_of_mem hv

theorem matchingIndexes_eq_nil_iff :
    Path.matchingIndexes core f items = [] ↔ ∀ v ∈ items, f.holds core v = false := by
  rw [Path.matchingIndexes, List.map_eq_nil_iff, List.filter_eq_nil_iff]
  constructor
  · intro h v hv
    obtain ⟨i, hi⟩ := List.mem_iff_getElem?.mp hv
    simpa using h (v, i) (List.mem_zipIdx_iff_getElem?.mpr hi)
  · rintro h ⟨v, i⟩ hvi
    simpa using h v (List.mem_of_getElem? (List.mem_zipIdx_iff_getElem?.mp hvi))

/-- The items of a multi-valued attribute; none if it is absent or null. -/
def Lists (o : Object) (name : Text) (items : Option (List Json)) : Prop :=
  items = none ∧ (o.field? name).getD .null = .null ∨
    ∃ old, items = some old ∧ o.field? name = some (.arr old)

theorem Lists.field? (h : Lists o name (some items)) : o.field? name = some (.arr items) := by
  rcases h with ⟨hnone, -⟩ | ⟨old, hsome, hold⟩
  · cases hnone
  · cases hsome
    exact hold

theorem Lists.not_items (h : Lists o name none) (items : List Json) :
    o.field? name ≠ some (.arr items) := by
  rcases h with ⟨-, hnull⟩ | ⟨old, hsome, -⟩
  · intro hitems
    rw [hitems] at hnull
    cases hnull
  · cases hsome

theorem Lists.congr {items : Option (List Json)} (h : Lists o name items) (ho : o.Distinct)
    {name' : Text} (hname : name'.lower = name.lower) : Lists o name' items := by
  unfold Lists
  rwa [(ho.unambiguous name).field?_congr hname]

theorem resolveFrom_items_eq_nil_iff {items : Option (List Json)} (h : Lists o name items) :
    Path.resolveFrom core [⟨name, some f⟩] location o = [] ↔
      ∀ v ∈ items.getD [], f.holds core v = false := by
  rw [← matchingIndexes_eq_nil_iff, ← List.map_eq_nil_iff (f := Found.place),
    Path.place_resolveFrom_selector h location, List.map_eq_nil_iff]

theorem resolveFrom_last_eq_nil_iff :
    Path.resolveFrom core [⟨sub, none⟩] location o = [] ↔ o.findKey? sub = none := by
  rw [← List.map_eq_nil_iff (f := Found.value), Path.map_value_resolveFrom_last,
    Option.toList_eq_nil_iff, field?_eq_none_iff]

theorem resolveFrom_sub_eq_nil_iff {items : Option (List Json)} (h : Lists o name items) :
    Path.resolveFrom core [⟨name, some f⟩, ⟨sub, none⟩] location o = [] ↔
      ∀ inner : Object, .obj inner ∈ items.getD [] → f.holds core (.obj inner) →
        inner.findKey? sub = none := by
  rcases h with ⟨rfl, hnull⟩ | ⟨old, rfl, hold⟩
  · refine iff_of_true ?_ nofun
    unfold Path.resolveFrom
    cases hkey : o.findKey? name with
    | none => rfl
    | some key =>
      dsimp only
      rw [field?, hkey, Option.bind_some] at hnull
      cases hv : o.get? key with
      | none => rfl
      | some v =>
        rw [hv] at hnull
        obtain rfl : v = .null := hnull
        simp [PathElement.admits, Json.isNull]
  · obtain ⟨key, hkey, hget⟩ := get?_of_field? hold
    unfold Path.resolveFrom
    rw [hkey]
    dsimp only
    rw [hget]
    simp only [List.isEmpty_cons, Bool.false_and, Bool.false_eq_true, if_false,
      List.flatMap_eq_nil_iff, PathElement.selects, List.mem_filter, Option.getD_some]
    constructor
    · intro hall inner hinner hholds
      obtain ⟨i, hi⟩ := List.mem_iff_getElem?.mp hinner
      have hnil := hall (.obj inner, i) ⟨List.mem_zipIdx_iff_getElem?.mpr hi, hholds⟩
      exact resolveFrom_last_eq_nil_iff.mp hnil
    · rintro hall ⟨v, i⟩ ⟨hvi, hholds⟩
      have hv : v ∈ old := List.mem_of_getElem? (List.mem_zipIdx_iff_getElem?.mp hvi)
      cases v with
      | obj inner => exact resolveFrom_last_eq_nil_iff.mpr (hall inner hv hholds)
      | _ => rfl

theorem clearSub_clearSub {v : Json} (hv : v.Unambiguous) (core : List Text) (f : Filter)
    (sub : Text) : clearSub core f sub (clearSub core f sub v) = clearSub core f sub v := by
  cases v with
  | obj o =>
    by_cases hholds : f.holds core (.obj o)
    · have hgone : Object.findKey? (Object.removeField o sub) sub = none :=
        hv.distinct.findKey?_removeField
      have hsame : Object.removeField (Object.removeField o sub) sub =
          Object.removeField o sub := by
        rw [Object.removeField, hgone]
      rw [clearSub_obj, if_pos hholds, clearSub_obj, hsame]
      exact ite_self _
    · rw [clearSub_obj, if_neg hholds, clearSub_obj, if_neg hholds]
  | _ => rfl

/-! ### Any path -/

/-- The elements of a path whose values an accepted removal may remove. -/
inductive Removable : List PathElement → Prop
  | fields {elements : List PathElement} (hne : elements ≠ [])
    (hes : ∀ e ∈ elements, e.selector = none) : Removable elements
  | items (name : Text) (f : Filter) : Removable [⟨name, some f⟩]
  | sub (name : Text) (f : Filter) (sub : Text) : Removable [⟨name, some f⟩, ⟨sub, none⟩]

theorem Removable.ne_nil (h : Removable elements) : elements ≠ [] := by
  cases h with
  | fields hne => exact hne
  | items => exact List.cons_ne_nil _ _
  | sub => exact List.cons_ne_nil _ _

/-- What a removal makes of the object that its path starts at. -/
def removeFrom (core : List Text) (elements : List PathElement) (o : Object) :
    Except Error Object :=
  match elements with
  | ⟨name, some filter⟩ :: rest =>
    match (o.field? name).getD .null with
    | .arr items => .ok (removeSelection core name filter items (rest.map (·.name)).head? o)
    | .null => .ok o
    | _ => .error (.selectorOnSingleValue name)
  | elements => .ok (removeFields core elements o)

theorem removeFrom_fields (core : List Text) (hes : ∀ e ∈ elements, e.selector = none)
    (o : Object) : removeFrom core elements o = .ok (removeFields core elements o) := by
  unfold removeFrom
  split
  · cases hes _ (List.mem_cons_self ..)
  · rfl

/-- A removal by a filter succeeds where there are items, or nothing. -/
theorem removeFrom_selector_eq_ok (h : removeFrom core (⟨name, some f⟩ :: rest) o = .ok o') :
    Lists o name none ∧ o' = o ∨ ∃ items, o.field? name = some (.arr items) ∧
      o' = removeSelection core name f items (rest.map (·.name)).head? o := by
  unfold removeFrom at h
  dsimp only at h
  split at h
  · rename_i items hitems
    cases h
    exact .inr ⟨items, field?_of_getD hitems (by simp), rfl⟩
  · rename_i hnull
    cases h
    exact .inl ⟨.inl ⟨rfl, hnull⟩, rfl⟩
  · cases h

theorem removeFrom_of_lists_none (h : Lists o name none) :
    removeFrom core (⟨name, some f⟩ :: rest) o = .ok o := by
  rcases h with ⟨-, hnull⟩ | ⟨_, hnone, -⟩
  · unfold removeFrom
    dsimp only
    rw [hnull]
  · cases hnone

theorem removeFrom_of_items (h : o.field? name = some (.arr items)) :
    removeFrom core (⟨name, some f⟩ :: rest) o =
      .ok (removeSelection core name f items (rest.map (·.name)).head? o) := by
  unfold removeFrom
  dsimp only
  rw [h]
  rfl

theorem field?_setField_of_field? (h : o.field? name = some value) (v : Json) :
    (o.setField name v).field? name = some v := by
  rw [setField_of_field? h, field?_overwrite, h]
  rfl

theorem removeSelection_whole_settled (ho : (Json.obj o).Unambiguous)
    (hfield : o.field? name = some (.arr items)) :
    Path.resolveFrom core [⟨name, some f⟩] location (removeSelection core name f items none o) = [] ∧
    removeFrom core [⟨name, some f⟩] (removeSelection core name f items none o) =
      .ok (removeSelection core name f items none o) := by
  rw [removeSelection_whole]
  split_ifs with hempty
  · have hnone : Lists (o.removeField name) name none := by
      refine .inl ⟨rfl, ?_⟩
      rw [field?_eq_none_iff.mpr ho.distinct.findKey?_removeField]
      rfl
    exact ⟨(resolveFrom_items_eq_nil_iff hnone).mpr nofun, removeFrom_of_lists_none hnone⟩
  · let left := items.filter fun v => !f.holds core v
    have hleft : (o.setField name (.arr left)).field? name = some (.arr left) :=
      field?_setField_of_field? hfield _
    have hsame : left.filter (fun v => !f.holds core v) = left := by
      rw [List.filter_filter]
      simp only [Bool.and_self]
      rfl
    refine ⟨(resolveFrom_items_eq_nil_iff (.inr ⟨left, rfl, hleft⟩)).mpr fun v hv => ?_, ?_⟩
    · simpa using (List.mem_filter.mp hv).2
    · have hdistinct : (o.setField name (.arr left)).keys.Nodup :=
        .of_map _ (Distinct.setField ho.distinct)
      rw [removeFrom_of_items hleft]
      refine congrArg Except.ok ?_
      show removeSelection core name f left none _ = _
      rw [removeSelection_whole, hsame, Bool.and_not_self, if_neg (by simp)]
      exact setField_self hdistinct hleft

theorem removeSelection_sub_settled (ho : (Json.obj o).Unambiguous)
    (hfield : o.field? name = some (.arr items)) (sub : Text) :
    Path.resolveFrom core [⟨name, some f⟩, ⟨sub, none⟩] location
      (removeSelection core name f items (some sub) o) = [] ∧
    removeFrom core [⟨name, some f⟩, ⟨sub, none⟩] (removeSelection core name f items (some sub) o) =
      .ok (removeSelection core name f items (some sub) o) := by
  have hitem : ∀ v ∈ items, v.Unambiguous :=
    fun v => Json.Throughout.item (Json.Throughout.field? ho hfield)
  let left := items.map (clearSub core f sub)
  have hleft : (o.setField name (.arr left)).field? name = some (.arr left) :=
    field?_setField_of_field? hfield _
  rw [removeSelection_sub]
  refine ⟨(resolveFrom_sub_eq_nil_iff (.inr ⟨left, rfl, hleft⟩)).mpr ?_, ?_⟩
  · intro inner hinner hholds
    obtain ⟨v, hv, hclear⟩ := List.mem_map.mp hinner
    cases v with
    | obj old =>
      rw [clearSub_obj] at hclear
      split_ifs at hclear with hold
      · cases hclear
        exact (hitem _ hv).distinct.findKey?_removeField
      · cases hclear
        exact absurd hholds hold
    | _ => cases hclear
  · have hdistinct : (o.setField name (.arr left)).keys.Nodup :=
      .of_map _ (Distinct.setField ho.distinct)
    have hsame : left.map (clearSub core f sub) = left := by
      rw [List.map_map]
      exact List.map_congr_left fun v hv => clearSub_clearSub (hitem v hv) core f sub
    rw [removeFrom_of_items hleft]
    refine congrArg Except.ok ?_
    show removeSelection core name f left (some sub) _ = _
    rw [removeSelection_sub, hsame]
    exact setField_self hdistinct hleft

/-- After a removal reading finds nothing, and a second removal changes nothing. -/
theorem removeFrom_settled (hes : Removable elements) (ho : (Json.obj o).Unambiguous)
    (h : removeFrom core elements o = .ok o') (location : Location) :
    Path.resolveFrom core elements location o' = [] ∧ removeFrom core elements o' = .ok o' := by
  cases hes with
  | fields hne hes =>
    rw [removeFrom_fields core hes] at h ⊢
    cases h
    have hfound := follow_removeFields core hes hne ho
    refine ⟨(resolveFrom_eq_nil_iff hes hne).mpr hfound, congrArg _ ?_⟩
    exact removeFields_of_follow hes (removeFields_kept core elements ho) hfound
  | items name f =>
    rcases removeFrom_selector_eq_ok h with ⟨hnone, rfl⟩ | ⟨items, hfield, rfl⟩
    · exact ⟨(resolveFrom_items_eq_nil_iff hnone).mpr nofun, h⟩
    · exact removeSelection_whole_settled ho hfield
  | sub name f sub =>
    rcases removeFrom_selector_eq_ok h with ⟨hnone, rfl⟩ | ⟨items, hfield, rfl⟩
    · exact ⟨(resolveFrom_sub_eq_nil_iff hnone).mpr nofun, h⟩
    · exact removeSelection_sub_settled ho hfield sub

/-! ### Along a path -/

variable {p : Path} {urn : Option Text} {doc root : Object} {container : List Text}
  {op : Operation} {given : Option Json}

theorem modifyAt_root (h : Schema.rootOf? core doc urn = some (container, root))
    (f : Object → Object) : doc.modifyAt f container = doc.modifyAt (fun _ => f root) container := by
  rcases Path.rootOf?_cases h with ⟨rfl, rfl⟩ | ⟨u, key, -, rfl, -, hget⟩
  · rfl
  · rw [modifyAt_cons, modifyAt_cons, hget]
    rfl

theorem modifyAt_root_self (h : Schema.rootOf? core doc urn = some (container, root))
    (hdoc : doc.Distinct) : doc.modifyAt (fun _ => root) container = doc := by
  rcases Path.rootOf?_cases h with ⟨rfl, rfl⟩ | ⟨u, key, -, rfl, -, hget⟩
  · rfl
  · rw [modifyAt_cons, hget]
    exact overwrite_self (.of_map _ hdoc) hget

theorem removePath_of_rootOf? (hes : Removable p.elements) (hdoc : doc.Distinct)
    (hroot : Schema.rootOf? core doc p.schemaUrn = some (container, root)) :
    removePath core p doc =
      match removeFrom core p.elements root with
      | .ok root' => .done (doc.modifyAt (fun _ => root') container)
      | .error e => .failed e doc := by
  obtain ⟨urn, elements⟩ := p
  have hsame : Outcome.done doc = .done (doc.modifyAt (fun _ => root) container) :=
    congrArg Outcome.done (modifyAt_root_self hroot hdoc).symm
  have hselect : ∀ name f rest, elements = ⟨name, some f⟩ :: rest →
      (∀ e ∈ rest, e.selector = none) →
      removePath core ⟨urn, elements⟩ doc =
        match removeFrom core elements root with
        | .ok root' => .done (doc.modifyAt (fun _ => root') container)
        | .error e => .failed e doc := by
    rintro name f rest rfl hrest
    have hlate : ¬ (rest.any fun e => e.selector.isSome) := by simpa using hrest
    have hat : doc.objectAt container = root := (Path.startsIn_of_rootOf? hroot).2
    unfold removePath removeFrom
    dsimp only
    rw [if_neg (by simp)]
    unfold Path.target
    rw [Path.targetRoot_of_rootOf? hroot]
    dsimp only
    rw [if_neg hlate]
    unfold Path.targetSelection
    rw [hat]
    cases root.field? name with
    | none => exact hsame
    | some v =>
      cases v with
      | arr items => exact congrArg Outcome.done (modifyAt_root hroot _)
      | null => exact hsame
      | _ => rfl
  cases hes with
  | items name f => exact hselect name f [] rfl nofun
  | sub name f sub => exact hselect name f _ rfl (by simp)
  | fields hne hes =>
    obtain ⟨e, rest, rfl⟩ := List.exists_cons_of_ne_nil hne
    rw [removeFrom_fields core hes]
    unfold removePath
    dsimp only
    rw [hes e (List.mem_cons_self ..)]
    rw [hroot]
    exact congrArg Outcome.done (modifyAt_root hroot _)

/-- Without a URN it is the resource itself that the removal starts at. -/
theorem removePath_plain (hes : Removable elements) (hdoc : doc.Distinct) :
    removePath core ⟨none, elements⟩ doc =
      match removeFrom core elements doc with
      | .ok o => .done o
      | .error e => .failed e doc := by
  have hpath : removePath core ⟨none, elements⟩ doc = _ := removePath_of_rootOf? hes hdoc rfl
  exact hpath

/-! ### Accepted removals -/

/-- The paths of other accepted operations have no other form. -/
theorem removable_of_make {change : Change} (hne : p.elements ≠ [])
    (h : make change (some p) given = .ok op) : Removable p.elements := by
  obtain ⟨rfl, hcheck⟩ := eq_of_make hne h
  have hlate := selector_of_make h p rfl
  have hselection : checkSelection change p given = .ok () :=
    (check_eq_ok_iff.mp hcheck).2.2.2 p rfl
  obtain ⟨urn, elements⟩ := p
  cases elements with
  | nil => exact absurd rfl hne
  | cons e rest =>
    obtain ⟨name, selector⟩ := e
    cases selector with
    | none => exact .fields hne (List.forall_mem_cons.mpr ⟨rfl, hlate⟩)
    | some f =>
      have hlength := (checkSelection_eq_ok_iff.mp hselection _ _ rfl).1
      rcases rest with _ | ⟨⟨sub, selector⟩, _ | ⟨e', rest⟩⟩
      · exact .items name f
      · obtain rfl : selector = none := by simpa using hlate
        exact .sub name f sub
      · simp at hlength

/-- A removal that lists no values is the removal of what its path addresses. -/
theorem apply_removal (hne : p.elements ≠ []) (h : make .remove (some p) given = .ok op)
    (hvalue : given? given = none) (options : PatchOptions) (doc : Object) :
    op.apply options doc =
      ⟨(removePath options.coreUrns p doc).result,
        p.schemaUrn.toList.foldl (updateSchema options.coreUrns)
          (removePath options.coreUrns p doc).resource⟩ := by
  obtain ⟨rfl, -⟩ := eq_of_make hne h
  have hlist : removesByValue ⟨.remove, some p, given⟩ = false := by
    simp [removesByValue, hvalue]
  unfold apply applyChange applyRemove
  dsimp only
  rw [hlist]
  rfl

end Operation

end Scim
