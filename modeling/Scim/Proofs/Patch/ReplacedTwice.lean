import Scim.Proofs.Patch.WrittenTwice

/-!
# Replacing twice along a path

A replacement is the same done twice (`replace_twice`) as long as its value fits where it is
written: an object drops the members that are no value from an object that is there, but is stored
with them where there is none, and then drops them the second time. What is there is read off the
resource before (`Path.fieldObjects`): for a path without filters in the one object in which the
descent ends, for a filter with a sub-attribute in each selected item that is an object.

A filter need not select the same items the second time. It does not matter: an item that was
replaced is the value or has the value in its field, and one that was left alone is as before.
-/

namespace Scim

open Object

namespace Path

variable {core : List Text} {p path : Path} {elements : List PathElement} {create : Bool}
  {change : Object → Object} {doc o o' root inner : Object} {container : List Text}
  {name sub : Text} {f : Filter} {items : List Json} {w : Json}

/-! ### What a replacement writes over -/

/-- What is in the field of the last element in each object that is written to: an object, or none.
Without filters it is one object, which is made if it is not there. Selected items are not written
to but replaced as a whole. -/
def fieldObjects (core : List Text) (p : Path) (doc : Object) : List (Option Object) :=
  match p.elements.getLast? with
  | some ⟨name, none⟩ =>
    match (p.parent.values core doc).filterMap Json.object? with
    | [] => if p.elements.all (·.selector.isNone) then [none] else []
    | holders => holders.map fun o => (o.field? name).bind Json.object?
  | _ => []

theorem holders_of_null {w : Option Json} (hw : w.getD .null = .null) (core : List Text)
    (elements : List PathElement) :
    (w.toList.flatMap fun v => follow core elements [v]).filterMap Json.object? = [] := by
  cases elements with
  | nil =>
    cases w with
    | none => rfl
    | some v =>
      obtain rfl : v = .null := hw
      rfl
  | cons e rest =>
    rw [follow_of_null hw]
    rfl

/-- Where a descent ends is where the path without its last element leads, or that leads to no
object. -/
theorem holders_of_changeIn (core : List Text) (hes : ∀ e ∈ elements, e.selector = none)
    (hne : elements ≠ []) (h : changeIn path create change elements o = .ok o') :
    (follow core elements.dropLast [.obj o]).filterMap Json.object? = [endOf elements o] ∨
      (follow core elements.dropLast [.obj o]).filterMap Json.object? = [] ∧
        endOf elements o = empty := by
  induction elements generalizing o o' with
  | nil => exact absurd rfl hne
  | cons e rest ih =>
    obtain ⟨hsel, hrest⟩ := List.forall_mem_cons.mp hes
    obtain ⟨n, selector⟩ := e
    obtain rfl : selector = none := hsel
    cases rest with
    | nil => exact .inl rfl
    | cons e' rest =>
      have hnext := List.cons_ne_nil e' rest
      rw [List.dropLast_cons_of_ne_nil hnext, follow_field]
      rcases changeIn_cons_eq_ok h with ⟨inner, r, hfield, hr, -⟩ | ⟨hnull, -⟩
      · dsimp only at hfield
        rw [endOf_cons, hfield, Option.toList_some, List.flatMap_singleton]
        exact ih hrest hnext hr
      · exact .inr ⟨holders_of_null hnull core _, endOf_of_null hnull⟩

theorem parent_values (hes : ∀ e ∈ p.elements, e.selector = none) (core : List Text)
    (doc : Object) : p.parent.values core doc = (Schema.rootOf? core doc p.schemaUrn).toList.flatMap
      fun root => follow core p.elements.dropLast [.obj root.2] :=
  values_eq_follow (p := p.parent) (fun e he => hes e (List.dropLast_subset _ he)) core doc

theorem fieldObjects_plain (hes : ∀ e ∈ p.elements, e.selector = none) (hne : p.elements ≠ [])
    (core : List Text) (doc : Object) : p.fieldObjects core doc =
      match (p.parent.values core doc).filterMap Json.object? with
      | [] => [none]
      | holders => holders.map fun o => (o.field? (p.elements.getLast hne).name).bind Json.object? := by
  have hall : p.elements.all (·.selector.isNone) = true := by simpa using hes
  unfold fieldObjects
  rw [List.getLast?_eq_some_getLast hne, hall]
  have hlast := hes _ (List.getLast_mem hne)
  generalize p.elements.getLast hne = e at hlast
  obtain ⟨name, selector⟩ := e
  obtain rfl : selector = none := hlast
  rfl

/-- A descent ends at one of the objects. -/
theorem mem_fieldObjects_of_changeIn (hes : ∀ e ∈ p.elements, e.selector = none)
    (hne : p.elements ≠ []) (hroot : Schema.rootOf? core doc p.schemaUrn = some (container, root))
    (h : changeIn p create change p.elements root = .ok o') :
    ((endOf p.elements root).field? (p.elements.getLast hne).name).bind Json.object? ∈
      p.fieldObjects core doc := by
  rw [fieldObjects_plain hes hne, parent_values hes, hroot, Option.toList_some,
    List.flatMap_singleton]
  rcases holders_of_changeIn core hes hne h with hheld | ⟨hheld, hend⟩
  · rw [hheld]
    exact List.mem_singleton_self _
  · rw [hheld, hend]
    exact List.mem_singleton_self _

theorem mem_fieldObjects_of_rootOf?_none (hes : ∀ e ∈ p.elements, e.selector = none)
    (hne : p.elements ≠ []) (hroot : Schema.rootOf? core doc p.schemaUrn = none) :
    none ∈ p.fieldObjects core doc := by
  rw [fieldObjects_plain hes hne, parent_values hes, hroot]
  exact List.mem_singleton_self _

theorem mem_values_of_selected {urn : Option Text}
    (hroot : Schema.rootOf? core doc urn = some (container, root))
    (hitems : root.field? name = some (.arr items)) (hmem : w ∈ items)
    (hholds : f.holds core w = true) : w ∈ values core ⟨urn, [⟨name, some f⟩]⟩ doc := by
  obtain ⟨key, hkey, hget⟩ := get?_of_field? hitems
  obtain ⟨i, hi⟩ := List.mem_iff_getElem?.mp hmem
  have hpicked : (w, i) ∈ items.zipIdx.filter fun i => f.holds core i.1 :=
    List.mem_filter.mpr ⟨List.mem_zipIdx_iff_getElem?.mpr hi, hholds⟩
  unfold values resolve
  dsimp only
  rw [hroot]
  dsimp only
  rw [if_neg (by simp)]
  unfold resolveFrom
  rw [hkey]
  dsimp only
  rw [hget]
  refine List.mem_map.mpr ⟨⟨.element (container.map .key ++ [.key key]) i, w⟩, ?_, rfl⟩
  exact List.mem_flatMap.mpr ⟨_, hpicked, List.mem_singleton_self _⟩

theorem fieldObjects_selector (core : List Text) (urn : Option Text) (name : Text) (f : Filter)
    (sub : Text) (doc : Object) : fieldObjects core ⟨urn, [⟨name, some f⟩, ⟨sub, none⟩]⟩ doc =
      ((values core ⟨urn, [⟨name, some f⟩]⟩ doc).filterMap Json.object?).map
        fun o => (Object.field? o sub).bind Json.object? := by
  unfold fieldObjects parent
  dsimp only [List.getLast?_cons_cons, List.getLast?_singleton, List.dropLast]
  cases (values core ⟨urn, [⟨name, some f⟩]⟩ doc).filterMap Json.object? <;> rfl

/-- A selection is at one of the objects in each selected item that is an object. -/
theorem mem_fieldObjects_of_selected {urn : Option Text}
    (hroot : Schema.rootOf? core doc urn = some (container, root))
    (hitems : root.field? name = some (.arr items)) (hmem : .obj o ∈ items)
    (hholds : f.holds core (.obj o) = true) :
    (o.field? sub).bind Json.object? ∈
      fieldObjects core ⟨urn, [⟨name, some f⟩, ⟨sub, none⟩]⟩ doc := by
  have hvalue : .obj o ∈ values core ⟨urn, [⟨name, some f⟩]⟩ doc :=
    mem_values_of_selected hroot hitems hmem hholds
  have hheld : o ∈ (values core ⟨urn, [⟨name, some f⟩]⟩ doc).filterMap Json.object? :=
    List.mem_filterMap.mpr ⟨_, hvalue, rfl⟩
  rw [fieldObjects_selector]
  exact List.mem_map_of_mem hheld

end Path

namespace Operation

open Schema

variable {core : List Text} {options : PatchOptions} {p : Path} {create : Bool}
  {doc o o' root after : Object} {name sub : Text} {f : Filter} {v : Json} {items : List Json}
  {subs : List PathElement} {op : Operation}

/-! ### Selected items -/

/-- The object with the selected items of a field replaced; nothing is selected where the field is
absent. -/
def replaceIn (core : List Text) (name : Text) (f : Filter) (sub : Option Text) (v : Json)
    (o : Object) : Except Error Object :=
  match (o.field? name).getD .null with
  | .arr items => .ok (o.setField name (.arr (replaceSelection core f sub v items)))
  | .null => .ok o
  | _ => .error (.selectorOnSingleValue name)

/-- A replacement by a filter is a change from the root. -/
theorem applyChange_selector {urn : Option Text} (hgiven : given? (some v) = some v)
    (hsubs : ∀ e ∈ subs, e.selector = none) (options : PatchOptions)
    (hdoc : (Json.obj doc).WellFormed) :
    applyChange options ⟨.replace, some ⟨urn, ⟨name, some f⟩ :: subs⟩, some v⟩ doc =
      changeFromRoot options.coreUrns urn (!v.isUnassigned)
        (replaceIn options.coreUrns name f (subs.map (·.name)).head? v) doc := by
  have hlate : ¬ (subs.any fun e => e.selector.isSome) := by simpa using hsubs
  unfold applyChange applyReplace target
  dsimp only
  rw [hgiven]
  unfold Path.target
  dsimp only
  cases hroot : rootOf? options.coreUrns doc urn with
  | some start =>
    obtain ⟨container, root⟩ := start
    have hat := Path.leadsTo_of_rootOf? hroot
    rw [Path.targetRoot_of_rootOf? hroot, changeFromRoot_of_rootOf? hroot]
    dsimp only
    rw [if_neg hlate]
    unfold Path.targetSelection replaceIn
    rw [hat.objectAt]
    cases (root.field? name).getD .null with
    | arr items => exact congrArg Outcome.done (hat.modifyAt_congr rfl)
    | null => exact congrArg Outcome.done (hat.modifyAt_self hdoc).symm
    | _ => rfl
  | none =>
    cases urn with
    | none => cases hroot
    | some u =>
      have hnone : root? options.coreUrns doc u = none := hroot
      unfold Path.targetRoot changeFromRoot
      dsimp only
      rw [hnone, hroot]
      dsimp only
      cases (doc.field? u).getD .null with
      | null =>
        dsimp only
        split_ifs
        · -- in the new object there is nothing to select from
          dsimp only
          unfold Path.targetSelection
          rw [objectAt_createObject]
          rfl
        · rfl
      | _ => rfl

theorem replaceIn_of_items {sub : Option Text} (h : o.field? name = some (.arr items)) :
    replaceIn core name f sub v o =
      .ok (o.setField name (.arr (replaceSelection core f sub v items))) := by
  unfold replaceIn
  rw [h]
  rfl

theorem replaceIn_eq_ok {sub : Option Text} (h : replaceIn core name f sub v o = .ok o') :
    o' = o ∨ ∃ items, o.field? name = some (.arr items) ∧
      o' = o.setField name (.arr (replaceSelection core f sub v items)) := by
  unfold replaceIn at h
  split at h
  · rename_i items hitems
    cases h
    exact .inr ⟨items, field?_of_getD hitems (by simp), rfl⟩
  · cases h
    exact .inl rfl
  · cases h

theorem repeatable_replaceIn (core : List Text) (create : Bool) (name : Text) (f : Filter)
    (sub : Option Text) (v : Json) : Repeatable create name (replaceIn core name f sub v) where
  changes {o o'} h := by
    rcases replaceIn_eq_ok h with rfl | ⟨items, -, rfl⟩
    · exact .refl o'
    · exact .setField (by simp)
  new _ := ⟨empty, rfl, locked_empty⟩
  assigned _ hr hassigned _ := by
    cases hr
    cases hassigned

/-- Items that are replaced twice are replaced once: what is selected again is what the value has
replaced, or an object in which it has replaced a field. -/
theorem replaceSelection_twice {sub : Option Text} (hitems : ∀ w ∈ items, w.Unambiguous)
    (hv : v.Unambiguous) (hreserved : v.hasReservedKey = false) (hlocked : unlocks v = false)
    (hfits : ∀ s, sub = some s → ∀ o : Object, .obj o ∈ items → f.holds core (.obj o) = true →
      v.fits ((o.field? s).bind Json.object?) = true) :
    replaceSelection core f sub v (replaceSelection core f sub v items) =
      replaceSelection core f sub v items := by
  unfold replaceSelection
  rw [List.map_map]
  refine List.map_congr_left fun w hw => ?_
  rw [Function.comp_apply]
  by_cases hholds : f.holds core w
  · rw [if_pos hholds]
    cases sub with
    | none => exact ite_self v
    | some s =>
      cases w with
      | obj o =>
        have htwice : Object.replace (Object.replace o s v) s v = Object.replace o s v :=
          replace_replace (hitems _ hw) hv hreserved hlocked (hfits s rfl o hw hholds)
        dsimp only
        rw [htwice]
        exact ite_self _
      | _ => exact ite_self _
  · rw [if_neg hholds, if_neg hholds]

theorem replaceIn_twice {sub : Option Text} (ho : (Json.obj o).Unambiguous) (hv : v.Unambiguous)
    (hreserved : v.hasReservedKey = false) (hlocked : unlocks v = false)
    (hfits : ∀ items, o.field? name = some (.arr items) → ∀ s, sub = some s → ∀ inner : Object,
      .obj inner ∈ items → f.holds core (.obj inner) = true →
        v.fits ((inner.field? s).bind Json.object?) = true)
    (h : replaceIn core name f sub v o = .ok o') : replaceIn core name f sub v o' = .ok o' := by
  rcases replaceIn_eq_ok h with rfl | ⟨items, hfield, rfl⟩
  · exact h
  · have hitems : ∀ w ∈ items, w.Unambiguous :=
      fun w => Json.Throughout.item (Json.Throughout.field? ho hfield)
    have hset : ∀ w, (o.setField name w).field? name = some w := field?_setField_of_field? hfield
    rw [replaceIn_of_items (hset _),
      replaceSelection_twice hitems hv hreserved hlocked (hfits items hfield),
      setField_setField_of_takes (takes_of_field? hfield)]

/-! ### The second time -/

/-- A replacement by a filter changes nothing the second time. -/
theorem apply_selector_twice {urn : Option Text} (hgiven : given? (some v) = some v)
    (hsubs : ∀ e ∈ subs, e.selector = none) (hv : v.Unambiguous)
    (hreserved : v.hasReservedKey = false) (hlocked : unlocks v = false)
    (hdoc : (Json.obj doc).Unambiguous) (hlist : ∀ u ∈ urn, name.lower ≠ listName.lower)
    (hfits : ∀ c root items, rootOf? options.coreUrns doc urn = some (c, root) →
      root.field? name = some (.arr items) → ∀ s, (subs.map (·.name)).head? = some s →
      ∀ o : Object, .obj o ∈ items → f.holds options.coreUrns (.obj o) = true →
        v.fits ((o.field? s).bind Json.object?) = true)
    (happly : apply options ⟨.replace, some ⟨urn, ⟨name, some f⟩ :: subs⟩, some v⟩ doc =
      .done after)
    (hshadow : ∀ u ∈ urn, isCore options.coreUrns doc u = true →
      extension? doc u = none → extension? after u = none) :
    apply options ⟨.replace, some ⟨urn, ⟨name, some f⟩ :: subs⟩, some v⟩ after = .done after := by
  have hop : ∀ w ∈ some v, w.Unambiguous := by simpa using hv
  refine apply_twice_of_root rfl hop hdoc
    (fun doc hdoc => applyChange_selector hgiven hsubs options hdoc)
    (repeatable_replaceIn options.coreUrns (!v.isUnassigned) name f _ v) hlist ?_ ?_ happly hshadow
  · intro c root o hstart ho
    have hroot : (Json.obj root).Unambiguous := Path.allObjects_of_rootOf? hdoc hstart
    exact replaceIn_twice hroot hv hreserved hlocked (fun items => hfits c root items hstart) ho
  · intro r _ _ hr
    cases hr
    rfl

/-- A replacement that succeeds changes nothing the second time, unless the first time has put an
object under the URN of a core schema, or has stored members that are no value where there was no
object to drop them from. -/
theorem replace_twice (options : PatchOptions) (doc : Object) (hdoc : (Json.obj doc).Unambiguous)
    (p : Path) (hne : p.elements ≠ [])
    (hlist : ∀ u ∈ p.schemaUrn, ∀ e ∈ p.elements.head?, e.name.lower ≠ listName.lower)
    (v : Json) (hv : v.Unambiguous) (hlocked : ∀ o, v = .obj o → o.unlocked = false)
    (hfits : ∀ place ∈ p.fieldObjects options.coreUrns doc, v.fits place = true)
    {op : Operation} {after : Object} (hmake : make .replace (some p) (some v) = .ok op)
    (happly : op.apply options doc = .done after)
    (hshadow : ∀ u ∈ p.schemaUrn, isCore options.coreUrns doc u = true →
      extension? doc u = none → extension? after u = none) :
    op.apply options after = .done after := by
  obtain ⟨w, hw, hgiven⟩ := given_of_make (by decide) hmake
  obtain rfl := Option.some.inj hw
  have hform := removable_of_make hne hmake
  obtain ⟨rfl, hcheck⟩ := eq_of_make hne hmake
  have hreserved : v.hasReservedKey = false := (check_eq_ok_iff.mp hcheck).1
  have hunlocks : unlocks v = false := by
    refine unlocks_eq_false ?_ hreserved hlocked
    rintro rfl
    cases hgiven
  obtain ⟨urn, elements⟩ := p
  have hhead : ∀ name f subs, elements = ⟨name, some f⟩ :: subs →
      ∀ u ∈ urn, name.lower ≠ listName.lower := by
    rintro name f subs rfl u hu
    exact hlist u hu _ rfl
  cases hform with
  | fields _ hes =>
    refine apply_plain_twice (by decide) hgiven nofun hes hne hunlocks hv hdoc hlist rfl
      (fun c root o hroot hchanged => ?_) (fun hnone _ => ?_) happly hshadow
    · have hstart : (Json.obj root).Unambiguous := Path.allObjects_of_rootOf? hdoc hroot
      exact replace_replace (Path.allObjects_endOf hstart _) hv hreserved hunlocks
        (hfits _ (Path.mem_fieldObjects_of_changeIn hes hne hroot hchanged))
    · exact replace_replace Json.AllObjects.empty hv hreserved hunlocks
        (hfits _ (Path.mem_fieldObjects_of_rootOf?_none hes hne hnone))
  | items name f =>
    exact apply_selector_twice hgiven nofun hv hreserved hunlocks hdoc (hhead name f [] rfl) nofun
      happly hshadow
  | sub name f sub =>
    refine apply_selector_twice hgiven (by simp) hv hreserved hunlocks hdoc (hhead name f _ rfl) ?_
      happly hshadow
    rintro c root items hroot hitems _ ⟨⟩ o ho hholds
    exact hfits _ (Path.mem_fieldObjects_of_selected hroot hitems ho hholds)

def phones : Object :=
  ⟨[("Phones", .arr [.ofMembers [("type", .str "work"), ("Info", .ofMembers [("a", .str "x"),
    ("b", .str "y")])], .ofMembers [("type", .str "home")]])], false⟩

def workInfo : Path := ⟨none, [⟨"phones", some (.compare .eq (.ofName "type") (.str "WORK"))⟩,
  ⟨"info", none⟩]⟩

def info : Json := .ofMembers [("B", .null), ("c", .ofMembers [("d", .str "z")])]

def informed : Object :=
  ⟨[("Phones", .arr [.ofMembers [("type", .str "work"), ("Info", .ofMembers [("a", .str "x"),
    ("c", .ofMembers [("d", .str "z")])])], .ofMembers [("type", .str "home")]])], false⟩

/-- The only field that is written to holds an object, from which a member is dropped. -/
theorem replace_twice_phones :
    (Json.obj phones).Unambiguous ∧ workInfo.elements ≠ [] ∧
    (∀ u ∈ workInfo.schemaUrn, ∀ e ∈ workInfo.elements.head?, e.name.lower ≠ listName.lower) ∧
    info.Unambiguous ∧ (∀ o, info = .obj o → o.unlocked = false) ∧
    (∀ place ∈ workInfo.fieldObjects PatchOptions.default.coreUrns phones,
      info.fits place = true) ∧
    make .replace (some workInfo) (some info) = .ok ⟨.replace, some workInfo, some info⟩ ∧
    apply .default ⟨.replace, some workInfo, some info⟩ phones = .done informed ∧
    (∀ u ∈ workInfo.schemaUrn, isCore PatchOptions.default.coreUrns phones u = true →
      extension? phones u = none → extension? informed u = none) ∧
    apply .default ⟨.replace, some workInfo, some info⟩ informed = .done informed := by
  have hdoc : (Json.obj phones).Unambiguous := Json.throughout_of_everywhere _ (by decide)
  have hv : info.Unambiguous := Json.throughout_of_everywhere _ (by decide)
  have hlocked : ∀ o, info = .obj o → o.unlocked = false := by
    rintro _ ⟨⟩
    rfl
  have hfits : ∀ place ∈ workInfo.fieldObjects PatchOptions.default.coreUrns phones,
      info.fits place = true := by decide
  have hmake : make .replace (some workInfo) (some info) =
      .ok ⟨.replace, some workInfo, some info⟩ := rfl
  have happly : apply .default ⟨.replace, some workInfo, some info⟩ phones = .done informed := rfl
  exact ⟨hdoc, by decide, nofun, hv, hlocked, hfits, hmake, happly, nofun,
    replace_twice .default phones hdoc workInfo (by decide) nofun info hv hlocked hfits hmake
      happly nofun⟩

def nullName : Json := .ofMembers [("a", .str "x"), ("b", .null)]

/-- The first time an object is put under the URN of the core schema, and the second time the path
starts in that object. A member that is no value is stored where there was no object, and dropped
from the object that is there the second time. -/
theorem replace_twice_changes :
    ((Json.obj shadowed).Unambiguous ∧
      (∀ e ∈ underUrn.elements.head?, e.name.lower ≠ listName.lower) ∧
      make .replace (some underUrn) (some (.bool true)) =
        .ok ⟨.replace, some underUrn, some (.bool true)⟩ ∧
      ∃ after again, apply .default ⟨.replace, some underUrn, some (.bool true)⟩ shadowed =
          .done after ∧
        apply .default ⟨.replace, some underUrn, some (.bool true)⟩ after = .done again ∧
        (Json.obj again).same (.obj after) = false) ∧
    (Json.obj empty).Unambiguous ∧ nullName.Unambiguous ∧
      make .replace (some (.ofName "name")) (some nullName) =
        .ok ⟨.replace, some (.ofName "name"), some nullName⟩ ∧
      ∃ after again, apply .default ⟨.replace, some (.ofName "name"), some nullName⟩ empty =
          .done after ∧
        apply .default ⟨.replace, some (.ofName "name"), some nullName⟩ after = .done again ∧
        (Json.obj again).same (.obj after) = false := by
  refine ⟨⟨Json.throughout_of_everywhere _ (by decide), ?_, rfl,
    ⟨[("schemas", .arr [.str "urn"]), ("urn", .ofMembers [("b", .bool true)])], false⟩,
    ⟨[("schemas", .arr [.str "urn"]), ("urn", .ofMembers [("b", .bool true),
      ("urn", .ofMembers [("b", .bool true)])])], false⟩, rfl, rfl, by decide⟩,
    Json.AllObjects.empty, Json.throughout_of_everywhere _ (by decide), rfl,
    ⟨[("name", nullName)], false⟩, ⟨[("name", .ofMembers [("a", .str "x")])], false⟩, rfl, rfl,
    by decide⟩
  rintro _ ⟨⟩
  decide

end Operation

end Scim
