import Scim.Proofs.Patch.Removal

/-!
# Item by item

A replacement or a removal by a filter changes the items of one array, each of them by itself: what
becomes of a selected item is said by `editItem`, and the others stay what and where they are, though
items before them may go. Which items are selected is settled before the first one is changed: the
same array is left when the positions that the filter selects are gone through one after the other,
from the last to the first, so that no change moves an item that is still to be changed
(`foldr_editAt`).
-/

namespace Scim

open Object

/-! ### Going through positions -/

section Positions

variable {α : Type}

/-- The items with the one at a position changed, or without it if there is nothing left of it. -/
def editAt (edit : α → Option α) (i : Nat) (items : List α) : List α :=
  match items[i]? with
  | none => items
  | some v =>
    match edit v with
    | some w => items.set i w
    | none => items.eraseIdx i

theorem editAt_zero (edit : α → Option α) (v : α) (items : List α) :
    editAt edit 0 (v :: items) = (edit v).toList ++ items := by
  unfold editAt
  cases h : edit v <;> simp [h]

theorem editAt_succ (edit : α → Option α) (i : Nat) (v : α) (items : List α) :
    editAt edit (i + 1) (v :: items) = v :: editAt edit i items := by
  unfold editAt
  rw [List.getElem?_cons_succ]
  cases items[i]? with
  | none => rfl
  | some w => cases h : edit w <;> simp [h]

theorem foldr_editAt_succ (edit : α → Option α) (v : α) (items : List α) (positions : List Nat) :
    (positions.map (· + 1)).foldr (editAt edit) (v :: items) =
      v :: positions.foldr (editAt edit) items := by
  induction positions with
  | nil => rfl
  | cons i rest ih => rw [List.map_cons, List.foldr_cons, ih, editAt_succ, List.foldr_cons]

end Positions

theorem Path.matchingIndexes_cons (core : List Text) (f : Filter) (v : Json) (items : List Json) :
    matchingIndexes core f (v :: items) =
      (if f.holds core v then [0] else []) ++ (matchingIndexes core f items).map (· + 1) := by
  have hrest : ((items.zipIdx 1).filter fun i => f.holds core i.1).map (·.2) =
      (matchingIndexes core f items).map (· + 1) := by
    rw [matchingIndexes, List.zipIdx_succ, List.filter_map, List.map_map, List.map_map]
    rfl
  rw [matchingIndexes, List.zipIdx_cons, List.filter_cons]
  split_ifs
  · exact congrArg (0 :: ·) hrest
  · exact hrest

/-- Going through the selected positions from the last to the first changes each selected item. -/
theorem Path.foldr_editAt (edit : Json → Option Json) (core : List Text) (f : Filter)
    (items : List Json) :
    (matchingIndexes core f items).foldr (editAt edit) items =
      items.filterMap fun v => if f.holds core v then edit v else some v := by
  induction items with
  | nil => rfl
  | cons v rest ih =>
    rw [matchingIndexes_cons, List.foldr_append, foldr_editAt_succ, ih, List.filterMap_cons]
    split_ifs
    · rw [List.foldr_cons, List.foldr_nil, editAt_zero]
      cases edit v <;> rfl
    · rfl

namespace Operation

variable {doc : Object} {name key : Text} {f : Filter} {subs : List PathElement}
  {value : Option Json} {op : Operation}

/-! ### One item -/

/-- What an operation makes of an item that its filter selects; none if the item goes. With a
sub-attribute only objects change. -/
def editItem (change : Change) (sub : Option Text) (value : Json) (v : Json) : Option Json :=
  match sub, change, v with
  | none, .remove, _ => none
  | none, _, _ => some value
  | some sub, .remove, .obj o => some (.obj (Object.removeField o sub))
  | some sub, _, .obj o => some (.obj (Object.replace o sub value))
  | some _, _, v => some v

/-- What it makes of all items. -/
def editItems (core : List Text) (f : Filter) (edit : Json → Option Json) (items : List Json) :
    List Json :=
  items.filterMap fun v => if f.holds core v then edit v else some v

theorem replaceSelection_eq (core : List Text) (f : Filter) (sub : Option Text) (value : Json)
    (items : List Json) : replaceSelection core f sub value items =
      editItems core f (editItem .replace sub value) items := by
  unfold replaceSelection editItems
  rw [← List.filterMap_eq_map]
  refine List.filterMap_congr fun v hv => ?_
  rw [Function.comp_apply]
  split_ifs
  · cases sub with
    | none => rfl
    | some sub => cases v <;> rfl
  · rfl

theorem map_clearSub (core : List Text) (f : Filter) (sub : Text) (value : Json)
    (items : List Json) : items.map (clearSub core f sub) =
      editItems core f (editItem .remove (some sub) value) items := by
  unfold editItems
  rw [← List.filterMap_eq_map]
  refine List.filterMap_congr fun v hv => ?_
  rw [Function.comp_apply]
  cases v with
  | obj o =>
    rw [clearSub_obj]
    split_ifs <;> rfl
  | _ => exact (ite_self _).symm

theorem filter_eq_editItems (core : List Text) (f : Filter) (value : Json) (items : List Json) :
    (items.filter fun v => !f.holds core v) =
      editItems core f (editItem .remove none value) items := by
  unfold editItems
  rw [← List.filterMap_eq_filter]
  refine List.filterMap_congr fun v hv => ?_
  cases h : f.holds core v <;> simp [h, Option.guard, editItem]

/-! ### One operation -/

/-- A removal by a filter lists no values. -/
theorem given?_of_make_selector
    (h : make .remove (some ⟨none, ⟨name, some f⟩ :: subs⟩) value = .ok op) :
    given? value = none := by
  obtain ⟨rfl, -⟩ := eq_of_make (List.cons_ne_nil _ _) h
  by_contra hgiven
  have hlist : removesByValue ⟨.remove, some ⟨none, ⟨name, some f⟩ :: subs⟩, value⟩ := by
    simpa [removesByValue, Option.isSome_iff_ne_none] using hgiven
  exact absurd (takesMembers_of_make h hlist _ rfl) (by simp [takesMembers])

theorem target_selector (core : List Text) (create : Bool) (doc : Object)
    (hsubs : ∀ e ∈ subs, e.selector = none) :
    Path.target core ⟨none, ⟨name, some f⟩ :: subs⟩ doc create =
      ((Path.targetSelection [] name f (subs.map (·.name)) doc).map some, doc) := by
  have hlate : ¬ (subs.any fun e => e.selector.isSome) := by simpa using hsubs
  unfold Path.target Path.targetRoot
  dsimp only
  rw [if_neg hlate]

theorem apply_replace_selector {v : Json} (hgiven : given? (some v) = some v)
    (hsubs : ∀ e ∈ subs, e.selector = none) (options : PatchOptions) (doc : Object) :
    apply options ⟨.replace, some ⟨none, ⟨name, some f⟩ :: subs⟩, some v⟩ doc =
      match (doc.field? name).getD .null with
      | .arr items => .done (doc.setField name (.arr (editItems options.coreUrns f
          (editItem .replace (subs.map (·.name)).head? v) items)))
      | .null => .done doc
      | _ => .failed (.selectorOnSingleValue name) doc := by
  refine (apply_eq_applyChange options rfl doc).trans ?_
  unfold applyChange applyReplace target
  dsimp only
  rw [hgiven]
  dsimp only
  rw [target_selector _ _ _ hsubs]
  unfold Path.targetSelection
  rw [show doc.objectAt [] = doc from rfl]
  cases (doc.field? name).getD .null with
  | arr items =>
    dsimp only [Except.map]
    rw [replaceSelection_eq]
    rfl
  | _ => rfl

/-- Items go one by one, and the array with the last of them. -/
theorem removeSelection_eq (hkey : doc.findKey? name = some key) (core : List Text) (f : Filter)
    (items : List Json) (sub : Option Text) (value : Json) :
    removeSelection core name f items sub doc =
      if sub = none ∧ editItems core f (editItem .remove sub value) items = [] ∧
          ∃ v ∈ items, f.holds core v = true
        then doc.erase key
        else doc.overwrite key (.arr (editItems core f (editItem .remove sub value) items)) := by
  cases sub with
  | some sub =>
    rw [if_neg (by simp), removeSelection_sub, map_clearSub _ _ _ value, setField_of_findKey? hkey]
  | none =>
    rw [removeSelection_whole, setField_of_findKey? hkey, removeField, hkey,
      filter_eq_editItems _ _ value]
    refine if_congr ?_ rfl rfl
    rw [← filter_eq_editItems, none_left_iff]
    simp

theorem apply_remove_selector (hdoc : doc.Distinct)
    (hmake : make .remove (some ⟨none, ⟨name, some f⟩ :: subs⟩) value = .ok op)
    (options : PatchOptions) :
    op.apply options doc =
      match removeFrom options.coreUrns (⟨name, some f⟩ :: subs) doc with
      | .ok o => .done o
      | .error e => .failed e doc := by
  have hne : (⟨name, some f⟩ :: subs : List PathElement) ≠ [] := List.cons_ne_nil _ _
  rw [apply_removal hne hmake (given?_of_make_selector hmake),
    removePath_plain (removable_of_make hne hmake) hdoc]
  rfl

/-- A replacement or a removal by a filter changes the selected items one by one, and nothing else.
If the last items of the array go, the array goes. -/
theorem apply_elementwise (options : PatchOptions) (doc : Object)
    (hdoc : (Json.obj doc).Unambiguous) (change : Change) (hchange : change ≠ .add) (name : Text)
    (f : Filter) (sub : Option Text) (value : Option Json) (op : Operation)
    (hmake : make change (some ⟨none, ⟨name, some f⟩ :: (sub.map (PathElement.mk · none)).toList⟩)
      value = .ok op) :
    (∀ key items, doc.findKey? name = some key → doc.get? key = some (.arr items) →
      ∃ new, op.apply options doc = .done
          (if change = .remove ∧ sub = none ∧ new = [] ∧
              ∃ v ∈ items, f.holds options.coreUrns v = true
            then doc.erase key else doc.overwrite key (.arr new)) ∧
        new = editItems options.coreUrns f (editItem change sub (value.getD .null)) items ∧
        new = (Path.matchingIndexes options.coreUrns f items).foldr
          (editAt (editItem change sub (value.getD .null))) items) ∧
    ((doc.field? name).getD .null = .null → op.apply options doc = .done doc) := by
  have hne : (⟨name, some f⟩ :: (sub.map (PathElement.mk · none)).toList : List PathElement) ≠ [] :=
    List.cons_ne_nil _ _
  have hsubs : ∀ e ∈ (sub.map (PathElement.mk · none)).toList, e.selector = none := by
    cases sub <;> simp
  have hhead : ((sub.map (PathElement.mk · none)).toList.map (·.name)).head? = sub := by
    cases sub <;> rfl
  suffices h : (∀ key items, doc.findKey? name = some key → doc.get? key = some (.arr items) →
      op.apply options doc = .done
        (if change = .remove ∧ sub = none ∧
            editItems options.coreUrns f (editItem change sub (value.getD .null)) items = [] ∧
            ∃ v ∈ items, f.holds options.coreUrns v = true
          then doc.erase key
          else doc.overwrite key
            (.arr (editItems options.coreUrns f (editItem change sub (value.getD .null)) items)))) ∧
      ((doc.field? name).getD .null = .null → op.apply options doc = .done doc) from
    ⟨fun key items hkey hget =>
      ⟨_, h.1 key items hkey hget, rfl, (Path.foldr_editAt ..).symm⟩, h.2⟩
  cases change with
  | add => exact absurd rfl hchange
  | replace =>
    obtain ⟨v, rfl, hgiven⟩ := given_of_make (by decide) hmake
    obtain ⟨rfl, -⟩ := eq_of_make hne hmake
    rw [apply_replace_selector hgiven hsubs, hhead]
    refine ⟨fun key items hkey hget => ?_, fun hnull => by rw [hnull]⟩
    rw [field?_of_get? hkey hget, if_neg (by simp), ← setField_of_findKey? hkey]
    rfl
  | remove =>
    rw [apply_remove_selector hdoc.distinct hmake]
    refine ⟨fun key items hkey hget => ?_, fun hnull => ?_⟩
    · rw [removeFrom_of_items (field?_of_get? hkey hget), hhead,
        removeSelection_eq hkey _ _ _ _ (value.getD .null)]
      simp only [true_and]
    · rw [removeFrom_of_lists_none (.inl ⟨rfl, hnull⟩)]

/-- Addresses in several forms, some of them no objects. -/
def mixed : Object :=
  ⟨[("Emails", .arr [.ofMembers [("type", .str "work"), ("Value", .str "a")], .str "work", .null,
    .ofMembers [("type", .str "home")], .ofMembers [("TYPE", .str "WORK")]]),
    ("active", .bool true)], false⟩

def atWork : Filter := .compare .eq (.ofName "type") (.str "work")

/-- Only objects get a new value; the array goes with its last item. -/
theorem apply_elementwise_mixed :
    (Json.obj mixed).Unambiguous ∧ Change.replace ≠ .add ∧ Change.remove ≠ .add ∧
    make .replace (some ⟨none, [⟨"emails", some atWork⟩, ⟨"value", none⟩]⟩) (some (.str "b")) =
      .ok ⟨.replace, some ⟨none, [⟨"emails", some atWork⟩, ⟨"value", none⟩]⟩, some (.str "b")⟩ ∧
    make .remove (some ⟨none, [⟨"emails", some (.not (.present (.ofName "x")))⟩]⟩) none =
      .ok ⟨.remove, some ⟨none, [⟨"emails", some (.not (.present (.ofName "x")))⟩]⟩, none⟩ ∧
    apply .default
      ⟨.replace, some ⟨none, [⟨"emails", some atWork⟩, ⟨"value", none⟩]⟩, some (.str "b")⟩ mixed =
        .done ⟨[("Emails", .arr [.ofMembers [("type", .str "work"), ("Value", .str "b")],
          .str "work", .null, .ofMembers [("type", .str "home")],
          .ofMembers [("TYPE", .str "WORK"), ("value", .str "b")]]), ("active", .bool true)], false⟩ ∧
    apply .default
      ⟨.remove, some ⟨none, [⟨"emails", some (.not (.present (.ofName "x")))⟩]⟩, none⟩ mixed =
        .done ⟨[("active", .bool true)], false⟩ := by
  have hmixed : (Json.obj mixed).Unambiguous := Json.throughout_of_everywhere _ (by decide)
  have hreplace : make .replace (some ⟨none, [⟨"emails", some atWork⟩, ⟨"value", none⟩]⟩)
      (some (.str "b")) =
      .ok ⟨.replace, some ⟨none, [⟨"emails", some atWork⟩, ⟨"value", none⟩]⟩, some (.str "b")⟩ := rfl
  have hremove : make .remove (some ⟨none, [⟨"emails", some (.not (.present (.ofName "x")))⟩]⟩)
      none = .ok ⟨.remove,
        some ⟨none, [⟨"emails", some (.not (.present (.ofName "x")))⟩]⟩, none⟩ := rfl
  obtain ⟨_, hset, rfl, -⟩ := (apply_elementwise .default mixed hmixed .replace (by decide) "emails"
    atWork (some "value") _ _ hreplace).1 "Emails" _ rfl rfl
  obtain ⟨_, hdrop, rfl, -⟩ := (apply_elementwise .default mixed hmixed .remove (by decide) "emails"
    (.not (.present (.ofName "x"))) none _ _ hremove).1 "Emails" _ rfl rfl
  exact ⟨hmixed, by decide, by decide, hreplace, hremove, hset.trans rfl, hdrop.trans rfl⟩

end Operation

end Scim
