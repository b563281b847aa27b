import Scim.Proofs.Patch.WriteOrder

/-!
# Values written twice

A field that a value has been written over need not hold that value, but it holds what writing the
value again would leave as it is: `Merged` and `Replaced` say so of the field by itself. What holds
such a field is unchanged by the same write (`merge_of_merged`, `replace_of_replaced`), and a write
ends in one (`merged_merge`, `replaced_replace`), so that merging and replacing twice is the same as
once.

A replacement drops the members that are no value if there is an object to drop them from, and
stores the value as it is if there is none. In the second case the value must not have such members,
nor must the objects inside it where there is none for them: that it `fits` its place.

To the reserved name an assignment may store nothing (`Object.Takes`). Then neither write does
anything.
-/

namespace Scim

open Object

namespace Json

mutual

/-- Whether a value that is written over an object, or where there is none, leaves no member behind
that is no value: such members are dropped from an object only. -/
def fits (place : Option Object) (v : Json) : Bool :=
  match v with
  | .obj ⟨members, _⟩ => membersFit place members
  | _ => true
termination_by structural v

def membersFit (place : Option Object) (members : List (Text × Json)) : Bool :=
  match members with
  | [] => true
  | (key, v) :: rest =>
    (place.isSome || !v.isUnassigned) &&
      v.fits (place.bind fun o => (o.field? key).bind Json.object?) && membersFit place rest
termination_by structural members

end

theorem membersFit_iff {place : Option Object} {members : List (Text × Json)} :
    membersFit place members = true ↔ ∀ m ∈ members,
      (place = none → m.2.isUnassigned = false) ∧
      m.2.fits (place.bind fun o => (o.field? m.1).bind Json.object?) = true := by
  induction members with
  | nil => simp [membersFit]
  | cons m rest ih =>
    rw [membersFit, Bool.and_eq_true, Bool.and_eq_true, ih, List.forall_mem_cons]
    cases place <;> simp

end Json

namespace Operation

variable {o old : Object} {name : Text} {v w : Json} {x : Option Json} {write : Write}
  {items new : List Json} {members : List (Text × Json)}

/-! ### Members and items -/

theorem writeAll_eq_self (h : ∀ m ∈ members, write o m.1 m.2 = o) :
    writeAll write members o = o := by
  induction members with
  | nil => rfl
  | cons m rest ih =>
    obtain ⟨hm, hrest⟩ := List.forall_mem_cons.mp h
    show writeAll write rest (write o m.1 m.2) = o
    rw [hm]
    exact ih hrest

/-- In an object the field of each member is what the member has been written to. -/
theorem field?_writeAll {b : Bool} (hwrite : Deep write) (hms : (Json.obj ⟨members, b⟩).Unambiguous)
    {m : Text × Json} (hm : m ∈ members) (o : Object) :
    (writeAll write members o).field? m.1 = (write o m.1 m.2).field? m.1 :=
  (writeAll_agreeOn hwrite.work hms.distinct hm o).field?

theorem field?_member {b : Bool} (hms : (Json.obj ⟨members, b⟩).Unambiguous) {m : Text × Json}
    (hm : m ∈ members) : field? ⟨members, b⟩ m.1 = some m.2 :=
  field?_of_get? (findKey?_self (List.mem_map_of_mem hm))
    (get?_of_mem (.of_map _ hms.distinct) hm)

theorem appendNew_eq_self (h : ∀ v ∈ new, items.any fun w => w.same v) :
    appendNew items new = items := by
  induction new with
  | nil => rfl
  | cons v rest ih =>
    obtain ⟨hv, hrest⟩ := List.forall_mem_cons.mp h
    show appendNew (if items.any fun w => w.same v then items else items ++ [v]) rest = items
    rw [if_pos hv]
    exact ih hrest

theorem any_same_appendNew {v : Json} (items new : List Json) (h : items.any fun w => w.same v) :
    (appendNew items new).any fun w => w.same v := by
  induction new generalizing items with
  | nil => exact h
  | cons u rest ih =>
    refine ih (if items.any fun w => w.same u then items else items ++ [u]) ?_
    split_ifs
    · exact h
    · rw [List.any_append, h, Bool.true_or]

/-- Every item is there after it was added, or was before. -/
theorem any_same_of_mem (hnew : (Json.arr new).WellFormed) (items : List Json) :
    ∀ v ∈ new, (appendNew items new).any fun w => w.same v := by
  induction new generalizing items with
  | nil => simp
  | cons u rest ih =>
    obtain ⟨hu, hrest⟩ := List.forall_mem_cons.mp (Json.wellFormed_arr_iff.mp hnew)
    refine List.forall_mem_cons.mpr ⟨?_, ih (Json.wellFormed_arr_iff.mpr hrest) _⟩
    refine any_same_appendNew (if items.any fun w => w.same u then items else items ++ [u]) rest ?_
    split_ifs with hany
    · exact hany
    · simp [u.same_refl hu]

/-! ### Merging -/

/-- The field is one that merging the value leaves as it is. -/
inductive Merged : Option Json → Json → Prop
  | null {x : Option Json} : Merged x .null
  | nil {x : Option Json} : Merged x (.arr [])
  | items {old items : List Json} (h : ∀ v ∈ items, old.any fun w => w.same v) :
    Merged (some (.arr old)) (.arr items)
  | members {old : Object} {members : List (Text × Json)} {unlocked : Bool}
    (h : ∀ m ∈ members, Merged (old.field? m.1) m.2) :
    Merged (some (.obj old)) (.obj ⟨members, unlocked⟩)
  | scalar {v : Json} (hobj : v.object? = none) (harr : v.items? = none) : Merged (some v) v

theorem merge_of_merged (h : Merged x v) (ho : (Json.obj o).WellFormed) (hx : o.field? name = x) :
    o.merge name v = o := by
  induction h generalizing o name with
  | null => rfl
  | nil => rfl
  | @items old items h =>
    unfold Object.merge
    rw [hx]
    split_ifs
    · rfl
    · dsimp only
      rw [appendNew_eq_self h, setField_self ho.nodup hx]
  | @members old members unlocked h ih =>
    have hold : (Json.obj old).WellFormed := Json.Throughout.field? ho hx
    rw [deep_merge.obj, hx]
    dsimp only
    rw [writeAll_eq_self fun m hm => ih m hm hold rfl, setField_self ho.nodup hx]
  | @scalar v hobj harr =>
    cases v with
    | null => rfl
    | arr items => cases harr
    | obj inner => cases hobj
    | _ => exact setField_self ho.nodup hx

theorem merged_self (v : Json) (hv : v.Unambiguous) : Merged (some v) v := by
  induction v using Json.induct with
  | scalar v hobj harr => exact .scalar hobj harr
  | arr items ih =>
    refine .items fun v hmem => List.any_eq_true.mpr ⟨v, hmem, v.same_refl ?_⟩
    exact Json.wellFormed_arr_iff.mp hv.wellFormed v hmem
  | obj members unlocked ih =>
    refine .members fun m hm => ?_
    rw [field?_member hv hm]
    exact ih m hm (hv.member hm)

theorem merged_merge (v : Json) (hv : v.Unambiguous) (hreserved : v.hasReservedKey = false)
    (ho : (Json.obj o).WellFormed) (htakes : o.Takes name) :
    Merged ((o.merge name v).field? name) v := by
  induction v using Json.induct generalizing o name with
  | scalar v hobj harr =>
    cases v with
    | null => exact .null
    | arr => cases harr
    | obj => cases hobj
    | _ =>
      show Merged ((o.setField name _).field? name) _
      rw [field?_setField_of_takes htakes]
      exact .scalar rfl rfl
  | arr items ih =>
    unfold Object.merge
    split_ifs with hempty
    · rw [List.isEmpty_iff.mp hempty]
      exact .nil
    · split
      · rw [field?_setField_of_takes htakes]
        exact .items (any_same_of_mem hv.wellFormed _)
      · rw [field?_setField_of_takes htakes]
        exact merged_self _ hv
  | obj members unlocked ih =>
    rw [deep_merge.obj]
    split
    · rename_i old hfield
      have hold : (Json.obj old).WellFormed := Json.Throughout.field? ho hfield
      rw [field?_setField_of_takes htakes]
      refine .members fun m hm => ?_
      have hplain := plain_of_member hv hreserved m hm
      rw [field?_writeAll deep_merge hv hm]
      exact ih m hm hplain.unambiguous hplain.inner hold (takes_of_ne hplain.key)
    · rw [field?_setField_of_takes htakes]
      exact merged_self _ hv

theorem merge_of_not_takes (h : ¬ o.Takes name) (hv : unlocks v = false) : o.merge name v = o := by
  have hset := setField_of_not_takes h hv
  have hfield := field?_of_not_takes h
  cases v with
  | null => rfl
  | arr items =>
    unfold Object.merge
    rw [hfield]
    split_ifs
    · rfl
    · exact hset
  | obj inner =>
    rw [deep_merge.obj, hfield]
    exact hset
  | _ => exact hset

/-- Merging a value for the second time changes nothing. -/
theorem merge_merge (ho : (Json.obj o).WellFormed) (hv : v.Unambiguous)
    (hreserved : v.hasReservedKey = false) (hlocked : unlocks v = false) (name : Text) :
    (o.merge name v).merge name v = o.merge name v := by
  by_cases htakes : o.Takes name
  · exact merge_of_merged (merged_merge v hv hreserved ho htakes)
      (Json.AllObjects.merge name ho hv.wellFormed) rfl
  · rw [merge_of_not_takes htakes hlocked, merge_of_not_takes htakes hlocked]

/-! ### Replacing -/

/-- The field is one that the replacement by the value leaves as it is. -/
inductive Replaced : Option Json → Json → Prop
  | removed {v : Json} (hv : v.isUnassigned = true) : Replaced none v
  | members {old : Object} {members : List (Text × Json)} {unlocked : Bool}
    (h : ∀ m ∈ members, Replaced (old.field? m.1) m.2) :
    Replaced (some (.obj old)) (.obj ⟨members, unlocked⟩)
  | set {v : Json} (hassigned : v.isUnassigned = false) (hobj : v.object? = none) :
    Replaced (some v) v

theorem replace_of_replaced (h : Replaced x v) (ho : (Json.obj o).WellFormed)
    (hx : o.field? name = x) : o.replace name v = o := by
  induction h generalizing o name with
  | @removed v hv =>
    unfold Object.replace
    rw [if_pos hv, removeField, field?_eq_none_iff.mp hx]
  | @members old members unlocked h ih =>
    have hold : (Json.obj old).WellFormed := Json.Throughout.field? ho hx
    rw [deep_replace.obj, hx]
    dsimp only
    rw [writeAll_eq_self fun m hm => ih m hm hold rfl, setField_self ho.nodup hx]
  | @set v hassigned hobj =>
    unfold Object.replace
    rw [hassigned]
    cases v with
    | obj inner => cases hobj
    | _ => exact setField_self ho.nodup hx

theorem replaced_self (v : Json) (hv : v.Unambiguous) (hassigned : v.isUnassigned = false)
    (hfits : v.fits none = true) : Replaced (some v) v := by
  induction v using Json.induct with
  | scalar v hobj _ => exact .set hassigned hobj
  | arr items _ => exact .set hassigned rfl
  | obj members unlocked ih =>
    have hmembers := Json.membersFit_iff.mp hfits
    refine .members fun m hm => ?_
    rw [field?_member hv hm]
    exact ih m hm (hv.member hm) ((hmembers m hm).1 rfl) (hmembers m hm).2

theorem replaced_of_unassigned (hv : v.isUnassigned = true) (ho : o.Distinct) :
    Replaced ((o.replace name v).field? name) v := by
  unfold Object.replace
  rw [if_pos hv, field?_eq_none_iff.mpr ho.findKey?_removeField]
  exact .removed hv

theorem replaced_of_not_object (hobj : v.object? = none) (ho : o.Distinct) (htakes : o.Takes name) :
    Replaced ((o.replace name v).field? name) v := by
  cases hassigned : v.isUnassigned with
  | true => exact replaced_of_unassigned hassigned ho
  | false =>
    have hset : o.replace name v = o.setField name v := by
      unfold Object.replace
      rw [hassigned]
      cases v with
      | obj => cases hobj
      | _ => rfl
    rw [hset, field?_setField_of_takes htakes]
    exact .set hassigned hobj

theorem replaced_replace (v : Json) (hv : v.Unambiguous) (hreserved : v.hasReservedKey = false)
    (ho : (Json.obj o).Unambiguous) (htakes : o.Takes name)
    (hfits : v.fits ((o.field? name).bind Json.object?) = true) :
    Replaced ((o.replace name v).field? name) v := by
  induction v using Json.induct generalizing o name with
  | scalar v hobj _ => exact replaced_of_not_object hobj ho.distinct htakes
  | arr items _ => exact replaced_of_not_object rfl ho.distinct htakes
  | obj members unlocked ih =>
    rw [deep_replace.obj]
    split
    · rename_i old hfield
      have hold : (Json.obj old).Unambiguous := Json.Throughout.field? ho hfield
      rw [hfield] at hfits
      rw [field?_setField_of_takes htakes]
      refine .members fun m hm => ?_
      have hplain := plain_of_member hv hreserved m hm
      have hfit := ((Json.membersFit_iff.mp hfits) m hm).2
      rw [field?_writeAll deep_replace hv hm]
      exact ih m hm hplain.unambiguous hplain.inner hold (takes_of_ne hplain.key) hfit
    · rename_i hnot
      have hnone : (o.field? name).bind Json.object? = none := by
        cases hfield : o.field? name with
        | none => rfl
        | some w =>
          cases w with
          | obj old => exact absurd hfield (hnot old)
          | _ => rfl
      rw [hnone] at hfits
      rw [field?_setField_of_takes htakes]
      exact replaced_self _ hv rfl hfits

theorem replace_of_not_takes (h : ¬ o.Takes name) (hv : unlocks v = false) :
    o.replace name v = o := by
  have hset := setField_of_not_takes h hv
  have hfield := field?_of_not_takes h
  cases hassigned : v.isUnassigned with
  | true =>
    unfold Object.replace
    rw [if_pos hassigned, removeField, field?_eq_none_iff.mp hfield]
  | false =>
    cases v with
    | obj inner =>
      rw [deep_replace.obj, hfield]
      exact hset
    | _ =>
      unfold Object.replace
      rw [hassigned]
      exact hset

/-- Replacing a field for the second time changes nothing, if the value fits there. -/
theorem replace_replace (ho : (Json.obj o).Unambiguous) (hv : v.Unambiguous)
    (hreserved : v.hasReservedKey = false) (hlocked : unlocks v = false)
    (hfits : v.fits ((o.field? name).bind Json.object?) = true) :
    (o.replace name v).replace name v = o.replace name v := by
  by_cases htakes : o.Takes name
  · exact replace_of_replaced (replaced_replace v hv hreserved ho htakes hfits)
      (Json.AllObjects.replace name ho.wellFormed hv.wellFormed) rfl
  · rw [replace_of_not_takes htakes hlocked, replace_of_not_takes htakes hlocked]

end Operation

end Scim
