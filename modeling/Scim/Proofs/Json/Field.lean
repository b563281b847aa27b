import Mathlib.Data.List.Nodup
import Mathlib.Tactic.Common
import Scim.Path.Target

/-!
# What a change of a field leaves alone

Every way of writing to an object goes through the stored name of one field. `Object.Keeps p` says
that the members whose names satisfy `p` are the same in the same order; `Object.Distinct` that no
two names are equal up to letter case. `Object.Changes names` joins both for names that are given
without regard to case, and composes along a run of writes.
-/

namespace Scim

namespace Object

variable {o o' o'' : Object} {name key k : Text} {value : Json}

/-! ### Members by name -/

theorem mem_of_get? (h : o.get? key = some value) : (key, value) ∈ o.members := by
  obtain ⟨m, hm, rfl⟩ := Option.map_eq_some_iff.mp h
  obtain rfl : m.1 = key := by simpa using List.find?_some hm
  exact List.mem_of_find?_eq_some hm

theorem get?_of_field? {name : Text} (h : o.field? name = some value) :
    ∃ key, o.findKey? name = some key ∧ o.get? key = some value :=
  Option.bind_eq_some_iff.mp h

theorem field?_of_get? {name : Text} (hkey : o.findKey? name = some key)
    (hget : o.get? key = some value) : o.field? name = some value := by
  rw [field?, hkey, Option.bind_some, hget]

theorem get?_of_mem {ms : List (Text × Json)} {b : Bool} (h : (keys ⟨ms, b⟩).Nodup)
    {m : Text × Json} (hm : m ∈ ms) : get? ⟨ms, b⟩ m.1 = some m.2 := by
  induction ms with
  | nil => cases hm
  | cons m' rest ih =>
    obtain ⟨hnot, hrest⟩ := List.nodup_cons.mp h
    rw [get?_cons]
    rcases List.mem_cons.mp hm with rfl | hm
    · exact if_pos rfl
    · rw [if_neg]
      · exact ih hrest hm
      · rintro heq
        exact hnot (by simpa [heq] using List.mem_map_of_mem (f := Prod.fst) hm)

/-! ### Stored names -/

theorem insertIndexed_perm (i : Nat) (key : Text) (value : Json) (ms : List (Text × Json)) :
    (Members.insertIndexed i key value ms).Perm ((key, value) :: ms) := by
  fun_induction Members.insertIndexed i key value ms with
  | case1 | case2 | case4 => exact .refl _
  | case3 m rest j hj hlt ih => exact (ih.cons m).trans (.swap ..)

theorem members_add (o : Object) (key : Text) (value : Json) :
    (o.add key value).members.Perm ((key, value) :: o.members) := by
  unfold add Members.add
  split
  · exact insertIndexed_perm ..
  · exact List.perm_append_singleton ..

theorem keys_add (o : Object) (key : Text) (value : Json) :
    (o.add key value).keys.Perm (key :: o.keys) := (members_add o key value).map _

theorem mem_add {m : Text × Json} (h : m ∈ (o.add key value).members) :
    m.2 = value ∨ m ∈ o.members := by
  rcases List.mem_cons.mp ((members_add o key value).mem_iff.mp h) with rfl | hmem
  · exact .inl rfl
  · exact .inr hmem

theorem mem_overwrite {m : Text × Json} (h : m ∈ (o.overwrite key value).members) :
    m.2 = value ∨ m ∈ o.members := by
  obtain ⟨m', hm', rfl⟩ := List.mem_map.mp h
  split_ifs
  · exact .inl rfl
  · exact .inr hm'

theorem findKey?_eq_some (h : o.findKey? name = some key) :
    key ∈ o.keys ∧ key.lower = name.lower := by
  unfold findKey? at h
  split at h
  · rename_i hk
    cases h
    exact ⟨hasKey_iff_mem_keys.mp hk, rfl⟩
  · exact ⟨List.mem_of_find?_eq_some h, by simpa using List.find?_some h⟩

theorem findKey?_eq_none_iff : o.findKey? name = none ↔ ∀ key ∈ o.keys, key.lower ≠ name.lower := by
  unfold findKey?
  split
  · rename_i hk
    simpa using ⟨name, hasKey_iff_mem_keys.mp hk, rfl⟩
  · simp

theorem lower_storedName (o : Object) (name : Text) : (o.storedName name).lower = name.lower := by
  unfold storedName
  cases h : o.findKey? name with
  | none => rfl
  | some key => exact (findKey?_eq_some h).2

theorem storedName_of_findKey? (h : o.findKey? name = some key) : o.storedName name = key := by
  rw [storedName, h, Option.getD_some]

theorem storedName_of_findKey?_none (h : o.findKey? name = none) : o.storedName name = name := by
  rw [storedName, h, Option.getD_none]

/-- The exact name comes first. -/
theorem findKey?_self (h : key ∈ o.keys) : o.findKey? key = some key :=
  if_pos (hasKey_iff_mem_keys.mpr h)

theorem storedName_storedName (o : Object) (name : Text) :
    o.storedName (o.storedName name) = o.storedName name := by
  cases h : o.findKey? name with
  | none => rw [storedName_of_findKey?_none h, storedName_of_findKey?_none h]
  | some key =>
    rw [storedName_of_findKey? h]
    exact storedName_of_findKey? (findKey?_self (findKey?_eq_some h).1)

theorem setField_eq (o : Object) (name : Text) (value : Json) :
    o.setField name value = o.assign (o.storedName name) value := rfl

theorem setField_of_findKey? (h : o.findKey? name = some key) (value : Json) :
    o.setField name value = o.overwrite key value := by
  rw [setField_eq, storedName_of_findKey? h]
  exact if_pos (hasKey_iff_mem_keys.mpr (findKey?_eq_some h).1)

theorem findKey?_congr (h : o'.keys = o.keys) (name : Text) :
    o'.findKey? name = o.findKey? name := by
  have hkey : o'.hasKey name = o.hasKey name := by
    rw [Bool.eq_iff_iff, hasKey_iff_mem_keys, hasKey_iff_mem_keys, h]
  unfold findKey?
  rw [h, hkey]

theorem storedName_congr (h : o'.keys = o.keys) (name : Text) :
    o'.storedName name = o.storedName name :=
  congrArg (·.getD name) (findKey?_congr h name)

/-- Assigning to a name as it is stored overwrites, is refused, or adds a name like no other. -/
theorem assign_cases (h : o.storedName key = key) (value : Json) :
    o.assign key value = o.overwrite key value ∨
    o.assign key value = { o with unlocked := unlocks value } ∨
    o.findKey? key = none ∧ o.assign key value = o.add key value := by
  unfold assign
  split_ifs with hkey
  · exact .inl rfl
  · exact .inr (.inl rfl)
  · refine .inr (.inr ⟨?_, rfl⟩)
    by_contra hsome
    obtain ⟨k, hk⟩ := Option.ne_none_iff_exists'.mp hsome
    obtain rfl := (storedName_of_findKey? hk).symm.trans h
    exact hkey (hasKey_iff_mem_keys.mpr (findKey?_eq_some hk).1)

theorem mem_keys_assign (h : k ∈ (o.assign key value).keys) : k = key ∨ k ∈ o.keys := by
  unfold assign at h
  split_ifs at h
  · rw [keys_overwrite] at h
    exact .inr h
  · exact .inr h
  · exact List.mem_cons.mp ((keys_add o key value).mem_iff.mp h)

theorem storedName_assign (h : o.storedName key = key) :
    (o.assign key value).storedName key = key := by
  unfold assign
  split_ifs
  · rw [storedName_congr keys_overwrite, h]
  · exact (storedName_congr rfl key).trans h
  · refine storedName_of_findKey? (findKey?_self ?_)
    exact (keys_add o key value).mem_iff.mpr (List.mem_cons_self ..)

theorem storedName_setField (o : Object) (name : Text) (value : Json) :
    (o.setField name value).storedName name = o.storedName name := by
  cases h : o.findKey? name with
  | none =>
    have hname := storedName_of_findKey?_none h
    rw [setField_eq, hname]
    exact storedName_assign hname
  | some key => rw [setField_of_findKey? h, storedName_congr keys_overwrite]

theorem storedName_modifyAt {change : Object → Object} {rest : List Text}
    (h : o.storedName key = key) : (o.modifyAt change (key :: rest)).storedName key = key := by
  unfold modifyAt
  split
  · rw [storedName_congr keys_overwrite, h]
  · split_ifs
    · exact storedName_assign h
    · exact h
  · exact h

theorem field?_eq (o : Object) (name : Text) : o.field? name = o.get? (o.storedName name) := by
  unfold field? storedName
  cases h : o.findKey? name with
  | some key => rfl
  | none =>
    refine (get?_eq_none_iff.mpr ?_).symm
    rw [Bool.eq_false_iff, Ne, hasKey_iff_mem_keys]
    exact fun hmem => findKey?_eq_none_iff.mp h name hmem rfl

theorem mem_keys_iff : key ∈ o.keys ↔ (o.get? key).isSome := by
  rw [isSome_get?, hasKey_iff_mem_keys]

/-- A name that is found is that of a member. -/
theorem get?_of_findKey? (hkey : o.findKey? name = some key) :
    ∃ v, o.get? key = some v ∧ o.field? name = some v := by
  obtain ⟨v, hget⟩ := Option.isSome_iff_exists.mp (mem_keys_iff.mp (findKey?_eq_some hkey).1)
  exact ⟨v, hget, field?_of_get? hkey hget⟩

/-- A field that is read as something other than null holds it. -/
theorem field?_of_getD (h : (o.field? name).getD .null = value) (hvalue : value ≠ .null) :
    o.field? name = some value := by
  cases hfield : o.field? name with
  | none =>
    rw [hfield] at h
    exact absurd h.symm hvalue
  | some v =>
    rw [hfield] at h
    exact congrArg some h

theorem field?_eq_none_iff : o.field? name = none ↔ o.findKey? name = none := by
  constructor
  · intro h
    cases hkey : o.findKey? name with
    | none => rfl
    | some key =>
      obtain ⟨v, -, hfield⟩ := get?_of_findKey? hkey
      rw [hfield] at h
      cases h
  · intro h
    rw [field?, h, Option.bind_none]

/-- Whether a field of this name can be set: an assignment to the reserved name may store nothing. -/
def Takes (o : Object) (name : Text) : Prop :=
  name ≠ reservedName ∨ o.hasField name = true ∨ o.unlocked = true

theorem takes_of_ne (h : name ≠ reservedName) : o.Takes name := .inl h

theorem takes_of_field? (h : o.field? name = some value) : o.Takes name := by
  obtain ⟨key, hkey, -⟩ := get?_of_field? h
  refine .inr (.inl ?_)
  rw [hasField, hkey]
  rfl

/-- A name that can be given to a member leads to the value that is set. -/
theorem field?_setField_of_takes (h : o.Takes name) (value : Json) :
    (o.setField name value).field? name = some value := by
  rw [field?_eq, storedName_setField, setField_eq, get?_assign, if_pos rfl]
  cases hkey : o.findKey? name with
  | none =>
    rw [storedName_of_findKey?_none hkey]
    refine h.imp_right fun h => .inr (h.resolve_left ?_)
    simp [hasField, hkey]
  | some key =>
    rw [storedName_of_findKey? hkey]
    exact .inr (.inl (hasKey_iff_mem_keys.mpr (findKey?_eq_some hkey).1))

theorem field?_setField (h : name.lower ≠ Text.lower reservedName) :
    (o.setField name value).field? name = some value :=
  field?_setField_of_takes (takes_of_ne fun hname => h (by rw [hname])) value

theorem field?_overwrite :
    (o.overwrite (o.storedName name) value).field? name = (o.field? name).map fun _ => value := by
  rw [field?_eq, storedName_congr keys_overwrite, get?_overwrite, if_pos rfl, field?_eq]

theorem setField_of_field? (h : o.field? name = some value) (v : Json) :
    o.setField name v = o.overwrite (o.storedName name) v := by
  obtain ⟨key, hkey, -⟩ := get?_of_field? h
  rw [setField_of_findKey? hkey, storedName_of_findKey? hkey]

/-- A value written over itself. -/
theorem overwrite_self (ho : o.keys.Nodup) (h : o.get? key = some value) :
    o.overwrite key value = o := by
  unfold overwrite
  have hmap : (o.members.map fun m => if m.1 = key then (m.1, value) else m) = o.members := by
    conv_rhs => rw [← List.map_id o.members]
    refine List.map_congr_left fun m hm => ?_
    split_ifs with hm'
    · obtain rfl : value = m.2 :=
        Option.some.inj (h.symm.trans (hm' ▸ get?_of_mem ho hm))
      rfl
    · rfl
  rw [hmap]

theorem setField_self (ho : o.keys.Nodup) (h : o.field? name = some value) :
    o.setField name value = o := by
  obtain ⟨key, hkey, hget⟩ := get?_of_field? h
  rw [setField_of_findKey? hkey]
  exact overwrite_self ho hget

theorem overwrite_overwrite (o : Object) (key : Text) (v w : Json) :
    (o.overwrite key v).overwrite key w = o.overwrite key w := by
  unfold overwrite
  simp only [List.map_map]
  congr 1
  refine List.map_congr_left fun m _ => ?_
  rw [Function.comp_apply]
  split_ifs <;> simp_all

theorem removeField_eq (o : Object) (name : Text) :
    o.removeField name = o ∨ o.removeField name = o.erase (o.storedName name) := by
  unfold removeField storedName
  cases o.findKey? name with
  | none => exact .inl rfl
  | some key => exact .inr rfl

/-- Merging leaves a field as it is or sets it. -/
theorem merge_eq (o : Object) (name : Text) (value : Json) :
    o.merge name value = o ∨ ∃ v, o.merge name value = o.setField name v := by
  cases value with
  | null => exact .inl rfl
  | arr items =>
    unfold merge
    split_ifs
    · exact .inl rfl
    · split <;> exact .inr ⟨_, rfl⟩
  | obj inner =>
    unfold merge
    split <;> exact .inr ⟨_, rfl⟩
  | _ => exact .inr ⟨_, rfl⟩

/-- Replacing removes a field or sets it. -/
theorem replace_eq (o : Object) (name : Text) (value : Json) :
    o.replace name value = o.removeField name ∨
      ∃ v, o.replace name value = o.setField name v := by
  cases value with
  | obj inner =>
    refine .inr ?_
    unfold replace
    rw [if_neg (by simp [Json.isUnassigned])]
    split
    · split <;> exact ⟨_, rfl⟩
    · exact ⟨_, rfl⟩
  | _ =>
    unfold replace
    split_ifs
    · exact .inl rfl
    · exact .inr ⟨_, rfl⟩

/-! ### Members left alone -/

/-- The members with names in `p` are the same, in the same order. -/
def Keeps (p : Text → Bool) (o o' : Object) : Prop :=
  (o'.members.filter fun m => p m.1) = o.members.filter fun m => p m.1

namespace Keeps

variable {p q : Text → Bool}

theorem refl (o : Object) : Keeps p o o := rfl

theorem trans (h : Keeps p o o') (h' : Keeps p o' o'') : Keeps p o o'' := Eq.trans h' h

theorem mono (h : Keeps p o o') (hpq : ∀ k, q k → p k) : Keeps q o o' := by
  have hfilter : ∀ ms : List (Text × Json),
      (ms.filter fun m => q m.1) = (ms.filter fun m => p m.1).filter fun m => q m.1 := by
    intro ms
    rw [List.filter_filter]
    refine List.filter_congr fun m _ => ?_
    cases hq : q m.1 with
    | false => rfl
    | true => rw [hpq _ hq]; rfl
  unfold Keeps at h ⊢
  rw [hfilter, hfilter o.members, h]

theorem get? (h : Keeps p o o') (hk : p k) : o'.get? k = o.get? k := by
  have hfind : ∀ ms : List (Text × Json),
      ms.find? (fun m => m.1 == k) = (ms.filter fun m => p m.1).find? fun m => m.1 == k := by
    intro ms
    rw [List.find?_filter]
    congr 1
    funext m
    by_cases hm : m.1 = k <;> simp [hm, hk]
  unfold Object.get?
  rw [hfind, hfind o.members, h]

theorem erase (h : p key = false) : Keeps p o (o.erase key) := by
  unfold Keeps Object.erase
  rw [List.filter_filter]
  refine List.filter_congr fun m _ => ?_
  by_cases hm : m.1 = key <;> simp_all

theorem overwrite (h : p key = false) : Keeps p o (o.overwrite key value) := by
  obtain ⟨ms, b⟩ := o
  unfold Keeps Object.overwrite
  induction ms with
  | nil => rfl
  | cons m rest ih => by_cases hm : m.1 = key <;> simp_all [List.filter_cons]

theorem filter_insertIndexed (h : p key = false) (i : Nat) (ms : List (Text × Json)) :
    ((Members.insertIndexed i key value ms).filter fun m => p m.1) = ms.filter fun m => p m.1 := by
  fun_induction Members.insertIndexed i key value ms with
  | case1 => simp [h]
  | case2 m rest j hj hlt => simp [h]
  | case3 m rest j hj hlt ih => rw [List.filter_cons, List.filter_cons, ih]
  | case4 m rest hm => simp [h]

theorem add (h : p key = false) : Keeps p o (o.add key value) := by
  unfold Keeps Object.add Members.add
  split
  · exact filter_insertIndexed h _ _
  · simp [h]

theorem assign (h : p key = false) : Keeps p o (o.assign key value) := by
  unfold Object.assign
  split_ifs
  · exact overwrite h
  · exact refl o
  · exact add h

theorem setField (h : p (o.storedName name) = false) : Keeps p o (o.setField name value) :=
  assign h

theorem removeField (h : p (o.storedName name) = false) : Keeps p o (o.removeField name) := by
  rcases o.removeField_eq name with heq | heq <;> rw [heq]
  · exact refl o
  · exact erase h

theorem merge (h : p (o.storedName name) = false) : Keeps p o (o.merge name value) := by
  rcases o.merge_eq name value with heq | ⟨v, heq⟩ <;> rw [heq]
  · exact refl o
  · exact setField h

theorem replace (h : p (o.storedName name) = false) : Keeps p o (o.replace name value) := by
  rcases o.replace_eq name value with heq | ⟨v, heq⟩ <;> rw [heq]
  · exact removeField h
  · exact setField h

theorem modifyAt {rest : List Text} {change : Object → Object} (h : p key = false) :
    Keeps p o (o.modifyAt change (key :: rest)) := by
  unfold Object.modifyAt
  split
  · exact overwrite h
  · split_ifs
    · exact assign h
    · exact refl o
  · exact refl o

end Keeps

/-! ### Distinct names -/

theorem mem_keys_erase (h : k ∈ (o.erase key).keys) : k ∈ o.keys ∧ k ≠ key := by
  obtain ⟨m, hm, rfl⟩ := List.mem_map.mp h
  obtain ⟨hmem, hne⟩ := List.mem_filter.mp hm
  exact ⟨List.mem_map_of_mem hmem, by simpa using hne⟩

/-- At most one stored name is this one up to letter case. -/
def Unambiguous (name : Text) (o : Object) : Prop :=
  ∀ k ∈ o.keys, ∀ k' ∈ o.keys, k.lower = name.lower → k'.lower = name.lower → k = k'

namespace Unambiguous

theorem mono (h : o.Unambiguous name) (hkeys : ∀ k ∈ o'.keys, k ∈ o.keys) :
    o'.Unambiguous name :=
  fun k hk k' hk' => h k (hkeys k hk) k' (hkeys k' hk')

theorem findKey? (h : o.Unambiguous name) (hmem : key ∈ o.keys) (hname : key.lower = name.lower) :
    o.findKey? name = some key := by
  cases hfind : o.findKey? name with
  | none => exact absurd hname (findKey?_eq_none_iff.mp hfind key hmem)
  | some k =>
    obtain ⟨hk, hlower⟩ := findKey?_eq_some hfind
    exact congrArg some (h k hk key hmem hlower hname)

/-- The stored name does not depend on the letter case asked for. -/
theorem findKey?_congr (h : o.Unambiguous name) {name' : Text} (hname : name'.lower = name.lower) :
    o.findKey? name' = o.findKey? name := by
  cases hkey : o.findKey? name' with
  | none =>
    refine (findKey?_eq_none_iff.mpr fun k hk => ?_).symm
    rw [← hname]
    exact findKey?_eq_none_iff.mp hkey k hk
  | some k =>
    obtain ⟨hk, hlower⟩ := findKey?_eq_some hkey
    exact (h.findKey? hk (hlower.trans hname)).symm

theorem field?_congr (h : o.Unambiguous name) {name' : Text} (hname : name'.lower = name.lower) :
    o.field? name' = o.field? name := by
  unfold Object.field?
  rw [h.findKey?_congr hname]

theorem findKey?_erase (h : o.Unambiguous name) (hkey : o.findKey? name = some key) :
    (o.erase key).findKey? name = none := by
  refine findKey?_eq_none_iff.mpr fun k hk hlower => ?_
  obtain ⟨hmem, hne⟩ := mem_keys_erase hk
  exact hne (Option.some.inj ((h.findKey? hmem hlower).symm.trans hkey))

end Unambiguous

/-- No two names are equal up to letter case. -/
def Distinct (o : Object) : Prop := (o.keys.map Text.lower).Nodup

instance (o : Object) : Decidable o.Distinct :=
  inferInstanceAs (Decidable (o.keys.map Text.lower).Nodup)

namespace Distinct

theorem unambiguous (h : o.Distinct) (name : Text) : o.Unambiguous name :=
  fun _ hk _ hk' hname hname' => List.inj_on_of_nodup_map h hk hk' (hname.trans hname'.symm)

theorem erase (h : o.Distinct) : (o.erase key).Distinct :=
  h.sublist ((List.filter_sublist.map _).map _)

theorem overwrite (h : o.Distinct) : (o.overwrite key value).Distinct := by
  unfold Distinct
  rwa [keys_overwrite]

theorem add (h : o.Distinct) (hnone : o.findKey? key = none) : (o.add key value).Distinct := by
  refine ((keys_add o key value).map _).nodup_iff.mpr (List.nodup_cons.mpr ⟨?_, h⟩)
  intro hmem
  obtain ⟨k, hk, hlower⟩ := List.mem_map.mp hmem
  exact findKey?_eq_none_iff.mp hnone k hk hlower

/-- A name may be assigned to if it is stored, or if no name like it is. -/
theorem assign (h : o.Distinct) (hkey : o.storedName key = key) :
    (o.assign key value).Distinct := by
  rcases assign_cases hkey value with heq | heq | ⟨hnone, heq⟩ <;> rw [heq]
  · exact h.overwrite
  · exact h
  · exact h.add hnone

theorem setField (h : o.Distinct) : (o.setField name value).Distinct := by
  rw [setField_eq]
  exact h.assign (o.storedName_storedName name)

theorem removeField (h : o.Distinct) : (o.removeField name).Distinct := by
  rcases o.removeField_eq name with heq | heq <;> rw [heq]
  · exact h
  · exact h.erase

theorem findKey?_removeField (h : o.Distinct) : (o.removeField name).findKey? name = none := by
  unfold Object.removeField
  cases hfind : o.findKey? name with
  | none => exact hfind
  | some key => exact (h.unambiguous name).findKey?_erase hfind

theorem merge (h : o.Distinct) : (o.merge name value).Distinct := by
  rcases o.merge_eq name value with heq | ⟨v, heq⟩ <;> rw [heq]
  · exact h
  · exact h.setField

theorem replace (h : o.Distinct) : (o.replace name value).Distinct := by
  rcases o.replace_eq name value with heq | ⟨v, heq⟩ <;> rw [heq]
  · exact h.removeField
  · exact h.setField

theorem modifyAt {rest : List Text} {change : Object → Object} (h : o.Distinct)
    (hkey : o.storedName key = key) : (o.modifyAt change (key :: rest)).Distinct := by
  unfold Object.modifyAt
  split
  · exact h.overwrite
  · split_ifs
    · exact h.assign hkey
    · exact h
  · exact h

end Distinct

/-! ### Changes of named fields -/

/-- Whether a text is none of the names, in any letter case. -/
def outside (names : List Text) (k : Text) : Bool := !names.any fun n => n.lower == k.lower

theorem outside_eq_false_iff {names : List Text} :
    outside names k = false ↔ k.lower ∈ names.map Text.lower := by
  simp [outside]

theorem outside_eq_true_iff {names : List Text} :
    outside names k = true ↔ k.lower ∉ names.map Text.lower := by
  rw [← outside_eq_false_iff]; simp

/-- Only fields of these names differ, and names that are distinct stay so. -/
structure Changes (names : List Text) (o o' : Object) : Prop where
  keeps : Keeps (outside names) o o'
  distinct : o.Distinct → o'.Distinct

namespace Changes

variable {names names' : List Text} {container : List Text} {change : Object → Object}

theorem refl (o : Object) : Changes names o o := ⟨.refl o, id⟩

theorem trans (h : Changes names o o') (h' : Changes names o' o'') : Changes names o o'' :=
  ⟨h.keeps.trans h'.keeps, h'.distinct ∘ h.distinct⟩

theorem mono (h : Changes names o o') (hsub : ∀ n ∈ names, n.lower ∈ names'.map Text.lower) :
    Changes names' o o' := by
  refine ⟨h.keeps.mono fun k hk => ?_, h.distinct⟩
  rw [outside_eq_true_iff] at hk ⊢
  intro hmem
  obtain ⟨n, hn, hlower⟩ := List.mem_map.mp hmem
  exact hk (hlower ▸ hsub n hn)

theorem outside_storedName (o : Object) (h : name.lower ∈ names.map Text.lower) :
    outside names (o.storedName name) = false := by
  rwa [outside_eq_false_iff, lower_storedName]

theorem setField (h : name.lower ∈ names.map Text.lower) :
    Changes names o (o.setField name value) :=
  ⟨.setField (outside_storedName o h), Distinct.setField⟩

theorem removeField (h : name.lower ∈ names.map Text.lower) :
    Changes names o (o.removeField name) :=
  ⟨.removeField (outside_storedName o h), Distinct.removeField⟩

theorem merge (h : name.lower ∈ names.map Text.lower) : Changes names o (o.merge name value) :=
  ⟨.merge (outside_storedName o h), Distinct.merge⟩

theorem replace (h : name.lower ∈ names.map Text.lower) :
    Changes names o (o.replace name value) :=
  ⟨.replace (outside_storedName o h), Distinct.replace⟩

theorem erase (h : key.lower ∈ names.map Text.lower) : Changes names o (o.erase key) :=
  ⟨.erase (outside_eq_false_iff.mpr h), Distinct.erase⟩

theorem overwrite (h : key.lower ∈ names.map Text.lower) :
    Changes names o (o.overwrite key value) :=
  ⟨.overwrite (outside_eq_false_iff.mpr h), Distinct.overwrite⟩

/-- A field of any other name is the same. -/
theorem findKey? (h : Changes names o o') (hname : name.lower ∉ names.map Text.lower) :
    o'.findKey? name = o.findKey? name := by
  have hout : outside names name = true := outside_eq_true_iff.mpr hname
  have hfind : ∀ o : Object, (o.keys.find? fun key => key.lower == name.lower) =
      ((o.members.filter fun m => outside names m.1).find?
        fun m => m.1.lower == name.lower).map (·.1) := by
    intro o
    rw [keys, List.find?_map, List.find?_filter]
    congr 2
    funext m
    by_cases hm : m.1.lower = name.lower
    · have hmem : outside names m.1 = true := outside_eq_true_iff.mpr (hm ▸ hname)
      simp [hm, hmem]
    · simp [hm]
  unfold Object.findKey?
  rw [← isSome_get?, ← isSome_get?, h.keeps.get? hout, hfind, hfind o, h.keeps]

theorem field? (h : Changes names o o') (hname : name.lower ∉ names.map Text.lower) :
    o'.field? name = o.field? name := by
  unfold Object.field?
  rw [h.findKey? hname]
  cases hkey : o.findKey? name with
  | none => rfl
  | some key =>
    have hlower := (findKey?_eq_some hkey).2
    exact h.keeps.get? (outside_eq_true_iff.mpr (hlower ▸ hname))

/-- A change inside the object at `container` touches the first name on the way; with no way to go,
it is the change itself. -/
theorem modifyAt (hnil : container = [] → Changes names o (change o))
    (hhead : ∀ key ∈ container.head?, key.lower ∈ names.map Text.lower ∧ o.storedName key = key) :
    Changes names o (o.modifyAt change container) := by
  cases container with
  | nil => exact hnil rfl
  | cons key rest =>
    obtain ⟨hname, hstored⟩ := hhead key rfl
    exact ⟨.modifyAt (outside_eq_false_iff.mpr hname), fun h => h.modifyAt hstored⟩

end Changes

/-- Setting a field gives no other field a new stored name. -/
theorem storedName_setField_mem (o : Object) (name name' : Text) (value : Json) :
    (o.setField name value).storedName name' ∈ [o.storedName name, o.storedName name'] := by
  by_cases hname : name'.lower = name.lower
  · cases hstored : o.findKey? name with
    | some key =>
      rw [setField_of_findKey? hstored, storedName_congr keys_overwrite]
      exact List.mem_cons_of_mem _ (List.mem_singleton_self _)
    | none =>
      have hnone : ∀ k ∈ o.keys, k.lower ≠ name'.lower :=
        fun k hk => hname ▸ findKey?_eq_none_iff.mp hstored k hk
      cases hfind : (o.setField name value).findKey? name' with
      | some k =>
        obtain ⟨hk, hlower⟩ := findKey?_eq_some hfind
        rw [storedName_of_findKey? hfind]
        rcases mem_keys_assign hk with rfl | hmem
        · exact List.mem_cons_self ..
        · exact absurd hlower (hnone k hmem)
      | none => simp [storedName, hfind, findKey?_eq_none_iff.mpr hnone]
  · have hchange : Changes [name] o (o.setField name value) := .setField (by simp)
    simp [storedName, hchange.findKey? (by simpa using hname)]

/-! ### Writing a member of a new name -/

variable {v : Json}

theorem hasKey_of_findKey?_none (h : o.findKey? name = none) : o.hasKey name = false := by
  rw [Bool.eq_false_iff, Ne, hasKey_iff_mem_keys]
  exact fun hmem => findKey?_eq_none_iff.mp h name hmem rfl

theorem map_overwrite_of_not_mem {ms : List (Text × Json)} (h : key ∉ ms.map (·.1)) :
    (ms.map fun m => if m.1 = key then (m.1, value) else m) = ms := by
  conv_rhs => rw [← List.map_id ms]
  refine List.map_congr_left fun m hm => if_neg ?_
  rintro rfl
  exact h (List.mem_map_of_mem hm)

theorem map_overwrite_insertIndexed (i : Nat) {ms : List (Text × Json)}
    (h : key ∉ ms.map (·.1)) :
    ((Members.insertIndexed i key value ms).map fun m => if m.1 = key then (m.1, v) else m) =
      Members.insertIndexed i key v ms := by
  fun_induction Members.insertIndexed i key value ms with
  | case1 => simp [Members.insertIndexed]
  | case2 m rest j hj hlt =>
    rw [List.map_cons, map_overwrite_of_not_mem h]
    simp [Members.insertIndexed, hj, hlt]
  | case3 m rest j hj hlt ih =>
    obtain ⟨hm, hrest⟩ : key ≠ m.1 ∧ key ∉ rest.map (·.1) := by simpa using h
    rw [List.map_cons, ih hrest, if_neg hm.symm]
    simp [Members.insertIndexed, hj, hlt]
  | case4 m rest hm =>
    rw [List.map_cons, map_overwrite_of_not_mem h]
    simp [Members.insertIndexed, hm]

theorem overwrite_add (h : o.hasKey key = false) :
    (o.add key value).overwrite key v = o.add key v := by
  have hkey : key ∉ o.keys := by rwa [← hasKey_iff_mem_keys, Bool.not_eq_true]
  unfold overwrite add Members.add
  split
  · rw [map_overwrite_insertIndexed _ hkey]
  · rw [List.map_append, map_overwrite_of_not_mem hkey]
    simp

/-- A field of a new name is added, if it can be set. -/
theorem setField_of_takes (hkey : o.findKey? name = none) (h : o.Takes name) (v : Json) :
    o.setField name v = o.add name v := by
  rw [setField_eq, storedName_of_findKey?_none hkey]
  unfold assign
  rw [if_neg (by simp [hasKey_of_findKey?_none hkey]), if_neg]
  rcases h with hname | hfield | hunlocked
  · simp [hname]
  · simp [hasField, hkey] at hfield
  · simp [hunlocked]

theorem setField_setField_of_takes (h : o.Takes name) (v w : Json) :
    (o.setField name v).setField name w = o.setField name w := by
  cases hkey : o.findKey? name with
  | some key =>
    have hkey' : (o.overwrite key v).findKey? name = some key := by
      rw [findKey?_congr keys_overwrite, hkey]
    rw [setField_of_findKey? hkey, setField_of_findKey? hkey, setField_of_findKey? hkey',
      overwrite_overwrite]
  | none =>
    have hkey' : (o.add name v).findKey? name = some name :=
      findKey?_self ((keys_add o name v).mem_iff.mpr (List.mem_cons_self ..))
    rw [setField_of_takes hkey h, setField_of_takes hkey h, setField_of_findKey? hkey',
      overwrite_add (hasKey_of_findKey?_none hkey)]

theorem field?_of_not_takes (h : ¬ o.Takes name) : o.field? name = none := by
  cases hfield : o.field? name with
  | none => rfl
  | some v => exact absurd (takes_of_field? hfield) h

/-- What is not stored leaves no member, but may unlock the object. -/
theorem setField_eq_of_not_takes (h : ¬ o.Takes name) (v : Json) :
    o.setField name v = ⟨o.members, unlocks v⟩ := by
  have hkey := field?_eq_none_iff.mp (field?_of_not_takes h)
  obtain ⟨hname, -, hlocked⟩ : name = reservedName ∧ ¬ o.hasField name = true ∧
      ¬ o.unlocked = true := by simpa [Takes] using h
  rw [setField_eq, storedName_of_findKey?_none hkey]
  unfold assign
  rw [if_neg (by simp [hasKey_of_findKey?_none hkey]), if_pos (by simp [hname, hlocked])]

theorem setField_of_not_takes (h : ¬ o.Takes name) (hv : unlocks v = false) :
    o.setField name v = o := by
  have hlocked : o.unlocked = false := by
    rw [Bool.eq_false_iff]
    exact fun hunlocked => h (.inr (.inr hunlocked))
  rw [setField_eq_of_not_takes h, hv, ← hlocked]

end Object

end Scim
