import Scim.Proofs.Json.Same
import Scim.Proofs.Path.Target

/-!
# Work on a single field

`Object.Local name f`: what `f` makes of the field of this name depends on that field only, and
nothing else is touched. The field of a name is all members with that name in some letter case; to
the field of the reserved name belongs whether the object takes a member of that name. All ways of
writing to a field are local, and so is any change inside an object that a field holds.

Work on one field does not see work on another (`Local.agreeOn`), which is why it does not matter in
which order the two are done.
-/

namespace Scim

namespace Object

variable {o o' o'' : Object} {name name' key : Text} {value : Json} {rest : List Text}
  {f g change : Object → Object}

/-- Whether a text is this name, in some letter case. -/
def within (name k : Text) : Bool := k.lower == name.lower

theorem within_iff : within name key ↔ key.lower = name.lower := beq_iff_eq

theorem find?_keys_eq (o : Object) (name : Text) :
    (o.keys.find? fun key => key.lower == name.lower) =
      ((o.members.filter fun m => within name m.1).map (·.1)).head? := by
  rw [keys, List.find?_map, List.head?_map, List.head?_filter]
  rfl

/-- The field of this name is the same in both objects. -/
structure AgreeOn (name : Text) (o o' : Object) : Prop where
  keeps : Keeps (within name) o o'
  unlocked : name.lower = Text.lower reservedName → o'.unlocked = o.unlocked

/-- Everything but the field of this name is the same in both objects. -/
structure Spares (name : Text) (o o' : Object) : Prop where
  keeps : Keeps (outside [name]) o o'
  unlocked : name.lower ≠ Text.lower reservedName → o'.unlocked = o.unlocked

namespace AgreeOn

theorem refl (name : Text) (o : Object) : AgreeOn name o o := ⟨.refl o, fun _ => rfl⟩

theorem symm (h : AgreeOn name o o') : AgreeOn name o' o :=
  ⟨Eq.symm h.keeps, fun hname => (h.unlocked hname).symm⟩

theorem trans (h : AgreeOn name o o') (h' : AgreeOn name o' o'') : AgreeOn name o o'' :=
  ⟨h.keeps.trans h'.keeps, fun hname => (h'.unlocked hname).trans (h.unlocked hname)⟩

theorem congr (h : AgreeOn name o o') (hname : name'.lower = name.lower) : AgreeOn name' o o' := by
  refine ⟨h.keeps.mono fun k hk => ?_, fun hres => h.unlocked (hname ▸ hres)⟩
  rw [within_iff] at hk ⊢
  exact hk.trans hname

theorem get? (h : AgreeOn name o o') (hkey : key.lower = name.lower) : o'.get? key = o.get? key :=
  h.keeps.get? (within_iff.mpr hkey)

theorem hasKey (h : AgreeOn name o o') (hkey : key.lower = name.lower) :
    o'.hasKey key = o.hasKey key := by
  rw [← isSome_get?, ← isSome_get?, h.get? hkey]

theorem findKey? (h : AgreeOn name o o') : o'.findKey? name = o.findKey? name := by
  unfold Object.findKey?
  rw [h.hasKey rfl, find?_keys_eq, find?_keys_eq, h.keeps]

theorem storedName (h : AgreeOn name o o') : o'.storedName name = o.storedName name :=
  congrArg (·.getD name) h.findKey?

theorem field? (h : AgreeOn name o o') : o'.field? name = o.field? name := by
  rw [field?_eq, field?_eq, h.storedName, h.get? (lower_storedName o name)]

theorem objectAt (h : AgreeOn name o o') (hkey : key.lower = name.lower) (rest : List Text) :
    o'.objectAt (key :: rest) = o.objectAt (key :: rest) := by
  rw [objectAt_cons, objectAt_cons, h.get? hkey]

end AgreeOn

namespace Spares

theorem refl (name : Text) (o : Object) : Spares name o o := ⟨.refl o, fun _ => rfl⟩

theorem trans (h : Spares name o o') (h' : Spares name o' o'') : Spares name o o'' :=
  ⟨h.keeps.trans h'.keeps, fun hname => (h'.unlocked hname).trans (h.unlocked hname)⟩

/-- Every other field is the same. -/
theorem agreeOn (h : Spares name o o') (hne : name'.lower ≠ name.lower) : AgreeOn name' o o' where
  keeps := h.keeps.mono fun k hk => by
    rw [outside_eq_true_iff, List.map_singleton, List.mem_singleton, within_iff.mp hk]
    exact hne
  unlocked hname := h.unlocked fun hres => hne (hname.trans hres.symm)

end Spares

/-- What is made of the field of this name depends on that field only, and nothing else is touched. -/
structure Local (name : Text) (f : Object → Object) : Prop where
  agree {o o' : Object} (h : AgreeOn name o o') : AgreeOn name (f o) (f o')
  spare (o : Object) : Spares name o (f o)

theorem outside_of_lower (hkey : key.lower = name.lower) : outside [name] key = false := by
  rw [outside_eq_false_iff, hkey]
  exact List.mem_singleton_self _

/-- A name with an index in it is written in one way only. -/
theorem arrayIndex?_reservedName : reservedName.arrayIndex? = none := by decide

theorem filter_overwrite (p : Text → Bool) (o : Object) (key : Text) (value : Json) :
    ((o.overwrite key value).members.filter fun m => p m.1) =
      (o.members.filter fun m => p m.1).map fun m => if m.1 = key then (m.1, value) else m := by
  unfold overwrite
  rw [List.filter_map]
  refine congrArg _ (List.filter_congr fun m _ => ?_)
  rw [Function.comp_apply]
  split_ifs <;> rfl

theorem filter_erase (p : Text → Bool) (o : Object) (key : Text) :
    ((o.erase key).members.filter fun m => p m.1) =
      (o.members.filter fun m => p m.1).filter fun m => m.1 != key := by
  unfold erase
  rw [List.filter_filter, List.filter_filter]
  exact List.filter_congr fun m _ => Bool.and_comm ..

/-- A name that is not stored has no members. -/
theorem filter_within_of_findKey?_none (h : o.findKey? name = none) :
    (o.members.filter fun m => within name m.1) = [] := by
  refine List.filter_eq_nil_iff.mpr fun m hm => ?_
  rw [within_iff]
  exact findKey?_eq_none_iff.mp h m.1 (List.mem_map_of_mem hm)

theorem Members.filter_add {p : Text → Bool} {ms : List (Text × Json)} (hp : p key)
    (hkey : key.arrayIndex? = none ∨ (ms.filter fun m => p m.1) = []) :
    ((Members.add ms key value).filter fun m => p m.1) =
      (ms.filter fun m => p m.1) ++ [(key, value)] := by
  rcases hkey with hindex | hnil
  · simp [Members.add, hindex, hp]
  · have hperm := (members_add ⟨ms, false⟩ key value).filter fun m => p m.1
    rw [List.filter_cons_of_pos (by exact hp)] at hperm
    change List.Perm _ ((key, value) :: ms.filter fun m => p m.1) at hperm
    rw [hnil] at hperm ⊢
    exact List.perm_singleton.mp hperm

namespace Local

theorem refl (name : Text) : Local name id := ⟨fun h => h, .refl name⟩

theorem comp (hf : Local name f) (hg : Local name g) : Local name (g ∘ f) :=
  ⟨fun h => hg.agree (hf.agree h), fun o => (hf.spare o).trans (hg.spare (f o))⟩

/-- It may depend on the field which local work is done. -/
theorem of_work (h : ∀ o, ∃ F, Local name F ∧ ∀ o', AgreeOn name o o' → f o' = F o') :
    Local name f where
  agree {o o'} ho := by
    obtain ⟨F, hF, hrun⟩ := h o
    rw [hrun o (.refl name o), hrun o' ho]
    exact hF.agree ho
  spare o := by
    obtain ⟨F, hF, hrun⟩ := h o
    rw [hrun o (.refl name o)]
    exact hF.spare o

theorem overwrite (hkey : key.lower = name.lower) (value : Json) :
    Local name (·.overwrite key value) where
  agree {o o'} h := by
    refine ⟨?_, h.unlocked⟩
    unfold Keeps
    rw [filter_overwrite, filter_overwrite, h.keeps]
  spare o := ⟨.overwrite (outside_of_lower hkey), fun _ => rfl⟩

theorem erase (hkey : key.lower = name.lower) : Local name (·.erase key) where
  agree {o o'} h := by
    refine ⟨?_, h.unlocked⟩
    unfold Keeps
    rw [filter_erase, filter_erase, h.keeps]
  spare o := ⟨.erase (outside_of_lower hkey), fun _ => rfl⟩

end Local

theorem AgreeOn.assign (h : AgreeOn name o o') (hkey : key.lower = name.lower)
    (hplace : key.arrayIndex? = none ∨ o.storedName key = key) :
    AgreeOn name (o.assign key value) (o'.assign key value) := by
  have hlocked : (decide (key = reservedName) && !o'.unlocked) =
      (decide (key = reservedName) && !o.unlocked) := by
    by_cases hres : key = reservedName
    · rw [h.unlocked (by rw [← hkey, hres])]
    · simp [hres]
  unfold Object.assign
  rw [h.hasKey hkey, hlocked]
  split_ifs with hhas
  · exact (Local.overwrite hkey value).agree h
  · exact ⟨h.keeps, fun _ => rfl⟩
  · -- a name that may be an index is added where there is none like it
    have hnil : key.arrayIndex? = none ∨ (o.members.filter fun m => within name m.1) = [] := by
      refine hplace.imp_right fun hstored => ?_
      have hnone : o.findKey? key = none := by
        by_contra hsome
        obtain ⟨k, hk⟩ := Option.ne_none_iff_exists'.mp hsome
        obtain rfl := (storedName_of_findKey? hk).symm.trans hstored
        exact hhas (hasKey_iff_mem_keys.mpr (findKey?_eq_some hk).1)
      rw [← filter_within_of_findKey?_none hnone]
      unfold within
      rw [hkey]
    refine ⟨?_, h.unlocked⟩
    have hwithin : within name key := within_iff.mpr hkey
    show ((Members.add o'.members key value).filter fun m => within name m.1) =
      (Members.add o.members key value).filter fun m => within name m.1
    rw [Members.filter_add hwithin hnil, Members.filter_add hwithin (by rwa [h.keeps]), h.keeps]

theorem Spares.assign (hkey : key.lower = name.lower) : Spares name o (o.assign key value) where
  keeps := .assign (outside_of_lower hkey)
  unlocked hname := by
    have hne : key ≠ reservedName := fun hres => hname (by rw [← hkey, hres])
    unfold Object.assign
    split_ifs <;> first | rfl | simp_all

namespace Local

theorem removeField (name : Text) : Local name (·.removeField name) := by
  refine .of_work fun o => ?_
  cases hkey : o.findKey? name with
  | none =>
    refine ⟨id, .refl name, fun o' h => ?_⟩
    rw [Object.removeField, h.findKey?, hkey]
    rfl
  | some key =>
    refine ⟨(·.erase key), .erase (findKey?_eq_some hkey).2, fun o' h => ?_⟩
    rw [Object.removeField, h.findKey?, hkey]

theorem setField (name : Text) (value : Json) : Local name (·.setField name value) where
  agree {o o'} h := by
    rw [setField_eq, setField_eq, h.storedName]
    exact h.assign (lower_storedName o name) (.inr (o.storedName_storedName name))
  spare o := .assign (lower_storedName o name)

theorem merge (name : Text) (value : Json) : Local name (·.merge name value) where
  agree {o o'} h := by
    have hset := fun value => (setField name value).agree h
    cases value with
    | null => exact h
    | arr items =>
      unfold Object.merge
      rw [h.field?]
      split_ifs
      · exact h
      · split <;> exact hset _
    | obj inner =>
      unfold Object.merge
      rw [h.field?]
      split <;> exact hset _
    | _ => exact hset _
  spare o := by
    rcases o.merge_eq name value with heq | ⟨v, heq⟩ <;> rw [heq]
    · exact .refl name o
    · exact (setField name v).spare o

theorem replace (name : Text) (value : Json) : Local name (·.replace name value) where
  agree {o o'} h := by
    have hset := fun value => (setField name value).agree h
    unfold Object.replace
    rw [h.field?]
    split_ifs
    · exact (removeField name).agree h
    · split
      · split <;> exact hset _
      · exact hset _
  spare o := by
    rcases o.replace_eq name value with heq | ⟨v, heq⟩ <;> rw [heq]
    · exact (removeField name).spare o
    · exact (setField name v).spare o

theorem modifyAt (hkey : key.lower = name.lower) (rest : List Text) (change : Object → Object) :
    Local name (·.modifyAt change (key :: rest)) where
  agree {o o'} h := by
    rw [modifyAt_cons, modifyAt_cons, h.get? hkey]
    split
    · exact (overwrite hkey _).agree h
    · split_ifs with hres
      · exact h.assign hkey (.inl (hres ▸ arrayIndex?_reservedName))
      · exact h
    · exact h
  spare o := by
    rw [modifyAt_cons]
    split
    · exact (overwrite hkey _).spare o
    · split_ifs
      · exact .assign hkey
      · exact .refl name o
    · exact .refl name o

/-- A change somewhere inside the field, or of the object itself. -/
theorem modifyAt_of_head {container : List Text}
    (hhead : ∀ key ∈ container.head?, key.lower = name.lower)
    (hnil : container = [] → Local name change) : Local name (·.modifyAt change container) := by
  cases container with
  | nil => exact hnil rfl
  | cons key rest => exact .modifyAt (hhead key rfl) rest change

/-! ### Work on two fields -/

/-- Work on another field does not show. -/
theorem agreeOn (hg : Local name' g) (hne : name.lower ≠ name'.lower) (o : Object) :
    AgreeOn name o (g o) := (hg.spare o).agreeOn hne

/-- It does not matter in which order the work on two fields is done. -/
theorem comm (hf : Local name f) (hg : Local name' g) (hne : name.lower ≠ name'.lower) (o : Object)
    (k : Text) : AgreeOn k (g (f o)) (f (g o)) := by
  by_cases hk : k.lower = name.lower
  · have hseen : AgreeOn name (f o) (g (f o)) := hg.agreeOn hne (f o)
    exact (hseen.symm.trans (hf.agree (hg.agreeOn hne o))).congr hk
  by_cases hk' : k.lower = name'.lower
  · have hseen : AgreeOn name' (g o) (f (g o)) := hf.agreeOn hne.symm (g o)
    exact ((hg.agree (hf.agreeOn hne.symm o)).symm.trans hseen).congr hk'
  · have hfirst : AgreeOn k o (g (f o)) := (hf.agreeOn hk o).trans (hg.agreeOn hk' (f o))
    exact hfirst.symm.trans ((hg.agreeOn hk' o).trans (hf.agreeOn hk (g o)))

end Local

end Object

/-- What is core depends on the list of schemas only. -/
theorem Schema.isCore_of_agreeOn {o o' : Object} (h : Object.AgreeOn listName o o')
    (core : List Text) (urn : Text) : isCore core o' urn = isCore core o urn := by
  unfold isCore
  rw [h.field?]

end Scim
