import Mathlib.Data.List.Forall2
import Scim.Proofs.Json.Local
import Scim.Proofs.Json.Unambiguous

/-!
# Fields that hold the same

`Object.SameOn name o o'`: the field of this name holds the same in both objects, its members being
in the same order but their values compared by `Json.same`. The same values written to it leave it
so (`SameOn.setField`), and objects of which this holds for all names are the same
(`same_of_sameOn`).
-/

namespace Scim

open Object

namespace Json

variable {v w v' w' : Json}

/-! ### Tests that do not see the order of members -/

mutual

theorem isUnassigned_of_same : ∀ {v w : Json}, v.same w → v.isUnassigned = w.isUnassigned
  | .arr items, w, h => by
    obtain ⟨items', rfl, hitems⟩ := exists_of_same_arr h
    exact allUnassigned_of_same hitems
  | .obj o, w, h => by
    obtain ⟨o', rfl, -⟩ := exists_of_same_obj h
    rfl
  | .null, w, h | .bool _, w, h | .num _, w, h | .str _, w, h => by
    rw [(same_scalar_iff rfl rfl).mp h]
termination_by structural v => v

theorem allUnassigned_of_same : ∀ {items items' : List Json},
    List.Forall₂ (fun v w => v.same w) items items' → allUnassigned items = allUnassigned items'
  | [], _, .nil => rfl
  | v :: rest, _, .cons h hrest => by
    rw [allUnassigned, allUnassigned, isUnassigned_of_same h, allUnassigned_of_same hrest]
termination_by structural items => items

end

theorem same_congr (hv : v.WellFormed) (hw : w.WellFormed) (hv' : v'.WellFormed)
    (hw' : w'.WellFormed) (h : v.same v') (h' : w.same w') : v.same w = v'.same w' := by
  rw [Bool.eq_iff_iff]
  constructor
  · exact fun hsame => same_trans _ (same_symm _ hv hv' h) (same_trans _ hsame h')
  · exact fun hsame => same_trans _ h (same_trans _ hsame (same_symm _ hw hw' h'))

/-- The same items are added to the same. -/
theorem appendNew_of_same {items items' new new' : List Json} (hitems : (arr items).WellFormed)
    (hitems' : (arr items').WellFormed) (hnew : (arr new).WellFormed)
    (hnew' : (arr new').WellFormed)
    (h : (arr items).same (arr items')) (h' : (arr new).same (arr new')) :
    (arr (appendNew items new)).same (arr (appendNew items' new')) := by
  rw [same_arr_iff] at h'
  induction h' generalizing items items' with
  | nil => exact h
  | @cons v v' rest rest' hsame _ ih =>
    obtain ⟨hv, hrest⟩ := List.forall_mem_cons.mp (wellFormed_arr_iff.mp hnew)
    obtain ⟨hv', hrest'⟩ := List.forall_mem_cons.mp (wellFormed_arr_iff.mp hnew')
    have hany : (items.any fun w => w.same v) = items'.any fun w => w.same v' := by
      rw [wellFormed_arr_iff] at hitems hitems'
      rw [same_arr_iff] at h
      clear ih
      induction h with
      | nil => rfl
      | cons hw _ ih =>
        obtain ⟨hx, hitems⟩ := List.forall_mem_cons.mp hitems
        obtain ⟨hx', hitems'⟩ := List.forall_mem_cons.mp hitems'
        rw [List.any_cons, List.any_cons, ih hitems hitems', same_congr hx hv hx' hv' hw hsame]
    rw [← wellFormed_arr_iff] at hrest hrest'
    show (arr (appendNew (if items.any fun w => w.same v then items else items ++ [v]) rest)).same
      (arr (appendNew (if items'.any fun w => w.same v' then items' else items' ++ [v']) rest'))
    rw [hany]
    split_ifs
    · exact ih hitems hitems' hrest hrest' h
    · refine ih (AllObjects.concat hitems hv) (AllObjects.concat hitems' hv') hrest hrest' ?_
      rw [same_arr_iff] at h ⊢
      exact List.rel_append h (.cons hsame .nil)

end Json

namespace Object

variable {o o' p p' : Object} {name name' key : Text} {v v' : Json}

/-- A member of the same name with the same value. -/
def SameMember (m m' : Text × Json) : Prop := m.1 = m'.1 ∧ m.2.same m'.2

/-- The field of this name holds the same in both objects. -/
def SameOn (name : Text) (o o' : Object) : Prop :=
  List.Forall₂ SameMember (o.members.filter fun m => within name m.1)
    (o'.members.filter fun m => within name m.1)

theorem get?_of_sameMembers {ms ms' : List (Text × Json)} (b b' : Bool)
    (h : List.Forall₂ SameMember ms ms') :
    Option.Rel (fun v w => v.same w) (get? ⟨ms, b⟩ key) (get? ⟨ms', b'⟩ key) := by
  induction h with
  | nil => exact .none
  | cons hm _ ih =>
    rw [get?_cons, get?_cons, hm.1]
    split_ifs
    · exact .some hm.2
    · exact ih

theorem isSome_of_rel {r : Json → Json → Prop} {x y : Option Json} (h : Option.Rel r x y) :
    x.isSome = y.isSome := by
  cases h <;> rfl

theorem setField_of_findKey?_none (h : o.findKey? name = none) (hname : name ≠ reservedName) :
    o.setField name v = o.add name v := setField_of_takes h (takes_of_ne hname) v

namespace SameOn

theorem refl (ho : (Json.obj o).WellFormed) (name : Text) : SameOn name o o :=
  List.forall₂_same.mpr fun m hm => ⟨rfl, m.2.same_refl (ho.member (List.mem_filter.mp hm).1)⟩

/-- Objects with the same members of this name stand for each other. -/
theorem of_agreeOn (h : SameOn name o p) (ho : AgreeOn name o o') (hp : AgreeOn name p p') :
    SameOn name o' p' := by
  unfold SameOn
  rw [ho.keeps, hp.keeps]
  exact h

theorem congr (h : SameOn name o o') (hname : name'.lower = name.lower) : SameOn name' o o' := by
  unfold SameOn within
  rw [hname]
  exact h

theorem get? (h : SameOn name o o') (hkey : key.lower = name.lower) :
    Option.Rel (fun v w => v.same w) (o.get? key) (o'.get? key) := by
  have hfilter : ∀ o : Object,
      Keeps (within name) o ⟨o.members.filter fun m => within name m.1, false⟩ :=
    fun o => List.filter_filter.trans (List.filter_congr fun m _ => Bool.and_self _)
  have hwithin : within name key := within_iff.mpr hkey
  rw [← (hfilter o).get? hwithin, ← (hfilter o').get? hwithin]
  exact get?_of_sameMembers _ _ h

theorem findKey? (h : SameOn name o o') : o'.findKey? name = o.findKey? name := by
  have hnames : ((o'.members.filter fun m => within name m.1).map (·.1)) =
      (o.members.filter fun m => within name m.1).map (·.1) := by
    unfold SameOn at h
    generalize o.members.filter _ = ms at h
    generalize o'.members.filter _ = ms' at h
    induction h with
    | nil => rfl
    | cons hm _ ih => rw [List.map_cons, List.map_cons, ih, hm.1]
  have hhas : o'.hasKey name = o.hasKey name := by
    rw [← isSome_get?, ← isSome_get?, isSome_of_rel (h.get? rfl)]
  unfold Object.findKey?
  rw [hhas, find?_keys_eq, find?_keys_eq, hnames]

theorem storedName (h : SameOn name o o') : o'.storedName name = o.storedName name :=
  congrArg (·.getD name) h.findKey?

theorem field? (h : SameOn name o o') :
    Option.Rel (fun v w => v.same w) (o.field? name) (o'.field? name) := by
  rw [field?_eq, field?_eq, h.storedName]
  exact h.get? (lower_storedName o name)

theorem setField (h : SameOn name o o') (hname : name ≠ reservedName) (hv : v.same v') :
    SameOn name (o.setField name v) (o'.setField name v') := by
  unfold SameOn
  cases hkey : o.findKey? name with
  | some key =>
    rw [setField_of_findKey? hkey, setField_of_findKey? (h.findKey?.trans hkey), filter_overwrite,
      filter_overwrite]
    refine List.rel_map (fun m m' hm => ?_) h
    rw [hm.1]
    split_ifs
    · exact ⟨rfl, hv⟩
    · exact hm
  | none =>
    have hnil := filter_within_of_findKey?_none hkey
    have hkey' := h.findKey?.trans hkey
    have hnil' := filter_within_of_findKey?_none hkey'
    have hwithin : within name name := within_iff.mpr rfl
    rw [setField_of_findKey?_none hkey hname, setField_of_findKey?_none hkey' hname]
    show List.Forall₂ SameMember ((Members.add o.members name v).filter fun m => within name m.1)
      ((Members.add o'.members name v').filter fun m => within name m.1)
    rw [Members.filter_add hwithin (.inr hnil), Members.filter_add hwithin (.inr hnil'), hnil,
      hnil']
    exact .cons ⟨rfl, hv⟩ .nil

theorem removeField (h : SameOn name o o') :
    SameOn name (o.removeField name) (o'.removeField name) := by
  unfold Object.removeField
  rw [h.findKey?]
  cases o.findKey? name with
  | none => exact h
  | some key =>
    unfold SameOn
    rw [filter_erase, filter_erase]
    refine List.rel_filter (fun m m' hm => ?_) h
    show m.1 != key ↔ m'.1 != key
    rw [hm.1]

end SameOn

/-- Objects with the same fields are the same. -/
theorem same_of_sameOn (ho : (Json.obj o).WellFormed) (ho' : (Json.obj o').WellFormed)
    (h : ∀ name, SameOn name o o') : (Json.obj o).same (.obj o') := by
  have hkeys : ∀ key, key ∈ o.keys ↔ key ∈ o'.keys := fun key => by
    rw [mem_keys_iff, mem_keys_iff, isSome_of_rel ((h key).get? rfl)]
  have hperm : o.keys.Perm o'.keys :=
    (List.perm_ext_iff_of_nodup ho.nodup ho'.nodup).mpr hkeys
  refine Json.same_obj_iff.mpr ⟨by simpa [keys] using hperm.length_eq, fun m hm => ?_⟩
  have hrel : Option.Rel (fun v w => v.same w) (o.get? m.1) (o'.get? m.1) := (h m.1).get? rfl
  rw [get?_of_mem ho.nodup hm] at hrel
  generalize o'.get? m.1 = found at hrel
  cases hrel with
  | some hsame => exact ⟨_, rfl, hsame⟩

/-- So are objects that agree on all fields. -/
theorem same_of_agreeOn (ho : (Json.obj o).WellFormed) (ho' : (Json.obj o').WellFormed)
    (h : ∀ name, AgreeOn name o o') : (Json.obj o).same (.obj o') :=
  same_of_sameOn ho ho' fun name => (SameOn.refl ho name).of_agreeOn (.refl name o) (h name)

/-! ### Members in any order -/

/-- Members of the same names with the same values, in some order. -/
structure SameMembers (ms ms' : List (Text × Json)) : Prop where
  forth : ∀ m ∈ ms, ∃ m' ∈ ms', SameMember m m'
  back : ∀ m' ∈ ms', ∃ m ∈ ms, SameMember m m'

theorem sameMembers_of_same (ho : (Json.obj o).WellFormed) (ho' : (Json.obj o').WellFormed)
    (h : (Json.obj o).same (.obj o')) : SameMembers o.members o'.members where
  forth m hm := by
    obtain ⟨w, hw, hsame⟩ := (Json.same_obj_iff.mp h).2 m hm
    exact ⟨_, mem_of_get? hw, rfl, hsame⟩
  back m' hm' := by
    have hsymm := Json.same_symm _ ho ho' h
    obtain ⟨w, hw, hsame⟩ := (Json.same_obj_iff.mp hsymm).2 m' hm'
    have hmem := mem_of_get? hw
    exact ⟨_, hmem, rfl, Json.same_symm _ (ho'.member hm') (ho.member hmem) hsame⟩

theorem SameMembers.flatMap {ms ms' : List (Text × Json)} {f : Text × Json → List (Text × Json)}
    (h : SameMembers ms ms')
    (hf : ∀ m ∈ ms, ∀ m' ∈ ms', SameMember m m' → SameMembers (f m) (f m')) :
    SameMembers (ms.flatMap f) (ms'.flatMap f) where
  forth e he := by
    obtain ⟨m, hm, he⟩ := List.mem_flatMap.mp he
    obtain ⟨m', hm', hsame⟩ := h.forth m hm
    obtain ⟨e', he', hsame'⟩ := (hf m hm m' hm' hsame).forth e he
    exact ⟨e', List.mem_flatMap.mpr ⟨m', hm', he'⟩, hsame'⟩
  back e' he' := by
    obtain ⟨m', hm', he'⟩ := List.mem_flatMap.mp he'
    obtain ⟨m, hm, hsame⟩ := h.back m' hm'
    obtain ⟨e, he, hsame'⟩ := (hf m hm m' hm' hsame).back e' he'
    exact ⟨e, List.mem_flatMap.mpr ⟨m, hm, he⟩, hsame'⟩

end Object

end Scim
