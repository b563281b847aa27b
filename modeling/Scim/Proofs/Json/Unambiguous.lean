import Scim.Proofs.Json.Inside
import Scim.Proofs.Path.Target

/-!
# Writing to documents of well-kept objects

Every way of writing a value over a field goes to the stored spelling of its name, and so leaves no
object with two names equal up to letter case, nor with the same name twice, neither the one written
to nor one inside it. What the writing asks of such a property of objects is said by `Object.Stable`.
For a change of an object further down (`AllObjects.modifyAt`) the way there has to be spelled as it
is stored (`Object.Leads`): the way may end in the assignment to a reserved name that is not there,
and this one is not to be there in other letters.
-/

namespace Scim

open Object

namespace Object

/-- A property of objects that no way of writing breaks: a name is added only where none is like it. -/
class Stable (P : Object → Prop) : Prop where
  nodup {o : Object} (h : P o) : o.keys.Nodup
  empty : P empty
  erase {o : Object} {key : Text} (h : P o) : P (o.erase key)
  overwrite {o : Object} {key : Text} {value : Json} (h : P o) : P (o.overwrite key value)
  add {o : Object} {key : Text} {value : Json} (h : P o) (hnone : o.findKey? key = none) :
    P (o.add key value)
  unlock {o : Object} {unlocked : Bool} (h : P o) : P { o with unlocked := unlocked }

instance : Stable Distinct where
  nodup h := .of_map _ h
  empty := List.nodup_nil
  erase := Distinct.erase
  overwrite := Distinct.overwrite
  add := Distinct.add
  unlock h := h

instance : Stable fun o => o.keys.Nodup where
  nodup h := h
  empty := List.nodup_nil
  erase h := h.sublist (List.filter_sublist.map _)
  overwrite h := by rwa [keys_overwrite]
  add {o key value} h hnone := by
    refine (keys_add o key value).nodup_iff.mpr (List.nodup_cons.mpr ⟨fun hmem => ?_, h⟩)
    exact findKey?_eq_none_iff.mp hnone key hmem rfl
  unlock h := h

variable {o doc : Object} {container : List Text}

theorem mem_appendNew {items new : List Json} {v : Json} (h : v ∈ appendNew items new) :
    v ∈ items ∨ v ∈ new := by
  induction new generalizing items with
  | nil => exact .inl h
  | cons w rest ih =>
    rcases ih h with hmem | hmem
    · dsimp only at hmem
      split_ifs at hmem
      · exact .inl hmem
      · rcases List.mem_append.mp hmem with hmem | hmem
        · exact .inl hmem
        · exact .inr (List.mem_singleton.mp hmem ▸ List.mem_cons_self ..)
    · exact .inr (List.mem_cons_of_mem _ hmem)

/-! ### Ways as they are stored -/

/-- Every name on a way into an object is spelled as it is stored there, or stands for no other. -/
def Leads : Object → List Text → Prop
  | _, [] => True
  | o, key :: rest => o.storedName key = key ∧ (o.objectAt [key]).Leads rest

theorem leads_nil (o : Object) : o.Leads [] := trivial

theorem leads_empty (container : List Text) : empty.Leads container := by
  induction container with
  | nil => trivial
  | cons key rest ih => exact ⟨rfl, ih⟩

theorem Leads.append (h : o.Leads container) (name : Text) :
    o.Leads (container ++ [(o.objectAt container).storedName name]) := by
  induction container generalizing o with
  | nil => exact ⟨o.storedName_storedName name, trivial⟩
  | cons key rest ih =>
    have hrest := ih h.2
    rw [← objectAt_append] at hrest
    exact ⟨h.1, hrest⟩

/-- The object at a name after a change further down is changed there, or there is none. -/
theorem objectAt_modifyAt_cons (o : Object) (key : Text) (change : Object → Object)
    (rest : List Text) :
    (o.modifyAt change (key :: rest)).objectAt [key] = (o.objectAt [key]).modifyAt change rest ∨
      (o.modifyAt change (key :: rest)).objectAt [key] = empty := by
  rw [modifyAt_cons]
  cases hget : o.get? key with
  | none =>
    have hempty : o.objectAt [key] = empty := by rw [objectAt_cons, hget]
    rw [hempty]
    dsimp only
    split_ifs
    · exact o.objectAt_assign _ key []
    · exact .inr hempty
  | some v =>
    cases v with
    | obj inner =>
      refine .inl ?_
      rw [objectAt_cons, objectAt_cons, get?_overwrite, if_pos rfl, hget]
      rfl
    | _ =>
      refine .inr ?_
      rw [objectAt_cons, hget]

theorem leads_createObject (h : doc.Leads container) (name : Text) :
    (doc.createObject container name).2.Leads (doc.createObject container name).1 := by
  show (doc.modifyAt (·.setField name (.obj empty)) container).Leads
    (container ++ [(doc.objectAt container).storedName name])
  induction container generalizing doc with
  | nil => exact ⟨storedName_assign (doc.storedName_storedName name), trivial⟩
  | cons key rest ih =>
    refine ⟨storedName_modifyAt h.1, ?_⟩
    rcases doc.objectAt_modifyAt_cons key (·.setField name (.obj empty)) rest with heq | heq
    · rw [heq]
      have hrest := ih h.2
      rwa [← objectAt_append] at hrest
    · rw [heq]
      exact leads_empty _

end Object

namespace Json.AllObjects

variable {P : Object → Prop} {o : Object} {key : Text} {value : Json} {items : List Json}
  {container : List Text} {change : Object → Object}

theorem self (h : (obj o).AllObjects P) : P o := Throughout.self h o rfl

theorem of_members (h : P o) (hm : ∀ m ∈ o.members, m.2.AllObjects P) : (obj o).AllObjects P :=
  allObjects_obj_iff.mpr ⟨h, fun _ _ hget => hm _ (mem_of_get? hget)⟩

theorem nil : (arr []).AllObjects P := allObjects_arr_iff.mpr nofun

theorem map {f : Json → Json} (h : (arr items).AllObjects P)
    (hf : ∀ v, v.AllObjects P → (f v).AllObjects P) : (arr (items.map f)).AllObjects P := by
  rw [allObjects_arr_iff] at h ⊢
  exact List.forall_mem_map.mpr fun v hv => hf v (h v hv)

theorem filter (h : (arr items).AllObjects P) (keep : Json → Bool) :
    (arr (items.filter keep)).AllObjects P := by
  rw [allObjects_arr_iff] at h ⊢
  exact fun v hv => h v (List.mem_filter.mp hv).1

theorem concat (h : (arr items).AllObjects P) (hv : value.AllObjects P) :
    (arr (items ++ [value])).AllObjects P := by
  rw [allObjects_arr_iff] at h ⊢
  exact List.forall_mem_append.mpr ⟨h, List.forall_mem_singleton.mpr hv⟩

theorem appendNew {new : List Json} (h : (arr items).AllObjects P) (hnew : (arr new).AllObjects P) :
    (arr (appendNew items new)).AllObjects P := by
  rw [allObjects_arr_iff] at h hnew ⊢
  exact fun v hv => (mem_appendNew hv).elim (h v) (hnew v)

/-- A change of a value that is an object. -/
theorem inside (h : value.AllObjects P)
    (hchange : ∀ o, (obj o).AllObjects P → (obj (change o)).AllObjects P) :
    (match value with
      | .obj inner => obj (change inner)
      | v => v).AllObjects P := by
  cases value with
  | obj inner => exact hchange inner h
  | _ => exact h

/-! ### Writing keeps what is stable -/

section Members

variable [Stable P]

theorem member (h : (obj o).AllObjects P) {m : Text × Json} (hm : m ∈ o.members) :
    m.2.AllObjects P :=
  Throughout.get? h (get?_of_mem (Stable.nodup h.self) hm)

theorem empty : (obj Object.empty).AllObjects P :=
  of_members Stable.empty nofun

theorem erase (h : (obj o).AllObjects P) (key : Text) : (obj (o.erase key)).AllObjects P :=
  of_members (Stable.erase h.self) fun _ hm => h.member (List.mem_filter.mp hm).1

theorem removeField (h : (obj o).AllObjects P) (name : Text) :
    (obj (o.removeField name)).AllObjects P := by
  rcases o.removeField_eq name with heq | heq <;> rw [heq]
  · exact h
  · exact h.erase _

theorem overwrite (h : (obj o).AllObjects P) (key : Text) (hv : value.AllObjects P) :
    (obj (o.overwrite key value)).AllObjects P := by
  refine of_members (Stable.overwrite h.self) fun m hm => ?_
  rcases mem_overwrite hm with heq | hmem
  · exact heq ▸ hv
  · exact h.member hmem

theorem add (h : (obj o).AllObjects P) (hnone : o.findKey? key = none) (hv : value.AllObjects P) :
    (obj (o.add key value)).AllObjects P := by
  refine of_members (Stable.add h.self hnone) fun m hm => ?_
  rcases mem_add hm with heq | hmem
  · exact heq ▸ hv
  · exact h.member hmem

theorem assign (h : (obj o).AllObjects P) (hkey : o.storedName key = key) (hv : value.AllObjects P) :
    (obj (o.assign key value)).AllObjects P := by
  rcases assign_cases hkey value with heq | heq | ⟨hnone, heq⟩ <;> rw [heq]
  · exact h.overwrite key hv
  · exact of_members (Stable.unlock h.self) fun _ hm => h.member hm
  · exact h.add hnone hv

theorem setField (h : (obj o).AllObjects P) (name : Text) (hv : value.AllObjects P) :
    (obj (o.setField name value)).AllObjects P :=
  h.assign (o.storedName_storedName name) hv

end Members

mutual

theorem merge [Stable P] : ∀ {o : Object} {value : Json} (name : Text), (obj o).AllObjects P →
    value.AllObjects P → (obj (o.merge name value)).AllObjects P
  | _, .null, _, h, _ => h
  | o, .arr items, name, h, hv => by
    unfold Object.merge
    split_ifs
    · exact h
    · split
      · rename_i old hfield
        exact h.setField name (appendNew (Throughout.field? h hfield) hv)
      · exact h.setField name hv
  | o, .obj ⟨members, unlocked⟩, name, h, hv => by
    unfold Object.merge
    split
    · rename_i old hfield
      exact h.setField name (mergeMembers (Throughout.field? h hfield) fun _ hm => hv.member hm)
    · exact h.setField name hv
  | _, .bool _, name, h, hv | _, .num _, name, h, hv | _, .str _, name, h, hv =>
    h.setField name hv
termination_by structural _ value => value

theorem mergeMembers [Stable P] : ∀ {o : Object} {members : List (Text × Json)}, (obj o).AllObjects P →
    (∀ m ∈ members, m.2.AllObjects P) → (obj (o.mergeMembers members)).AllObjects P
  | _, [], h, _ => h
  | o, (key, value) :: rest, h, hm => by
    obtain ⟨hv, hrest⟩ := List.forall_mem_cons.mp hm
    show (obj ((o.merge key value).mergeMembers rest)).AllObjects P
    exact mergeMembers (merge key h hv) hrest
termination_by structural _ members => members

end

mutual

theorem replace [Stable P] : ∀ {o : Object} {value : Json} (name : Text), (obj o).AllObjects P →
    value.AllObjects P → (obj (o.replace name value)).AllObjects P
  | o, .obj ⟨members, unlocked⟩, name, h, hv => by
    unfold Object.replace
    rw [if_neg (by simp [isUnassigned])]
    dsimp only
    split
    · rename_i old hfield
      exact h.setField name (replaceMembers (Throughout.field? h hfield) fun _ hm => hv.member hm)
    · exact h.setField name hv
  | _, .null, name, h, hv | _, .bool _, name, h, hv | _, .num _, name, h, hv
  | _, .str _, name, h, hv | _, .arr _, name, h, hv => by
    unfold Object.replace
    split_ifs
    · exact h.removeField name
    · exact h.setField name hv
termination_by structural _ value => value

theorem replaceMembers [Stable P] : ∀ {o : Object} {members : List (Text × Json)}, (obj o).AllObjects P →
    (∀ m ∈ members, m.2.AllObjects P) → (obj (o.replaceMembers members)).AllObjects P
  | _, [], h, _ => h
  | o, (key, value) :: rest, h, hm => by
    obtain ⟨hv, hrest⟩ := List.forall_mem_cons.mp hm
    show (obj ((o.replace key value).replaceMembers rest)).AllObjects P
    exact replaceMembers (replace key h hv) hrest
termination_by structural _ members => members

end

variable [Stable P]

theorem modifyAt (h : (obj o).AllObjects P) (hlead : o.Leads container)
    (hchange : ∀ o, (obj o).AllObjects P → (obj (change o)).AllObjects P) :
    (obj (o.modifyAt change container)).AllObjects P := by
  induction container generalizing o with
  | nil => exact hchange o h
  | cons key rest ih =>
    unfold Object.modifyAt
    split
    · rename_i inner hget
      have hinner : Leads inner rest := by
        have hrest := hlead.2
        rw [objectAt_cons, hget] at hrest
        exact hrest
      exact h.overwrite key (ih (Throughout.get? h hget) hinner)
    · split_ifs
      · exact h.assign hlead.1 (ih empty (leads_empty rest))
      · exact h
    · exact h

theorem objectAt (h : (obj o).AllObjects P) (container : List Text) :
    (obj (o.objectAt container)).AllObjects P := by
  induction container generalizing o with
  | nil => exact h
  | cons key rest ih =>
    rw [objectAt_cons]
    split
    · rename_i inner hget
      exact ih (Throughout.get? h hget)
    · exact empty

theorem createObject (h : (obj o).AllObjects P) (hlead : o.Leads container) (name : Text) :
    (obj (o.createObject container name).2).AllObjects P :=
  h.modifyAt hlead fun _ ho => ho.setField name empty

end Json.AllObjects

end Scim
