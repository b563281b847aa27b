import Scim.Proofs.Json.SameOn
import Scim.Proofs.Patch.Addressing
import Scim.Proofs.Patch.Unambiguous
import Scim.Proofs.Text.Split

/-!
# Writing members in any order

A way of writing is `Deep` if it works on the field it is given, writes arrays item by item, and
descends through objects. Merging and replacing are (`deep_writer`). The order of members does not
matter for it, neither of those it writes (`writeAll_sameOn`) nor of those further inside
(`Deep.sameOn`), as long as no two have names equal up to letter case.

At the top level of a resource an object under the URN of a core schema is written member by member,
and which schemas are core may change on the way. If the members are `Settled` it does not, and
what is written is known in advance (`writeTopLevel_eq`).
-/

namespace Scim

open Object

namespace Json

theorem reservedKey_of_same (v : Json) {w : Json} (h : v.same w) (hv : v.hasReservedKey) :
    w.hasReservedKey := by
  induction v using induct generalizing w with
  | scalar v hobj harr => rwa [← (same_scalar_iff hobj harr).mp h]
  | arr items ih =>
    obtain ⟨items', rfl, hitems⟩ := exists_of_same_arr h
    rw [hasReservedKey, anyReservedKey_eq_any, List.any_eq_true] at hv ⊢
    obtain ⟨v, hmem, hv⟩ := hv
    obtain ⟨w, hw, hsame⟩ := exists_of_mem_right (List.Forall₂.flip (R := flip _) hitems) hmem
    exact ⟨w, hw, ih v hmem hsame hv⟩
  | obj ms unlocked ih =>
    obtain ⟨o, rfl, -, hms⟩ := exists_of_same_obj h
    rw [hasReservedKey, memberReservedKey_eq_any, List.any_eq_true] at hv ⊢
    obtain ⟨m, hm, hv⟩ := hv
    obtain ⟨w, hw, hsame⟩ := hms m hm
    rw [Bool.or_eq_true] at hv
    exact ⟨_, mem_of_get? hw, Bool.or_eq_true_iff.mpr (hv.imp_right (ih m hm hsame))⟩

theorem hasReservedKey_of_same {v w : Json} (hv : v.WellFormed) (hw : w.WellFormed)
    (h : v.same w) : v.hasReservedKey = w.hasReservedKey :=
  Bool.eq_iff_iff.mpr
    ⟨reservedKey_of_same v h, reservedKey_of_same w (same_symm v hv hw h)⟩

end Json

namespace Operation

variable {core : List Text} {doc o o' : Object} {write : Write} {name : Text}
  {members members' : List (Text × Json)}

/-! ### Writing several members -/

/-- No two members have names equal up to letter case. -/
def DistinctNames (members : List (Text × Json)) : Prop :=
  ((members.map (·.1)).map Text.lower).Nodup

theorem writeAll_append (write : Write) (members members' : List (Text × Json)) (o : Object) :
    writeAll write (members ++ members') o = writeAll write members' (writeAll write members o) :=
  List.foldl_append

section LocalWrites

variable (hwrite : ∀ name value, Local name (write · name value))
include hwrite

theorem writeAll_agreeOn_of_ne (hname : ∀ m ∈ members, m.1.lower ≠ name.lower) (o : Object) :
    AgreeOn name o (writeAll write members o) := by
  induction members generalizing o with
  | nil => exact .refl name o
  | cons m rest ih =>
    obtain ⟨hm, hrest⟩ := List.forall_mem_cons.mp hname
    exact ((hwrite m.1 m.2).agreeOn hm.symm o).trans (ih hrest _)

/-- The field of a member is written as if it were the only one. -/
theorem writeAll_agreeOn (hdistinct : DistinctNames members) {m : Text × Json} (hm : m ∈ members)
    (o : Object) : AgreeOn m.1 (write o m.1 m.2) (writeAll write members o) := by
  induction members generalizing o with
  | nil => cases hm
  | cons first rest ih =>
    obtain ⟨hfirst, hrest⟩ := List.nodup_cons.mp hdistinct
    have hne : ∀ m ∈ rest, m.1.lower ≠ first.1.lower := fun m hm heq =>
      hfirst (List.mem_map.mpr ⟨m.1, List.mem_map_of_mem hm, heq⟩)
    rcases List.mem_cons.mp hm with rfl | hm
    · exact writeAll_agreeOn_of_ne hwrite hne _
    · have hseen := (hwrite first.1 first.2).agreeOn (hne m hm) o
      exact ((hwrite m.1 m.2).agree hseen).trans (ih hrest hm _)

theorem writeAll_sameOn (hms : DistinctNames members) (hms' : DistinctNames members')
    (h : SameMembers members members') (ho : (Json.obj o).WellFormed)
    (hsame : ∀ m ∈ members, ∀ m' ∈ members', SameMember m m' →
      SameOn m.1 (write o m.1 m.2) (write o m.1 m'.2)) (name : Text) :
    SameOn name (writeAll write members o) (writeAll write members' o) := by
  by_cases hname : ∃ m ∈ members, m.1.lower = name.lower
  · obtain ⟨m, hm, hlower⟩ := hname
    obtain ⟨m', hm', hmember⟩ := h.forth m hm
    have hleft := writeAll_agreeOn hwrite hms hm o
    have hright := writeAll_agreeOn hwrite hms' hm' o
    rw [← hmember.1] at hright
    exact ((hsame m hm m' hm' hmember).of_agreeOn hleft hright).congr hlower.symm
  · have hne : ∀ m ∈ members, m.1.lower ≠ name.lower := fun m hm hlower => hname ⟨m, hm, hlower⟩
    have hne' : ∀ m' ∈ members', m'.1.lower ≠ name.lower := by
      intro m' hm'
      obtain ⟨m, hm, hmember⟩ := h.back m' hm'
      exact hmember.1 ▸ hne m hm
    exact (SameOn.refl ho name).of_agreeOn (writeAll_agreeOn_of_ne hwrite hne o)
      (writeAll_agreeOn_of_ne hwrite hne' o)

end LocalWrites

/-! ### Writing a value in any of its forms -/

/-- A member with no reserved name in it and no names equal up to letter case. -/
structure Plain (m : Text × Json) : Prop where
  key : m.1 ≠ reservedName
  inner : m.2.hasReservedKey = false
  unambiguous : m.2.Unambiguous

theorem plain_of_member (hv : (Json.obj o).Unambiguous)
    (hreserved : (Json.obj o).hasReservedKey = false) : ∀ m ∈ o.members, Plain m := by
  intro m hm
  have hall : Json.memberReservedKey o.members = false := hreserved
  rw [Json.memberReservedKey_eq_any, List.any_eq_false] at hall
  have hnot := hall m hm
  simp only [Bool.or_eq_true, beq_iff_eq, not_or, Bool.not_eq_true] at hnot
  exact ⟨hnot.1, hnot.2, hv.member hm⟩

/-- A way of writing that works on the field it is given, writes the same items of an array alike
and descends through objects. -/
structure Deep (write : Write) : Prop where
  work (name : Text) (value : Json) : Local name (write · name value)
  clean : Clean (fun o => o.keys.Nodup) write
  arr {o : Object} {name : Text} {items items' : List Json} (ho : (Json.obj o).WellFormed)
    (hname : name ≠ reservedName) (hitems : (Json.arr items).WellFormed)
    (hitems' : (Json.arr items').WellFormed) (h : (Json.arr items).same (.arr items')) :
    SameOn name (write o name (.arr items)) (write o name (.arr items'))
  obj (o : Object) (name : Text) (inner : Object) : write o name (.obj inner) =
    match o.field? name with
    | some (.obj old) => o.setField name (.obj (writeAll write inner.members old))
    | _ => o.setField name (.obj inner)

theorem mergeMembers_eq : ∀ (members : List (Text × Json)) (o : Object),
    o.mergeMembers members = writeAll Object.merge members o
  | [], _ => rfl
  | m :: rest, o => mergeMembers_eq rest (o.merge m.1 m.2)

theorem replaceMembers_eq : ∀ (members : List (Text × Json)) (o : Object),
    o.replaceMembers members = writeAll Object.replace members o
  | [], _ => rfl
  | m :: rest, o => replaceMembers_eq rest (o.replace m.1 m.2)

theorem deep_merge : Deep Object.merge where
  work := .merge
  clean name h hv := h.merge name hv
  arr {o name items items'} ho hname hitems hitems' h := by
    have hempty : items.isEmpty = items'.isEmpty := by
      cases Json.same_arr_iff.mp h <;> rfl
    unfold Object.merge
    rw [hempty]
    split_ifs
    · exact .refl ho name
    · split
      · rename_i old hfield
        have hold : (Json.arr old).WellFormed := Json.Throughout.field? ho hfield
        exact (SameOn.refl ho name).setField hname
          (Json.appendNew_of_same hold hold hitems hitems' (Json.same_refl _ hold) h)
      · exact (SameOn.refl ho name).setField hname h
  obj o name inner := by
    obtain ⟨members, unlocked⟩ := inner
    unfold Object.merge
    cases o.field? name with
    | none => rfl
    | some v =>
      cases v with
      | obj old =>
        show o.setField name (.obj (Object.mergeMembers old members)) = _
        rw [mergeMembers_eq]
      | _ => rfl

theorem deep_replace : Deep Object.replace where
  work := .replace
  clean name h hv := h.replace name hv
  arr {o name items items'} ho hname hitems hitems' h := by
    have hunassigned := Json.isUnassigned_of_same h
    unfold Object.replace
    rw [hunassigned]
    split_ifs
    · exact (SameOn.refl ho name).removeField
    · exact (SameOn.refl ho name).setField hname h
  obj o name inner := by
    obtain ⟨members, unlocked⟩ := inner
    unfold Object.replace
    rw [if_neg (by simp [Json.isUnassigned])]
    cases o.field? name with
    | none => rfl
    | some v =>
      cases v with
      | obj old =>
        show o.setField name (.obj (Object.replaceMembers old members)) = _
        rw [replaceMembers_eq]
      | _ => rfl

theorem deep_writer (change : Change) : Deep (writer change) := by
  cases change with
  | replace => exact deep_replace
  | _ => exact deep_merge

namespace Deep

/-- The same value is written in the same way. -/
theorem sameOn (hwrite : Deep write) (v : Json) {v' : Json} {o : Object} {name : Text}
    (h : v.same v') (hplain : Plain (name, v)) (hv' : v'.Unambiguous)
    (ho : (Json.obj o).WellFormed) : SameOn name (write o name v) (write o name v') := by
  obtain ⟨hname, hreserved, hv⟩ := hplain
  induction v using Json.induct generalizing v' o name with
  | scalar v hobj harr =>
    obtain rfl := (Json.same_scalar_iff hobj harr).mp h
    exact .refl (hwrite.clean name ho hv'.wellFormed) name
  | arr items ih =>
    obtain ⟨items', rfl, -⟩ := Json.exists_of_same_arr h
    exact hwrite.arr ho hname hv.wellFormed hv'.wellFormed h
  | obj ms unlocked ih =>
    obtain ⟨inner', rfl, -⟩ := Json.exists_of_same_obj h
    rw [hwrite.obj, hwrite.obj]
    split
    · rename_i old hfield
      have hold : (Json.obj old).WellFormed := Json.Throughout.field? ho hfield
      refine (SameOn.refl ho name).setField hname (same_of_sameOn ?_ ?_ ?_)
      · exact writeAll_kept hwrite.clean (fun m hm => (hv.member hm).wellFormed) hold
      · exact writeAll_kept hwrite.clean (fun m hm => (hv'.member hm).wellFormed) hold
      · refine writeAll_sameOn hwrite.work hv.distinct hv'.distinct
          (sameMembers_of_same hv.wellFormed hv'.wellFormed h) hold fun m hm m' hm' hsame => ?_
        have hplain := plain_of_member hv hreserved m hm
        exact ih m hm hsame.2 (hv'.member hm') hold hplain.key hplain.inner hplain.unambiguous
    · exact (SameOn.refl ho name).setField hname h

end Deep

/-! ### The top level -/

/-- What a member writes to the top level: an object under the URN of a core schema stands for its
own members. -/
def standsFor (core : List Text) (doc : Object) (m : Text × Json) : List (Text × Json) :=
  match m.2 with
  | .obj inner => if m.1.isUrn && Schema.isCore core doc m.1 then inner.members else [m]
  | _ => [m]

/-- The attributes that members give to a document. -/
def topAttributes (core : List Text) (doc : Object) (members : List (Text × Json)) :
    List (Text × Json) := members.flatMap (standsFor core doc)

/-- No attribute is given twice, and a value given for the list of schemas does not change whether a
schema is core under whose URN there is an object. -/
structure Settled (core : List Text) (write : Write) (doc : Object) (members : List (Text × Json)) :
    Prop where
  distinct : DistinctNames (topAttributes core doc members)
  core : ∀ a ∈ topAttributes core doc members, a.1.lower = Schema.listName.lower →
    ∀ m ∈ members, m.1.isUrn → m.2.isObject →
      Schema.isCore core (write doc a.1 a.2) m.1 = Schema.isCore core doc m.1

theorem mem_standsFor {a m : Text × Json} (h : a ∈ standsFor core doc m) :
    a = m ∨ ∃ inner : Object, m.2 = .obj inner ∧ a ∈ inner.members := by
  unfold standsFor at h
  split at h
  · rename_i inner hobj
    split_ifs at h
    · exact .inr ⟨inner, hobj, h⟩
    · exact .inl (List.mem_singleton.mp h)
  · exact .inl (List.mem_singleton.mp h)

theorem plain_topAttributes (h : ∀ m ∈ members, Plain m) :
    ∀ a ∈ topAttributes core doc members, Plain a := by
  intro a ha
  obtain ⟨m, hm, ha⟩ := List.mem_flatMap.mp ha
  have hplain := h m hm
  rcases mem_standsFor ha with rfl | ⟨inner, hobj, ha⟩
  · exact hplain
  · have hv : (Json.obj inner).Unambiguous := hobj ▸ hplain.unambiguous
    have hreserved : (Json.obj inner).hasReservedKey = false := hobj ▸ hplain.inner
    exact plain_of_member hv hreserved a ha

/-- The same members give the same attributes. -/
theorem sameMembers_topAttributes (h : SameMembers members members')
    (hms : ∀ m ∈ members, m.2.WellFormed) (hms' : ∀ m ∈ members', m.2.WellFormed) :
    SameMembers (topAttributes core doc members) (topAttributes core doc members') := by
  refine h.flatMap fun m hm m' hm' hsame => ?_
  have hone : SameMembers [m] [m'] := by
    constructor <;> simpa using hsame
  obtain ⟨key, v⟩ := m
  obtain ⟨key', v'⟩ := m'
  obtain ⟨rfl, hv⟩ : key = key' ∧ v.same v' := hsame
  cases v with
  | obj inner =>
    obtain ⟨inner', rfl, -⟩ := Json.exists_of_same_obj hv
    unfold standsFor
    dsimp only
    split_ifs
    · exact sameMembers_of_same (hms _ hm) (hms' _ hm') hv
    · exact hone
  | _ =>
    cases v' with
    | obj inner' => simp [Json.same] at hv
    | _ => exact hone

theorem writeTopLevel_cons (core : List Text) (write : Write) (m : Text × Json)
    (rest : List (Text × Json)) (resource : Object) :
    writeTopLevel core write (m :: rest) resource =
      writeTopLevel core write rest (writeAll write (standsFor core resource m) resource) := by
  have hstep : writeTopLevel core write [m] resource =
      writeAll write (standsFor core resource m) resource := by
    obtain ⟨key, v⟩ := m
    cases v with
    | obj inner =>
      show (if _ then writeAll write inner.members resource
        else write resource key (.obj inner)) = _
      unfold standsFor
      dsimp only
      split_ifs <;> rfl
    | _ => rfl
  rw [← hstep]
  rfl

/-- Which schemas are core depends on the list, which one attribute at most writes to. -/
theorem Settled.isCore (hwrite : ∀ name value, Local name (write · name value))
    (h : Settled core write doc (members ++ members')) {m : Text × Json}
    (hm : m ∈ members ++ members') (hurn : m.1.isUrn) (hobj : m.2.isObject) :
    Schema.isCore core (writeAll write (topAttributes core doc members) doc) m.1 =
      Schema.isCore core doc m.1 := by
  have htop : topAttributes core doc (members ++ members') =
      topAttributes core doc members ++ topAttributes core doc members' := List.flatMap_append
  by_cases hlist : ∃ a ∈ topAttributes core doc members, a.1.lower = Schema.listName.lower
  · obtain ⟨a, ha, hlower⟩ := hlist
    have hdistinct : DistinctNames (topAttributes core doc members) := by
      have hall := h.distinct
      rw [htop] at hall
      exact hall.sublist (((List.sublist_append_left _ _).map _).map _)
    have hagree := (writeAll_agreeOn hwrite hdistinct ha doc).congr hlower.symm
    rw [Schema.isCore_of_agreeOn hagree]
    exact h.core a (htop ▸ List.mem_append_left _ ha) hlower m hm hurn hobj
  · exact Schema.isCore_of_agreeOn (writeAll_agreeOn_of_ne hwrite
      (fun a ha hlower => hlist ⟨a, ha, hlower⟩) doc) core m.1

theorem Settled.standsFor_eq (hwrite : ∀ name value, Local name (write · name value))
    (h : Settled core write doc (members ++ members')) {m : Text × Json}
    (hm : m ∈ members ++ members') :
    standsFor core (writeAll write (topAttributes core doc members) doc) m =
      standsFor core doc m := by
  have hcore := h.isCore hwrite hm
  obtain ⟨key, v⟩ := m
  cases v with
  | obj inner =>
    unfold standsFor
    cases hurn : key.isUrn with
    | true => rw [hcore hurn rfl]
    | false => rfl
  | _ => rfl

/-- Settled members are written as the attributes that they give to the document at first. -/
theorem writeTopLevel_eq (hwrite : ∀ name value, Local name (write · name value))
    (h : Settled core write doc members) :
    writeTopLevel core write members doc =
      writeAll write (topAttributes core doc members) doc := by
  suffices hrest : ∀ rest written, members = written ++ rest →
      writeTopLevel core write rest (writeAll write (topAttributes core doc written) doc) =
        writeAll write (topAttributes core doc members) doc from hrest members [] rfl
  intro rest
  induction rest with
  | nil =>
    intro written hsplit
    rw [hsplit, List.append_nil]
    rfl
  | cons m rest ih =>
    intro written hsplit
    have hstands := (hsplit ▸ h).standsFor_eq hwrite (m := m) (by simp)
    have hwritten := ih (written ++ [m]) (by simp [hsplit])
    rw [topAttributes, List.flatMap_append, List.flatMap_singleton] at hwritten
    rw [writeTopLevel_cons, hstands, ← writeAll_append]
    exact hwritten

/-- So settled members may be written in any order. -/
theorem writeTopLevel_sameOn (hwrite : Deep write) (hv : (Json.obj o).Unambiguous)
    (hv' : (Json.obj o').Unambiguous) (hreserved : (Json.obj o).hasReservedKey = false)
    (hsame : (Json.obj o).same (.obj o')) (hdoc : (Json.obj doc).WellFormed)
    (h : Settled core write doc o.members) (h' : Settled core write doc o'.members) (name : Text) :
    SameOn name (writeTopLevel core write o.members doc)
      (writeTopLevel core write o'.members doc) := by
  have hreserved' : (Json.obj o').hasReservedKey = false := by
    rw [← Json.hasReservedKey_of_same hv.wellFormed hv'.wellFormed hsame, hreserved]
  have hmembers := sameMembers_of_same hv.wellFormed hv'.wellFormed hsame
  rw [writeTopLevel_eq hwrite.work h, writeTopLevel_eq hwrite.work h']
  refine writeAll_sameOn hwrite.work h.distinct h'.distinct (sameMembers_topAttributes hmembers
    (fun m hm => (hv.member hm).wellFormed) fun m hm => (hv'.member hm).wellFormed) hdoc ?_ name
  intro a ha a' ha' hsame
  have hplain := plain_topAttributes (plain_of_member hv hreserved) a ha
  have hplain' := plain_topAttributes (plain_of_member hv' hreserved') a' ha'
  exact hwrite.sameOn a.2 hsame.2 hplain hplain'.unambiguous hdoc

end Operation

end Scim
