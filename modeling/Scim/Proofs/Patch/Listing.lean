import Scim.Proofs.Json.SameOn
import Scim.Proofs.Patch.Addressing
import Scim.Proofs.Patch.Bookkeeping
import Scim.Proofs.Patch.Unambiguous

/-!
# Bookkeeping in any order

What bookkeeping does about a schema is its `verdict`, and the verdict on another schema stays the
same by it. So the verdicts on several schemas can be told in advance, and with them what becomes of
the resource: of the fields under the URNs, and of the list of schemas
(`foldl_updateSchema_list`, `foldl_updateSchema_urn`, `foldl_updateSchema_other`). In what order the
schemas are dealt with shows in the order of the list only (`foldl_updateSchema_perm`).
-/

namespace Scim

open Object

namespace Object

variable {o o' : Object} {name : Text} {x y : Option Json} {v w : Json}

/-- Sets a field to a value if there is one. -/
def putField (o : Object) (name : Text) : Option Json → Object
  | some v => o.setField name v
  | none => o

theorem setField_setField (hname : name ≠ reservedName) (v w : Json) :
    (o.setField name v).setField name w = o.setField name w :=
  setField_setField_of_takes (takes_of_ne hname) v w

theorem putField_self (ho : o.keys.Nodup) (name : Text) : o.putField name (o.field? name) = o := by
  cases hfield : o.field? name with
  | none => rfl
  | some v => exact setField_self ho hfield

theorem putField_putField (hname : name ≠ reservedName) (h : y = none → x = none) :
    (o.putField name x).putField name y = o.putField name y := by
  cases y with
  | none => rw [h rfl]; rfl
  | some w =>
    cases x with
    | none => rfl
    | some v => exact setField_setField hname v w

theorem field?_putField (hname : name.lower ≠ Text.lower reservedName)
    (h : x = none → o.field? name = none) : (o.putField name x).field? name = x := by
  cases x with
  | none => exact h rfl
  | some v => exact field?_setField hname

theorem Local.putField (name : Text) (x : Option Json) : Local name (·.putField name x) := by
  cases x with
  | none => exact .refl name
  | some v => exact .setField name v

/-- Work on one field of objects that hold the same. -/
theorem SameOn.of_work {f g : Object → Object} (hf : Local name f) (hg : Local name g)
    (h : ∀ k, SameOn k o o') (hname : SameOn name (f o) (g o')) (k : Text) :
    SameOn k (f o) (g o') := by
  by_cases hk : k.lower = name.lower
  · exact hname.congr hk
  · exact (h k).of_agreeOn (hf.agreeOn hk o) (hg.agreeOn hk o')

end Object

namespace Operation

open Schema

variable {core urns urns' : List Text} {doc doc' : Object} {u w k : Text} {list : Option Json}

/-- What is to be done about a schema: nothing, or it is listed under its stored name or dropped. -/
inductive Verdict where
  | leave
  | enlist (stored : Text)
  | drop

def verdict (core : List Text) (doc : Object) (urn : Text) : Verdict :=
  if isCore core doc urn then .leave
  else if isAssigned (doc.field? urn) then .enlist (doc.storedName urn)
  else .drop

namespace Verdict

/-- What it does to the field under the URN. -/
def clear (urn : Text) : Verdict → Object → Object
  | .drop, o => o.removeField urn
  | _, o => o

/-- The item of a schema that is to be listed. -/
def entry (stored : Text) : Bool → List Json
  | true => []
  | false => [.str stored]

/-- What it does to the items of the list of schemas. -/
def relistItems (urn : Text) : Verdict → List Json → List Json
  | .leave, items => items
  | .enlist stored, items => items ++ entry stored (items.any (isUrnItem urn))
  | .drop, items => items.filter fun v => !isUrnItem urn v

/-- What it does to the list of schemas, which it makes if it is missing. -/
def relist (urn : Text) (v : Verdict) : Option Json → Option Json
  | some (.arr items) => some (.arr (v.relistItems urn items))
  | none =>
    match v with
    | .enlist _ => some (.arr (v.relistItems urn []))
    | _ => none
  | list => list

@[simp] theorem relist_leave (urn : Text) (list : Option Json) : leave.relist urn list = list := by
  rcases list with _ | (_ | _ | _ | _ | _ | _) <;> rfl

theorem clear_local (urn : Text) (v : Verdict) : Local urn (v.clear urn) := by
  cases v with
  | drop => exact .removeField urn
  | _ => exact .refl urn

theorem relist_eq_none {v : Verdict} (h : v.relist u list = none) : list = none := by
  cases v <;> rcases list with _ | (_ | _ | _ | _ | _ | _) <;> first | rfl | cases h

end Verdict

/-! ### One schema -/

theorem updateSchema_of_assigned (hdoc : doc.keys.Nodup) (hcore : ¬ isCore core doc u)
    (hassigned : isAssigned (doc.field? u) = true) : updateSchema core doc u =
      doc.putField listName
        ((Verdict.enlist (doc.storedName u)).relist u (doc.field? listName)) := by
  have hself := putField_self hdoc listName
  unfold updateSchema
  rw [if_neg hcore, hassigned]
  cases hlist : doc.field? listName with
  | none => rfl
  | some v =>
    rw [hlist] at hself
    cases v with
    | arr items =>
      dsimp only [Verdict.relist, Verdict.relistItems, putField]
      cases items.any (isUrnItem u) with
      | true =>
        rw [Verdict.entry, List.append_nil]
        exact hself.symm
      | false => exact (setField_of_field? hlist _).symm
    | _ => exact hself.symm

theorem updateSchema_of_unassigned (hdoc : doc.keys.Nodup) (hu : u.lower ≠ listName.lower)
    (hcore : ¬ isCore core doc u) (hassigned : isAssigned (doc.field? u) = false) :
    updateSchema core doc u =
      (doc.removeField u).putField listName (Verdict.drop.relist u (doc.field? listName)) := by
  have hagree : AgreeOn listName doc (doc.removeField u) :=
    (Local.removeField u).agreeOn hu.symm doc
  have hkept : (doc.removeField u).keys.Nodup := by
    rcases doc.removeField_eq u with heq | heq <;> rw [heq]
    · exact hdoc
    · exact hdoc.sublist (List.filter_sublist.map _)
  have hself := putField_self hkept listName
  rw [hagree.field?] at hself
  unfold updateSchema
  rw [if_neg hcore, hassigned]
  cases hlist : doc.field? listName with
  | none => rfl
  | some v =>
    rw [hlist] at hself
    cases v with
    | arr items =>
      dsimp only [Verdict.relist, Verdict.relistItems, putField]
      split_ifs with hany
      · rw [setField_of_field? (hagree.field?.trans hlist), hagree.storedName]
      · rw [List.filter_eq_self.mpr (by simpa using hany)]
        exact hself.symm
    | _ => exact hself.symm

/-- Bookkeeping carries out the verdict on the field and on the list. -/
theorem updateSchema_eq (core : List Text) (hdoc : doc.keys.Nodup)
    (hu : u.lower ≠ listName.lower) :
    updateSchema core doc u = ((verdict core doc u).clear u doc).putField listName
      ((verdict core doc u).relist u (doc.field? listName)) := by
  unfold verdict
  split_ifs with hcore hassigned
  · rw [Verdict.relist_leave]
    exact (if_pos hcore).trans (putField_self hdoc listName).symm
  · exact updateSchema_of_assigned hdoc hcore hassigned
  · exact updateSchema_of_unassigned hdoc hu hcore (by simpa using hassigned)

section Step

variable (core) (hdoc : doc.keys.Nodup) (hu : u.lower ≠ listName.lower)
include hdoc hu

theorem updateSchema_list : AgreeOn listName
    (doc.putField listName ((verdict core doc u).relist u (doc.field? listName)))
    (updateSchema core doc u) := by
  rw [updateSchema_eq core hdoc hu]
  exact (Local.putField listName _).agree (((verdict core doc u).clear_local u).agreeOn hu.symm doc)

theorem updateSchema_urn :
    AgreeOn u ((verdict core doc u).clear u doc) (updateSchema core doc u) := by
  rw [updateSchema_eq core hdoc hu]
  exact (Local.putField listName _).agreeOn hu _

theorem updateSchema_other (hk : k.lower ≠ listName.lower) (hne : k.lower ≠ u.lower) :
    AgreeOn k doc (updateSchema core doc u) := by
  rw [updateSchema_eq core hdoc hu]
  exact (((verdict core doc u).clear_local u).agreeOn hne doc).trans
    ((Local.putField listName _).agreeOn hk _)

theorem field?_updateSchema : (updateSchema core doc u).field? listName =
    (verdict core doc u).relist u (doc.field? listName) := by
  rw [(updateSchema_list core hdoc hu).field?]
  exact field?_putField (by decide) Verdict.relist_eq_none

/-- The first of the list stays the first, or the schema itself is it. -/
theorem isCore_updateSchema (hne : w.lower ≠ u.lower) :
    isCore core (updateSchema core doc u) w = isCore core doc w := by
  have hfield := field?_updateSchema core hdoc hu
  rw [isCore_eq, isCore_eq]
  congr 1
  unfold listed
  rw [hfield]
  unfold verdict
  split_ifs with hcore hassigned
  · rw [Verdict.relist_leave]
  · have hstored : isUrnItem w (.str (doc.storedName u)) = false := by
      simpa [isUrnItem, lower_storedName] using hne.symm
    cases doc.field? listName with
    | none => simp [Verdict.relist, Verdict.relistItems, Verdict.entry, hstored]
    | some v =>
      cases v with
      | arr items =>
        cases items with
        | nil => simp [Verdict.relist, Verdict.relistItems, Verdict.entry, hstored]
        | cons first rest => rfl
      | _ => rfl
  · rw [isCore_eq, Bool.or_eq_true, not_or] at hcore
    unfold listed at hcore
    cases hlist : doc.field? listName with
    | none => rfl
    | some v =>
      cases v with
      | arr items =>
        cases items with
        | nil => rfl
        | cons first rest =>
          have hfirst : isUrnItem u first = false := by simpa [hlist] using hcore.2
          simp [Verdict.relist, Verdict.relistItems, hfirst]
      | _ => rfl

theorem verdict_updateSchema (hw : w.lower ≠ listName.lower) (hne : w.lower ≠ u.lower) :
    verdict core (updateSchema core doc u) w = verdict core doc w := by
  have hagree := updateSchema_other core hdoc hu hw hne
  unfold verdict
  rw [isCore_updateSchema core hdoc hu hne, hagree.field?, hagree.storedName]

end Step

/-! ### Several schemas -/

/-- What the verdicts on several schemas do to the list of schemas. -/
def relistAll (core : List Text) (doc : Object) (urns : List Text) (list : Option Json) :
    Option Json :=
  urns.foldl (fun list u => (verdict core doc u).relist u list) list

theorem relistAll_eq_none (h : relistAll core doc urns list = none) : list = none := by
  induction urns generalizing list with
  | nil => exact h
  | cons u rest ih => exact Verdict.relist_eq_none (ih h)

/-- The URNs of several schemas, none of them given twice. -/
structure Urns (urns : List Text) : Prop where
  distinct : (urns.map Text.lower).Nodup
  ne : ∀ u ∈ urns, u.lower ≠ listName.lower

theorem Urns.of_cons (h : Urns (u :: urns)) : u.lower ≠ listName.lower ∧
    (∀ w ∈ urns, w.lower ≠ u.lower) ∧ Urns urns := by
  obtain ⟨hnot, hdistinct⟩ := List.nodup_cons.mp h.distinct
  obtain ⟨hu, hrest⟩ := List.forall_mem_cons.mp h.ne
  refine ⟨hu, fun w hw heq => hnot ?_, hdistinct, hrest⟩
  exact List.mem_map.mpr ⟨w, hw, heq⟩

theorem Urns.perm (h : Urns urns) (hperm : urns.Perm urns') : Urns urns' where
  distinct := (hperm.map _).nodup_iff.mp h.distinct
  ne u hu := h.ne u (hperm.mem_iff.mpr hu)

section Fold

variable (core) (hdoc : (Json.obj doc).WellFormed) (hurns : Urns urns)
include hdoc hurns

theorem foldl_updateSchema_other (hk : k.lower ≠ listName.lower)
    (hne : ∀ u ∈ urns, u.lower ≠ k.lower) :
    AgreeOn k doc (urns.foldl (updateSchema core) doc) := by
  induction urns generalizing doc with
  | nil => exact .refl k doc
  | cons u rest ih =>
    obtain ⟨hu, -, hrest⟩ := hurns.of_cons
    obtain ⟨hku, hkrest⟩ := List.forall_mem_cons.mp hne
    exact (updateSchema_other core hdoc.nodup hu hk hku.symm).trans
      (ih (updateSchema_kept core hdoc u) hrest hkrest)

theorem foldl_updateSchema_urn (hu : u ∈ urns) :
    AgreeOn u ((verdict core doc u).clear u doc) (urns.foldl (updateSchema core) doc) := by
  induction urns generalizing doc with
  | nil => cases hu
  | cons first rest ih =>
    obtain ⟨hfirst, hne, hrest⟩ := hurns.of_cons
    have hkept := updateSchema_kept core hdoc first
    rcases List.mem_cons.mp hu with rfl | hu
    · exact (updateSchema_urn core hdoc.nodup hfirst).trans
        (foldl_updateSchema_other core hkept hrest hfirst hne)
    · have hlist := hrest.ne u hu
      have hagree := updateSchema_other core hdoc.nodup hfirst hlist (hne u hu)
      have hlater := ih hkept hrest hu
      rw [verdict_updateSchema core hdoc.nodup hfirst hlist (hne u hu)] at hlater
      exact (((verdict core doc u).clear_local u).agree hagree).trans hlater

theorem foldl_updateSchema_list : AgreeOn listName
    (doc.putField listName (relistAll core doc urns (doc.field? listName)))
    (urns.foldl (updateSchema core) doc) := by
  induction urns generalizing doc with
  | nil =>
    show AgreeOn listName (doc.putField listName (doc.field? listName)) doc
    rw [putField_self hdoc.nodup]
    exact .refl listName doc
  | cons u rest ih =>
    obtain ⟨hu, hne, hrest⟩ := hurns.of_cons
    have hlater := ih (updateSchema_kept core hdoc u) hrest
    -- the other verdicts are those of before
    have hverdicts : ∀ list, relistAll core (updateSchema core doc u) rest list =
        relistAll core doc rest list := by
      intro list
      refine List.foldl_ext _ _ _ fun list w hw => ?_
      rw [verdict_updateSchema core hdoc.nodup hu (hrest.ne w hw) (hne w hw)]
    rw [hverdicts, field?_updateSchema core hdoc.nodup hu] at hlater
    have hput := (Local.putField listName (relistAll core doc rest
      ((verdict core doc u).relist u (doc.field? listName)))).agree
        (updateSchema_list core hdoc.nodup hu)
    rw [putField_putField (by decide) relistAll_eq_none] at hput
    exact hput.trans hlater

end Fold

/-! ### The order of the schemas -/

/-- The same list of schemas in some order, or the same other value. -/
inductive SameItems : Option Json → Option Json → Prop
  | refl (list : Option Json) : SameItems list list
  | perm {items items' : List Json} (h : items.Perm items') :
    SameItems (some (.arr items)) (some (.arr items'))

theorem SameItems.trans {a b c : Option Json} (h : SameItems a b) (h' : SameItems b c) :
    SameItems a c := by
  cases h with
  | refl => exact h'
  | perm h =>
    cases h' with
    | refl => exact .perm h
    | perm h' => exact .perm (h.trans h')

theorem SameItems.relist {a b : Option Json} (h : SameItems a b) (u : Text) (v : Verdict) :
    SameItems (v.relist u a) (v.relist u b) := by
  cases h with
  | refl => exact .refl _
  | perm h =>
    refine .perm ?_
    cases v with
    | leave => exact h
    | enlist stored =>
      simp only [Verdict.relistItems]
      rw [h.any_eq]
      exact h.append_right _
    | drop => exact h.filter _

theorem SameItems.relistAll {a b : Option Json} (h : SameItems a b) (core : List Text)
    (doc : Object) (urns : List Text) :
    SameItems (relistAll core doc urns a) (relistAll core doc urns b) := by
  induction urns generalizing a b with
  | nil => exact h
  | cons u rest ih => exact ih (h.relist u _)

/-- A verdict that lists a schema does so under its URN. -/
def Verdict.On (urn : Text) (v : Verdict) : Prop :=
  ∀ stored, v = .enlist stored → stored.lower = urn.lower

theorem verdict_on (core : List Text) (doc : Object) (u : Text) : (verdict core doc u).On u := by
  intro stored h
  unfold verdict at h
  split_ifs at h
  cases h
  exact lower_storedName doc u

theorem isUrnItem_of_ne (hne : w.lower ≠ u.lower) {v : Json} (h : isUrnItem u v) :
    isUrnItem w v = false := by
  cases v with
  | str t =>
    have ht : t.lower = u.lower := by simpa [isUrnItem] using h
    simpa [isUrnItem, ht] using hne.symm
  | _ => rfl

/-- Listing a schema does not list another. -/
theorem any_append_stored {stored : Text} (hstored : stored.lower = u.lower)
    (hne : w.lower ≠ u.lower) (items : List Json) (listed : Bool) :
    ((items ++ Verdict.entry stored listed).any (isUrnItem w)) =
      items.any (isUrnItem w) := by
  have hitem : isUrnItem w (.str stored) = false :=
    isUrnItem_of_ne hne (by simp [isUrnItem, hstored])
  cases listed <;> simp [Verdict.entry, hitem]

/-- Dropping a schema does not drop another. -/
theorem filter_append_stored {stored : Text} (hstored : stored.lower = u.lower)
    (hne : w.lower ≠ u.lower) (items : List Json) (listed : Bool) :
    ((items ++ Verdict.entry stored listed).filter fun v => !isUrnItem w v) =
      (items.filter fun v => !isUrnItem w v) ++ Verdict.entry stored listed := by
  have hitem : isUrnItem w (.str stored) = false :=
    isUrnItem_of_ne hne (by simp [isUrnItem, hstored])
  cases listed <;> simp [Verdict.entry, hitem]

theorem any_filter_other (hne : w.lower ≠ u.lower) (items : List Json) :
    ((items.filter fun v => !isUrnItem w v).any (isUrnItem u)) = items.any (isUrnItem u) := by
  rw [List.any_filter]
  congr 1
  funext v
  cases hv : isUrnItem u v with
  | true => rw [isUrnItem_of_ne hne hv]; rfl
  | false => rw [Bool.and_false]

theorem relistItems_comm {a b : Verdict} (ha : a.On u) (hb : b.On w) (hne : u.lower ≠ w.lower)
    (items : List Json) :
    (b.relistItems w (a.relistItems u items)).Perm (a.relistItems u (b.relistItems w items)) := by
  cases a with
  | leave => exact .refl _
  | enlist stored =>
    have hstored := ha stored rfl
    cases b with
    | leave => exact .refl _
    | enlist stored' =>
      simp only [Verdict.relistItems]
      rw [any_append_stored hstored hne.symm, any_append_stored (hb stored' rfl) hne,
        List.append_assoc, List.append_assoc]
      exact List.perm_append_comm.append_left _
    | drop =>
      simp only [Verdict.relistItems]
      rw [filter_append_stored hstored hne.symm, any_filter_other hne.symm]
  | drop =>
    cases b with
    | leave => exact .refl _
    | enlist stored' =>
      simp only [Verdict.relistItems]
      rw [filter_append_stored (hb stored' rfl) hne, any_filter_other hne]
    | drop =>
      simp only [Verdict.relistItems]
      rw [List.filter_comm]

/-- The verdicts on two schemas do the same to the list in either order. -/
theorem relist_comm {a b : Verdict} (ha : a.On u) (hb : b.On w) (hne : u.lower ≠ w.lower)
    (list : Option Json) :
    SameItems (b.relist w (a.relist u list)) (a.relist u (b.relist w list)) := by
  have hcomm := relistItems_comm ha hb hne
  cases list with
  | none => cases a <;> cases b <;> first | exact .perm (hcomm []) | exact .refl _
  | some v =>
    cases v with
    | arr items => exact .perm (hcomm items)
    | _ => exact .refl _

theorem relistAll_perm (hurns : Urns urns) (hperm : urns.Perm urns') (core : List Text)
    (doc : Object) (list : Option Json) :
    SameItems (relistAll core doc urns list) (relistAll core doc urns' list) := by
  induction hperm generalizing list with
  | nil => exact .refl list
  | cons u _ ih => exact ih hurns.of_cons.2.2 _
  | swap u w rest =>
    have hne : u.lower ≠ w.lower := hurns.of_cons.2.1 u (List.mem_cons_self ..)
    exact (relist_comm (verdict_on core doc w) (verdict_on core doc u) hne.symm list).relistAll
      core doc rest
  | trans hperm _ ih ih' => exact (ih hurns list).trans (ih' (hurns.perm hperm) list)

/-- A resource with the items of its list of schemas in some other order. -/
def Reordered (d p : Object) : Prop :=
  p = d ∨ ∃ items items', d.field? listName = some (.arr items) ∧ items.Perm items' ∧
    p = d.setField listName (.arr items')

/-- Resources that differ in the order of their lists only. -/
theorem exists_reordered {d d' : Object} {x y : Option Json} (hsame : SameItems x y)
    (hx : AgreeOn listName (doc.putField listName x) d)
    (hy : AgreeOn listName (doc.putField listName y) d')
    (hfields : ∀ k, k.lower ≠ listName.lower → AgreeOn k d d') :
    ∃ p, Reordered d p ∧ ∀ k, AgreeOn k p d' := by
  cases hsame with
  | refl =>
    refine ⟨d, .inl rfl, fun k => ?_⟩
    by_cases hk : k.lower = listName.lower
    · exact (hx.symm.trans hy).congr hk
    · exact hfields k hk
  | @perm items items' h =>
    have hlist : d.field? listName = some (.arr items) :=
      hx.field?.trans (field?_setField (by decide))
    have hset : Local listName (·.setField listName (.arr items')) := .setField listName _
    refine ⟨d.setField listName (.arr items'), .inr ⟨items, items', hlist, h, rfl⟩, fun k => ?_⟩
    by_cases hk : k.lower = listName.lower
    · have htwice : (doc.putField listName (some (.arr items))).setField listName (.arr items') =
          doc.setField listName (.arr items') := setField_setField (by decide) _ _
      have hagree := hset.agree hx
      rw [htwice] at hagree
      exact (hagree.symm.trans hy).congr hk
    · exact (hset.agreeOn hk d).symm.trans (hfields k hk)

section Perm

variable (core) (hdoc : (Json.obj doc).WellFormed) (hurns : Urns urns) (hperm : urns.Perm urns')
include hdoc hurns hperm

theorem foldl_updateSchema_perm_field (hk : k.lower ≠ listName.lower) :
    AgreeOn k (urns.foldl (updateSchema core) doc) (urns'.foldl (updateSchema core) doc) := by
  have hurns' := hurns.perm hperm
  by_cases hurn : ∃ u ∈ urns, u.lower = k.lower
  · obtain ⟨u, hu, hlower⟩ := hurn
    have hu' : u ∈ urns' := hperm.mem_iff.mp hu
    exact ((foldl_updateSchema_urn core hdoc hurns hu).symm.trans
      (foldl_updateSchema_urn core hdoc hurns' hu')).congr hlower.symm
  · have hne : ∀ u ∈ urns, u.lower ≠ k.lower := fun u hu heq => hurn ⟨u, hu, heq⟩
    have hne' : ∀ u ∈ urns', u.lower ≠ k.lower := fun u hu => hne u (hperm.mem_iff.mpr hu)
    exact (foldl_updateSchema_other core hdoc hurns hk hne).symm.trans
      (foldl_updateSchema_other core hdoc hurns' hk hne')

/-- Several schemas may be dealt with in any order, but for the order of the list. -/
theorem foldl_updateSchema_perm :
    ∃ p, Reordered (urns.foldl (updateSchema core) doc) p ∧
      ∀ k, AgreeOn k p (urns'.foldl (updateSchema core) doc) :=
  exists_reordered (relistAll_perm hurns hperm core doc (doc.field? listName))
    (foldl_updateSchema_list core hdoc hurns)
    (foldl_updateSchema_list core hdoc (hurns.perm hperm))
    fun _ hk => foldl_updateSchema_perm_field core hdoc hurns hperm hk

end Perm

end Operation

end Scim
