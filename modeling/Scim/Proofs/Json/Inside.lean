import Mathlib.Tactic.Common
import Scim.Json.Location
import Scim.Proofs.Json.Field

/-!
# All through a document

`Json.Throughout p v`: every value inside `v` satisfies `p`, `v` itself included. The values inside
are those that have a location, so the property passes to each of them (`Throughout.at?`), and one
level of an array or object is as good as all (`throughout_arr_iff`, `throughout_obj_iff`).

Properties of whole documents are of this form: that no object has two names equal up to letter case
(`Unambiguous`) or the same name twice (`WellFormed`), both of which are about `AllObjects`, and that
no array has null among its items (`Gapless`).

What is to be proved of values by the values in them is proved by `Json.induct`.
-/

namespace Scim

namespace Json

variable {p q : Json → Prop} {v w : Json} {items : List Json} {o : Object} {location : Location}

/-- What holds of scalars, and of an array or object if it holds of the values in it, holds of all
values. -/
theorem induct {motive : Json → Prop}
    (scalar : ∀ v : Json, v.object? = none → v.items? = none → motive v)
    (arr : ∀ items : List Json, (∀ v ∈ items, motive v) → motive (.arr items))
    (obj : ∀ (members : List (Text × Json)) (unlocked : Bool), (∀ m ∈ members, motive m.2) →
      motive (.obj ⟨members, unlocked⟩)) : ∀ v, motive v
  | .arr items => arr items fun v _ => induct scalar arr obj v
  | .obj ⟨members, unlocked⟩ => obj members unlocked fun m _ => induct scalar arr obj m.2
  | .null => scalar .null rfl rfl
  | .bool b => scalar (.bool b) rfl rfl
  | .num x => scalar (.num x) rfl rfl
  | .str t => scalar (.str t) rfl rfl
termination_by v => sizeOf v
decreasing_by
  · have hlt := List.sizeOf_lt_of_mem ‹_ ∈ items›
    simp only [Json.arr.sizeOf_spec]
    omega
  · have hlt := List.sizeOf_lt_of_mem ‹_ ∈ members›
    obtain ⟨key, v⟩ := m
    simp only [Json.obj.sizeOf_spec, Record.mk.sizeOf_spec, Prod.mk.sizeOf_spec] at hlt ⊢
    omega

/-- All values inside a value satisfy `p`, and it does so itself. -/
def Throughout (p : Json → Prop) (v : Json) : Prop := ∀ location w, v.at? location = some w → p w

namespace Throughout

theorem self (h : v.Throughout p) : p v := h [] v (at?_nil v)

theorem at? (h : v.Throughout p) (hat : v.at? location = some w) : w.Throughout p := by
  intro location' u hu
  refine h (location ++ location') u ?_
  rw [at?_append, hat]
  exact hu

theorem item (h : (arr items).Throughout p) (hw : w ∈ items) : w.Throughout p := by
  obtain ⟨n, hn⟩ := List.mem_iff_getElem?.mp hw
  have hat : (arr items).at? [.index n] = some w := by simp [Json.at?, hn]
  exact h.at? hat

theorem get? {key : Text} (h : (obj o).Throughout p) (hw : o.get? key = some w) :
    w.Throughout p := by
  have hat : (obj o).at? [.key key] = some w := by simp [Json.at?, hw]
  exact h.at? hat

theorem field? {name : Text} (h : (obj o).Throughout p) (hw : o.field? name = some w) :
    w.Throughout p := by
  obtain ⟨key, -, hget⟩ := Object.get?_of_field? hw
  exact h.get? hget

theorem flatten (h : v.Throughout p) (hw : w ∈ v.flatten) : w.Throughout p := by
  cases v with
  | arr items => exact h.item hw
  | _ => exact List.mem_singleton.mp hw ▸ h

end Throughout

theorem throughout_arr_iff :
    (arr items).Throughout p ↔ p (arr items) ∧ ∀ w ∈ items, w.Throughout p := by
  refine ⟨fun h => ⟨h.self, fun w => h.item⟩, fun ⟨hself, hitems⟩ location w hat => ?_⟩
  rcases location with _ | ⟨key | n, rest⟩
  · cases hat
    exact hself
  · cases hat
  · obtain ⟨u, hu, hat⟩ := Option.bind_eq_some_iff.mp hat
    exact hitems u (List.mem_of_getElem? hu) rest w hat

theorem throughout_obj_iff :
    (obj o).Throughout p ↔ p (obj o) ∧ ∀ key w, o.get? key = some w → w.Throughout p := by
  refine ⟨fun h => ⟨h.self, fun key w => h.get?⟩, fun ⟨hself, hget⟩ location w hat => ?_⟩
  rcases location with _ | ⟨key | n, rest⟩
  · cases hat
    exact hself
  · obtain ⟨u, hu, hat⟩ := Option.bind_eq_some_iff.mp hat
    exact hget key u hu rest w hat
  · cases hat

theorem throughout_scalar (hobj : v.object? = none) (harr : v.items? = none) (h : p v) :
    v.Throughout p := by
  rintro (_ | ⟨step, rest⟩) w hat
  · rw [at?_nil] at hat
    cases hat
    exact h
  · cases v with
    | arr items => cases harr
    | obj o => cases hobj
    | _ => simp [at?] at hat

mutual

/-- Whether all values inside a value pass a test, those without a location included. -/
def everywhere (p : Json → Prop) [DecidablePred p] : Json → Bool
  | .arr items => p (.arr items) && everywhereItems p items
  | .obj ⟨members, unlocked⟩ => p (.obj ⟨members, unlocked⟩) && everywhereMembers p members
  | v => p v
termination_by structural v => v

def everywhereItems (p : Json → Prop) [DecidablePred p] : List Json → Bool
  | [] => true
  | v :: rest => everywhere p v && everywhereItems p rest
termination_by structural vs => vs

def everywhereMembers (p : Json → Prop) [DecidablePred p] : List (Text × Json) → Bool
  | [] => true
  | (_, v) :: rest => everywhere p v && everywhereMembers p rest
termination_by structural ms => ms

end

mutual

theorem throughout_of_everywhere [DecidablePred p] : ∀ v, everywhere p v → v.Throughout p
  | .arr items, h => by
    rw [everywhere, Bool.and_eq_true, decide_eq_true_eq] at h
    exact throughout_arr_iff.mpr ⟨h.1, throughout_of_everywhereItems items h.2⟩
  | .obj ⟨members, unlocked⟩, h => by
    rw [everywhere, Bool.and_eq_true, decide_eq_true_eq] at h
    refine throughout_obj_iff.mpr ⟨h.1, fun key w hw => ?_⟩
    exact throughout_of_everywhereMembers members h.2 _ (Object.mem_of_get? hw)
  | .null, h | .bool _, h | .num _, h | .str _, h =>
    throughout_scalar rfl rfl (of_decide_eq_true h)
termination_by structural v => v

theorem throughout_of_everywhereItems [DecidablePred p] :
    ∀ items, everywhereItems p items → ∀ w ∈ items, w.Throughout p
  | [], _ => nofun
  | v :: rest, h => by
    rw [everywhereItems, Bool.and_eq_true] at h
    exact List.forall_mem_cons.mpr
      ⟨throughout_of_everywhere v h.1, throughout_of_everywhereItems rest h.2⟩
termination_by structural items => items

theorem throughout_of_everywhereMembers [DecidablePred p] :
    ∀ members, everywhereMembers p members → ∀ m ∈ members, m.2.Throughout p
  | [], _ => nofun
  | (_, v) :: rest, h => by
    rw [everywhereMembers, Bool.and_eq_true] at h
    exact List.forall_mem_cons.mpr
      ⟨throughout_of_everywhere v h.1, throughout_of_everywhereMembers rest h.2⟩
termination_by structural members => members

end

/-- Every object inside a value satisfies `P`. -/
def AllObjects (P : Object → Prop) : Json → Prop := Throughout fun v => ∀ o ∈ v.object?, P o

/-- No object inside a value has two names equal up to letter case. -/
def Unambiguous : Json → Prop := Throughout fun v => ∀ o ∈ v.object?, Object.Distinct o

/-- No object inside a value has two members of the same name. -/
def WellFormed : Json → Prop := Throughout fun v => ∀ o ∈ v.object?, (Object.keys o).Nodup

/-- No array inside a value has null among its items. -/
def Gapless : Json → Prop := Throughout fun v => ∀ items ∈ v.items?, ∀ w ∈ items, w.isNull = false

section AllObjects

variable {P : Object → Prop}

theorem allObjects_arr_iff : (arr items).AllObjects P ↔ ∀ w ∈ items, w.AllObjects P :=
  throughout_arr_iff.trans (and_iff_right nofun)

theorem allObjects_obj_iff :
    (obj o).AllObjects P ↔ P o ∧ ∀ key w, o.get? key = some w → w.AllObjects P :=
  throughout_obj_iff.trans (and_congr_left' ⟨fun h => h o rfl, by rintro h _ ⟨⟩; exact h⟩)

theorem allObjects_scalar (hobj : v.object? = none) (harr : v.items? = none) : v.AllObjects P :=
  throughout_scalar hobj harr (by simp [hobj])

end AllObjects

namespace Unambiguous

theorem distinct (h : (obj o).Unambiguous) : Object.Distinct o := h.self o rfl

theorem member (h : (obj o).Unambiguous) {m : Text × Json} (hm : m ∈ o.members) :
    m.2.Unambiguous :=
  Throughout.get? h (Object.get?_of_mem (.of_map _ h.distinct) hm)

end Unambiguous

theorem gapless_arr_iff : (arr items).Gapless ↔ ∀ w ∈ items, w.isNull = false ∧ w.Gapless := by
  refine throughout_arr_iff.trans ⟨fun h w hw => ⟨h.1 items rfl w hw, h.2 w hw⟩, fun h => ⟨?_, ?_⟩⟩
  · rintro _ ⟨⟩
    exact fun w hw => (h w hw).1
  · exact fun w hw => (h w hw).2

end Json

end Scim
