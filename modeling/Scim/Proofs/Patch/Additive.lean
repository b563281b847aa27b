import Scim.Proofs.Patch.Absorbed

/-!
# Merging only adds

Where a value is merged into a field, what is there stays there, at every depth that both reach
through objects (`Json.under`). An array keeps its items and gains those of the new items that equal
none before them (`Gains`); an object keeps its names in their order, and fields that the new value
does not name, or names without a value, are as they were (`Joins`). Fields of any other name are
left alone, and merging the value once more changes nothing (`merge_adds`).

Merging goes down by itself: what it does further inside is to merge the value found there into the
field found there (`exists_merge_under`).
-/

namespace Scim

open Operation

namespace Json

variable {p : Json → Prop} {v w : Json} {way : List Text}

/-- The value reached through fields of objects. -/
def under : List Text → Json → Option Json
  | [], v => some v
  | name :: rest, .obj o => (Object.field? o name).bind (under rest)
  | _ :: _, _ => none

theorem exists_of_under_cons {name : Text} {rest : List Text} (h : v.under (name :: rest) = some w) :
    ∃ (o : Object) (u : Json), v = .obj o ∧ Object.field? o name = some u ∧ u.under rest = some w := by
  cases v with
  | obj o =>
    obtain ⟨u, hu, hw⟩ := Option.bind_eq_some_iff.mp h
    exact ⟨o, u, rfl, hu, hw⟩
  | _ => cases h

theorem Throughout.under (h : v.Throughout p) (hw : v.under way = some w) : w.Throughout p := by
  induction way generalizing v with
  | nil =>
    obtain rfl : v = w := Option.some.inj hw
    exact h
  | cons name rest ih =>
    obtain ⟨o, u, rfl, hu, hw⟩ := exists_of_under_cons hw
    exact ih (h.field? hu) hw

end Json

namespace Object

variable {o : Object} {name key : Text} {value : Json}

/-! ### Names in their order -/

theorem sublist_insertIndexed (i : Nat) (key : Text) (value : Json) (ms : List (Text × Json)) :
    ms.Sublist (Members.insertIndexed i key value ms) := by
  fun_induction Members.insertIndexed i key value ms with
  | case1 => exact List.nil_sublist _
  | case2 | case4 => exact List.sublist_cons_self ..
  | case3 m rest j hj hlt ih => exact ih.cons_cons m

theorem keys_sublist_add (o : Object) (key : Text) (value : Json) :
    o.keys.Sublist (o.add key value).keys := by
  refine List.Sublist.map _ ?_
  unfold add Members.add
  split
  · exact sublist_insertIndexed ..
  · exact List.sublist_append_left ..

theorem keys_sublist_assign (o : Object) (key : Text) (value : Json) :
    o.keys.Sublist (o.assign key value).keys := by
  unfold assign
  split_ifs
  · rw [keys_overwrite]
  · exact .refl _
  · exact keys_sublist_add o key value

theorem keys_sublist_merge (o : Object) (name : Text) (value : Json) :
    o.keys.Sublist (o.merge name value).keys := by
  rcases o.merge_eq name value with heq | ⟨v, heq⟩ <;> rw [heq]
  exact keys_sublist_assign ..

variable {old : Object} {v w x y : Json} {items new : List Json} {members : List (Text × Json)}
  {way : List Text}

/-! ### Arrays -/

/-- The items with some of the new ones behind them: none that equals an item before it, and of those
that equal each other the first. -/
structure Gains (items new after : List Json) : Prop where
  added : ∃ added, after = items ++ added ∧ added.Sublist new ∧
    (∀ v ∈ added, ∀ w ∈ items, v.same w = false) ∧ added.Pairwise fun v w => w.same v = false
  present : ∀ v ∈ new, ∃ w ∈ after, v.same w

theorem exists_appendNew (items new : List Json) : ∃ added, appendNew items new = items ++ added ∧
    added.Sublist new ∧ (∀ v ∈ added, ∀ w ∈ items, w.same v = false) ∧
      added.Pairwise fun v w => v.same w = false := by
  induction new generalizing items with
  | nil => exact ⟨[], (List.append_nil items).symm, .slnil, nofun, .nil⟩
  | cons v rest ih =>
    show ∃ added, appendNew (if items.any fun w => w.same v then items else items ++ [v]) rest =
      items ++ added ∧ _
    split_ifs with hany
    · obtain ⟨added, heq, hsub, hold, hpairwise⟩ := ih items
      exact ⟨added, heq, hsub.cons v, hold, hpairwise⟩
    · obtain ⟨added, heq, hsub, hold, hpairwise⟩ := ih (items ++ [v])
      have hv : ∀ w ∈ items, w.same v = false := by simpa using hany
      refine ⟨v :: added, by simpa using heq, hsub.cons_cons v, ?_, ?_⟩
      · exact List.forall_mem_cons.mpr ⟨hv, fun u hu w hw => hold u hu w (by simp [hw])⟩
      · exact .cons (fun u hu => hold u hu v (by simp)) hpairwise

theorem gains_appendNew (hitems : (Json.arr items).WellFormed) (hnew : (Json.arr new).WellFormed) :
    Gains items new (appendNew items new) := by
  have hof := Json.wellFormed_arr_iff.mp hnew
  obtain ⟨added, heq, hsub, hold, hpairwise⟩ := exists_appendNew items new
  have hadded : ∀ v ∈ added, v.WellFormed := fun v hv => hof v (hsub.subset hv)
  refine ⟨⟨added, heq, hsub, fun v hv w hw => ?_, ?_⟩, fun v hv => ?_⟩
  · rw [Json.same_comm (hadded v hv) (Json.wellFormed_arr_iff.mp hitems w hw)]
    exact hold v hv w hw
  · refine hpairwise.imp_of_mem fun hv hw hne => ?_
    rwa [Json.same_comm (hadded _ hw) (hadded _ hv)]
  · obtain ⟨w, hw, hsame⟩ := List.any_eq_true.mp (any_same_of_mem hnew items v hv)
    have hwell : w.WellFormed :=
      (mem_appendNew hw).elim (Json.wellFormed_arr_iff.mp hitems w) (hof w)
    exact ⟨w, hw, Json.same_symm w hwell (hof v hv) hsame⟩

theorem field?_merge_arr (hfield : o.field? name = some (.arr items)) (new : List Json) :
    (o.merge name (.arr new)).field? name = some (.arr (appendNew items new)) := by
  unfold Object.merge
  rw [hfield]
  split_ifs with hempty
  · rw [hfield, List.isEmpty_iff.mp hempty]
    rfl
  · exact field?_setField_of_takes (takes_of_field? hfield) _

/-! ### Objects -/

/-- The object with members merged into it. -/
structure Joins (old : Object) (members : List (Text × Json)) (after : Object) : Prop where
  names : old.keys.Sublist after.keys
  spared : Keeps (outside (members.map (·.1))) old after
  blank : ∀ m ∈ members, m.2 = .null ∨ m.2 = .arr [] → after.field? m.1 = old.field? m.1

theorem keys_sublist_mergeAll (members : List (Text × Json)) (old : Object) :
    old.keys.Sublist (writeAll Object.merge members old).keys := by
  induction members generalizing old with
  | nil => exact .refl _
  | cons m rest ih => exact (keys_sublist_merge old m.1 m.2).trans (ih _)

theorem mergeAll_changes (members : List (Text × Json)) (old : Object) :
    Changes (members.map (·.1)) old (writeAll Object.merge members old) :=
  writeAll_changes tame_merge (fun _ hm => List.mem_map_of_mem (List.mem_map_of_mem hm)) old

theorem joins_mergeAll {b : Bool} (hms : (Json.obj ⟨members, b⟩).Unambiguous) (old : Object) :
    Joins old members (writeAll Object.merge members old) := by
  refine ⟨keys_sublist_mergeAll members old, (mergeAll_changes members old).keeps,
    fun m hm hblank => ?_⟩
  rw [field?_writeAll deep_merge hms hm]
  rcases hblank with heq | heq <;> rw [heq] <;> rfl

theorem field?_merge_obj (hfield : o.field? name = some (.obj old)) (new : Object) :
    (o.merge name (.obj new)).field? name =
      some (.obj (writeAll Object.merge new.members old)) := by
  rw [deep_merge.obj, hfield]
  exact field?_setField_of_takes (takes_of_field? hfield) _

/-! ### At every depth -/

/-- What merging does somewhere inside is to merge what is found there. -/
theorem exists_merge_under (ho : (Json.obj o).Unambiguous) (hv : v.Unambiguous)
    (hx : (o.field? name).bind (Json.under way) = some x) (hy : v.under way = some y) :
    ∃ (o' : Object) (name' : Text), (Json.obj o').Unambiguous ∧ o'.field? name' = some x ∧
      ((o.merge name v).field? name).bind (Json.under way) = (o'.merge name' y).field? name' := by
  induction way generalizing o name v with
  | nil =>
    obtain rfl : v = y := Option.some.inj hy
    have hhere : ∀ x : Option Json, x.bind (Json.under []) = x := fun x => Option.bind_fun_some x
    rw [hhere] at hx ⊢
    exact ⟨o, name, ho, hx, rfl⟩
  | cons n rest ih =>
    obtain ⟨new, w, rfl, hw, hy⟩ := Json.exists_of_under_cons hy
    obtain ⟨u, hu, hx⟩ := Option.bind_eq_some_iff.mp hx
    obtain ⟨old, u', rfl, hu', hx⟩ := Json.exists_of_under_cons hx
    have hold : (Json.obj old).Unambiguous := Json.Throughout.field? ho hu
    obtain ⟨key, hkey, hget⟩ := get?_of_field? hw
    have hlower : key.lower = n.lower := (findKey?_eq_some hkey).2
    have hm := mem_of_get? hget
    -- the member is written to the field that its name finds
    have hafter : (writeAll Object.merge new.members old).field? n =
        (old.merge key w).field? key := by
      have hdistinct := (mergeAll_changes new.members old).distinct hold.distinct
      rw [← (hdistinct.unambiguous n).field?_congr hlower]
      exact field?_writeAll deep_merge hv hm old
    have hold' : (old.field? key).bind (Json.under rest) = some x := by
      rw [(hold.distinct.unambiguous n).field?_congr hlower, hu']
      exact hx
    obtain ⟨o', name', ho', hfield, heq⟩ := ih hold (Json.Throughout.get? hv hget) hold' hy
    refine ⟨o', name', ho', hfield, ?_⟩
    rw [field?_merge_obj hu, ← heq, ← hafter]
    rfl

/-- Merging a value into a field of another name than the reserved one takes nothing away: at every
depth arrays gain what they lack, objects keep their names and whatever the value does not name or
leaves blank, and other fields stay as they are. Merging it for the second time changes nothing. -/
theorem merge_adds (o : Object) (name : Text) (v : Json) (hname : name ≠ reservedName)
    (hreserved : v.hasReservedKey = false) (ho : (Json.obj o).Unambiguous) (hv : v.Unambiguous) :
    (∀ way items new, (o.field? name).bind (Json.under way) = some (.arr items) →
      v.under way = some (.arr new) → ∃ after, Gains items new after ∧
        ((o.merge name v).field? name).bind (Json.under way) = some (.arr after)) ∧
    (∀ way old new, (o.field? name).bind (Json.under way) = some (.obj old) →
      v.under way = some (.obj new) → ∃ after, Joins old new.members after ∧
        ((o.merge name v).field? name).bind (Json.under way) = some (.obj after)) ∧
    Keeps (outside [name]) o (o.merge name v) ∧
    (o.merge name v).merge name v = o.merge name v := by
  refine ⟨fun way items new hitems hnew => ?_, fun way old new hold hnew => ?_,
    (tame_merge o name v).keeps, ?_⟩
  · obtain ⟨o', name', ho', hfield, heq⟩ := exists_merge_under ho hv hitems hnew
    have hwell : (Json.arr new).WellFormed :=
      Json.Unambiguous.wellFormed (Json.Throughout.under hv hnew)
    refine ⟨_, gains_appendNew (Json.Throughout.field? ho'.wellFormed hfield) hwell, ?_⟩
    rw [heq, field?_merge_arr hfield]
  · obtain ⟨o', name', -, hfield, heq⟩ := exists_merge_under ho hv hold hnew
    refine ⟨_, joins_mergeAll (Json.Throughout.under hv hnew) old, ?_⟩
    rw [heq, field?_merge_obj hfield]
  · have hmerged := merged_merge v hv hreserved ho.wellFormed (takes_of_ne hname)
    exact merge_of_merged hmerged (Json.AllObjects.merge name ho.wellFormed hv.wellFormed) rfl

/-- A resource with a profile in it. -/
def profiled : Object :=
  ⟨[("Profile", .ofMembers [("Tags", .arr [.str "a", .ofMembers [("k", .bool true)]]),
      ("note", .str "n")]), ("title", .null)], false⟩

/-- Tags of which one is new, no note, and a nickname. -/
def profileUpdate : Json :=
  .ofMembers [("nick", .str "x"),
    ("tags", .arr [.str "b", .ofMembers [("k", .bool true)], .str "b"]), ("Note", .null)]

def profiledAfter : Object :=
  ⟨[("Profile", .ofMembers [("Tags", .arr [.str "a", .ofMembers [("k", .bool true)], .str "b"]),
      ("note", .str "n"), ("nick", .str "x")]), ("title", .null)], false⟩

theorem merge_adds_profile :
    ("profile" : Text) ≠ reservedName ∧ profileUpdate.hasReservedKey = false ∧
    (Json.obj profiled).Unambiguous ∧ profileUpdate.Unambiguous ∧
    profiled.merge "profile" profileUpdate = profiledAfter ∧
    Gains [.str "a", .ofMembers [("k", .bool true)]]
      [.str "b", .ofMembers [("k", .bool true)], .str "b"]
      [.str "a", .ofMembers [("k", .bool true)], .str "b"] ∧
    profiledAfter.merge "profile" profileUpdate = profiledAfter := by
  have hname : ("profile" : Text) ≠ reservedName := by decide
  have hprofiled : (Json.obj profiled).Unambiguous := Json.throughout_of_everywhere _ (by decide)
  have hupdate : profileUpdate.Unambiguous := Json.throughout_of_everywhere _ (by decide)
  have hmerge : profiled.merge "profile" profileUpdate = profiledAfter := rfl
  obtain ⟨harrays, -, -, hagain⟩ :=
    merge_adds profiled "profile" profileUpdate hname rfl hprofiled hupdate
  rw [hmerge] at harrays hagain
  obtain ⟨after, hgains, hafter⟩ := harrays ["TAGS"] _ _ rfl rfl
  obtain rfl := Json.arr.inj (Option.some.inj hafter)
  exact ⟨hname, rfl, hprofiled, hupdate, hmerge, hgains, hagain⟩

end Object

end Scim
