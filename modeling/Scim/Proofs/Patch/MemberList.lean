import Mathlib.Data.List.ReduceOption
import Scim.Patch.Apply
import Scim.Proofs.Patch.Wire

/-!
# Member lists are read back

A removal can be given members to list. What is written for a member is read as the same member
(`Member.ofJson?_toJson`), so that the removal lists what it was given, and in both forms the same
(`Operation.members_listing`). Applying a removal by value asks only for its path and for what it
lists (`Operation.apply_congr_members`).
-/

namespace Scim

open Object

namespace Member

theorem ofJson?_toJson (m : Member) : ofJson? m.toJson = some m := by
  obtain ⟨_ | value, _ | _ | ref, _ | type, _ | display⟩ := m <;> rfl

/-- Members have no names but those of their fields. -/
theorem hasReservedKey_toJson (m : Member) : m.toJson.hasReservedKey = false := by
  obtain ⟨_ | value, _ | _ | ref, _ | type, _ | display⟩ := m <;> rfl

theorem mapM_ofJson?_toJson (ms : List Member) : (ms.map toJson).mapM ofJson? = some ms := by
  induction ms with
  | nil => rfl
  | cons m rest ih => rw [List.map_cons, List.mapM_cons, ofJson?_toJson, ih]; rfl

end Member

namespace Operation

variable {op op' : Operation} {nested : Bool} {ms : List (Option Member)} {m : Member}
  {p : Path} {urn : Option Text}

/-! ### The removal of a list -/

/-- The removal that lists members, in one of the two forms. -/
def listing (urn : Option Text) (nested : Bool) (ms : List Member) : Operation :=
  ⟨.remove, some ⟨urn, [⟨membersName, none⟩]⟩, some (memberValue nested ms)⟩

theorem hasReservedKey_memberValue (nested : Bool) (ms : List Member) :
    (memberValue nested ms).hasReservedKey = false := by
  have hitems : (Json.arr (ms.map Member.toJson)).hasReservedKey = false := by
    rw [Json.hasReservedKey, Json.anyReservedKey_eq_any, List.any_map, List.any_eq_false]
    intro m _
    rw [Function.comp_apply, m.hasReservedKey_toJson]
    exact Bool.false_ne_true
  have hname : (membersName == reservedName) = false := by decide
  cases nested with
  | false => exact hitems
  | true =>
    simpa [memberValue, Json.ofMembers, Json.hasReservedKey, Json.memberReservedKey, hname] using
      hitems

/-- A list is accepted at the path of the members. -/
theorem make_listing (urn : Option Text) (nested : Bool) (ms : List Member) :
    make .remove (some ⟨urn, [⟨membersName, none⟩]⟩) (some (memberValue nested ms)) =
      .ok (listing urn nested ms) := by
  have hroot : Path.isRoot ⟨urn, [⟨membersName, none⟩]⟩ = false := by simp [Path.isRoot]
  have htakes : takesMembers ⟨urn, [⟨membersName, none⟩]⟩ = true :=
    beq_self_eq_true (Text.lower membersName)
  rw [make_eq, Option.filter_some_pos (by rw [hroot]; rfl)]
  have hcheck : check .remove (some ⟨urn, [⟨membersName, none⟩]⟩) (some (memberValue nested ms)) =
      .ok () := by
    refine check_eq_ok_iff.mpr ⟨hasReservedKey_memberValue nested ms, ?_, ?_, ?_⟩
    · rintro _ ⟨⟩
      rfl
    · simp [checkValue, htakes]
    · rintro _ ⟨⟩
      rfl
  rw [hcheck]
  rfl

theorem given?_memberValue (nested : Bool) (ms : List Member) :
    given? (some (memberValue nested ms)) = some (memberValue nested ms) := by
  cases nested <;> rfl

theorem members_listing (urn : Option Text) (nested : Bool) (ms : List Member) :
    (listing urn nested ms).members = .ok ms := by
  have hlisted : listed? (memberValue nested ms) = some (ms.map Member.toJson) := by
    cases nested <;> rfl
  simp only [members, listing, given?_memberValue, hlisted, Member.mapM_ofJson?_toJson, ne_eq,
    not_true_eq_false, if_false]

theorem withMembers?_eq (hop : op.change = .remove) (hms : ms.reduceOption ≠ []) (nested : Bool) :
    op.withMembers? ms nested =
      .ok (some (listing (op.path.bind (·.schemaUrn)) nested ms.reduceOption)) := by
  unfold withMembers?
  rw [if_neg (by simp [hop])]
  cases hlist : ms.reduceOption with
  | nil => exact absurd hlist hms
  | cons m rest =>
    dsimp only
    rw [make_listing]
    rfl

/-- Of a removal by value, what it does depends on the path and the members listed. -/
theorem apply_congr_members (hchange : op'.change = op.change) (hpath : op'.path = op.path)
    (hp : op.path.isSome) (hop : op.removesByValue) (hop' : op'.removesByValue)
    (hmembers : op'.members = op.members) (options : PatchOptions) (doc : Object) :
    op'.apply options doc = op.apply options doc := by
  have hremove : op.change = .remove := by
    simpa using (Bool.and_eq_true_iff.mp hop).1
  obtain ⟨p, hp⟩ := Option.isSome_iff_exists.mp hp
  have htouched : op'.touchedUrns = op.touchedUrns := by
    unfold touchedUrns
    rw [hpath, hp]
  unfold apply applyChange updateSchemas
  rw [hchange, hremove, htouched]
  dsimp only
  unfold applyRemove
  rw [hpath, hop, hop', hmembers]

/-- A removal that is given members lists them, those that are null left out, under the schema of
its path. In both forms it does the same to every document. -/
theorem withMembers?_lists (hop : op.change = .remove) (hm : some m ∈ ms) :
    ∃ sent : Bool → Operation,
      (∀ nested, op.withMembers? ms nested = .ok (some (sent nested)) ∧
        (sent nested).change = .remove ∧ (sent nested).members = .ok ms.reduceOption ∧
        (sent nested).path = some ⟨op.path.bind (·.schemaUrn), [⟨membersName, none⟩]⟩) ∧
      ∀ options doc, (sent true).apply options doc = (sent false).apply options doc := by
  have hms : ms.reduceOption ≠ [] := List.ne_nil_of_mem (List.reduceOption_mem_iff.mpr hm)
  have hbyValue : ∀ nested, (listing (op.path.bind (·.schemaUrn)) nested
      ms.reduceOption).removesByValue = true := by
    intro nested
    simp [removesByValue, listing, given?_memberValue]
  refine ⟨fun nested => listing (op.path.bind (·.schemaUrn)) nested ms.reduceOption,
    fun nested => ⟨withMembers?_eq hop hms nested, rfl, members_listing .., rfl⟩, ?_⟩
  exact apply_congr_members rfl rfl rfl (hbyValue false) (hbyValue true)
    ((members_listing ..).trans (members_listing ..).symm)

/-- Leaves a club, under whose schema the path is. -/
def leave : Operation :=
  ⟨.remove, some ⟨some "urn:example:Club", [⟨"nickName", none⟩]⟩, none⟩

/-- Two members, one with a reference that is null, and gaps between. -/
def leaving : List (Option Member) :=
  [none, some ⟨some "2819", some none, none, none⟩, none, some ⟨none, none, some "User", some "B"⟩]

theorem withMembers?_lists_leaving :
    leave.change = .remove ∧ some ⟨some "2819", some none, none, none⟩ ∈ leaving ∧
    ∃ sent : Bool → Operation,
      (∀ nested, leave.withMembers? leaving nested = .ok (some (sent nested)) ∧
        (sent nested).change = .remove ∧ (sent nested).members = .ok leaving.reduceOption ∧
        (sent nested).path = some ⟨some "urn:example:Club", [⟨membersName, none⟩]⟩) ∧
      ∀ options doc, (sent true).apply options doc = (sent false).apply options doc := by
  have hm : some ⟨some "2819", some none, none, none⟩ ∈ leaving := by simp [leaving]
  exact ⟨rfl, hm, withMembers?_lists rfl hm⟩

end Operation

end Scim
