import Scim.Proofs.Patch.Absorbed
import Scim.Proofs.Patch.Independent
import Scim.Proofs.Patch.Wire

/-!
# The reserved name in operations

Assigning to the reserved name stores nothing in an object that is locked. So an operation is
refused if its value has a member of that name at any depth (`make_eq_reservedKey_iff`). The names
in its path are not looked at: what is accepted at one path is accepted at every path of the same
form (`accepted_of_form`), one of the reserved name included. An addition there succeeds and is lost
(`apply_add_not_takes`).
-/

namespace Scim

open Object

namespace Json

/-- The name stands for a member of some object inside a value. -/
inductive Mentions (name : Text) : Json → Prop
  | key {o : Object} (h : name ∈ o.keys) : Mentions name (.obj o)
  | member {o : Object} {m : Text × Json} (hm : m ∈ o.members) (h : Mentions name m.2) :
    Mentions name (.obj o)
  | item {items : List Json} {v : Json} (hv : v ∈ items) (h : Mentions name v) :
    Mentions name (.arr items)

theorem hasReservedKey_iff (v : Json) : v.hasReservedKey = true ↔ v.Mentions reservedName := by
  induction v using induct with
  | scalar v hobj harr =>
    cases v with
    | arr => cases harr
    | obj => cases hobj
    | _ =>
      refine iff_of_false (by simp [hasReservedKey]) ?_
      rintro ⟨⟩
  | arr items ih =>
    rw [hasReservedKey, anyReservedKey_eq_any, List.any_eq_true]
    constructor
    · rintro ⟨v, hv, h⟩
      exact .item hv ((ih v hv).mp h)
    · rintro (_ | _ | ⟨hv, h⟩)
      exact ⟨_, hv, (ih _ hv).mpr h⟩
  | obj members unlocked ih =>
    rw [hasReservedKey, memberReservedKey_eq_any, List.any_eq_true]
    constructor
    · rintro ⟨m, hm, h⟩
      rcases Bool.or_eq_true_iff.mp h with hname | h
      · exact .key (List.mem_map.mpr ⟨m, hm, beq_iff_eq.mp hname⟩)
      · exact .member hm ((ih m hm).mp h)
    · rintro (hkey | ⟨hm, h⟩)
      · obtain ⟨m, hm, hname⟩ := List.mem_map.mp hkey
        exact ⟨m, hm, by rw [hname]; rfl⟩
      · exact ⟨_, hm, Bool.or_eq_true_iff.mpr (.inr ((ih _ hm).mpr h))⟩

end Json

/-- A name in a path to which something is assigned: that of an element, or of the attribute that a
filter determines. -/
inductive Path.Names (p : Path) (name : Text) : Prop
  | element {e : PathElement} (he : e ∈ p.elements) (h : e.name = name)
  | condition {e : PathElement} {l : Literal} (he : e ∈ p.elements)
    (hsel : e.selector = some (.compare .eq (.ofName name) l))

namespace Operation

variable {change : Change} {path : Option Path} {value : Option Json} {op : Operation} {p q : Path}

/-- The operation may assign to the name. -/
def Assigns (op : Operation) (name : Text) : Prop :=
  (∃ v ∈ op.value, v.Mentions name) ∨ ∃ p ∈ op.path, p.Names name

/-! ### Names in values -/

theorem any_hasReservedKey_iff :
    value.any Json.hasReservedKey = true ↔ ∃ v ∈ value, v.Mentions reservedName := by
  cases value with
  | none => simp
  | some v => simp [Json.hasReservedKey_iff]

/-- No other check is made for the reserved name. -/
theorem check_ne_reservedKey (h : value.any Json.hasReservedKey = false) :
    check change path value ≠ .error .reservedKey := by
  have hselectors (p : Path) : checkSelectors p ≠ .error .reservedKey := by
    unfold checkSelectors
    split
    · split_ifs <;> simp
    · simp
  have hvalue : checkValue change path value ≠ .error .reservedKey := by
    unfold checkValue
    split
    · split
      · simp
      · split_ifs <;> simp
    · split_ifs <;> simp
  have hselection (p : Path) : checkSelection change p value ≠ .error .reservedKey := by
    unfold checkSelection
    split
    · split_ifs
      · simp
      · simp
      · simp
      · split <;> simp
    · simp
  have hbind {x : Except Error Unit} {y : Unit → Except Error Unit}
      (hx : x ≠ .error .reservedKey) (hy : ∀ u, y u ≠ .error .reservedKey) :
      x >>= y ≠ .error .reservedKey := by
    cases x with
    | error e => exact hx
    | ok u => exact hy u
  unfold check
  rw [h]
  cases path with
  | none => exact hbind hvalue fun _ => by rintro ⟨⟩
  | some p => exact hbind (hselectors p) fun _ => hbind hvalue fun _ => hselection p

/-- An operation is refused for the reserved name if and only if its value has it. -/
theorem make_eq_reservedKey_iff : make change path value = .error .reservedKey ↔
    ∃ v ∈ value, v.Mentions reservedName := by
  rw [← any_hasReservedKey_iff, make_eq]
  cases hreserved : value.any Json.hasReservedKey with
  | true =>
    rw [check_of_hasReservedKey hreserved]
    exact iff_of_true rfl rfl
  | false =>
    refine iff_of_false (fun h => ?_) Bool.false_ne_true
    cases hcheck : check change (path.filter (!·.isRoot)) value with
    | error e =>
      rw [hcheck] at h
      cases h
      exact check_ne_reservedKey hreserved hcheck
    | ok _ =>
      rw [hcheck] at h
      cases h

theorem not_mentions_of_accepted (hop : op.Accepted) :
    ∀ v ∈ op.value, ¬ v.Mentions reservedName := by
  intro v hv h
  have hrefused : make op.change op.path op.value = .error .reservedKey :=
    make_eq_reservedKey_iff.mpr ⟨v, hv, h⟩
  rw [accepted_iff.mp hop] at hrefused
  cases hrefused

/-! ### Names in paths -/

/-- What was accepted is accepted at every other path of the same form. -/
theorem accepted_of_form (hop : op.Accepted) (hvalue : op.removesByValue = false)
    (hp : op.path = some p) (hurn : q.schemaUrn = p.schemaUrn) (hform : q.form = p.form) :
    Accepted { op with path := some q } := by
  have hmake := accepted_iff.mp hop
  have hroot : q.isRoot = p.isRoot := by
    have hempty : q.elements.isEmpty = p.elements.isEmpty := by
      simpa [Path.form] using congrArg List.isEmpty hform
    rw [Path.isRoot, Path.isRoot, hurn, hempty]
  have hkept : (some q).filter (!·.isRoot) = some q :=
    Option.filter_some_pos (by simp [hroot, isRoot_of_make hmake p hp])
  have hcheck := (make_eq_ok_iff.mp hmake).2
  rw [hp, ← check_congr hform] at hcheck
  · exact .made (make_eq_ok_iff.mpr ⟨by rw [hkept], hcheck⟩)
  · intro hchange hgiven
    simp [removesByValue, hchange, hgiven] at hvalue

/-- A removal of listed members is at a path of one name, which is not the reserved one. -/
theorem not_names_of_removesByValue (hop : op.Accepted) (hvalue : op.removesByValue) :
    ∀ p ∈ op.path, ¬ p.Names reservedName := by
  intro p hp h
  have htakes := takesMembers_of_make (accepted_iff.mp hop) hvalue p hp
  unfold takesMembers at htakes
  split at htakes
  · rename_i name hes
    have hname : name.lower = membersName := eq_of_beq htakes
    cases h with
    | element he hreserved =>
      rw [hes] at he
      obtain rfl := List.mem_singleton.mp he
      obtain rfl : name = reservedName := hreserved
      exact absurd hname (by decide)
    | condition he hsel =>
      rw [hes] at he
      obtain rfl := List.mem_singleton.mp he
      cases hsel
  · cases htakes

/-- An accepted operation does not have the reserved name in its value; but it may have it in its
path, unless that is the path of a removal of listed members, since of a path only the form is
looked at. -/
theorem assigns_reservedName (hop : op.Accepted) :
    (∀ v ∈ op.value, ¬ v.Mentions reservedName) ∧
    (op.Assigns reservedName ↔
      op.removesByValue = false ∧ ∃ p ∈ op.path, p.Names reservedName) ∧
    (op.removesByValue = false → ∀ p ∈ op.path, ∀ q : Path, q.schemaUrn = p.schemaUrn →
      q.form = p.form → Accepted { op with path := some q }) := by
  have hvalue := not_mentions_of_accepted hop
  refine ⟨hvalue, ⟨?_, fun h => .inr h.2⟩, fun hremoves p hp q => accepted_of_form hop hremoves hp⟩
  rintro (⟨v, hv, h⟩ | ⟨p, hp, h⟩)
  · exact absurd h (hvalue v hv)
  · refine ⟨?_, p, hp, h⟩
    by_contra hremoves
    exact not_names_of_removesByValue hop (by simpa using hremoves) p hp h

/-- An addition to the values of an attribute that have a certain text in another. -/
def addWhere (name condition sub : Text) : Operation :=
  ⟨.add, some ⟨none, [⟨name, some (.compare .eq (.ofName condition) (.str "x"))⟩, ⟨sub, none⟩]⟩,
    some (.bool true)⟩

theorem assigns_reservedName_addWhere :
    (addWhere "a" "b" "c").Accepted ∧ (addWhere "a" reservedName "c").Accepted ∧
      (addWhere "a" reservedName "c").Assigns reservedName := by
  have hop : (addWhere "a" "b" "c").Accepted := accepted_iff.mpr rfl
  have hreserved : (addWhere "a" reservedName "c").Accepted :=
    (assigns_reservedName hop).2.2 rfl _ rfl _ rfl rfl
  exact ⟨hop, hreserved,
    (assigns_reservedName hreserved).2.1.mpr ⟨rfl, _, rfl, .condition (.head _) rfl⟩⟩

/-! ### What becomes of them -/

/-- An addition under a name that an object does not take succeeds, and is lost. -/
theorem apply_add_not_takes {name : Text} {v : Json} {doc : Object} (options : PatchOptions)
    (hop : Accepted ⟨.add, some (.ofName name), some v⟩) (hv : unlocks v = false)
    (hdoc : ¬ doc.Takes name) :
    apply options ⟨.add, some (.ofName name), some v⟩ doc = .done doc := by
  obtain ⟨_, ⟨⟩, hgiven⟩ := given_of_make (by simp) (accepted_iff.mp hop)
  refine (apply_eq_applyChange options rfl doc).trans ?_
  show applyAdd options.coreUrns _ doc = _
  unfold applyAdd
  dsimp only
  rw [hgiven]
  split
  · contradiction
  · rfl
  rename_i heq
  obtain rfl := Option.some.inj heq
  show Outcome.done (doc.merge name _) = _
  rw [merge_of_not_takes hdoc hv]

/-- An addition at the reserved name. -/
def addReserved : Operation := ⟨.add, some (.ofName reservedName), some (.bool true)⟩

theorem assigns_reservedName_addReserved :
    ofText .default .add (some reservedName) (some (.bool true)) = .ok addReserved ∧
    addReserved.Assigns reservedName ∧ addReserved.apply .default empty = .done empty := by
  have hpath : Path.ofText .default reservedName = .ok (.ofName reservedName) := by
    rw [Path.ofText_eq_ok_iff, Path.parse_eq_ok_iff]
    exact .plain (by decide) (.single (.plain (by decide)))
  have hread : ofText .default .add (some reservedName) (some (.bool true)) = .ok addReserved := by
    rw [ofText]
    simp only [hpath]
    rfl
  have hnames : addReserved.Assigns reservedName := .inr ⟨_, rfl, .element (.head _) rfl⟩
  refine ⟨hread, hnames, apply_add_not_takes .default (.ofText hread) rfl ?_⟩
  rintro (h | h | h)
  · exact h rfl
  · cases h
  · cases h

end Operation

end Scim
