import Scim.Proofs.Patch.Wire
import Scim.Proofs.Text.LetterCase

/-!
# What a message is read as

A request is read as its operations are, one by one (`Request.ofJson_operations_eq_ok_iff`),
although all of them are checked before the first is made. And names count in any letter case:
`Wire.SameRequest` relates requests that differ in nothing but the case of the names that are asked
for, and of the names of the changes. They are read alike, or refused for the same reason
(`Request.ofJson_congr`). A name that is given twice is no exception, as members keep their order.
-/

namespace Scim

open Shape

/-- Each item can be related to something just if the list can. -/
theorem exists_forall₂_iff {α β : Type} {R : α → β → Prop} {xs : List α} :
    (∃ ys, List.Forall₂ R xs ys) ↔ ∀ x ∈ xs, ∃ y, R x y := by
  induction xs with
  | nil => exact iff_of_true ⟨[], .nil⟩ (by simp)
  | cons x rest ih =>
    rw [List.forall_mem_cons, ← ih]
    constructor
    · rintro ⟨_, h⟩
      obtain ⟨y, ys, hxy, hrest, -⟩ := List.forall₂_cons_left_iff.mp h
      exact ⟨⟨y, hxy⟩, ys, hrest⟩
    · rintro ⟨⟨y, hxy⟩, ys, hrest⟩
      exact ⟨y :: ys, .cons hxy hrest⟩

namespace Operation

variable {o : ParserOptions}

/-- The operations that a list of values is read as, one by one. -/
theorem forall₂_ofJson_iff {vs : List Json} {ops : List Operation} :
    List.Forall₂ (fun v op => ofJson o (some v) = .ok op) vs ops ↔
      (∀ v ∈ vs, v.hasReservedKey = false) ∧ ∃ ds,
        List.Forall₂ (fun v d => Wire.Draft.check v = .ok d) vs ds ∧
        List.Forall₂ (fun d op => ofDraft o d = .ok op) ds ops := by
  induction vs generalizing ops with
  | nil => simp
  | cons v rest ih =>
    rw [List.forall_mem_cons]
    constructor
    · intro h
      obtain ⟨op, ops, hop, hops, rfl⟩ := List.forall₂_cons_left_iff.mp h
      obtain ⟨hreserved, d, hd, hmake⟩ := ofJson_eq_ok_iff.mp hop
      obtain ⟨hrest, ds, hds, hmakes⟩ := ih.mp hops
      exact ⟨⟨hreserved, hrest⟩, d :: ds, .cons hd hds, .cons hmake hmakes⟩
    · rintro ⟨⟨hreserved, hrest⟩, ds, hds, hops⟩
      obtain ⟨d, ds, hd, hds', rfl⟩ := List.forall₂_cons_left_iff.mp hds
      obtain ⟨op, ops, hmake, hmakes, rfl⟩ := List.forall₂_cons_left_iff.mp hops
      exact .cons (ofJson_eq_ok_iff.mpr ⟨hreserved, d, hd, hmake⟩)
        (ih.mpr ⟨hrest, ds, hds', hmakes⟩)

end Operation

/-! ### Names in any letter case -/

namespace Object

variable {names : List Text} {special name : Text} {R : Json → Json → Prop} {o o' : Object}

/-- The objects have the same members in the same order, but for the letter case of the given names,
and for what is under one of them: there the values are related by `R`. -/
structure SameNamed (names : List Text) (special : Text) (R : Json → Json → Prop)
    (o o' : Object) : Prop where
  unlocked : o.unlocked = o'.unlocked
  members : List.Forall₂ (fun m m' => m.1.Recased m'.1 ∧
    (m.1 = m'.1 ∨ m.1.lower ∈ names.map Text.lower) ∧
    if m.1.lower = special.lower then R m.2 m'.2 else m.2 = m'.2) o.members o'.members

namespace SameNamed

theorem member? (h : SameNamed names special R o o') (name : Text) :
    Option.Rel (fun v v' => if name.lower = special.lower then R v v' else v = v')
      (Wire.member? o name) (Wire.member? o' name) := by
  have hmembers := List.forall₂_reverse_iff.mpr h.members
  unfold Wire.member?
  generalize o.members.reverse = ms at hmembers
  generalize o'.members.reverse = ms' at hmembers
  induction hmembers with
  | nil => exact .none
  | @cons m m' rest rest' hm _ ih =>
    obtain ⟨hcase, -, hvalue⟩ := hm
    rw [List.find?_cons, List.find?_cons, ← hcase.lower_eq]
    cases hname : m.1.lower == name.lower with
    | true =>
      rw [beq_iff_eq.mp hname] at hvalue
      exact .some hvalue
    | false => exact ih

theorem member?_eq (h : SameNamed names special R o o') (hname : name.lower ≠ special.lower) :
    Wire.member? o name = Wire.member? o' name := by
  have hrel := h.member? name
  simp only [if_neg hname] at hrel
  generalize Wire.member? o name = x at hrel ⊢
  generalize Wire.member? o' name = x' at hrel ⊢
  cases hrel with
  | none => rfl
  | some hv => rw [hv]

/-- A check that does not tell related values apart, does not tell the objects apart. -/
theorem required_member?_eq {α : Type} {check : Json → Checked α}
    (h : SameNamed names special R o o') (hR : ∀ v v', R v v' → check v = check v') :
    required check (Wire.member? o special) = required check (Wire.member? o' special) := by
  have hrel := h.member? special
  simp only [if_pos] at hrel
  generalize Wire.member? o special = x at hrel ⊢
  generalize Wire.member? o' special = x' at hrel ⊢
  cases hrel with
  | none => rfl
  | some hv => exact hR _ _ hv

/-- No name becomes the reserved one, and none was. -/
theorem hasReservedKey_eq (h : SameNamed names special R o o')
    (hnames : reservedName.lower ∉ names.map Text.lower)
    (hR : ∀ v v', R v v' → v.hasReservedKey = v'.hasReservedKey) :
    (Json.obj o).hasReservedKey = (Json.obj o').hasReservedKey := by
  have hother : ∀ key : Text, key.lower ∈ names.map Text.lower → (key == reservedName) = false := by
    intro key hkey
    exact beq_false_of_ne fun hreserved => hnames (hreserved ▸ hkey)
  obtain ⟨ms, b⟩ := o
  obtain ⟨ms', b'⟩ := o'
  obtain ⟨-, hmembers⟩ := h
  show Json.memberReservedKey ms = Json.memberReservedKey ms'
  dsimp only at hmembers
  induction hmembers with
  | nil => rfl
  | @cons m m' rest rest' hm _ ih =>
    obtain ⟨hcase, hname, hvalue⟩ := hm
    have hkey : (m.1 == reservedName) = (m'.1 == reservedName) := by
      rcases hname with heq | hmem
      · rw [heq]
      · rw [hother _ hmem, hother _ (hcase.lower_eq ▸ hmem)]
    have hreserved : m.2.hasReservedKey = m'.2.hasReservedKey := by
      split_ifs at hvalue
      · exact hR _ _ hvalue
      · rw [hvalue]
    rw [Json.memberReservedKey, Json.memberReservedKey, hkey, hreserved, ih]

end SameNamed

end Object

namespace Wire

variable {v v' : Json}

/-- Two values for the name of a change, the same but for letter case. -/
inductive SameChange : Json → Json → Prop
  | refl (v : Json) : SameChange v v
  | str {t t' : Text} (h : t.Recased t') : SameChange (.str t) (.str t')

/-- Two values for an operation, the same but for the letter case of its names and its change. -/
inductive SameOperation : Json → Json → Prop
  | refl (v : Json) : SameOperation v v
  | obj {o o' : Object} (h : Object.SameNamed ["op", "path", "value"] "op" SameChange o o') :
      SameOperation (.obj o) (.obj o')

/-- Two values for the list of operations. -/
inductive SameOperations : Json → Json → Prop
  | refl (v : Json) : SameOperations v v
  | arr {items items' : List Json} (h : List.Forall₂ SameOperation items items') :
      SameOperations (.arr items) (.arr items')

/-- Two values for a request, the same but for the letter case of its names, and of the names and
changes of its operations. -/
inductive SameRequest : Json → Json → Prop
  | refl (v : Json) : SameRequest v v
  | obj {o o' : Object}
      (h : Object.SameNamed ["schemas", "Operations"] "Operations" SameOperations o o') :
      SameRequest (.obj o) (.obj o')

theorem SameChange.changeOf_eq (h : SameChange v v') : changeOf v = changeOf v' := by
  cases h with
  | refl => rfl
  | str h => rw [changeOf, changeOf, h.lower_eq]

theorem SameChange.hasReservedKey_eq (h : SameChange v v') :
    v.hasReservedKey = v'.hasReservedKey := by
  cases h <;> rfl

theorem SameOperation.check_eq (h : SameOperation v v') : Draft.check v = Draft.check v' := by
  cases h with
  | refl => rfl
  | @obj o o' h =>
    have hop := h.required_member?_eq fun _ _ hv => hv.changeOf_eq
    have hpath : member? o "path" = member? o' "path" := h.member?_eq (by decide)
    have hvalue : member? o "value" = member? o' "value" := h.member?_eq (by decide)
    simp only [Draft.check, object, field, hop, hpath, hvalue, bind, Except.bind]

theorem SameOperation.hasReservedKey_eq (h : SameOperation v v') :
    v.hasReservedKey = v'.hasReservedKey := by
  cases h with
  | refl => rfl
  | obj h => exact h.hasReservedKey_eq (by decide) fun _ _ hv => hv.hasReservedKey_eq

theorem each_congr {α : Type} {check : Json → Checked α} {R : Json → Json → Prop}
    (hR : ∀ v v', R v v' → check v = check v') {items items' : List Json}
    (h : List.Forall₂ R items items') (index : Nat) :
    Checked.each check index items = Checked.each check index items' := by
  induction h generalizing index with
  | nil => rfl
  | cons hv _ ih => rw [Checked.each, Checked.each, hR _ _ hv, ih]

theorem SameOperations.check_eq (h : SameOperations v v') :
    arrayOf Draft.check v = arrayOf Draft.check v' := by
  cases h with
  | refl => rfl
  | arr h => exact each_congr (fun _ _ hv => hv.check_eq) h 0

theorem SameOperations.hasReservedKey_eq (h : SameOperations v v') :
    v.hasReservedKey = v'.hasReservedKey := by
  cases h with
  | refl => rfl
  | @arr items items' h =>
    show Json.anyReservedKey items = Json.anyReservedKey items'
    induction h with
    | nil => rfl
    | cons hv _ ih => rw [Json.anyReservedKey, Json.anyReservedKey, hv.hasReservedKey_eq, ih]

theorem SameRequest.drafts_eq (h : SameRequest v v') : drafts v = drafts v' := by
  cases h with
  | refl => rfl
  | @obj o o' h =>
    have hschemas : member? o "schemas" = member? o' "schemas" := h.member?_eq (by decide)
    have hoperations := h.required_member?_eq fun _ _ hv => hv.check_eq
    simp only [drafts, object, field, hschemas, hoperations, bind, Except.bind]

theorem SameRequest.hasReservedKey_eq (h : SameRequest v v') :
    v.hasReservedKey = v'.hasReservedKey := by
  cases h with
  | refl => rfl
  | obj h => exact h.hasReservedKey_eq (by decide) fun _ _ hv => hv.hasReservedKey_eq

end Wire

namespace Request

variable {o : ParserOptions} {v v' : Json}

theorem ofJson_congr (h : Wire.SameRequest v v') : ofJson o (some v) = ofJson o (some v') := by
  unfold ofJson
  simp only [Option.any_some, h.hasReservedKey_eq, required, h.drafts_eq]

/-- A request of operations only is read if each of them is, and as these. -/
theorem ofJson_operations_eq_ok_iff {vs : List Json} {r : Request} :
    ofJson o (some (.ofMembers [("Operations", .arr vs)])) = .ok r ↔
      List.Forall₂ (fun v op => Operation.ofJson o (some v) = .ok op) vs r.operations := by
  have hname : ("Operations" == reservedName) = false := by decide
  have hreserved : (Json.ofMembers [("Operations", .arr vs)]).hasReservedKey = false ↔
      ∀ v ∈ vs, v.hasReservedKey = false := by
    simp [Json.ofMembers, Json.hasReservedKey, Json.memberReservedKey, hname,
      Json.anyReservedKey_eq_any]
  have hdrafts : ∀ ds, Wire.drafts (.ofMembers [("Operations", .arr vs)]) = .ok ds ↔
      List.Forall₂ (fun v d => Wire.Draft.check v = .ok d) vs ds := by
    intro ds
    refine Wire.drafts_eq_ok_iff.trans ⟨?_, fun h => ⟨_, vs, rfl, ⟨none, rfl⟩, rfl, h⟩⟩
    rintro ⟨_, _, ⟨⟩, -, ⟨⟩, h⟩
    exact h
  rw [ofJson_eq_ok_iff, hreserved, Operation.forall₂_ofJson_iff]
  simp only [hdrafts]

/-- Operations are read one by one: a request of nothing else is read if each of them is, and as
these. And what is read, or why it is refused, does not depend on the letter case of names. -/
theorem ofJson_operationwise (o : ParserOptions) :
    (∀ vs : List Json,
      ((∃ r, ofJson o (some (.ofMembers [("Operations", .arr vs)])) = .ok r) ↔
        ∀ v ∈ vs, ∃ op, Operation.ofJson o (some v) = .ok op) ∧
      ∀ r, ofJson o (some (.ofMembers [("Operations", .arr vs)])) = .ok r →
        List.Forall₂ (fun v op => Operation.ofJson o (some v) = .ok op) vs r.operations) ∧
    ∀ v v', Wire.SameRequest v v' → ofJson o (some v) = ofJson o (some v') := by
  refine ⟨fun vs => ⟨?_, fun r => ofJson_operations_eq_ok_iff.mp⟩, fun v v' => ofJson_congr⟩
  rw [← exists_forall₂_iff]
  constructor
  · rintro ⟨r, hr⟩
    exact ⟨r.operations, ofJson_operations_eq_ok_iff.mp hr⟩
  · rintro ⟨ops, hops⟩
    exact ⟨⟨ops⟩, ofJson_operations_eq_ok_iff.mpr hops⟩

def titled : Json := .ofMembers [("TITLE", .str "Doctor")]

/-- The same addition in two spellings. -/
def shouted : Json :=
  .ofMembers [("OPERATIONS", .arr [.ofMembers [("OP", .str "ADD"), ("Value", titled)]])]

def plain : Json :=
  .ofMembers [("Operations", .arr [.ofMembers [("op", .str "add"), ("value", titled)]])]

theorem ofJson_operationwise_shouted :
    Wire.SameRequest shouted plain ∧
    ofJson .default (some shouted) = ofJson .default (some plain) ∧
    ofJson .default (some plain) = .ok ⟨[⟨.add, none, some titled⟩]⟩ ∧
    Operation.ofJson .default (some (.ofMembers [("op", .str "add"), ("value", titled)])) =
      .ok ⟨.add, none, some titled⟩ := by
  have hop : Wire.SameOperation (.ofMembers [("OP", .str "ADD"), ("Value", titled)])
      (.ofMembers [("op", .str "add"), ("value", titled)]) := by
    refine .obj ⟨rfl, .cons ⟨?_, .inr (by decide), ?_⟩ (.cons ⟨?_, .inr (by decide), ?_⟩ .nil)⟩
    · unfold Text.Recased; decide
    · exact (if_pos (by decide)).mpr (.str (by unfold Text.Recased; decide))
    · unfold Text.Recased; decide
    · exact (if_neg (by decide)).mpr rfl
  have hsame : Wire.SameRequest shouted plain := by
    refine .obj ⟨rfl, .cons ⟨?_, .inr (by decide), ?_⟩ .nil⟩
    · unfold Text.Recased; decide
    · exact (if_pos (by decide)).mpr (.arr (.cons hop .nil))
  have hread : ofJson .default (some plain) = .ok ⟨[⟨.add, none, some titled⟩]⟩ := rfl
  obtain ⟨heach, hcongr⟩ := ofJson_operationwise .default
  obtain ⟨-, hops⟩ := heach [.ofMembers [("op", .str "add"), ("value", titled)]]
  exact ⟨hsame, hcongr _ _ hsame, hread, (List.forall₂_cons.mp (hops _ hread)).1⟩

end Request

end Scim
