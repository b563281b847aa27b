import Scim.Patch.Wire
import Scim.Proofs.Json.Same
import Scim.Proofs.Patch.Accepted
import Scim.Proofs.Path.Written

/-!
# Requests that were read are read back

A request that was read is read back from its wire form as it was (`Request.ofJson_toJson`), if the
filters of its paths are exact. Three things make this so. A path was read itself, so that its written
form is read as the same path, and the path of the resource was dropped (`Operation.ofDraft_draft`).
What an operation was checked for does not depend on how it was written. And in the wire form all
names are as they are asked for.
-/

namespace Scim

open Shape

theorem mapM_eq_ok_iff {α β : Type} {f : α → Except Error β} {xs : List α} {ys : List β} :
    xs.mapM f = .ok ys ↔ List.Forall₂ (fun x y => f x = .ok y) xs ys := by
  induction xs generalizing ys with
  | nil => cases ys <;> simp [pure, Except.pure]
  | cons x rest ih =>
    rw [List.mapM_cons, List.forall₂_cons_left_iff]
    cases hx : f x with
    | error e => simp [bind, Except.bind]
    | ok y =>
      cases hrest : rest.mapM f with
      | error e => simp [bind, Except.bind, ← ih, hrest]
      | ok zs => simp [bind, Except.bind, pure, Except.pure, ← ih, hrest, eq_comm]

/-! ### Checked shapes -/

namespace Checked

variable {α β : Type} {a : α} {b : β} {step : Text} {x : Checked α} {y : Checked β}

theorem under_eq_ok_iff : under step x = .ok a ↔ x = .ok a := by
  cases x <;> simp [under]

theorem both_eq_ok_iff : both x y = .ok (a, b) ↔ x = .ok a ∧ y = .ok b := by
  cases x <;> cases y <;> simp [both]

theorem each_eq_ok_iff {check : Json → Checked α} {index : Nat} {items : List Json} {as : List α} :
    each check index items = .ok as ↔ List.Forall₂ (fun v a => check v = .ok a) items as := by
  induction items generalizing index as with
  | nil => cases as <;> simp [each]
  | cons v rest ih =>
    rw [each, List.forall₂_cons_left_iff]
    constructor
    · intro h
      cases hboth : both (under (Text.ofNat index) (check v)) (each check (index + 1) rest) with
      | error e => simp [hboth, Except.map] at h
      | ok r =>
        obtain ⟨hv, hrest⟩ := both_eq_ok_iff.mp hboth
        rw [hboth] at h
        cases h
        exact ⟨r.1, r.2, under_eq_ok_iff.mp hv, ih.mp hrest, rfl⟩
    · rintro ⟨a, as, hv, hrest, rfl⟩
      rw [both_eq_ok_iff.mpr ⟨under_eq_ok_iff.mpr hv, ih.mpr hrest⟩]
      rfl

end Checked

namespace Wire

variable {v : Json} {d : Draft} {ds : List Draft}

theorem draft_eq_ok_iff : Draft.check v = .ok d ↔ ∃ o, v = .obj o ∧
    required changeOf (member? o "op") = .ok d.change ∧
    (∃ path, optional nullableString (member? o "path") = .ok path ∧ d.path = path.join) ∧
    d.value = member? o "value" := by
  cases v with
  | obj o =>
    obtain ⟨change, path, value⟩ := d
    have hboth : ∀ x : Checked (Change × Option (Option Text)),
        (x.bind fun r => pure (Draft.mk r.1 r.2.join (member? o "value"))) = .ok ⟨change, path, value⟩ ↔
          ∃ path', x = .ok (change, path') ∧ path = path'.join ∧ value = member? o "value" := by
      rintro (e | ⟨change', path'⟩)
      · simp [Except.bind]
      · simp only [Except.bind, pure, Except.pure, Except.ok.injEq, Draft.mk.injEq, Prod.mk.injEq]
        constructor
        · rintro ⟨rfl, rfl, rfl⟩
          exact ⟨path', ⟨rfl, rfl⟩, rfl, rfl⟩
        · rintro ⟨_, ⟨rfl, rfl⟩, rfl, rfl⟩
          exact ⟨rfl, rfl, rfl⟩
    refine (hboth _).trans ⟨?_, ?_⟩
    · rintro ⟨path', hread, hpath, hvalue⟩
      obtain ⟨hop, hpath'⟩ := Checked.both_eq_ok_iff.mp hread
      exact ⟨o, rfl, Checked.under_eq_ok_iff.mp hop,
        ⟨path', Checked.under_eq_ok_iff.mp hpath', hpath⟩, hvalue⟩
    · rintro ⟨_, ⟨⟩, hop, ⟨path', hpath', hpath⟩, hvalue⟩
      exact ⟨path', Checked.both_eq_ok_iff.mpr ⟨Checked.under_eq_ok_iff.mpr hop,
        Checked.under_eq_ok_iff.mpr hpath'⟩, hpath, hvalue⟩
  | _ => exact ⟨nofun, fun ⟨_, h, _⟩ => nomatch h⟩

theorem drafts_eq_ok_iff : drafts v = .ok ds ↔ ∃ o items, v = .obj o ∧
    (∃ urns, optional schemas (member? o "schemas") = .ok urns) ∧
    member? o "Operations" = some (.arr items) ∧
    List.Forall₂ (fun v d => Draft.check v = .ok d) items ds := by
  cases v with
  | obj o =>
    have hboth : ∀ x : Checked (Option (List Text) × List Draft),
        (x.bind fun r => pure r.2) = .ok ds ↔ ∃ urns, x = .ok (urns, ds) := by
      rintro (e | ⟨urns, ds'⟩)
      · simp [Except.bind]
      · simp [Except.bind, pure, Except.pure]
    have hlist : ∀ w : Option Json, required (arrayOf Draft.check) w = .ok ds ↔
        ∃ items, w = some (.arr items) ∧ List.Forall₂ (fun v d => Draft.check v = .ok d) items ds := by
      rintro (_ | w)
      · exact ⟨nofun, fun ⟨_, h, _⟩ => nomatch h⟩
      · cases w with
        | arr items =>
          refine Checked.each_eq_ok_iff.trans ⟨fun h => ⟨items, rfl, h⟩, ?_⟩
          rintro ⟨_, ⟨⟩, h⟩
          exact h
        | _ => exact ⟨nofun, fun ⟨_, h, _⟩ => nomatch h⟩
    refine (hboth _).trans ⟨?_, ?_⟩
    · rintro ⟨urns, hread⟩
      obtain ⟨hurns, hops⟩ := Checked.both_eq_ok_iff.mp hread
      obtain ⟨items, hitems, hds⟩ := (hlist _).mp (Checked.under_eq_ok_iff.mp hops)
      exact ⟨o, items, rfl, ⟨urns, Checked.under_eq_ok_iff.mp hurns⟩, hitems, hds⟩
    · rintro ⟨_, items, ⟨⟩, ⟨urns, hurns⟩, hitems, hds⟩
      exact ⟨urns, Checked.both_eq_ok_iff.mpr ⟨Checked.under_eq_ok_iff.mpr hurns,
        Checked.under_eq_ok_iff.mpr ((hlist _).mpr ⟨items, hitems, hds⟩)⟩⟩
  | _ => exact ⟨nofun, fun ⟨_, _, h, _⟩ => nomatch h⟩

end Wire

/-! ### Operations -/

namespace Operation

variable {op : Operation} {d : Wire.Draft} {o : ParserOptions}

/-- The operation with its path as text. -/
def draft (op : Operation) : Wire.Draft := ⟨op.change, op.pathText?, op.value⟩

/-- The filters of the path are written so that they are read back. -/
def IsExact (op : Operation) : Prop :=
  ∀ p ∈ op.path, ∀ e ∈ p.elements, ∀ f ∈ e.selector, f.IsExact

theorem exists_make (h : ofDraft o d = .ok op) : ∃ path, make d.change path d.value = .ok op ∧
    ∀ p ∈ path, ∃ t, Path.ofText o t = .ok p := by
  obtain ⟨change, path, value⟩ := d
  cases path with
  | none => exact ⟨none, h, nofun⟩
  | some t =>
    cases hp : Path.ofText o t with
    | error e => simp [ofDraft, ofText, hp, bind, Except.bind] at h
    | ok p =>
      refine ⟨some p, by simpa [ofDraft, ofText, hp, bind, Except.bind] using h, ?_⟩
      rintro _ ⟨⟩
      exact ⟨t, hp⟩

theorem value_of_ofDraft (h : ofDraft o d = .ok op) : op.value = d.value := by
  obtain ⟨path, hmake, -⟩ := exists_make h
  rw [(make_eq_ok_iff.mp hmake).1]

theorem noReservedKey_of_ofDraft (h : ofDraft o d = .ok op) :
    op.value.any Json.hasReservedKey = false := by
  obtain ⟨path, hmake, -⟩ := exists_make h
  rw [value_of_ofDraft h]
  exact (check_eq_ok_iff.mp (make_eq_ok_iff.mp hmake).2).1

theorem ofDraft_draft (h : ofDraft .default d = .ok op) (hexact : op.IsExact) :
    ofDraft .default op.draft = .ok op := by
  obtain ⟨path, hmake, hpath⟩ := exists_make h
  obtain ⟨hop, hcheck⟩ := make_eq_ok_iff.mp hmake
  obtain ⟨change, path', value⟩ := op
  cases hop
  cases hkept : path.filter (!·.isRoot) with
  | none =>
    rw [hkept] at hcheck
    exact make_eq_ok_iff.mpr ⟨rfl, hcheck⟩
  | some p =>
    obtain ⟨hp, hroot⟩ := Option.filter_eq_some_iff.mp hkept
    obtain ⟨t, ht⟩ := hpath p hp
    have hread := Path.ofText_render_of_ofText ht (hexact p (by simp [hkept]))
    have hagain : (some p).filter (!·.isRoot) = some p := Option.filter_some_pos hroot
    have hsame : make d.change (some p) d.value = .ok ⟨d.change, some p, d.value⟩ := by
      rw [make_eq_ok_iff, hagain]
      rw [hkept] at hcheck
      exact ⟨rfl, hcheck⟩
    simpa [ofDraft, ofText, draft, pathText?, hread, bind, Except.bind] using hsame

theorem ofName?_lower_name (c : Change) : Change.ofName? c.name.lower = some c := by
  cases c <;> decide

/-- What is found in the wire form of an operation, each name as it is asked for. -/
theorem exists_toJson (op : Operation) : ∃ o, op.toJson = .obj o ∧
    Wire.member? o "op" = some (.str op.change.name) ∧
    Wire.member? o "path" = op.pathText?.map .str ∧ Wire.member? o "value" = op.value := by
  obtain ⟨change, _ | path, _ | value⟩ := op <;> exact ⟨_, rfl, rfl, rfl, rfl⟩

theorem check_toJson (op : Operation) : Wire.Draft.check op.toJson = .ok op.draft := by
  obtain ⟨o, ho, hop, hpath, hvalue⟩ := op.exists_toJson
  refine Wire.draft_eq_ok_iff.mpr ⟨o, ho, ?_, ⟨op.pathText?.map some, ?_, ?_⟩, hvalue.symm⟩
  · rw [hop]
    show Wire.changeOf (.str op.change.name) = .ok op.change
    rw [Wire.changeOf, ofName?_lower_name]
  · rw [hpath]
    cases op.pathText? <;> rfl
  · show op.pathText? = _
    cases op.pathText? <;> rfl

theorem hasReservedKey_toJson (op : Operation) :
    op.toJson.hasReservedKey = op.value.any Json.hasReservedKey := by
  have hnames : ("op" == reservedName) = false ∧ ("path" == reservedName) = false ∧
      ("value" == reservedName) = false := by decide
  obtain ⟨change, _ | path, _ | value⟩ := op <;>
    simp [toJson, Json.ofMembers, Object.single, pathText?, Json.hasReservedKey,
      Json.memberReservedKey, hnames]

theorem wellFormed_toJson (h : ∀ v ∈ op.value, v.WellFormed) : op.toJson.WellFormed := by
  refine Json.wellFormed_obj_iff.mpr ⟨?_, fun m hm => ?_⟩
  · obtain ⟨change, _ | path, _ | value⟩ := op <;> simp [Object.keys, Object.single, pathText?] <;>
      decide
  · obtain ⟨change, _ | path, _ | value⟩ := op <;>
      simp only [Object.single, pathText?, Option.map_none, Option.map_some, Option.toList_none,
        Option.toList_some, List.append_nil, List.cons_append, List.nil_append, List.mem_cons,
        List.not_mem_nil, or_false] at hm
    all_goals rcases hm with rfl | rfl | rfl
    all_goals first | exact Json.wellFormed_scalar rfl rfl | exact h _ rfl

/-- Two operations say the same. -/
structure Agrees (op op' : Operation) : Prop where
  change : op.change = op'.change
  path : Option.Rel (fun p q => p.same q = true) op.path op'.path
  value : Option.Rel (fun v w => v.same w = true) op.value op'.value

theorem Agrees.refl (h : ∀ v ∈ op.value, v.WellFormed) : op.Agrees op where
  change := rfl
  path := by
    cases op.path with
    | none => exact .none
    | some p => exact .some p.same_refl
  value := by
    cases hv : op.value with
    | none => exact .none
    | some v => exact .some (v.same_refl (h v hv))

end Operation

/-! ### Requests -/

theorem Wire.member_of_member? {o : Object} {name : Text} {v : Json}
    (h : Wire.member? o name = some v) : ∃ m ∈ o.members, m.2 = v := by
  obtain ⟨m, hm, rfl⟩ := Option.map_eq_some_iff.mp h
  exact ⟨m, List.mem_reverse.mp (List.mem_of_find?_eq_some hm), rfl⟩

namespace Request

variable {body : Json} {v : Option Json} {r : Request} {o : ParserOptions}

theorem ofJson_eq_ok_iff : ofJson o (some body) = .ok r ↔ body.hasReservedKey = false ∧
    ∃ ds, Wire.drafts body = .ok ds ∧
      List.Forall₂ (fun d op => Operation.ofDraft o d = .ok op) ds r.operations := by
  unfold ofJson
  cases hreserved : body.hasReservedKey with
  | true => simp [hreserved, bind, Except.bind, throw, throwThe, MonadExceptOf.throw]
  | false =>
    have hrequired : required Wire.drafts (some body) = Wire.drafts body := rfl
    cases hds : Wire.drafts body with
    | error e => simp [hreserved, hrequired, hds, Except.mapError, bind, Except.bind]
    | ok ds =>
      obtain ⟨ops⟩ := r
      simp only [← mapM_eq_ok_iff]
      cases hops : ds.mapM (Operation.ofDraft o) with
      | error e => simp [hreserved, hrequired, hds, hops, Except.mapError, bind, Except.bind]
      | ok ops' =>
        simp [hreserved, hrequired, hds, hops, Except.mapError, bind, Except.bind, pure, Except.pure]

/-- The operations of a request were each made of a draft. -/
theorem exists_draft (h : ofJson o v = .ok r) :
    ∀ op ∈ r.operations, ∃ d, Operation.ofDraft o d = .ok op := by
  intro op hop
  cases v with
  | none => cases h
  | some body =>
    obtain ⟨-, ds, -, hops⟩ := ofJson_eq_ok_iff.mp h
    obtain ⟨d, -, hdraft⟩ := exists_of_mem_right hops hop
    exact ⟨d, hdraft⟩

/-- The values of the operations stand in the body. -/
theorem wellFormed_value (h : ofJson o (some body) = .ok r) (hbody : body.WellFormed) :
    ∀ op ∈ r.operations, ∀ v ∈ op.value, v.WellFormed := by
  have hmember : ∀ {obj : Object} (name : Text) {v : Json}, (Json.obj obj).WellFormed →
      Wire.member? obj name = some v → v.WellFormed := by
    intro obj name v hobj hv
    obtain ⟨m, hm, rfl⟩ := Wire.member_of_member? hv
    exact hobj.member hm
  obtain ⟨-, ds, hds, hops⟩ := ofJson_eq_ok_iff.mp h
  obtain ⟨obj, items, rfl, -, hitems, hread⟩ := Wire.drafts_eq_ok_iff.mp hds
  intro op hop v hv
  obtain ⟨d, hd, hdraft⟩ := exists_of_mem_right hops hop
  obtain ⟨item, hitem, hcheck⟩ := exists_of_mem_right hread hd
  obtain ⟨inner, rfl, -, -, hvalue⟩ := Wire.draft_eq_ok_iff.mp hcheck
  have hinner := Json.wellFormed_arr_iff.mp (hmember _ hbody hitems) _ hitem
  refine hmember "value" hinner ?_
  rw [← hvalue, ← Operation.value_of_ofDraft hdraft]
  exact hv

theorem drafts_toJson (r : Request) :
    Wire.drafts r.toJson = .ok (r.operations.map Operation.draft) := by
  refine Wire.drafts_eq_ok_iff.mpr ⟨_, _, rfl, ⟨some [Schema.patchMessage], rfl⟩, rfl, ?_⟩
  rw [List.forall₂_map_left_iff, List.forall₂_map_right_iff, List.forall₂_same]
  exact fun op _ => op.check_toJson

theorem hasReservedKey_toJson (h : ∀ op ∈ r.operations, op.value.any Json.hasReservedKey = false) :
    r.toJson.hasReservedKey = false := by
  have hnames : ("schemas" == reservedName) = false ∧ ("Operations" == reservedName) = false := by
    decide
  have hops : Json.anyReservedKey (r.operations.map Operation.toJson) = false := by
    rw [Json.anyReservedKey_eq_any, List.any_map, List.any_eq_false]
    intro op hop
    rw [Function.comp_apply, op.hasReservedKey_toJson, h op hop]
    exact Bool.false_ne_true
  simp [toJson, Json.ofMembers, Json.hasReservedKey, Json.memberReservedKey, Json.anyReservedKey,
    hnames, hops]

theorem ofJson_toJson (h : ofJson .default (some body) = .ok r)
    (hexact : ∀ op ∈ r.operations, op.IsExact) : ofJson .default (some r.toJson) = .ok r := by
  obtain ⟨-, ds, -, hops⟩ := ofJson_eq_ok_iff.mp h
  refine ofJson_eq_ok_iff.mpr ⟨hasReservedKey_toJson fun op hop => ?_, _, r.drafts_toJson, ?_⟩
  · obtain ⟨d, -, hdraft⟩ := exists_of_mem_right hops hop
    exact Operation.noReservedKey_of_ofDraft hdraft
  · rw [List.forall₂_map_left_iff, List.forall₂_same]
    intro op hop
    obtain ⟨d, -, hdraft⟩ := exists_of_mem_right hops hop
    exact Operation.ofDraft_draft hdraft (hexact op hop)

theorem wellFormed_toJson (h : ∀ op ∈ r.operations, ∀ v ∈ op.value, v.WellFormed) :
    r.toJson.WellFormed := by
  have hnames : (["schemas", "Operations"] : List Text).Nodup := by decide
  refine Json.wellFormed_obj_iff.mpr ⟨hnames, List.forall_mem_cons.mpr ⟨?_, ?_⟩⟩
  · exact Json.wellFormed_arr_iff.mpr (List.forall_mem_singleton.mpr (Json.wellFormed_scalar rfl rfl))
  · refine List.forall_mem_singleton.mpr (Json.wellFormed_arr_iff.mpr ?_)
    exact List.forall_mem_map.mpr fun op hop => op.wellFormed_toJson (h op hop)

/-- A request that was read is sent on as it is: its wire form is accepted, and read as operations
that say the same, with the same wire form. -/
theorem ofJson_toJson_agrees {body : Json} {r : Request} (hbody : body.WellFormed)
    (h : ofJson .default (some body) = .ok r) (hexact : ∀ op ∈ r.operations, op.IsExact) :
    ∃ r', ofJson .default (some r.toJson) = .ok r' ∧
      List.Forall₂ Operation.Agrees r'.operations r.operations ∧ r'.toJson.same r.toJson := by
  have hvalues := wellFormed_value h hbody
  refine ⟨r, ofJson_toJson h hexact, List.forall₂_same.mpr fun op hop => ?_, ?_⟩
  · exact .refl (hvalues op hop)
  · exact r.toJson.same_refl (wellFormed_toJson hvalues)

/-- A change of work addresses and one of the whole resource, its path a blank. -/
def sent : Json :=
  .ofMembers [("SCHEMAS", .arr [.str "URN:ietf:params:scim:api:messages:2.0:PatchOp"]),
    ("operations", .arr [
      .ofMembers [("Op", .str "REPLACE"), ("path", .str workEmail.render), ("value", .str "a")],
      .ofMembers [("op", .str "add"), ("Path", .str " "),
        ("Value", .ofMembers [("b", .bool true), ("a", .null)])]])]

def received : Request :=
  ⟨[⟨.replace, some workEmail, some (.str "a")⟩,
    ⟨.add, none, some (.ofMembers [("b", .bool true), ("a", .null)])⟩]⟩

theorem ofJson_sent : ofJson .default (some sent) = .ok received := by
  have hread : Path.ofText .default workEmail.render = .ok workEmail := by
    obtain ⟨hw, htrim⟩ := Path.render_written expressible_workEmail fun h => absurd h.1 (by simp [workEmail])
    rwa [Path.ofText_eq_ok_iff, Path.parse_eq_ok_iff, Text.trim_eq_self htrim.1 htrim.2]
  have hfirst : Operation.ofDraft .default ⟨.replace, some workEmail.render, some (.str "a")⟩ =
      .ok ⟨.replace, some workEmail, some (.str "a")⟩ := by
    rw [Operation.ofDraft, Operation.ofText]
    simp only [hread]
    rfl
  exact ofJson_eq_ok_iff.mpr ⟨by decide, _, rfl, .cons hfirst (.cons rfl .nil)⟩

theorem ofJson_toJson_agrees_sent :
    sent.WellFormed ∧ ofJson .default (some sent) = .ok received ∧
    (∀ op ∈ received.operations, op.IsExact) ∧
    ∃ r', ofJson .default (some received.toJson) = .ok r' ∧
      List.Forall₂ Operation.Agrees r'.operations received.operations ∧
      r'.toJson.same received.toJson := by
  have hbody : sent.WellFormed := Json.throughout_of_everywhere _ (by decide)
  have hexact : ∀ op ∈ received.operations, op.IsExact := by
    refine List.forall_mem_cons.mpr ⟨?_, List.forall_mem_singleton.mpr nofun⟩
    rintro _ ⟨⟩ e he f hf
    exact (expressible_workEmail.selectors e he f hf).imp (fun _ _ => trivial) fun _ => id
  exact ⟨hbody, ofJson_sent, hexact, ofJson_toJson_agrees hbody ofJson_sent hexact⟩

end Request

/-! ### Accepted operations -/

namespace Operation

variable {op : Operation}

/-- An operation that was accepted, in whichever form it was given. -/
inductive Accepted : Operation → Prop
  | made {change : Change} {path : Option Path} {value : Option Json} {op : Operation}
    (h : make change path value = .ok op) : Accepted op
  | ofText {o : ParserOptions} {change : Change} {path : Option Text} {value : Option Json}
    {op : Operation} (h : ofText o change path value = .ok op) : Accepted op
  | ofJson {o : ParserOptions} {v : Option Json} {op : Operation} (h : ofJson o v = .ok op) :
    Accepted op
  | ofRequest {o : ParserOptions} {v : Option Json} {r : Request} {op : Operation}
    (h : Request.ofJson o v = .ok r) (hop : op ∈ r.operations) : Accepted op

theorem ofJson_eq_ok_iff {o : ParserOptions} {v : Json} : ofJson o (some v) = .ok op ↔
    v.hasReservedKey = false ∧ ∃ d, Wire.Draft.check v = .ok d ∧ ofDraft o d = .ok op := by
  unfold ofJson
  cases hreserved : v.hasReservedKey with
  | true => simp [hreserved, bind, Except.bind, throw, throwThe, MonadExceptOf.throw]
  | false =>
    have hrequired : required Wire.Draft.check (some v) = Wire.Draft.check v := rfl
    cases hd : Wire.Draft.check v <;>
      simp [hreserved, hrequired, hd, Except.mapError, bind, Except.bind]

theorem exists_draft {o : ParserOptions} {v : Option Json} (h : ofJson o v = .ok op) :
    ∃ d, ofDraft o d = .ok op := by
  cases v with
  | none => cases h
  | some v =>
    obtain ⟨-, d, -, hdraft⟩ := ofJson_eq_ok_iff.mp h
    exact ⟨d, hdraft⟩

theorem make_of_make {change : Change} {path : Option Path} {value : Option Json}
    (h : make change path value = .ok op) : make op.change op.path op.value = .ok op := by
  obtain ⟨hop, hcheck⟩ := make_eq_ok_iff.mp h
  have hpath : op.path.filter (!·.isRoot) = op.path := by
    cases hp : op.path with
    | none => rfl
    | some p => exact Option.filter_some_pos (by simp [isRoot_of_make h p hp])
  refine make_eq_ok_iff.mpr ⟨by rw [hpath], ?_⟩
  rw [hop] at hcheck ⊢
  exact hcheck

/-- In every form the same checks are made. -/
theorem accepted_iff : op.Accepted ↔ make op.change op.path op.value = .ok op := by
  refine ⟨fun h => ?_, .made⟩
  have hdraft {o : ParserOptions} {d : Wire.Draft} (h : ofDraft o d = .ok op) :
      make op.change op.path op.value = .ok op := by
    obtain ⟨path, hmake, -⟩ := exists_make h
    exact make_of_make hmake
  cases h with
  | made h => exact make_of_make h
  | ofText h => exact hdraft (d := ⟨_, _, _⟩) h
  | ofJson h => exact hdraft (exists_draft h).choose_spec
  | ofRequest h hop => exact hdraft (Request.exists_draft h op hop).choose_spec

end Operation

end Scim
