import Scim.Proofs.Filter.Same
import Scim.Proofs.Json.Inside
import Scim.Proofs.Path.Candidates
import Scim.Proofs.Path.Target

/-!
# The same filter holds for the same values

Filters and paths that differ in letter case only find the same fields as long as no object has two
names that are equal up to case; with two such names the exact one comes first, and the letters
matter. All values that evaluation and reading meet on their way are inside the document, so that
none of them has such names either. So sameness is an equivalence that evaluation and reading respect
(`same_equivalence_respected`).
-/

namespace Scim

open Object

theorem Schema.rootOf?_congr {core : List Text} {doc : Object} (h : doc.Distinct) :
    ∀ {urn urn' : Option Text}, sameUrn urn urn' → rootOf? core doc urn = rootOf? core doc urn'
  | none, none, _ => rfl
  | some u, some u', hs => by
    have hlower := Text.sameLetters_iff.mp hs
    show root? core doc u = root? core doc u'
    unfold root? extension?
    rw [(h.unambiguous u').findKey?_congr hlower, isCore_congr hlower]

variable {core : List Text}

/-! ### Values on the way -/

section Inside

variable {name name' : Text} {v w : Json}

theorem fieldIn_congr (hv : v.Unambiguous) (hname : name.lower = name'.lower) :
    v.object?.bind (Object.field? · name) = v.object?.bind (Object.field? · name') := by
  cases v with
  | obj o => exact (hv.distinct.unambiguous name').field?_congr hname
  | _ => rfl

theorem unambiguous_fieldIn (hv : v.Unambiguous)
    (h : v.object?.bind (Object.field? · name) = some w) : w.Unambiguous := by
  cases v with
  | obj o => exact Json.Throughout.field? hv h
  | _ => cases h

theorem PathElement.unambiguous_valuesIn (e : PathElement) (hv : v.Unambiguous)
    (hw : w ∈ e.valuesIn core v) : w.Unambiguous := by
  obtain ⟨name, _ | f⟩ := e
  · rw [Path.valuesIn_plain, Option.mem_toList] at hw
    exact unambiguous_fieldIn hv hw
  · rw [Path.valuesIn_selector] at hw
    obtain ⟨field, hfield, hw⟩ := List.mem_flatMap.mp hw
    have hin := unambiguous_fieldIn hv (Option.mem_toList.mp hfield)
    exact hin.flatten (List.mem_filter.mp hw).1

theorem Path.unambiguous_follow {es : List PathElement} {values : List Json}
    (hv : ∀ v ∈ values, v.Unambiguous) (hw : w ∈ follow core es values) : w.Unambiguous := by
  induction es generalizing values with
  | nil => exact hv w hw
  | cons e rest ih =>
    refine ih (fun u hu => ?_) hw
    obtain ⟨v, hv', hu⟩ := List.mem_flatMap.mp hu
    obtain ⟨v', hmem, hv'⟩ := List.mem_flatMap.mp hv'
    exact e.unambiguous_valuesIn ((hv v' hmem).flatten hv') hu

theorem Json.Unambiguous.root {doc root : Object} {urn : Option Text} {keys : List Text}
    (h : (Json.obj doc).Unambiguous) (hroot : Schema.rootOf? core doc urn = some (keys, root)) :
    (Json.obj root).Unambiguous := by
  rcases Path.rootOf?_cases hroot with ⟨-, rfl⟩ | ⟨u, key, -, -, -, hget⟩
  · exact h
  · exact Json.Throughout.get? h hget

theorem Path.unambiguous_ofScalar {p : Path} (hv : v.Unambiguous) (hw : w ∈ p.ofScalar v) :
    w.Unambiguous := by
  unfold ofScalar at hw
  split at hw
  any_goals split_ifs at hw
  all_goals first | exact List.mem_singleton.mp hw ▸ hv | cases hw

theorem Path.unambiguous_candidates {p : Path} (hv : v.Unambiguous)
    (hw : w ∈ p.candidates core v) : w.Unambiguous := by
  cases v with
  | obj doc =>
    rw [candidates_obj] at hw
    obtain ⟨found, hroot, hw⟩ := List.mem_flatMap.mp hw
    obtain ⟨u, hu, hw⟩ := List.mem_flatMap.mp (List.mem_filter.mp hw).1
    have hin : ∀ v ∈ [Json.obj found.2], v.Unambiguous := by
      simpa using hv.root (Option.mem_toList.mp hroot)
    exact (unambiguous_follow hin hu).flatten hw
  | _ =>
    rw [candidates_scalar p rfl] at hw
    exact unambiguous_ofScalar hv hw

end Inside

/-! ### Evaluation -/

theorem Path.ofScalar_congr {p q : Path} (hs : p.same q) (v : Json) :
    p.ofScalar v = q.ofScalar v := by
  obtain ⟨urn, es⟩ := p
  obtain ⟨urn', es'⟩ := q
  obtain ⟨hurn, hes⟩ := same_iff.mp hs
  cases urn <;> cases urn' <;> try cases hurn
  · -- Only the number of elements and the name of a single one matter.
    rcases es with _ | ⟨e, _ | ⟨e₂, rest⟩⟩
    · obtain rfl : es' = [] := sameElements_nil_iff.mp hes
      rfl
    · obtain ⟨e', rest', rfl, he, hrest⟩ := sameElements_cons_iff.mp hes
      obtain rfl := sameElements_nil_iff.mp hrest
      cases v <;> simp [ofScalar, e.lower_name he]
    · obtain ⟨e', rest', rfl, -, hrest⟩ := sameElements_cons_iff.mp hes
      obtain ⟨e₂', rest'', rfl, -, -⟩ := sameElements_cons_iff.mp hrest
      cases v <;> rfl
  · rfl

mutual

theorem Filter.holds_congr : ∀ f g : Filter, f.same g → ∀ v : Json, v.Unambiguous →
    f.holds core v = g.holds core v
  | .compare op p l, g, hs, v, hv => by
    obtain ⟨q, rfl, hpq⟩ := Filter.same_compare_iff.mp hs
    rw [Filter.holds, Filter.holds, p.candidates_congr q hpq v hv]
  | .present p, g, hs, v, hv => by
    obtain ⟨q, rfl, hpq⟩ := Filter.same_present_iff.mp hs
    rw [Filter.holds, Filter.holds, p.candidates_congr q hpq v hv]
  | .logical c f f' fs, g, hs, v, hv => by
    obtain ⟨k, k', ks, rfl, hf, hf', hfs⟩ := Filter.same_logical_iff.mp hs
    cases c <;> simp only [Filter.holds, f.holds_congr k hf v hv, f'.holds_congr k' hf' v hv,
      Filter.allHold_congr fs ks hfs v hv, Filter.anyHolds_congr fs ks hfs v hv]
  | .not f, g, hs, v, hv => by
    obtain ⟨k, rfl, hf⟩ := Filter.same_not_iff.mp hs
    rw [Filter.holds, Filter.holds, f.holds_congr k hf v hv]
  | .complex p f, g, hs, v, hv => by
    obtain ⟨q, k, rfl, hpq, hf⟩ := Filter.same_complex_iff.mp hs
    rw [Filter.holds, Filter.holds, ← p.candidates_congr q hpq v hv]
    rw [Bool.eq_iff_iff, List.any_eq_true, List.any_eq_true]
    refine exists_congr fun w => and_congr_right fun hw => ?_
    rw [f.holds_congr k hf w (Path.unambiguous_candidates hv hw)]
termination_by structural f => f

theorem Filter.allHold_congr : ∀ fs gs : List Filter, Filter.sameAll fs gs → ∀ v : Json,
    v.Unambiguous → Filter.allHold core fs v = Filter.allHold core gs v
  | [], gs, hs, v, hv => by cases gs <;> simp [Filter.sameAll] at hs ⊢
  | f :: fs, gs, hs, v, hv => by
    obtain ⟨g, gs, rfl, hf, hfs⟩ := Filter.sameAll_cons_iff.mp hs
    rw [Filter.allHold, Filter.allHold, f.holds_congr g hf v hv,
      Filter.allHold_congr fs gs hfs v hv]
termination_by structural fs => fs

theorem Filter.anyHolds_congr : ∀ fs gs : List Filter, Filter.sameAll fs gs → ∀ v : Json,
    v.Unambiguous → Filter.anyHolds core fs v = Filter.anyHolds core gs v
  | [], gs, hs, v, hv => by cases gs <;> simp [Filter.sameAll] at hs ⊢
  | f :: fs, gs, hs, v, hv => by
    obtain ⟨g, gs, rfl, hf, hfs⟩ := Filter.sameAll_cons_iff.mp hs
    rw [Filter.anyHolds, Filter.anyHolds, f.holds_congr g hf v hv,
      Filter.anyHolds_congr fs gs hfs v hv]
termination_by structural fs => fs

theorem Path.candidates_congr : ∀ p q : Path, p.same q → ∀ v : Json, v.Unambiguous →
    p.candidates core v = q.candidates core v
  | ⟨urn, es⟩, ⟨urn', es'⟩, hs, v, hv => by
    obtain ⟨hurn, hes⟩ := Path.same_iff.mp hs
    cases v with
    | obj doc =>
      rw [Path.candidates_obj, Path.candidates_obj, ← Schema.rootOf?_congr hv.distinct hurn]
      refine List.flatMap_congr fun found hroot => ?_
      have hin : ∀ v ∈ [Json.obj found.2], v.Unambiguous := by
        simpa using hv.root (Option.mem_toList.mp hroot)
      exact congrArg Path.entries (Path.follow_congr es es' hes _ hin)
    | _ =>
      rw [Path.candidates_scalar _ rfl, Path.candidates_scalar _ rfl]
      exact Path.ofScalar_congr hs _
termination_by structural p => p

theorem Path.follow_congr : ∀ es es' : List PathElement, Path.sameElements es es' →
    ∀ values : List Json, (∀ v ∈ values, v.Unambiguous) →
      Path.follow core es values = Path.follow core es' values
  | [], es', hs, values, hv => by rw [Path.sameElements_nil_iff.mp hs]
  | e :: es, es', hs, values, hv => by
    obtain ⟨e', rest, rfl, he, hes⟩ := Path.sameElements_cons_iff.mp hs
    have hflat : ∀ w ∈ values.flatMap Json.flatten, w.Unambiguous := by
      intro w hw
      obtain ⟨v, hmem, hw⟩ := List.mem_flatMap.mp hw
      exact (hv v hmem).flatten hw
    have hstep : ((values.flatMap Json.flatten).flatMap fun v => e.valuesIn core v) =
        (values.flatMap Json.flatten).flatMap fun v => e'.valuesIn core v :=
      List.flatMap_congr fun w hw => e.valuesIn_congr e' he w (hflat w hw)
    unfold Path.follow
    rw [← hstep]
    refine Path.follow_congr es rest hes _ fun w hw => ?_
    obtain ⟨v, hmem, hw⟩ := List.mem_flatMap.mp hw
    exact e.unambiguous_valuesIn (hflat v hmem) hw
termination_by structural es => es

theorem PathElement.valuesIn_congr : ∀ e e' : PathElement, e.same e' → ∀ v : Json,
    v.Unambiguous → e.valuesIn core v = e'.valuesIn core v
  | ⟨name, none⟩, e', hs, v, hv => by
    obtain ⟨name', rfl, hname⟩ := PathElement.same_plain_iff.mp hs
    rw [Path.valuesIn_plain, Path.valuesIn_plain, fieldIn_congr hv hname]
  | ⟨name, some f⟩, e', hs, v, hv => by
    obtain ⟨name', f', rfl, hname, hf⟩ := PathElement.same_selector_iff.mp hs
    rw [Path.valuesIn_selector, Path.valuesIn_selector, fieldIn_congr hv hname]
    refine List.flatMap_congr fun field hfield => ?_
    have hin := unambiguous_fieldIn hv (Option.mem_toList.mp hfield)
    exact List.filter_congr fun w hw => f.holds_congr f' hf w (hin.flatten hw)
termination_by structural e => e

end

/-! ### Reading -/

namespace PathElement

variable {e e' : PathElement} {v : Json}

theorem isNone_selector_congr : ∀ {e e' : PathElement}, e.same e' →
    e.selector.isNone = e'.selector.isNone
  | ⟨_, none⟩, _, h => by
    obtain ⟨name', rfl, -⟩ := same_plain_iff.mp h
    rfl
  | ⟨_, some _⟩, _, h => by
    obtain ⟨name', f', rfl, -, -⟩ := same_selector_iff.mp h
    rfl

theorem selects_congr : ∀ {e e' : PathElement}, e.same e' → v.Unambiguous →
    e.selects core v = e'.selects core v
  | ⟨_, none⟩, _, h, _ => by
    obtain ⟨name', rfl, -⟩ := same_plain_iff.mp h
    rfl
  | ⟨_, some f⟩, _, h, hv => by
    obtain ⟨name', f', rfl, -, hf⟩ := same_selector_iff.mp h
    exact f.holds_congr f' hf v hv

theorem admits_eq (e : PathElement) (v : Json) :
    e.admits core v = (e.selector.isNone || (!v.isNull && e.selects core v)) := by
  obtain ⟨name, _ | f⟩ := e <;> rfl

theorem admits_congr (h : e.same e') (hv : v.Unambiguous) : e.admits core v = e'.admits core v := by
  rw [admits_eq, admits_eq, isNone_selector_congr h, selects_congr h hv]

end PathElement

namespace Path

theorem isEmpty_congr {es es' : List PathElement} (h : sameElements es es') :
    es.isEmpty = es'.isEmpty := by
  cases es with
  | nil => rw [sameElements_nil_iff.mp h]
  | cons e rest =>
    obtain ⟨e', rest', rfl, -, -⟩ := sameElements_cons_iff.mp h
    rfl

/-- Where reading goes on inside a value, it goes on inside an object. -/
theorem inside_congr {g g' : Object → List Found} {v : Json} :
    (∀ o, v = .obj o → g o = g' o) →
    (match v with
      | .obj inner => g inner
      | _ => []) =
    match v with
      | .obj inner => g' inner
      | _ => [] := by
  intro h
  cases v with
  | obj inner => exact h inner rfl
  | _ => rfl

theorem resolveFrom_congr {es es' : List PathElement} (hes : sameElements es es') {o : Object}
    (ho : (Json.obj o).Unambiguous) (location : Location) :
    resolveFrom core es location o = resolveFrom core es' location o := by
  induction es generalizing es' location o with
  | nil => rw [sameElements_nil_iff.mp hes]
  | cons e rest ih =>
    obtain ⟨e', rest', rfl, he, hrest⟩ := sameElements_cons_iff.mp hes
    have hinside := fun (v : Json) (step : Location) (hv : v.Unambiguous) =>
      inside_congr (v := v) fun inner hinner => ih hrest (hinner ▸ hv) (location ++ step)
    unfold resolveFrom
    rw [(ho.distinct.unambiguous e'.name).findKey?_congr (e.lower_name he)]
    cases o.findKey? e'.name with
    | none => rfl
    | some key =>
      simp only [isEmpty_congr hrest, PathElement.isNone_selector_congr he]
      cases hget : o.get? key with
      | none => rfl
      | some v =>
        have hv : v.Unambiguous := Json.Throughout.get? ho hget
        cases v with
        | arr items =>
          have hitem : ∀ i ∈ items.zipIdx, i.1.Unambiguous := fun i hi =>
            Json.Throughout.item hv (List.fst_mem_of_mem_zipIdx hi)
          have hfilter : (items.zipIdx.filter fun i => e.selects core i.1) =
              items.zipIdx.filter fun i => e'.selects core i.1 :=
            List.filter_congr fun i hi => PathElement.selects_congr he (hitem i hi)
          simp only [hfilter]
          split_ifs
          · rfl
          · rfl
          · exact List.flatMap_congr fun i hi =>
              hinside i.1 _ (hitem i (List.mem_of_mem_filter hi))
        | _ => simp only [PathElement.admits_congr he hv, hinside _ _ hv]

theorem resolve_congr {p q : Path} (h : p.same q) {doc : Object}
    (hdoc : (Json.obj doc).Unambiguous) : p.resolve core doc = q.resolve core doc := by
  obtain ⟨hurn, hes⟩ := same_iff.mp h
  unfold resolve
  rw [Schema.rootOf?_congr hdoc.distinct hurn, isEmpty_congr hes]
  cases hroot : Schema.rootOf? core doc q.schemaUrn with
  | none => rfl
  | some found => simp only [resolveFrom_congr hes (hdoc.root hroot)]

end Path

/-- Sameness of filters and of paths is an equivalence. In a document whose objects have no two names
equal up to letter case, the same filters hold for the same values and the same paths lead to the
same places. -/
theorem same_equivalence_respected :
    (Equivalence fun f g : Filter => f.same g = true) ∧
    (Equivalence fun p q : Path => p.same q = true) ∧
    ∀ core, (∀ doc : Json, doc.Unambiguous → ∀ f g : Filter, f.same g → ∀ location node,
        doc.at? location = some node → f.holds core node = g.holds core node) ∧
      ∀ doc : Object, (Json.obj doc).Unambiguous → ∀ p q : Path, p.same q →
        p.resolve core doc = q.resolve core doc := by
  refine ⟨Filter.same_equivalence, Path.same_equivalence, fun core => ⟨?_, ?_⟩⟩
  · intro doc hdoc f g h location node hnode
    exact f.holds_congr g h node (hdoc.at? hnode)
  · intro doc hdoc p q h
    exact Path.resolve_congr h hdoc

/-- Two numbers, each with the same field in a spelling of its own. -/
def phones : Object :=
  ⟨[("phoneNumbers", .arr [.ofMembers [("Mobile", .bool true)],
    .ofMembers [("mobile", .bool false)]])], false⟩

def isMobile (name : Text) : Filter := .compare .eq (.ofName name) (.bool true)

def mobileNumbers (name field : Text) : Path := ⟨none, [⟨name, some (isMobile field)⟩]⟩

theorem same_equivalence_respected_phones :
    (Json.obj phones).Unambiguous ∧ (isMobile "MOBILE").same (isMobile "mobile") = true ∧
    (Json.obj phones).at? [.key "phoneNumbers", .index 0] =
      some (.ofMembers [("Mobile", .bool true)]) ∧
    (isMobile "MOBILE").holds [] (.ofMembers [("Mobile", .bool true)]) = true ∧
    (mobileNumbers "PhoneNumbers" "MOBILE").same (mobileNumbers "phonenumbers" "mobile") = true ∧
    (mobileNumbers "PhoneNumbers" "MOBILE").resolve [] phones =
      [⟨.element [.key "phoneNumbers"] 0, .ofMembers [("Mobile", .bool true)]⟩] := by
  have hdoc : (Json.obj phones).Unambiguous := Json.throughout_of_everywhere _ (by decide)
  have hfilter : (isMobile "MOBILE").same (isMobile "mobile") = true := by decide
  have hpath : (mobileNumbers "PhoneNumbers" "MOBILE").same
      (mobileNumbers "phonenumbers" "mobile") = true := by decide
  have hat : (Json.obj phones).at? [.key "phoneNumbers", .index 0] =
      some (.ofMembers [("Mobile", .bool true)]) := rfl
  obtain ⟨-, -, hrespect⟩ := same_equivalence_respected
  obtain ⟨hholds, hresolve⟩ := hrespect []
  exact ⟨hdoc, hfilter, hat, (hholds _ hdoc _ _ hfilter _ _ hat).trans rfl, hpath,
    (hresolve phones hdoc _ _ hpath).trans rfl⟩

end Scim
