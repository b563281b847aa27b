import Scim.Proofs.Patch.Listing
import Scim.Proofs.Patch.WriteOrder

/-!
# The order of members in a value

An addition or a replacement without a path leaves the same resource whatever the order of the
members in its value, up to the order of the list of schemas (`run_memberOrder`), if the members are
`Settled`. Where they are not the last one counts, or what has been listed before
(`run_order_matters`).

Two things depend on the order: what is written to the top level, and in what order bookkeeping
deals with the schemas. The first leaves resources that hold the same (`writeTopLevel_sameOn`), for
which bookkeeping reaches the same verdicts (`updateSchema_sameOn`); the second shows in the list
(`foldl_updateSchema_perm`).
-/

namespace Scim

open Object

namespace Operation

open Schema

variable {core urns : List Text} {o o' doc : Object} {u : Text} {x y : Option Json} {v w : Json}

/-! ### Bookkeeping of resources that hold the same -/

theorem isAssigned_of_same (hx : ∀ v ∈ x, v.WellFormed) (hy : ∀ w ∈ y, w.WellFormed)
    (h : Option.Rel (fun v w => v.same w) x y) : isAssigned x = isAssigned y := by
  cases h with
  | none => rfl
  | @some v w h =>
    cases v with
    | obj o =>
      obtain ⟨o', rfl, -⟩ := Json.exists_of_same_obj h
      obtain ⟨hforth, hback⟩ := sameMembers_of_same (hx _ rfl) (hy _ rfl) h
      simp only [isAssigned, Object.values, List.any_map]
      rw [Bool.eq_iff_iff, List.any_eq_true, List.any_eq_true]
      constructor
      · rintro ⟨m, hm, hassigned⟩
        obtain ⟨m', hm', hsame⟩ := hforth m hm
        rw [Function.comp_apply, Json.isUnassigned_of_same hsame.2] at hassigned
        exact ⟨m', hm', hassigned⟩
      · rintro ⟨m', hm', hassigned⟩
        obtain ⟨m, hm, hsame⟩ := hback m' hm'
        rw [Function.comp_apply, ← Json.isUnassigned_of_same hsame.2] at hassigned
        exact ⟨m, hm, hassigned⟩
    | _ =>
      cases w with
      | obj o' => simp [Json.same] at h
      | _ => rfl

theorem isUrnItem_of_same (u : Text) (h : v.same w) : isUrnItem u v = isUrnItem u w := by
  cases v with
  | str t => rw [(Json.same_scalar_iff rfl rfl).mp h]
  | _ =>
    cases w with
    | str t => simp [Json.same] at h
    | _ => rfl

theorem isCore_of_sameOn (h : SameOn listName o o') (core : List Text) (u : Text) :
    isCore core o' u = isCore core o u := by
  rw [isCore_eq, isCore_eq]
  congr 1
  unfold listed
  have hfield := h.field?
  generalize o.field? listName = x at hfield
  generalize o'.field? listName = y at hfield
  cases hfield with
  | none => rfl
  | @some v w hsame =>
    cases v with
    | arr items =>
      obtain ⟨items', rfl, hitems⟩ := Json.exists_of_same_arr hsame
      cases hitems with
      | nil => rfl
      | cons hfirst _ => exact (isUrnItem_of_same u hfirst).symm
    | _ =>
      cases w with
      | arr items' => simp [Json.same] at hsame
      | _ => rfl

theorem relistItems_of_same {items items' : List Json}
    (h : List.Forall₂ (fun v w => v.same w) items items') (u : Text) (verdict : Verdict) :
    List.Forall₂ (fun v w => v.same w) (verdict.relistItems u items)
      (verdict.relistItems u items') := by
  cases verdict with
  | leave => exact h
  | enlist stored =>
    have hany : items.any (isUrnItem u) = items'.any (isUrnItem u) := by
      induction h with
      | nil => rfl
      | cons hv _ ih => rw [List.any_cons, List.any_cons, ih, isUrnItem_of_same u hv]
    simp only [Verdict.relistItems, hany]
    refine List.rel_append h (List.forall₂_same.mpr fun v hv => ?_)
    revert hv
    cases items'.any (isUrnItem u) with
    | true => exact fun hv => absurd hv (List.not_mem_nil)
    | false =>
      intro hv
      obtain rfl := List.mem_singleton.mp hv
      exact Json.same_refl _ (Json.wellFormed_scalar rfl rfl)
  | drop =>
    refine List.rel_filter (fun v w hv => ?_) h
    show (!isUrnItem u v) = true ↔ (!isUrnItem u w) = true
    rw [isUrnItem_of_same u hv]

theorem relist_of_same (h : Option.Rel (fun v w => v.same w) x y) (u : Text) (verdict : Verdict) :
    Option.Rel (fun v w => v.same w) (verdict.relist u x) (verdict.relist u y) := by
  cases h with
  | none =>
    cases verdict with
    | enlist stored => exact .some (Json.same_arr_iff.mpr (relistItems_of_same .nil u _))
    | _ => exact .none
  | @some v w h =>
    cases v with
    | arr items =>
      obtain ⟨items', rfl, hitems⟩ := Json.exists_of_same_arr h
      exact .some (Json.same_arr_iff.mpr (relistItems_of_same hitems u verdict))
    | _ =>
      cases w with
      | arr items' => simp [Json.same] at h
      | _ => exact .some h

theorem verdict_of_sameOn (ho : (Json.obj o).WellFormed) (ho' : (Json.obj o').WellFormed)
    (h : ∀ k, SameOn k o o') (core : List Text) (u : Text) :
    verdict core o' u = verdict core o u := by
  have hassigned : isAssigned (o.field? u) = isAssigned (o'.field? u) :=
    isAssigned_of_same (fun _ => ho.field?) (fun _ => ho'.field?) (h u).field?
  unfold verdict
  rw [isCore_of_sameOn (h listName), hassigned, (h u).storedName]

theorem updateSchema_sameOn (core : List Text) (ho : (Json.obj o).WellFormed)
    (ho' : (Json.obj o').WellFormed) (h : ∀ k, SameOn k o o') (hu : u.lower ≠ listName.lower) (k : Text) :
    SameOn k (updateSchema core o u) (updateSchema core o' u) := by
  rw [updateSchema_eq core ho.nodup hu, updateSchema_eq core ho'.nodup hu,
    verdict_of_sameOn ho ho' h]
  generalize verdict core o u = verdict
  have hclear : ∀ k, SameOn k (verdict.clear u o) (verdict.clear u o') := by
    refine SameOn.of_work (verdict.clear_local u) (verdict.clear_local u) h ?_
    cases verdict with
    | drop => exact (h u).removeField
    | _ => exact h u
  have hlist := relist_of_same (h listName).field? u verdict
  refine SameOn.of_work (.putField listName _) (.putField listName _) hclear ?_ k
  generalize verdict.relist u (o.field? listName) = x at hlist
  generalize verdict.relist u (o'.field? listName) = y at hlist
  cases hlist with
  | none => exact hclear listName
  | some hsame => exact (hclear listName).setField (by decide) hsame

theorem foldl_updateSchema_sameOn (core : List Text) (ho : (Json.obj o).WellFormed)
    (ho' : (Json.obj o').WellFormed) (h : ∀ k, SameOn k o o') (hurns : ∀ u ∈ urns, u.lower ≠ listName.lower) :
    ∀ k, SameOn k (urns.foldl (updateSchema core) o) (urns.foldl (updateSchema core) o') := by
  induction urns generalizing o o' with
  | nil => exact h
  | cons u rest ih =>
    obtain ⟨hu, hrest⟩ := List.forall_mem_cons.mp hurns
    exact ih (updateSchema_kept core ho u) (updateSchema_kept core ho' u)
      (updateSchema_sameOn core ho ho' h hu) hrest

theorem Reordered.wellFormed {d p : Object} (h : Reordered d p) (hd : (Json.obj d).WellFormed) :
    (Json.obj p).WellFormed := by
  rcases h with rfl | ⟨items, items', hlist, hperm, rfl⟩
  · exact hd
  · have hitems := Json.wellFormed_arr_iff.mp (Json.Throughout.field? hd hlist)
    exact Json.AllObjects.setField hd _
      (Json.wellFormed_arr_iff.mpr fun v hv => hitems v (hperm.mem_iff.mpr hv))

/-! ### Operations -/

variable {options : PatchOptions} {change : Change}

theorem urns_of_unambiguous (ho : (Json.obj o).Unambiguous) :
    Urns ((Object.keys o).filter Text.isUrn) where
  distinct := ho.distinct.sublist (List.filter_sublist.map _)
  ne _ hu := lower_ne_listName (List.mem_filter.mp hu).2

/-- A value without members is refused. -/
theorem run_void (hchange : change ≠ .remove) (h : o.members = []) :
    run options change none (.obj o) doc = .error (.valueMissing change) := by
  obtain ⟨ms, unlocked⟩ := o
  obtain rfl : ms = [] := h
  cases change with
  | remove => exact absurd rfl hchange
  | _ => rfl

/-- Any other is written to the top level, and the schemas in it are brought in step. -/
theorem run_object (hchange : change ≠ .remove) (h : o.members ≠ []) :
    run options change none (.obj o) doc =
      if (Json.obj o).hasReservedKey then .error .reservedKey
      else .ok (.done (((Object.keys o).filter Text.isUrn).foldl (updateSchema options.coreUrns)
        (writeTopLevel options.coreUrns (writer change) o.members doc))) := by
  have hvoid : isVoid (some (.obj o)) = false := by
    obtain ⟨ms, unlocked⟩ := o
    cases ms with
    | nil => exact absurd rfl h
    | cons m rest => rfl
  have hwrite : applyChange options ⟨change, none, some (.obj o)⟩ doc =
      .done (writeTopLevel options.coreUrns (writer change) o.members doc) := by
    have htarget : target options.coreUrns ⟨change, none, some (.obj o)⟩ doc true =
        (.ok (some (.root [])), doc) := rfl
    rw [applyChange_root hchange rfl ⟨rfl, hvoid⟩ htarget]
    rfl
  rw [run_eq hchange (by simp) (by simp) hvoid, apply, hwrite]
  rfl

/-- Both are refused with the same error, or leave the same resource up to the order of its list of
schemas. -/
def SameRun (r r' : Except Error Outcome) : Prop :=
  (∃ e, r = .error e ∧ r' = .error e) ∨
    ∃ d d' p, r = .ok (.done d) ∧ r' = .ok (.done d') ∧ Reordered d p ∧
      (Json.obj p).same (.obj d')

/-- An addition or a replacement without a path does the same for values that differ in the order of
members only, if these are settled. -/
theorem run_memberOrder (options : PatchOptions) (change : Change) (o o' doc : Object)
    (hchange : change ≠ .remove) (hdoc : (Json.obj doc).WellFormed)
    (hv : (Json.obj o).Unambiguous) (hv' : (Json.obj o').Unambiguous)
    (hsame : (Json.obj o).same (.obj o'))
    (h : Settled options.coreUrns (writer change) doc o.members)
    (h' : Settled options.coreUrns (writer change) doc o'.members) :
    SameRun (run options change none (.obj o) doc) (run options change none (.obj o') doc) := by
  have hlength := (Json.same_obj_iff.mp hsame).1
  by_cases hnil : o.members = []
  · have hnil' : o'.members = [] := by simpa [hnil, eq_comm] using hlength
    exact .inl ⟨_, run_void hchange hnil, run_void hchange hnil'⟩
  have hnil' : o'.members ≠ [] := fun heq => hnil (by simpa [heq] using hlength)
  rw [run_object hchange hnil, run_object hchange hnil',
    ← Json.hasReservedKey_of_same hv.wellFormed hv'.wellFormed hsame]
  split_ifs with hreserved
  · exact .inl ⟨_, rfl, rfl⟩
  rw [Bool.not_eq_true] at hreserved
  have hwrite := deep_writer change
  have hkept : ∀ {v : Object}, (Json.obj v).Unambiguous →
      (Json.obj (writeTopLevel options.coreUrns (writer change) v.members doc)).WellFormed :=
    fun h => writeTopLevel_kept hwrite.clean (fun _ hm => (h.member hm).wellFormed) hdoc
  have hwritten := writeTopLevel_sameOn hwrite hv hv' hreserved hsame hdoc h h'
  have hurns := urns_of_unambiguous hv
  have hperm : ((Object.keys o).filter Text.isUrn).Perm ((Object.keys o').filter Text.isUrn) :=
    (Json.keys_perm_of_same hv.wellFormed.nodup hsame).filter _
  -- from one order of the schemas to the other, and then from one value to the other
  obtain ⟨p, hp, hagree⟩ := foldl_updateSchema_perm options.coreUrns (hkept hv) hurns hperm
  have hnext := foldl_updateSchema_sameOn options.coreUrns (hkept hv) (hkept hv') hwritten
    (hurns.perm hperm).ne
  refine .inr ⟨_, _, p, rfl, rfl, hp, ?_⟩
  refine same_of_sameOn (hp.wellFormed (foldl_updateSchema_kept _ _ (hkept hv)))
    (foldl_updateSchema_kept _ _ (hkept hv')) fun name => ?_
  exact (hnext name).of_agreeOn (hagree name).symm (.refl name _)

/-- A resource with a first schema, and two extensions of which one is listed. -/
def primary : Object := ⟨[("schemas", .arr [.str "urn:a:b"])], false⟩

def extended : Object :=
  ⟨[("schemas", .arr [.str "urn:x:y"]), ("urn:x:y", .ofMembers [("a", .bool true)]),
    ("urn:p:q", .ofMembers [("b", .bool true), ("c", .bool false)])], false⟩

def extendedTurned : Object :=
  ⟨[("urn:p:q", .ofMembers [("c", .bool false), ("b", .bool true)]),
    ("urn:x:y", .ofMembers [("a", .bool true)]), ("schemas", .arr [.str "urn:x:y"])], false⟩

theorem run_memberOrder_extended :
    (Json.obj primary).WellFormed ∧ (Json.obj extended).Unambiguous ∧
    (Json.obj extendedTurned).Unambiguous ∧ (Json.obj extended).same (.obj extendedTurned) ∧
    Settled PatchOptions.default.coreUrns (writer .add) primary extended.members ∧
    Settled PatchOptions.default.coreUrns (writer .add) primary extendedTurned.members ∧
    SameRun (run .default .add none (.obj extended) primary)
      (run .default .add none (.obj extendedTurned) primary) := by
  have hdoc : (Json.obj primary).WellFormed := Json.throughout_of_everywhere _ (by decide)
  have hv : (Json.obj extended).Unambiguous := Json.throughout_of_everywhere _ (by decide)
  have hv' : (Json.obj extendedTurned).Unambiguous := Json.throughout_of_everywhere _ (by decide)
  have hsame : (Json.obj extended).same (.obj extendedTurned) := rfl
  have h : Settled PatchOptions.default.coreUrns (writer .add) primary extended.members :=
    ⟨by unfold DistinctNames; decide, by decide⟩
  have h' : Settled PatchOptions.default.coreUrns (writer .add) primary extendedTurned.members :=
    ⟨by unfold DistinctNames; decide, by decide⟩
  exact ⟨hdoc, hv, hv', hsame, h, h',
    run_memberOrder .default .add _ _ _ (by decide) hdoc hv hv' hsame h h'⟩

/-! ### Members that are not settled -/

/-- No attribute is given both at the top level and inside the object under a URN. -/
def Apart (o : Object) : Prop :=
  ∀ m ∈ o.members, m.1.isUrn → ∀ n ∈ memberNames (some m.2),
    n.lower ∉ (Object.keys o).map Text.lower

instance (o : Object) : Decidable (Apart o) :=
  inferInstanceAs (Decidable (∀ m ∈ o.members, m.1.isUrn → ∀ n ∈ memberNames (some m.2),
    n.lower ∉ (Object.keys o).map Text.lower))

/-- An attribute given under two core schemas. -/
def twofold : Object :=
  ⟨[(Schema.user, under "a" (.bool true)), (Schema.group, under "a" (.bool false))], false⟩

def twofoldTurned : Object :=
  ⟨[(Schema.group, under "a" (.bool false)), (Schema.user, under "a" (.bool true))], false⟩

theorem not_sameRun_twofold :
    ¬ SameRun (run .default .add none (.obj twofold) empty)
      (run .default .add none (.obj twofoldTurned) empty) := by
  rintro (⟨e, he, -⟩ | ⟨d, d', p, hd, hd', hp, hsame⟩)
  · cases he
  obtain rfl : d = ⟨[("a", .bool false)], false⟩ := by cases hd; rfl
  obtain rfl : d' = ⟨[("a", .bool true)], false⟩ := by cases hd'; rfl
  rcases hp with rfl | ⟨items, items', hlist, -⟩
  · cases hsame
  · cases hlist

/-- An extension, and the list that makes its schema core. -/
def selfListed : Object :=
  ⟨[("schemas", .arr [.str "urn:x:y"]), ("urn:x:y", under "a" (.bool true))], false⟩

def selfListedTurned : Object :=
  ⟨[("urn:x:y", under "a" (.bool true)), ("schemas", .arr [.str "urn:x:y"])], false⟩

theorem not_sameRun_selfListed :
    ¬ SameRun (run .default .add none (.obj selfListed) empty)
      (run .default .add none (.obj selfListedTurned) empty) := by
  rintro (⟨e, he, -⟩ | ⟨d, d', p, hd, hd', hp, hsame⟩)
  · cases he
  obtain rfl : d = ⟨[("schemas", .arr [.str "urn:x:y"]), ("a", .bool true)], false⟩ := by
    cases hd; rfl
  obtain rfl : d' = selfListedTurned := by cases hd'; rfl
  rcases hp with rfl | ⟨items, items', hlist, hperm, rfl⟩
  · cases hsame
  · -- a list of one item has no other order
    obtain rfl : items = [.str "urn:x:y"] := by cases hlist; rfl
    obtain rfl := List.singleton_perm.mp hperm
    cases hsame

/-- Of an attribute that two core schemas give the last value counts, and a list of schemas that is
written first makes an extension write to the top level. -/
theorem run_order_matters :
    ((Json.obj twofold).same (.obj twofoldTurned) ∧ (Json.obj twofold).Unambiguous ∧
      (Json.obj twofoldTurned).Unambiguous ∧ Apart twofold ∧ Apart twofoldTurned ∧
      ¬ SameRun (run .default .add none (.obj twofold) empty)
        (run .default .add none (.obj twofoldTurned) empty)) ∧
    ((Json.obj selfListed).same (.obj selfListedTurned) ∧ (Json.obj selfListed).Unambiguous ∧
      (Json.obj selfListedTurned).Unambiguous ∧ Apart selfListed ∧ Apart selfListedTurned ∧
      ¬ SameRun (run .default .add none (.obj selfListed) empty)
        (run .default .add none (.obj selfListedTurned) empty)) := by
  have hclear : ∀ v : Json, v.everywhere (fun v => ∀ o ∈ v.object?, Object.Distinct o) →
      v.Unambiguous := Json.throughout_of_everywhere
  exact ⟨⟨rfl, hclear _ (by decide), hclear _ (by decide), by decide, by decide,
    not_sameRun_twofold⟩, rfl, hclear _ (by decide), hclear _ (by decide), by decide, by decide,
    not_sameRun_selfListed⟩

end Operation

end Scim
