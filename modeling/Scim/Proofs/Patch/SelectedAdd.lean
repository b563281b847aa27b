import Scim.Proofs.Filter.Coherent
import Scim.Proofs.Patch.Elementwise
import Scim.Proofs.Patch.Independent
import Scim.Proofs.Patch.Listing

/-!
# Additions by a filter

An addition at `attr[k eq c].sub` sets the sub-attribute of the items that the filter selects; where
it selects none, it appends a new item, made of the sub-attribute and of what the filter asks for
(`addItems`). What the filter says of an object depends on the field `k` only (`holds_compare`). So
the addition of another sub-attribute changes nothing in what is selected, the new item is selected,
and a second addition finds everything as it would leave it (`addItems_addItems`).

An assignment to the reserved name stores no member in an object that has none of that name
(`Object.Takes`). Values are refused for it and paths are not, so that an addition can succeed and
lose what it adds: the attribute, the sub-attribute of an item, or in a new item what the filter asks
for. That is a defect (`apply_add_selected_reserved`); `apply_add_selected` says what is left then.
-/

namespace Scim

open Object

namespace Operation

variable {core : List Text} {doc o : Object} {name sub k : Text} {l : Literal} {v w : Json}
  {f : Filter} {items old : List Json} {op : Operation}

/-! ### What the filter sees -/

/-- A condition on an attribute looks at one field. -/
theorem holds_compare (core : List Text) (c : Comparison) (k : Text) (l : Literal) (o : Object) :
    (Filter.compare c (.ofName k) l).holds core (.obj o) =
      c.holds l (Path.entries (o.field? k).toList) := by
  have hroot : Schema.rootOf? core o (Path.ofName k).schemaUrn = some ([], o) := rfl
  have hfollow : Path.follow core (Path.ofName k).elements [.obj o] = (o.field? k).toList := by
    show Path.follow core [⟨k, none⟩] [.obj o] = _
    rw [Path.follow_field]
    exact List.flatMap_singleton' _
  rw [Filter.holds, Path.candidates_obj, hroot, Option.toList_some, List.flatMap_singleton, hfollow]

theorem holds_setField (core : List Text) (c : Comparison) (hne : k.lower ≠ sub.lower) (l : Literal)
    (o : Object) (v : Json) :
    (Filter.compare c (.ofName k) l).holds core (.obj (o.setField sub v)) =
      (Filter.compare c (.ofName k) l).holds core (.obj o) := by
  have hchange : Changes [sub] o (o.setField sub v) := .setField (by simp)
  rw [holds_compare, holds_compare, hchange.field? (by simpa using hne)]

/-- An object with the constant in the field is selected. -/
theorem holds_literal (core : List Text) (hl : l ≠ .null) (h : o.field? k = some (literalJson l)) :
    (Filter.compare .eq (.ofName k) l).holds core (.obj o) = true := by
  rw [holds_compare, h]
  cases l with
  | null => exact absurd rfl hl
  | bool b => simp [Path.entries, literalJson, Json.flatten, Json.isNull, Comparison.holds,
      Comparison.holdsFor, Literal.equals?]
  | num x => simp [Path.entries, literalJson, Json.flatten, Json.isNull, Comparison.holds,
      Comparison.holdsFor, Literal.equals?]
  | str t => simp [Path.entries, literalJson, Json.flatten, Json.isNull, Comparison.holds,
      Comparison.holdsFor, Literal.equals?, Text.equal_self]

/-! ### A new item -/

/-- The members of a new item. -/
def newMembers (sub : Text) (v : Json) (k : Text) (l : Literal) : List (Text × Json) :=
  if sub.lower = k.lower ∨ k = reservedName then [(sub, v)] else [(sub, v), (k, literalJson l)]

theorem insert_empty (sub : Text) (v : Json) : empty.insert sub v = ⟨[(sub, v)], false⟩ := by
  show empty.add sub v = _
  unfold add Members.add
  split <;> rfl

theorem members_newElement (sub : Text) (v : Json) (k : Text) (l : Literal) :
    (newElement sub v k (literalJson l)).members.Perm (newMembers sub v k l) := by
  have hfield : hasField ⟨[(sub, v)], false⟩ k = true ↔ sub.lower = k.lower := by
    rw [hasField, Option.isSome_iff_ne_none, Ne, findKey?_eq_none_iff]
    simp [keys]
  unfold newElement newMembers
  rw [insert_empty]
  dsimp only
  by_cases hname : sub.lower = k.lower
  · rw [if_pos (hfield.mpr hname), if_pos (.inl hname)]
  rw [if_neg (mt hfield.mp hname)]
  have hkey : hasKey ⟨[(sub, v)], false⟩ k = false := by
    rw [Bool.eq_false_iff, Ne, hasKey_iff_mem_keys]
    simp only [keys, List.map_cons, List.map_nil, List.mem_singleton]
    rintro rfl
    exact hname rfl
  unfold assign
  rw [hkey, if_neg (by simp)]
  by_cases hres : k = reservedName
  · rw [if_pos (by simp [hres]), if_pos (.inr hres)]
  · rw [if_neg (by simp [hres]), if_neg (not_or.mpr ⟨hname, hres⟩)]
    exact (members_add ..).trans (.swap ..)

theorem nodup_newElement : (newElement sub v k (literalJson l)).keys.Nodup := by
  refine ((members_newElement sub v k l).map Prod.fst).nodup_iff.mpr ?_
  unfold newMembers
  split_ifs with h
  · exact List.nodup_singleton sub
  · obtain ⟨hname, -⟩ := not_or.mp h
    have hne : sub ≠ k := fun heq => hname (heq ▸ rfl)
    simpa using hne

theorem field?_newElement {m : Text × Json} (hm : m ∈ newMembers sub v k l) :
    (newElement sub v k (literalJson l)).field? m.1 = some m.2 := by
  have hmem := (members_newElement sub v k l).mem_iff.mpr hm
  have hget := get?_of_mem nodup_newElement hmem
  exact field?_of_get? (findKey?_self (List.mem_map_of_mem hmem)) hget

/-! ### The items -/

/-- The selected items with the sub-attribute set, and the others; or all of them and a new one. -/
def addItems (core : List Text) (f : Filter) (sub : Text) (v : Json) (new : Object)
    (items : List Json) : List Json :=
  if items.any (f.holds core) then
    items.map fun w => if f.holds core w then w.onObject (·.setField sub v) else w
  else items ++ [.obj new]

theorem setInSelection_eq (core : List Text) (f : Filter) (sub : Text) (v : Json)
    (items : List Json) : setInSelection core f sub v items =
      items.map fun w => if f.holds core w then w.onObject (·.setField sub v) else w := by
  refine List.map_congr_left fun w _ => ?_
  cases w with
  | obj o => rfl
  | _ => exact (ite_self _).symm

/-- Done again, the addition finds the new item, and changes nothing. -/
theorem addItems_addItems (core : List Text) (hne : k.lower ≠ sub.lower) (hsub : sub ≠ reservedName)
    {new : Object} (hnew : new.keys.Nodup) (hv : new.field? sub = some v)
    (hholds : (Filter.compare .eq (.ofName k) l).holds core (.obj new) = true)
    (items : List Json) :
    (∃ w ∈ addItems core (.compare .eq (.ofName k) l) sub v new items,
      (Filter.compare .eq (.ofName k) l).holds core w = true) ∧
    addItems core (.compare .eq (.ofName k) l) sub v new
        (addItems core (.compare .eq (.ofName k) l) sub v new items) =
      addItems core (.compare .eq (.ofName k) l) sub v new items := by
  generalize hf : Filter.compare .eq (.ofName k) l = f at hholds ⊢
  have hset : ∀ w : Json, f.holds core (w.onObject (·.setField sub v)) = f.holds core w := by
    intro w
    cases w with
    | obj o => rw [← hf]; exact holds_setField core .eq hne l o v
    | _ => rfl
  unfold addItems
  by_cases hany : items.any (f.holds core)
  · have hsame : ∀ w : Json,
        f.holds core (if f.holds core w then w.onObject (·.setField sub v) else w) =
          f.holds core w := by
      intro w
      split_ifs
      · exact hset w
      · rfl
    rw [if_pos hany]
    obtain ⟨w, hw, hhold⟩ := List.any_eq_true.mp hany
    have hfound : ∃ u ∈ items.map fun w =>
        if f.holds core w then w.onObject (·.setField sub v) else w, f.holds core u = true :=
      ⟨_, List.mem_map_of_mem hw, (hsame w).trans hhold⟩
    refine ⟨hfound, ?_⟩
    rw [if_pos (List.any_eq_true.mpr hfound), List.map_map]
    refine List.map_congr_left fun w _ => ?_
    rw [Function.comp_apply, hsame]
    split_ifs
    · cases w with
      | obj o => exact congrArg Json.obj (setField_setField hsub v v)
      | _ => rfl
    · rfl
  · rw [if_neg hany]
    have hfound : ∃ u ∈ items ++ [.obj new], f.holds core u = true := ⟨.obj new, by simp, hholds⟩
    refine ⟨hfound, ?_⟩
    rw [if_pos (List.any_eq_true.mpr hfound), List.map_append, List.map_singleton, if_pos hholds]
    have hnone : ∀ w ∈ items, ¬ f.holds core w = true := by simpa using hany
    refine congrArg₂ (· ++ ·) ?_ ?_
    · refine (List.map_congr_left fun w hw => if_neg (hnone w hw)).trans (List.map_id _)
    · exact congrArg (fun o : Object => [Json.obj o]) (setField_self hnew hv)

/-! ### The operation -/

/-- The path to a sub-attribute of the values whose attribute `k` equals a constant. -/
def selectedSub (name k : Text) (l : Literal) (sub : Text) : Path :=
  ⟨none, [⟨name, some (.compare .eq (.ofName k) l)⟩, ⟨sub, none⟩]⟩

theorem selected_of_make (h : make .add (some (selectedSub name k l sub)) (some v) = .ok op) :
    op = ⟨.add, some (selectedSub name k l sub), some v⟩ ∧ l ≠ .null ∧ given? (some v) = some v ∧
      ∀ items, v ≠ .arr items := by
  obtain ⟨w, hw, hgiven⟩ := given_of_make (by decide) h
  obtain rfl := Option.some.inj hw
  obtain ⟨rfl, hcheck⟩ := eq_of_make (List.cons_ne_nil _ _) h
  have hselection := (check_eq_ok_iff.mp hcheck).2.2.2 _ rfl
  obtain ⟨-, hassignment, harr⟩ := (checkSelection_eq_ok_iff.mp hselection _ _ rfl).2 rfl
  refine ⟨rfl, ?_, hgiven, fun items hitems => harr items (congrArg some hitems)⟩
  simpa [isAssignment, Path.ofName] using hassignment

theorem apply_add_selector (options : PatchOptions) (name k sub : Text) (l : Literal)
    (hgiven : given? (some v) = some v) (harr : ∀ items, v ≠ .arr items) (doc : Object) :
    apply options ⟨.add, some (selectedSub name k l sub), some v⟩ doc =
      match (doc.field? name).getD .null with
      | .arr items => .done (doc.setField name (.arr (addItems options.coreUrns
          (.compare .eq (.ofName k) l) sub v (newElement sub v k (literalJson l)) items)))
      | .null => .done (doc.setField name (.arr (addItems options.coreUrns
          (.compare .eq (.ofName k) l) sub v (newElement sub v k (literalJson l)) [])))
      | _ => .failed (.selectorOnSingleValue name) doc := by
  have hadd : ∀ items : Option (List Json), addToSelection options.coreUrns
      (some (selectedSub name k l sub)) [] name (.compare .eq (.ofName k) l) items [sub] v doc =
      .done (doc.setField name (.arr (addItems options.coreUrns (.compare .eq (.ofName k) l) sub v
        (newElement sub v k (literalJson l)) (items.getD [])))) := by
    intro items
    unfold addToSelection addItems
    dsimp only
    rw [setInSelection_eq]
    split_ifs <;> rfl
  refine (apply_eq_applyChange options rfl doc).trans ?_
  unfold applyChange applyAdd target
  dsimp only
  rw [hgiven]
  unfold selectedSub at hadd ⊢
  rw [target_selector _ _ _ (by simp)]
  unfold Path.targetSelection
  rw [show doc.objectAt [] = doc from rfl]
  cases v with
  | arr items => exact absurd rfl (harr items)
  | _ =>
    cases (doc.field? name).getD .null with
    | arr items => exact hadd (some items)
    | null => exact hadd none
    | _ => rfl

/-- An addition that succeeds has found a list, or no value at all. -/
theorem lists_of_apply_add_selector {options : PatchOptions} {after : Object}
    (hgiven : given? (some v) = some v) (harr : ∀ items, v ≠ .arr items)
    (h : apply options ⟨.add, some (selectedSub name k l sub), some v⟩ doc = .done after) :
    ∃ items, Lists doc name items ∧
      after = doc.setField name (.arr (addItems options.coreUrns (.compare .eq (.ofName k) l) sub v
        (newElement sub v k (literalJson l)) (items.getD []))) := by
  rw [apply_add_selector options name k sub l hgiven harr] at h
  unfold Lists
  cases hfield : doc.field? name with
  | none =>
    rw [hfield] at h
    exact ⟨none, .inl ⟨rfl, rfl⟩, (Outcome.mk.inj h).2.symm⟩
  | some w =>
    rw [hfield] at h
    cases w with
    | arr items => exact ⟨some items, .inr ⟨items, rfl, rfl⟩, (Outcome.mk.inj h).2.symm⟩
    | null => exact ⟨none, .inl ⟨rfl, rfl⟩, (Outcome.mk.inj h).2.symm⟩
    | _ => cases h

/-- What becomes of an item: in a selected object the value is set and nothing else changes, or no
member at all if the name cannot be given to one; everything else stays. -/
inductive SetIn (sub : Text) (v : Json) : Bool → Json → Json → Prop
  | object {o o' : Object} (hfield : o.Takes sub → o'.field? sub = some v)
    (hlost : ¬ o.Takes sub → o'.members = o.members) (hchange : Changes [sub] o o') :
    SetIn sub v true (.obj o) (.obj o')
  | other {w : Json} (hw : w.object? = none) : SetIn sub v true w w
  | rest {w : Json} : SetIn sub v false w w

theorem setIn_onObject (sub : Text) (v : Json) (selected : Bool) (w : Json) :
    SetIn sub v selected w (if selected then w.onObject (·.setField sub v) else w) := by
  cases selected with
  | false => exact .rest
  | true =>
    cases w with
    | obj o =>
      refine .object (fun htakes => field?_setField_of_takes htakes v) (fun hnot => ?_)
        (.setField (by simp))
      show (setField o sub v).members = o.members
      rw [setField_eq_of_not_takes hnot]
    | _ => exact .other rfl

/-- An addition at `attr[k eq c].sub` that succeeds leaves the attribute with the value set in all
selected items, or with a new item at its end if there are none. If `sub` is not `k`, some item is
selected then, and the same addition changes nothing any more. What cannot be stored under the
reserved name is lost: the whole addition, the value in an item, or what the filter asks for. -/
theorem apply_add_selected (options : PatchOptions) (doc : Object)
    (hdoc : (Json.obj doc).Unambiguous) (name k sub : Text) (l : Literal) (v : Json)
    {op : Operation} {after : Object}
    (hmake : make .add (some ⟨none, [⟨name, some (.compare .eq (.ofName k) l)⟩, ⟨sub, none⟩]⟩)
      (some v) = .ok op)
    (happly : op.apply options doc = .done after) :
    ∃ items old new, Lists doc name items ∧ items.getD [] = old ∧
      (doc.Takes name → after.field? name = some (.arr new)) ∧ (¬ doc.Takes name → after = doc) ∧
      Changes [name] doc after ∧
      (Path.matchingIndexes options.coreUrns (.compare .eq (.ofName k) l) old ≠ [] →
        List.Forall₂ (fun w w' => SetIn sub v
          ((Filter.compare .eq (.ofName k) l).holds options.coreUrns w) w w') old new) ∧
      (Path.matchingIndexes options.coreUrns (.compare .eq (.ofName k) l) old = [] →
        ∃ e : Object, new = old ++ [.obj e] ∧ e.field? sub = some v ∧
          e.members.Perm (newMembers sub v k l)) ∧
      (sub.lower ≠ k.lower → sub ≠ reservedName → k ≠ reservedName →
        (∃ w ∈ new, (Filter.compare .eq (.ofName k) l).holds options.coreUrns w = true) ∧
        op.apply options after = .done after) := by
  obtain ⟨rfl, hl, hgiven, harr⟩ := selected_of_make hmake
  have hrun := apply_add_selector options name k sub l hgiven harr
  have hsub : (sub, v) ∈ newMembers sub v k l := by
    unfold newMembers
    split_ifs <;> simp
  obtain ⟨items, hlists, rfl⟩ := lists_of_apply_add_selector hgiven harr happly
  generalize hnew : addItems options.coreUrns (.compare .eq (.ofName k) l) sub v
    (newElement sub v k (literalJson l)) (items.getD []) = new at happly ⊢
  have hafter : doc.Takes name → (doc.setField name (.arr new)).field? name = some (.arr new) :=
    fun htakes => field?_setField_of_takes htakes _
  have hlost : ¬ doc.Takes name → doc.setField name (.arr new) = doc :=
    fun hnot => setField_of_not_takes hnot rfl
  have hchange : Changes [name] doc (doc.setField name (.arr new)) := .setField (by simp)
  refine ⟨items, _, new, hlists, rfl, hafter, hlost, hchange, fun hsome => ?_, fun hnone => ?_, ?_⟩
  · have hany : (items.getD []).any
        ((Filter.compare .eq (.ofName k) l).holds options.coreUrns) = true := by
      by_contra hnot
      exact hsome (matchingIndexes_eq_nil_iff.mpr (by simpa using hnot))
    rw [← hnew, addItems, if_pos hany]
    refine List.forall₂_map_right_iff.mpr (List.forall₂_same.mpr fun w _ => ?_)
    exact setIn_onObject sub v _ w
  · have hany : ¬ (items.getD []).any
        ((Filter.compare .eq (.ofName k) l).holds options.coreUrns) = true := by
      simpa using matchingIndexes_eq_nil_iff.mp hnone
    rw [← hnew, addItems, if_neg hany]
    exact ⟨_, rfl, field?_newElement hsub, members_newElement sub v k l⟩
  · intro hne hsubname hk
    have hliteral : (k, literalJson l) ∈ newMembers sub v k l := by
      unfold newMembers
      rw [if_neg (not_or.mpr ⟨hne, hk⟩)]
      simp
    obtain ⟨hfound, hagain⟩ := addItems_addItems options.coreUrns (Ne.symm hne) hsubname
      nodup_newElement (field?_newElement hsub)
      (holds_literal options.coreUrns hl (field?_newElement hliteral)) (items.getD [])
    rw [hnew] at hfound hagain
    refine ⟨hfound, ?_⟩
    by_cases htakes : doc.Takes name
    · have h := hrun (doc.setField name (.arr new))
      rw [hafter htakes] at h
      refine h.trans (congrArg Outcome.done ?_)
      rw [hagain]
      exact setField_self (.of_map _ (hchange.distinct hdoc.distinct)) (hafter htakes)
    · -- the addition has left the document alone, and does so again
      rw [hlost htakes] at happly ⊢
      exact happly

/-- Two addresses, neither of them at home. -/
def addresses : Object :=
  ⟨[("Emails", .arr [.ofMembers [("type", .str "work"), ("value", .str "a")], .str "home"])], false⟩

/-- The first addition brings a new address; the second finds it and changes nothing. -/
theorem apply_add_selected_addresses :
    (Json.obj addresses).Unambiguous ∧
    make .add (some ⟨none, [⟨"emails", some (.compare .eq (.ofName "Type") (.str "HOME"))⟩,
      ⟨"value", none⟩]⟩) (some (.str "b")) =
        .ok ⟨.add, some (selectedSub "emails" "Type" (.str "HOME") "value"), some (.str "b")⟩ ∧
    apply .default
        ⟨.add, some (selectedSub "emails" "Type" (.str "HOME") "value"), some (.str "b")⟩ addresses =
      .done ⟨[("Emails", .arr [.ofMembers [("type", .str "work"), ("value", .str "a")],
        .str "home", .ofMembers [("value", .str "b"), ("Type", .str "HOME")]])], false⟩ ∧
    apply .default
        ⟨.add, some (selectedSub "emails" "Type" (.str "HOME") "value"), some (.str "b")⟩
        ⟨[("Emails", .arr [.ofMembers [("type", .str "work"), ("value", .str "a")],
          .str "home", .ofMembers [("value", .str "b"), ("Type", .str "HOME")]])], false⟩ =
      .done ⟨[("Emails", .arr [.ofMembers [("type", .str "work"), ("value", .str "a")],
        .str "home", .ofMembers [("value", .str "b"), ("Type", .str "HOME")]])], false⟩ := by
  have haddresses : (Json.obj addresses).Unambiguous := Json.throughout_of_everywhere _ (by decide)
  have hmake : make .add (some ⟨none, [⟨"emails", some (.compare .eq (.ofName "Type")
      (.str "HOME"))⟩, ⟨"value", none⟩]⟩) (some (.str "b")) =
        .ok ⟨.add, some (selectedSub "emails" "Type" (.str "HOME") "value"), some (.str "b")⟩ := rfl
  have happly : apply .default
        ⟨.add, some (selectedSub "emails" "Type" (.str "HOME") "value"), some (.str "b")⟩ addresses =
      .done ⟨[("Emails", .arr [.ofMembers [("type", .str "work"), ("value", .str "a")],
        .str "home", .ofMembers [("value", .str "b"), ("Type", .str "HOME")]])], false⟩ := rfl
  obtain ⟨_, _, _, -, -, -, -, -, -, -, hagain⟩ := apply_add_selected .default addresses haddresses
    "emails" "Type" "value" (.str "HOME") (.str "b") hmake happly
  exact ⟨haddresses, hmake, happly, (hagain (by decide) (by decide) (by decide)).2⟩

/-- Additions that succeed and lose what they add, since no path is refused for the reserved name:
under it neither the attribute is stored, nor a sub-attribute of an item, nor in a new item what the
filter asks for. -/
theorem apply_add_selected_reserved :
    ((Json.obj empty).Unambiguous ∧
      make .add (some (selectedSub reservedName "k" (.str "c") "sub")) (some (.str "v")) =
        .ok ⟨.add, some (selectedSub reservedName "k" (.str "c") "sub"), some (.str "v")⟩ ∧
      (apply .default ⟨.add, some (selectedSub reservedName "k" (.str "c") "sub"), some (.str "v")⟩
        empty).result = .ok () ∧
      (apply .default ⟨.add, some (selectedSub reservedName "k" (.str "c") "sub"), some (.str "v")⟩
        empty).resource.field? reservedName = none) ∧
    (make .add (some (selectedSub "a" "k" (.str "c") reservedName)) (some (.str "v")) =
        .ok ⟨.add, some (selectedSub "a" "k" (.str "c") reservedName), some (.str "v")⟩ ∧
      apply .default ⟨.add, some (selectedSub "a" "k" (.str "c") reservedName), some (.str "v")⟩
          ⟨[("a", .arr [.ofMembers [("k", .str "c")]])], false⟩ =
        .done ⟨[("a", .arr [.ofMembers [("k", .str "c")]])], false⟩) ∧
    make .add (some (selectedSub "a" reservedName (.str "c") "s")) (some (.str "v")) =
        .ok ⟨.add, some (selectedSub "a" reservedName (.str "c") "s"), some (.str "v")⟩ ∧
      apply .default ⟨.add, some (selectedSub "a" reservedName (.str "c") "s"), some (.str "v")⟩
          empty =
        .done ⟨[("a", .arr [.ofMembers [("s", .str "v")]])], false⟩ :=
  ⟨⟨Json.throughout_of_everywhere _ (by decide), rfl, rfl, rfl⟩, ⟨rfl, rfl⟩, rfl, rfl⟩

end Operation

end Scim
