import Scim.Proofs.Patch.Members
import Scim.Proofs.Patch.Wire
import Scim.Proofs.Path.Created

/-!
# What accepted operations are refused for

An operation that was accepted can still be refused when it is applied, since whether it fits shows
in the resource only. `Refuses` lists what for, and what the operation has to look like for it
(`refuses_of_apply`). The causes that are left out are those of operations that are not accepted
(`Error.IsDefensive`): what was checked when the operation was made needs no second check. Nothing
about the resource is supposed, so that this is so at every place of a run (`refuses_of_applyAll`).
-/

namespace Scim

/-- The causes of failure that concern operations as such: a value, a path or an element of one is
missing, or a selector stands where it has no meaning. -/
def Error.IsDefensive : Error → Prop
  | .valueMissing _ | .addSelection _ | .removeWithoutPath | .lateSelector _ => True
  | _ => False

namespace Path

variable {core container c : List Text} {elements : List PathElement} {p path : Path}
  {create : Bool} {doc doc' : Object} {e : Error}

/-! ### Paths that do not fit a resource -/

/-- Why a path without late selectors may address no place to write. -/
inductive Unfit (p : Path) : Error → Prop
  | extension {u : Text} (hurn : p.schemaUrn = some u) : Unfit p (.extensionNotObject u)
  | selector {first : PathElement} (hfirst : first ∈ p.elements.head?)
    (hsel : first.selector.isSome) : Unfit p (.selectorOnSingleValue first.name)
  | way {x : PathElement} (hx : x ∈ p.elements.dropLast)
    (hfirst : ∀ first ∈ p.elements.head?, first.selector = none) : Unfit p (.notComplex p x.name)

theorem exists_of_targetContainer_error
    (h : targetContainer path create elements container doc = (.error e, doc')) :
    ∃ x ∈ elements.dropLast, e = .notComplex path x.name := by
  induction elements generalizing container doc with
  | nil => cases h
  | cons x rest ih =>
    cases rest with
    | nil => cases h
    | cons x' rest =>
      rw [targetContainer_cons] at h
      have hlater {container : List Text} {doc : Object}
          (h : targetContainer path create (x' :: rest) container doc = (.error e, doc')) :
          ∃ y ∈ (x :: x' :: rest).dropLast, e = .notComplex path y.name := by
        obtain ⟨y, hy, he⟩ := ih h
        exact ⟨y, List.mem_cons_of_mem _ hy, he⟩
      split at h
      · exact hlater h
      · split_ifs at h
        · exact hlater h
        · cases h
      · cases h
        exact ⟨x, List.mem_cons_self .., rfl⟩

theorem unfit_of_targetFrom (hlate : ∀ e ∈ p.elements.tail, e.selector = none)
    (h : p.targetFrom create container doc = (.error e, doc')) : p.Unfit e := by
  unfold targetFrom at h
  cases hes : p.elements with
  | nil => rw [hes] at h; cases h
  | cons first rest =>
    rw [hes] at h hlate
    have hrest : ¬ (rest.any fun e => e.selector.isSome) := by simpa using hlate
    dsimp only at h
    rw [if_neg hrest] at h
    cases hsel : first.selector with
    | some filter =>
      rw [hsel] at h
      dsimp only at h
      unfold targetSelection at h
      split at h
      · cases h
      · cases h
      · cases h
        exact .selector (by rw [hes]; rfl) (by rw [hsel]; rfl)
    | none =>
      rw [hsel] at h
      dsimp only at h
      cases hwalk : targetContainer p create (first :: rest) container doc with
      | mk r d =>
        rw [hwalk] at h
        rcases r with e' | _ | c
        · cases h
          obtain ⟨x, hx, rfl⟩ := exists_of_targetContainer_error hwalk
          refine .way (by rwa [hes]) ?_
          rw [hes]
          rintro _ ⟨⟩
          exact hsel
        · cases h
        · cases h

theorem unfit_of_target (hlate : ∀ e ∈ p.elements.tail, e.selector = none)
    (h : p.target core doc create = (.error e, doc')) : p.Unfit e := by
  rcases root_cases core p doc with ⟨c, root, hroot⟩ | ⟨u, hnew⟩ | ⟨-, u, hurn, he⟩
  · rw [target_of_rootOf? hroot] at h
    exact unfit_of_targetFrom hlate h
  · cases create with
    | false => rw [hnew.target.1] at h; cases h
    | true =>
      rw [hnew.target.2] at h
      exact unfit_of_targetFrom hlate h
  · rw [he create] at h
    cases h
    exact .extension hurn

/-- A selection comes from the selector of the first element. -/
theorem selection_of_targetFrom {name : Text} {filter : Filter} {items : Option (List Json)}
    {subs : List Text} (h : p.targetFrom create container doc =
      (.ok (some (.selection c name filter items subs)), doc')) :
    ∃ rest, p.elements = ⟨name, some filter⟩ :: rest ∧ subs = rest.map (·.name) := by
  unfold targetFrom at h
  cases hes : p.elements with
  | nil => rw [hes] at h; cases h
  | cons first rest =>
    obtain ⟨n, selector⟩ := first
    rw [hes] at h
    dsimp only at h
    split_ifs at h
    · cases h
    cases selector with
    | some f =>
      dsimp only at h
      unfold targetSelection at h
      split at h <;> cases h <;> exact ⟨rest, rfl, rfl⟩
    | none =>
      dsimp only at h
      split at h <;> cases h

theorem selection_of_target {name : Text} {filter : Filter} {items : Option (List Json)}
    {subs : List Text} (h : p.target core doc create =
      (.ok (some (.selection c name filter items subs)), doc')) :
    ∃ rest, p.elements = ⟨name, some filter⟩ :: rest ∧ subs = rest.map (·.name) := by
  rcases target_cases core p doc create with
    ⟨c', root, -, heq⟩ | ⟨r, heq, hr⟩ | ⟨u, -, -, -, heq⟩ <;> rw [heq] at h
  · exact selection_of_targetFrom h
  · cases h
    exact absurd rfl (hr _)
  · exact selection_of_targetFrom h

end Path

namespace Operation

variable {options : PatchOptions} {core : List Text} {op : Operation} {doc doc' : Object}

/-! ### Operations that do not fit a resource -/

/-- What an accepted operation may be refused for when it is applied. -/
inductive Refuses (options : PatchOptions) (op : Operation) : Error → Prop
  /-- The value for a whole object is none. -/
  | value {v : Json} (hchange : op.change ≠ .remove) (hpath : ∀ p ∈ op.path, p.elements = [])
    (hvalue : op.value = some v) (hv : v.object? = none) :
    Refuses options op (.objectRequired op.change)
  /-- Under the URN of the path is something else than an object. -/
  | extension {p : Path} {u : Text} (hpath : op.path = some p) (hurn : p.schemaUrn = some u) :
    Refuses options op (.extensionNotObject u)
  /-- Values are selected, by a filter or one by one, of an attribute that has a single one. -/
  | selector {p : Path} {first : PathElement} (hpath : op.path = some p)
    (hfirst : first ∈ p.elements.head?) (hsel : first.selector.isSome ∨ op.removesByValue) :
    Refuses options op (.selectorOnSingleValue first.name)
  /-- The path leads on from an attribute that is not complex. -/
  | way {p : Path} {x : PathElement} (hchange : op.change ≠ .remove) (hpath : op.path = some p)
    (hx : x ∈ p.elements.dropLast) (hfirst : ∀ first ∈ p.elements.head?, first.selector = none) :
    Refuses options op (.notComplex p x.name)
  | coreSchema {u : Text} (hchange : op.change = .remove) (hpath : op.path = some ⟨some u, []⟩) :
    Refuses options op (.coreSchemaRemoval u)
  | disabled (hvalue : op.removesByValue) (hoption : options.removeByValue = false) :
    Refuses options op (.removeByValueDisabled op.path)
  /-- The value is no list of members that all have an identifier. -/
  | members {e : Error} (hvalue : op.removesByValue) (hlist : op.members.bind memberIds = .error e)
    (he : e ∈ [.memberListMissing, .invalidMember, .memberWithoutValue]) : Refuses options op e

variable {e : Error}

theorem Refuses.not_isDefensive (h : op.Refuses options e) : ¬ e.IsDefensive := by
  cases h with
  | members _ _ he =>
    simp only [List.mem_cons, List.not_mem_nil, or_false] at he
    rcases he with rfl | rfl | rfl <;> exact id
  | _ => exact id

theorem refuses_of_unfit {p : Path} (hchange : op.change ≠ .remove) (hpath : op.path = some p)
    (h : p.Unfit e) : op.Refuses options e := by
  cases h with
  | extension hurn => exact .extension hpath hurn
  | selector hfirst hsel => exact .selector hpath hfirst (.inl hsel)
  | way hx hfirst => exact .way hchange hpath hx hfirst

/-! ### Adding and replacing -/

theorem refuses_of_target {create : Bool} (hmake : make op.change op.path op.value = .ok op)
    (hchange : op.change ≠ .remove) (h : op.target core doc create = (.error e, doc')) :
    op.Refuses options e := by
  unfold target at h
  split at h
  · rename_i p hp
    exact refuses_of_unfit hchange hp (Path.unfit_of_target (selector_of_make hmake p hp) h)
  · cases h

theorem refuses_of_writeRoot {create : Bool} {write : Write} {container : List Text} {v : Json}
    (hchange : op.change ≠ .remove) (hvalue : op.value = some v)
    (htarget : op.target core doc create = (.ok (some (.root container)), doc'))
    (h : (writeRoot core op.change write container v doc').result = .error e) :
    op.Refuses options e := by
  have hpath := ((op.target_changes core doc create).2 _ (congrArg Prod.fst htarget)).2 rfl
  unfold writeRoot at h
  split at h
  · cases h
  · rename_i hv
    cases h
    refine .value hchange hpath hvalue ?_
    cases v with
    | obj o => exact absurd rfl (hv o)
    | _ => rfl

/-- Where values are selected, an accepted addition has what a new one is made of. -/
theorem addToSelection_ok {create : Bool} {container subs : List Text} {name : Text}
    {filter : Filter} {items : Option (List Json)} {path : Option Path} {v : Json}
    (hmake : make .add op.path op.value = .ok op)
    (htarget : op.target core doc create =
      (.ok (some (.selection container name filter items subs)), doc')) :
    (addToSelection core path container name filter items subs v doc').result = .ok () := by
  unfold target at htarget
  split at htarget
  · rename_i p hp
    obtain ⟨rest, hes, rfl⟩ := Path.selection_of_target htarget
    obtain ⟨k, l, sub, rfl, rfl⟩ := assignment_of_make hmake hp hes
    unfold addToSelection
    dsimp only [List.map_cons]
    split_ifs <;> rfl
  · cases htarget

theorem refuses_of_applyAdd (hmake : make op.change op.path op.value = .ok op)
    (hchange : op.change = .add) (h : (op.applyAdd core doc).result = .error e) :
    op.Refuses options e := by
  have hne : op.change ≠ .remove := by simp [hchange]
  obtain ⟨v, hvalue, hgiven⟩ := given_of_make hne hmake
  unfold applyAdd at h
  rw [hgiven] at h
  split at h
  · contradiction
  · cases h
  rename_i heq
  obtain rfl := Option.some.inj heq
  split at h
  · rename_i htarget
    cases h
    exact refuses_of_target hmake hne htarget
  · cases h
  · rename_i htarget
    exact refuses_of_writeRoot hne hvalue htarget h
  · cases h
  · rename_i htarget
    rw [addToSelection_ok (hchange ▸ hmake) htarget] at h
    cases h

theorem refuses_of_applyReplace (hmake : make op.change op.path op.value = .ok op)
    (hchange : op.change = .replace) (h : (op.applyReplace core doc).result = .error e) :
    op.Refuses options e := by
  have hne : op.change ≠ .remove := by simp [hchange]
  obtain ⟨v, hvalue, hgiven⟩ := given_of_make hne hmake
  unfold applyReplace at h
  rw [hgiven] at h
  dsimp only at h
  split at h
  · rename_i htarget
    cases h
    exact refuses_of_target hmake hne htarget
  · cases h
  · rename_i htarget
    exact refuses_of_writeRoot hne hvalue htarget h
  · cases h
  · cases h
  · cases h

/-! ### Removing -/

/-- A removal fails at a path that is a URN, or at one that selects values. -/
theorem removePath_error {p : Path} (hlate : ∀ e ∈ p.elements.tail, e.selector = none)
    (hroot : p.isRoot = false) (h : (removePath core p doc).result = .error e) :
    (∃ u, p = ⟨some u, []⟩ ∧ e = .coreSchemaRemoval u) ∨
    ∃ first ∈ p.elements.head?, first.selector.isSome ∧
      ((∃ u, p.schemaUrn = some u ∧ e = .extensionNotObject u) ∨
        e = .selectorOnSingleValue first.name) := by
  unfold removePath at h
  split at h
  · rename_i hes
    obtain ⟨urn, elements⟩ := p
    obtain rfl : elements = [] := hes
    cases urn with
    | none => cases hroot
    | some u =>
      dsimp only at h
      split_ifs at h <;> cases h
      exact .inl ⟨u, rfl, rfl⟩
  · rename_i first rest hes
    split_ifs at h with hsel
    · split at h <;> cases h
    · split at h
      · rename_i htarget
        cases h
        have hfirst : first ∈ p.elements.head? := by rw [hes]; rfl
        have hsel : first.selector.isSome := by simpa [Option.isSome_iff_ne_none] using hsel
        refine .inr ⟨first, hfirst, hsel, ?_⟩
        cases Path.unfit_of_target hlate htarget with
        | extension hurn => exact .inl ⟨_, hurn, rfl⟩
        | selector hfirst' => exact .inr (by rw [Option.some.inj (hfirst.symm.trans hfirst')])
        | way _ hplain => simp [hplain first hfirst] at hsel
      · cases h
      · cases h

theorem removeMembers_error {urn : Option Text} {name : Text} {ids : List Text}
    (h : (removeMembers core urn name ids doc).result = .error e) :
    (∃ u, urn = some u ∧ e = .extensionNotObject u) ∨ e = .selectorOnSingleValue name := by
  induction ids generalizing doc with
  | nil => cases h
  | cons id rest ih =>
    rw [removeMembers_cons] at h
    unfold Outcome.andThen at h
    split at h
    · exact ih h
    · rcases removePath_error (by simp [memberPath]) (by simp [memberPath, Path.isRoot]) h with
        ⟨u, hp, -⟩ | ⟨first, hfirst, -, he⟩
      · cases hp
      · obtain rfl := Option.some.inj hfirst
        exact he

/-- Why a value lists no members to remove. -/
theorem members_error (hvalue : op.removesByValue) (h : op.members.bind memberIds = .error e) :
    e ∈ [.memberListMissing, .invalidMember, .memberWithoutValue] := by
  obtain ⟨hchange, v, hgiven⟩ : op.change = .remove ∧ ∃ v, given? op.value = some v := by
    simpa [removesByValue, Option.isSome_iff_exists] using hvalue
  unfold members at h
  rw [if_neg (not_not.mpr hchange), hgiven] at h
  dsimp only at h
  split at h
  · cases h
    simp
  split at h
  · rename_i ms _
    unfold memberIds at h
    dsimp only [Except.bind] at h
    split at h <;> cases h
    simp
  · cases h
    simp

theorem refuses_of_applyRemove (hmake : make op.change op.path op.value = .ok op)
    (hchange : op.change = .remove) (h : (op.applyRemove options doc).result = .error e) :
    op.Refuses options e := by
  unfold applyRemove at h
  split at h
  · rename_i hpath
    have hcheck := (check_eq_ok_iff.mp (make_eq_ok_iff.mp hmake).2).2.2.1
    rw [hchange, hpath] at hcheck
    cases hcheck
  · rename_i p hpath
    split_ifs at h with hvalue hoption
    · rcases removePath_error (selector_of_make hmake p hpath) (isRoot_of_make hmake p hpath) h with
        ⟨u, rfl, rfl⟩ | ⟨first, hfirst, hsel, ⟨u, hurn, rfl⟩ | rfl⟩
      · exact .coreSchema hchange hpath
      · exact .extension hpath hurn
      · exact .selector hpath hfirst (.inl hsel)
    · cases h
      exact .disabled (by simpa using hvalue) (by simpa using hoption)
    · have hvalue : op.removesByValue := by simpa using hvalue
      split at h
      · rename_i hlist
        cases h
        exact .members hvalue hlist (members_error hvalue hlist)
      · rename_i hes
        have htakes := takesMembers_of_make hmake hvalue p hpath
        rw [takesMembers, hes] at htakes
        cases htakes
      · rename_i first rest hes
        rcases removeMembers_error h with ⟨u, hurn, rfl⟩ | rfl
        · exact .extension hpath hurn
        · exact .selector hpath (by rw [hes]; rfl) (.inr hvalue)

/-! ### All of it -/

theorem refuses_of_apply (hop : op.Accepted) (h : (op.apply options doc).result = .error e) :
    op.Refuses options e := by
  have hmake := accepted_iff.mp hop
  change (op.applyChange options doc).result = .error e at h
  unfold applyChange at h
  cases hchange : op.change with
  | add =>
    rw [hchange] at h
    exact refuses_of_applyAdd hmake hchange h
  | replace =>
    rw [hchange] at h
    exact refuses_of_applyReplace hmake hchange h
  | remove =>
    rw [hchange] at h
    exact refuses_of_applyRemove hmake hchange h

/-- A run fails at one of its operations, at what those before it have left. -/
theorem exists_of_applyAll_error {ops : List Operation}
    (h : (applyAll options ops doc).result = .error e) :
    ∃ before op after doc', ops = before ++ op :: after ∧
      applyAll options before doc = .done doc' ∧ (op.apply options doc').result = .error e := by
  induction ops generalizing doc with
  | nil => cases h
  | cons op rest ih =>
    rw [applyAll] at h
    cases hresult : (op.apply options doc).result with
    | error e' =>
      have hstop : (op.apply options doc).andThen (applyAll options rest) = op.apply options doc := by
        simp [Outcome.andThen, hresult]
      rw [hstop] at h
      exact ⟨[], op, rest, doc, rfl, rfl, h⟩
    | ok _ =>
      have hdone : op.apply options doc = .done (op.apply options doc).resource :=
        congrArg (Outcome.mk · _) hresult
      rw [hdone, Outcome.andThen_done] at h
      obtain ⟨before, failing, after, doc', rfl, hbefore, hfail⟩ := ih h
      refine ⟨op :: before, failing, after, doc', rfl, ?_, hfail⟩
      rw [applyAll, hdone, Outcome.andThen_done, hbefore]

/-- A run of accepted operations that fails does so for what one of them does not fit in the
resource that those before it have left, and for nothing that shows in the operation as such. -/
theorem refuses_of_applyAll {ops : List Operation} (hops : ∀ op ∈ ops, op.Accepted)
    (h : (applyAll options ops doc).result = .error e) :
    ¬ e.IsDefensive ∧ ∃ before op after doc', ops = before ++ op :: after ∧
      applyAll options before doc = .done doc' ∧ (op.apply options doc').result = .error e ∧
      op.Refuses options e := by
  obtain ⟨before, op, after, doc', rfl, hbefore, hfail⟩ := exists_of_applyAll_error h
  have hrefuses := refuses_of_apply (hops op (by simp)) hfail
  exact ⟨hrefuses.not_isDefensive, before, op, after, doc', rfl, hbefore, hfail, hrefuses⟩

/-- A value of `a` gets a `d` if it has a certain `b`, or becomes one that has both. -/
def addSelected : Operation :=
  ⟨.add, some ⟨none, [⟨"a", some (.compare .eq (.ofName "b") (.str "x"))⟩, ⟨"d", none⟩]⟩,
    some (.bool true)⟩

def replaceText : Operation := ⟨.replace, some (.ofName "a"), some (.str "x")⟩

/-- What fits at first does so no longer when `a` is a text. -/
theorem refuses_of_applyAll_replaceText :
    (∀ op ∈ [addSelected, replaceText, addSelected], op.Accepted) ∧
    (applyAll .default [addSelected, replaceText, addSelected] .empty).result =
      .error (.selectorOnSingleValue "a") ∧
    ¬ (Error.selectorOnSingleValue "a").IsDefensive ∧
    ∃ before op after doc', [addSelected, replaceText, addSelected] = before ++ op :: after ∧
      applyAll .default before .empty = .done doc' ∧
      (op.apply .default doc').result = .error (.selectorOnSingleValue "a") ∧
      op.Refuses .default (.selectorOnSingleValue "a") := by
  have hops : ∀ op ∈ [addSelected, replaceText, addSelected], op.Accepted := by
    have hadd : addSelected.Accepted := accepted_iff.mpr rfl
    have hreplace : replaceText.Accepted := accepted_iff.mpr rfl
    simpa using ⟨hadd, hreplace, hadd⟩
  have hfail : (applyAll .default [addSelected, replaceText, addSelected] .empty).result =
      .error (.selectorOnSingleValue "a") := rfl
  exact ⟨hops, hfail, refuses_of_applyAll hops hfail⟩

end Operation

end Scim
