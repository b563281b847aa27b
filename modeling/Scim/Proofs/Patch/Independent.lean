import Scim.Proofs.Json.SameOn
import Scim.Proofs.Patch.Unambiguous

/-!
# Operations on different attributes

An operation whose path has no URN works on one field of the resource, the one that its path starts
at. It depends on no other: two resources with the same such field have the same done to it, with the
same result (`Object.Runs`). So two operations on different fields end as they would end alone, and it
does not matter which comes first (`Operation.applyAll_comm`).
-/

namespace Scim

open Object

/-! ### Runs on a single field -/

namespace Object

variable {α β : Type} {name : Text} {mk : α → Object → β} {Q Q' : α → Prop} {f g : Object → β}
  {change : Object → Object} {o : Object} {r : α}

/-- All objects with the same field as `o` have the same local work done to them, with the same
result; of the result, `Q` holds. -/
def Runs (name : Text) (mk : α → Object → β) (Q : α → Prop) (f : Object → β) (o : Object) : Prop :=
  ∃ r F, Q r ∧ Local name F ∧ ∀ o', AgreeOn name o o' → f o' = mk r (F o')

namespace Runs

theorem work (hr : Q r) (hchange : Local name change)
    (h : ∀ o', AgreeOn name o o' → f o' = mk r (change o')) : Runs name mk Q f o :=
  ⟨r, change, hr, hchange, h⟩

theorem result (hr : Q r) (h : ∀ o', AgreeOn name o o' → f o' = mk r o') : Runs name mk Q f o :=
  work hr (.refl name) h

theorem congr (hg : Runs name mk Q g o) (h : ∀ o', AgreeOn name o o' → f o' = g o') :
    Runs name mk Q f o := by
  obtain ⟨r, F, hr, hF, hrun⟩ := hg
  exact ⟨r, F, hr, hF, fun o' ho' => (h o' ho').trans (hrun o' ho')⟩

theorem mono (h : Runs name mk Q f o) (hQ : ∀ r, Q r → Q' r) : Runs name mk Q' f o := by
  obtain ⟨r, F, hr, hF, hrun⟩ := h
  exact ⟨r, F, hQ r hr, hF, hrun⟩

/-- A run on what some local work has left. -/
theorem after (hchange : Local name change) (h : Runs name mk Q f (change o)) :
    Runs name mk Q (fun o => f (change o)) o := by
  obtain ⟨r, F, hr, hF, hrun⟩ := h
  exact ⟨r, F ∘ change, hr, hchange.comp hF, fun o' ho' => hrun _ (hchange.agree ho')⟩

end Runs

end Object

variable {name : Text}

/-! ### Finding the place -/

/-- A way into the field of this name. -/
def Object.LeadsInto (name : Text) (container : List Text) : Prop :=
  ∀ key ∈ container.head?, key.lower = name.lower

/-- A place in the field of this name. -/
def Target.Within (name : Text) : Target → Prop
  | root _ => False
  | field container n => LeadsInto name container ∧ (container = [] → n = name)
  | selection container n _ _ _ => container = [] ∧ n = name

namespace Path

variable {container : List Text} {elements : List PathElement}

theorem createObject_local (hhead : LeadsInto name container) {n : Text}
    (hname : container = [] → n = name) : Local name fun o => (o.createObject container n).2 := by
  refine .modifyAt_of_head hhead fun hc => ?_
  rw [hname hc]
  exact .setField name _

/-- What is read at the end of a way into the field is in the field. -/
theorem objectAt_agreeOn (hhead : LeadsInto name container) {n : Text}
    (hname : container = [] → n = name) {o o' : Object} (h : AgreeOn name o o') :
    AgreeOn n (o.objectAt container) (o'.objectAt container) := by
  cases container with
  | nil =>
    obtain rfl := hname rfl
    exact h
  | cons key keys =>
    rw [h.objectAt (hhead key rfl)]
    exact .refl n _

theorem leadsInto_append (hhead : LeadsInto name container) {n : Text}
    (hname : container = [] → n = name) (o : Object) :
    LeadsInto name (container ++ [(o.objectAt container).storedName n]) := by
  cases container with
  | nil =>
    obtain rfl := hname rfl
    rintro _ ⟨⟩
    exact lower_storedName _ _
  | cons key keys => exact hhead

/-- A walk has come to an object in the field of this name, or to the whole object where it had
nowhere to go. -/
def Reaches (name : Text) (elements : List PathElement) (container : List Text)
    (r : Except Error (Option (List Text))) : Prop :=
  ∀ c, r = .ok (some c) → LeadsInto name c ∧ (c = [] → elements.tail = [] ∧ container = [])

theorem targetContainer_runs (path : Path) (create : Bool) (hhead : LeadsInto name container)
    (hname : container = [] → ∀ e ∈ elements.head?, e.name = name) (o : Object) :
    Runs name Prod.mk (Reaches name elements container)
      (targetContainer path create elements container) o := by
  induction elements generalizing container o with
  | nil =>
    refine .result (r := .ok (some container)) ?_ fun o' _ => rfl
    rintro _ ⟨⟩
    exact ⟨hhead, fun h => ⟨rfl, h⟩⟩
  | cons e rest ih =>
    cases rest with
    | nil =>
      refine .result (r := .ok (some container)) ?_ fun o' _ => rfl
      rintro _ ⟨⟩
      exact ⟨hhead, fun h => ⟨rfl, h⟩⟩
    | cons e' rest =>
      have hname : container = [] → e.name = name := fun hc => hname hc e rfl
      let next := container ++ [(o.objectAt container).storedName e.name]
      have hread : ∀ o', AgreeOn name o o' →
          (o'.objectAt container).field? e.name = (o.objectAt container).field? e.name ∧
          container ++ [(o'.objectAt container).storedName e.name] = next := by
        intro o' h
        have hagree := objectAt_agreeOn hhead hname h
        exact ⟨hagree.field?, congrArg (fun n => container ++ [n]) hagree.storedName⟩
      have hnext : LeadsInto name next := leadsInto_append hhead hname o
      have hne : next ≠ [] := by simp [next]
      have hdeeper : ∀ o, Runs name Prod.mk (Reaches name (e :: e' :: rest) container)
          (targetContainer path create (e' :: rest) next) o := fun o =>
        (ih hnext (fun hc => absurd hc hne) o).mono fun r hr c hc =>
          ⟨(hr c hc).1, fun hc' => absurd ((hr c hc).2 hc').2 hne⟩
      cases hv : ((o.objectAt container).field? e.name).getD .null with
      | obj inner =>
        refine (hdeeper o).congr fun o' h => ?_
        obtain ⟨hfield, hnext⟩ := hread o' h
        rw [targetContainer_cons, hfield, hv, ← hnext]
      | null =>
        cases create with
        | true =>
          refine ((hdeeper _).after (createObject_local hhead hname)).congr fun o' h => ?_
          obtain ⟨hfield, hnext⟩ := hread o' h
          rw [targetContainer_cons, hfield, hv, ← hnext]
          rfl
        | false =>
          refine .result (r := .ok none) nofun fun o' h => ?_
          rw [targetContainer_cons, (hread o' h).1, hv]
          rfl
      | _ =>
        refine .result (r := .error (.notComplex path e.name)) nofun fun o' h => ?_
        rw [targetContainer_cons, (hread o' h).1, hv]

theorem targetSelection_runs (filter : Filter) (subs : List Text) (o : Object) :
    Runs name Prod.mk (fun r => ∀ t, r = .ok (some t) → t.Within name)
      (fun doc => ((targetSelection [] name filter subs doc).map some, doc)) o := by
  refine .result (r := (targetSelection [] name filter subs o).map some) (fun t ht => ?_)
    fun o' h => ?_
  · unfold targetSelection at ht
    split at ht <;> cases ht <;> exact ⟨rfl, rfl⟩
  · unfold targetSelection
    rw [objectAt_nil, objectAt_nil, h.field?]

theorem target_runs (core : List Text) (e : PathElement) (rest : List PathElement) (create : Bool)
    (o : Object) : Runs e.name Prod.mk (fun r => ∀ t, r = .ok (some t) → t.Within e.name)
      (fun doc => target core ⟨none, e :: rest⟩ doc create) o := by
  have htarget : ∀ doc, target core ⟨none, e :: rest⟩ doc create =
      targetFrom ⟨none, e :: rest⟩ create [] doc := fun doc => rfl
  simp only [htarget]
  unfold targetFrom
  dsimp only
  split_ifs with hlate
  · exact .result (r := .error (.lateSelector ⟨none, e :: rest⟩)) nofun fun o' _ => rfl
  obtain ⟨name, _ | filter⟩ := e
  · have hstart : ∀ e ∈ (PathElement.mk name none :: rest).head?, e.name = name := by
      rintro _ ⟨⟩
      rfl
    obtain ⟨r, F, hr, hF, hrun⟩ := targetContainer_runs ⟨none, ⟨name, none⟩ :: rest⟩ create
      (nofun : LeadsInto name []) (fun _ => hstart) o
    dsimp only
    rcases r with e | _ | c
    · exact .work (r := .error e) nofun hF fun o' h => by rw [hrun o' h]
    · exact .work (r := .ok none) nofun hF fun o' h => by rw [hrun o' h]
    · refine .work (r := .ok (some (.field c _))) ?_ hF fun o' h => by rw [hrun o' h]
      rintro _ ⟨⟩
      refine ⟨(hr c rfl).1, fun hc => ?_⟩
      obtain rfl : rest = [] := ((hr c rfl).2 hc).1
      rfl
  · exact targetSelection_runs filter _ o

end Path

/-! ### Operations -/

namespace Operation

variable {op : Operation} {e : PathElement} {rest : List PathElement}

/-- The operation runs on the field that its path starts at. -/
def RunsOn (name : Text) (run : Object → Outcome) : Prop :=
  ∀ o, Runs name Outcome.mk (fun _ => True) run o

theorem RunsOn.andThen {run next : Object → Outcome} (h : RunsOn name run) (hnext : RunsOn name next) :
    RunsOn name fun o => (run o).andThen next := by
  intro o
  obtain ⟨r, F, -, hF, hrun⟩ := h o
  cases r with
  | error e => exact .work (r := .error e) trivial hF fun o' h => by rw [hrun o' h]; rfl
  | ok _ => exact ((hnext (F o)).after hF).congr fun o' h => by rw [hrun o' h]; rfl

theorem addToSelection_runs (core : List Text) (path : Option Path) (filter : Filter)
    (items : Option (List Json)) (subs : List Text) (value : Json) :
    RunsOn name (addToSelection core path [] name filter items subs value) := by
  intro o
  have hwrite : ∀ items, Runs name Outcome.mk (fun _ => True)
      (fun doc => .done (doc.modifyAt (·.setField name (.arr items)) [])) o := fun items =>
    .work (r := .ok ()) trivial (.setField name (.arr items)) fun o' _ => rfl
  have hfail : Runs name Outcome.mk (fun _ => True) (Outcome.failed (.addSelection path)) o :=
    .result (r := .error (.addSelection path)) trivial fun o' _ => rfl
  unfold addToSelection
  dsimp only
  split
  · split_ifs
    · exact hwrite _
    · split
      · exact hwrite _
      · exact hfail
  · exact hfail

theorem applyAdd_runs (core : List Text) (hpath : op.path = some ⟨none, e :: rest⟩) :
    RunsOn e.name (op.applyAdd core) := by
  intro o
  obtain ⟨r, F, hr, hF, hrun⟩ := Path.target_runs core e rest true o
  have htarget : ∀ o', AgreeOn e.name o o' → op.target core o' true = (r, F o') := by
    intro o' h
    rw [target, hpath]
    exact hrun o' h
  unfold applyAdd
  split
  · exact .result (r := .error (.valueMissing op.change)) trivial fun o' _ => rfl
  · exact .result (r := .ok ()) trivial fun o' _ => rfl
  rename_i value _ _
  rcases r with e | _ | t
  · exact .work (r := .error e) trivial hF fun o' h => by rw [htarget o' h]; rfl
  · exact .work (r := .ok ()) trivial hF fun o' h => by rw [htarget o' h]; rfl
  have ht := hr t rfl
  cases t with
  | root container => cases ht
  | field container n =>
    have hmerge : Local e.name (·.modifyAt (·.merge n value) container) :=
      .modifyAt_of_head ht.1 fun hc => ht.2 hc ▸ .merge n value
    exact .work (r := .ok ()) trivial (hF.comp hmerge) fun o' h => by rw [htarget o' h]; rfl
  | selection container n filter items subs =>
    obtain ⟨rfl, rfl⟩ := ht
    refine ((addToSelection_runs core op.path filter items subs value (F o)).after hF).congr ?_
    intro o' h
    rw [htarget o' h]

theorem applyReplace_runs (core : List Text) (hpath : op.path = some ⟨none, e :: rest⟩) :
    RunsOn e.name (op.applyReplace core) := by
  intro o
  unfold applyReplace
  split
  · exact .result (r := .error (.valueMissing op.change)) trivial fun o' _ => rfl
  rename_i value _
  obtain ⟨r, F, hr, hF, hrun⟩ := Path.target_runs core e rest (!value.isUnassigned) o
  have htarget : ∀ o', AgreeOn e.name o o' →
      op.target core o' (!value.isUnassigned) = (r, F o') := by
    intro o' h
    rw [target, hpath]
    exact hrun o' h
  rcases r with e | _ | t
  · exact .work (r := .error e) trivial hF fun o' h => by rw [htarget o' h]; rfl
  · exact .work (r := .ok ()) trivial hF fun o' h => by rw [htarget o' h]; rfl
  have ht := hr t rfl
  cases t with
  | root container => cases ht
  | field container n =>
    have hreplace : Local e.name (·.modifyAt (·.replace n value) container) :=
      .modifyAt_of_head ht.1 fun hc => ht.2 hc ▸ .replace n value
    exact .work (r := .ok ()) trivial (hF.comp hreplace) fun o' h => by rw [htarget o' h]; rfl
  | selection container n filter items subs =>
    obtain ⟨rfl, rfl⟩ := ht
    cases items with
    | none => exact .work (r := .ok ()) trivial hF fun o' h => by rw [htarget o' h]; rfl
    | some items =>
      exact .work (r := .ok ()) trivial (hF.comp (.setField e.name _)) fun o' h => by
        rw [htarget o' h]; rfl

/-! ### Removing -/

/-- The removal at a stored name with the value that is there: the field is erased, overwritten or
left. -/
def removeAt (core : List Text) (e : PathElement) (rest : List PathElement) (key : Text)
    (value : Option Json) (o : Object) : Object :=
  let inside (v : Json) : Json :=
    match v with
    | .obj inner => .obj (removeFields core rest inner)
    | v => v
  match value with
  | none => o
  | some (.arr items) =>
    if rest.isEmpty then if e.selector.isNone then o.erase key else o
    else o.overwrite key (.arr (items.map fun v => if e.selects core v then inside v else v))
  | some v =>
    if !e.admits core v then o
    else if rest.isEmpty then o.erase key
    else o.overwrite key (inside v)

theorem removeFields_cons (core : List Text) (e : PathElement) (rest : List PathElement)
    (o : Object) : removeFields core (e :: rest) o =
      match o.findKey? e.name with
      | none => o
      | some key => removeAt core e rest key (o.get? key) o := rfl

theorem removeAt_local (core : List Text) (e : PathElement) (rest : List PathElement) {key : Text}
    (hkey : key.lower = name.lower) (value : Option Json) :
    Local name (removeAt core e rest key value) := by
  unfold removeAt
  dsimp only
  split
  · exact .refl name
  · split_ifs
    · exact .erase hkey
    · exact .refl name
    · exact .overwrite hkey _
  · split_ifs
    · exact .refl name
    · exact .erase hkey
    · exact .overwrite hkey _

theorem removeFields_local (core : List Text) (e : PathElement) (rest : List PathElement) :
    Local e.name (removeFields core (e :: rest)) := by
  refine .of_work fun o => ?_
  cases hkey : o.findKey? e.name with
  | none =>
    refine ⟨id, .refl _, fun o' h => ?_⟩
    rw [removeFields_cons, h.findKey?, hkey]
    rfl
  | some key =>
    have hlower := (findKey?_eq_some hkey).2
    refine ⟨removeAt core e rest key (o.get? key), removeAt_local core e rest hlower _, fun o' h => ?_⟩
    rw [removeFields_cons, h.findKey?, hkey, ← h.get? hlower]

theorem removeSelection_local (core : List Text) (name : Text) (filter : Filter) (items : List Json)
    (sub : Option Text) : Local name (removeSelection core name filter items sub) := by
  unfold removeSelection
  dsimp only
  split
  · exact .setField name _
  · split_ifs
    · exact .removeField name
    · exact .setField name _

theorem removePath_runs (core : List Text) (e : PathElement) (rest : List PathElement) :
    RunsOn e.name (removePath core ⟨none, e :: rest⟩) := by
  intro o
  unfold removePath
  dsimp only
  split_ifs
  · exact .work (r := .ok ()) trivial (removeFields_local core e rest) fun o' _ => rfl
  · obtain ⟨r, F, hr, hF, hrun⟩ := Path.target_runs core e rest false o
    have htarget : ∀ o', AgreeOn e.name o o' →
        Path.target core ⟨none, e :: rest⟩ o' false = (r, F o') := hrun
    rcases r with e | _ | t
    · exact .work (r := .error e) trivial hF fun o' h => by rw [htarget o' h]; rfl
    · exact .work (r := .ok ()) trivial hF fun o' h => by rw [htarget o' h]; rfl
    have ht := hr t rfl
    cases t with
    | root container => cases ht
    | field container n => exact .work (r := .ok ()) trivial hF fun o' h => by rw [htarget o' h]; rfl
    | selection container n filter items subs =>
      obtain ⟨rfl, rfl⟩ := ht
      cases items with
      | none => exact .work (r := .ok ()) trivial hF fun o' h => by rw [htarget o' h]; rfl
      | some items =>
        have hremove := removeSelection_local core e.name filter items subs.head?
        exact .work (r := .ok ()) trivial (hF.comp hremove) fun o' h => by rw [htarget o' h]; rfl

theorem removeMembers_runs (core : List Text) (name : Text) (ids : List Text) :
    RunsOn name (removeMembers core none name ids) := by
  induction ids with
  | nil => exact fun o => .result (r := .ok ()) trivial fun o' _ => rfl
  | cons id rest ih =>
    have hcons := removeMembers_cons core none name id rest
    have hstep : RunsOn name (removePath core (memberPath none name id)) :=
      removePath_runs core ⟨name, _⟩ []
    exact fun o => (hstep.andThen ih o).congr fun o' _ => hcons o'

theorem applyRemove_runs (options : PatchOptions) (hpath : op.path = some ⟨none, e :: rest⟩) :
    RunsOn e.name (op.applyRemove options) := by
  intro o
  unfold applyRemove
  rw [hpath]
  dsimp only
  split_ifs
  · exact removePath_runs options.coreUrns e rest o
  · exact .result (r := .error (.removeByValueDisabled _)) trivial fun o' _ => rfl
  · cases op.members.bind memberIds with
    | error e => exact .result (r := .error e) trivial fun o' _ => rfl
    | ok ids => exact removeMembers_runs options.coreUrns e.name ids o

/-! ### Running -/

/-- No list of schemas is brought in step where the path has no URN. -/
theorem apply_eq_applyChange {elements : List PathElement} (options : PatchOptions)
    (hpath : op.path = some ⟨none, elements⟩) (doc : Object) :
    op.apply options doc = op.applyChange options doc := by
  have hurns : op.touchedUrns = [] := by
    unfold touchedUrns
    rw [hpath]
    rfl
  rw [apply, updateSchemas, hurns]
  rfl

theorem apply_runs (options : PatchOptions) (hpath : op.path = some ⟨none, e :: rest⟩) :
    RunsOn e.name (op.apply options) := by
  intro o
  refine .congr ?_ fun o' _ => apply_eq_applyChange options hpath o'
  unfold applyChange
  cases op.change with
  | add => exact applyAdd_runs options.coreUrns hpath o
  | replace => exact applyReplace_runs options.coreUrns hpath o
  | remove => exact applyRemove_runs options hpath o

theorem applyAll_pair {a b : Operation} {options : PatchOptions} {doc doc' doc'' : Object}
    {r r' : Except Error Unit} (ha : a.apply options doc = ⟨r, doc'⟩)
    (hb : b.apply options doc' = ⟨r', doc''⟩) :
    (applyAll options [a, b] doc).result = r.bind (fun _ => r') ∧
      (r = .ok () → (applyAll options [a, b] doc).resource = doc'') := by
  unfold applyAll
  rw [ha]
  cases r with
  | error e => exact ⟨rfl, fun h => by cases h⟩
  | ok _ =>
    show ((b.apply options doc').andThen (applyAll options [])).result = r' ∧
      (_ → ((b.apply options doc').andThen (applyAll options [])).resource = doc'')
    rw [hb]
    cases r' <;> exact ⟨rfl, fun _ => rfl⟩

/-- Two operations with paths that have no URN and start at different attributes succeed in one order
exactly if they do in the other, and then leave the same resource. Neither, whether it succeeds or
fails, changes any other field than the one that its path starts at. -/
theorem applyAll_comm (options : PatchOptions) (a b : Operation) (doc : Object) {e e' : PathElement}
    {rest rest' : List PathElement} (ha : a.path = some ⟨none, e :: rest⟩)
    (hb : b.path = some ⟨none, e' :: rest'⟩) (hne : e.name.lower ≠ e'.name.lower)
    (hdoc : (Json.obj doc).WellFormed) (hva : ∀ v ∈ a.value, v.WellFormed)
    (hvb : ∀ v ∈ b.value, v.WellFormed) :
    ((applyAll options [a, b] doc).result = .ok () ↔
      (applyAll options [b, a] doc).result = .ok ()) ∧
    ((applyAll options [a, b] doc).result = .ok () →
      (Json.obj (applyAll options [a, b] doc).resource).same
        (.obj (applyAll options [b, a] doc).resource)) ∧
    Keeps (outside [e.name]) doc (a.apply options doc).resource ∧
    Keeps (outside [e'.name]) doc (b.apply options doc).resource := by
  obtain ⟨ra, A, -, hA, hruna⟩ := apply_runs options ha doc
  obtain ⟨rb, B, -, hB, hrunb⟩ := apply_runs options hb doc
  have hfirst : a.apply options doc = ⟨ra, A doc⟩ := hruna doc (.refl _ doc)
  have hfirst' : b.apply options doc = ⟨rb, B doc⟩ := hrunb doc (.refl _ doc)
  -- what the one has done the other does not see
  have hsecond : b.apply options (A doc) = ⟨rb, B (A doc)⟩ := hrunb _ (hA.agreeOn hne.symm doc)
  have hsecond' : a.apply options (B doc) = ⟨ra, A (B doc)⟩ := hruna _ (hB.agreeOn hne doc)
  obtain ⟨hresult, hresource⟩ := applyAll_pair hfirst hsecond
  obtain ⟨hresult', hresource'⟩ := applyAll_pair hfirst' hsecond'
  refine ⟨?_, fun hok => ?_, ?_, ?_⟩
  · rw [hresult, hresult']
    cases ra <;> cases rb <;> simp [Except.bind]
  · have hboth : ra = .ok () ∧ rb = .ok () := by
      rw [hresult] at hok
      cases ra <;> cases rb <;> simp_all [Except.bind]
    rw [hresource hboth.1, hresource' hboth.2]
    have hdoc' : (Json.obj (A doc)).WellFormed := by
      simpa [hfirst] using apply_wellFormed options hva hdoc
    have hdoc'' : (Json.obj (B doc)).WellFormed := by
      simpa [hfirst'] using apply_wellFormed options hvb hdoc
    refine same_of_agreeOn ?_ ?_ (hA.comm hB hne doc)
    · simpa [hsecond] using apply_wellFormed options hvb hdoc'
    · simpa [hsecond'] using apply_wellFormed options hva hdoc''
  · rw [hfirst]
    exact (hA.spare doc).keeps
  · rw [hfirst']
    exact (hB.spare doc).keeps

/-- Two work addresses and a name. -/
def colleague : Object :=
  ⟨[("emails", .arr [.ofMembers [("type", .str "work"), ("value", .str "a")],
    .ofMembers [("type", .str "home")]]), ("userName", .str "b")], false⟩

def workValue : Operation :=
  ⟨.replace, some ⟨none, [⟨"emails", some (.compare .eq (.ofName "type") (.str "work"))⟩,
    ⟨"value", none⟩]⟩, some (.str "c")⟩

def givenName : Operation :=
  ⟨.add, some ⟨none, [⟨"name", none⟩, ⟨"givenName", none⟩]⟩, some (.str "d")⟩

theorem applyAll_comm_colleague :
    (make .replace workValue.path workValue.value).toBool ∧
    (make .add givenName.path givenName.value).toBool ∧ (Json.obj colleague).WellFormed ∧
    (applyAll .default [workValue, givenName] colleague).result = .ok () ∧
    (Json.obj (applyAll .default [workValue, givenName] colleague).resource).same
      (.obj (applyAll .default [givenName, workValue] colleague).resource) := by
  have hdoc : (Json.obj colleague).WellFormed := Json.throughout_of_everywhere _ (by decide)
  have hvalue : ∀ t : Text, ∀ v ∈ some (Json.str t), v.WellFormed := by
    rintro t _ ⟨⟩
    exact Json.wellFormed_scalar rfl rfl
  have hok : (applyAll .default [workValue, givenName] colleague).result = .ok () := rfl
  obtain ⟨-, hsame, -⟩ := applyAll_comm .default workValue givenName colleague rfl rfl (by decide)
    hdoc (hvalue _) (hvalue _)
  exact ⟨by decide, by decide, hdoc, hok, hsame hok⟩

end Operation

end Scim
