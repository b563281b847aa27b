import Mathlib.Data.List.Pairwise
import Scim.Proofs.Path.Target

/-!
# What reading along a path finds

The places that a path addresses, told without the walk that finds them: an element chooses the
items of an array or a single value (`PathElement.Chooses`), and a path leads from object to object
by what its elements choose (`Path.Leads`). Reading finds these places and no others
(`Path.mem_resolveFrom_iff`), and each stands in the document with its value (`Found.StandsIn`).

The order is that of the document, as a matter of the arrays passed on the way: of two places, the
first is inside or at an item before that of the second (`Location.Precedes`), so that no place is
found twice.
-/

namespace Scim

open Object

namespace Json

variable {v : Json}

theorem items?_eq_some_iff {items : List Json} : v.items? = some items ↔ v = .arr items := by
  cases v <;> simp [items?]

theorem object?_eq_some_iff {o : Object} : v.object? = some o ↔ v = .obj o := by
  cases v <;> simp [object?]

end Json

/-! ### Document order -/

namespace Location

variable {l l' m m' : Location}

/-- The array indexes of a location, from the outside in. -/
def indexes (l : Location) : List Nat :=
  l.filterMap fun
    | .key _ => none
    | .index n => some n

/-- From some array on, `l` leads through an item before that of `l'`. -/
def Precedes (l l' : Location) : Prop :=
  ∃ r i j, i < j ∧ r ++ [.index i] <+: l ∧ r ++ [.index j] <+: l'

namespace Precedes

theorem mono (h : Precedes l l') (hm : l <+: m) (hm' : l' <+: m') : Precedes m m' :=
  let ⟨r, i, j, hij, hl, hl'⟩ := h
  ⟨r, i, j, hij, hl.trans hm, hl'.trans hm'⟩

theorem indexes_lt (h : Precedes l l') : l.indexes < l'.indexes := by
  obtain ⟨r, i, j, hij, ⟨s, rfl⟩, ⟨s', rfl⟩⟩ := h
  have hindexes : ∀ n s, indexes (r ++ [.index n] ++ s) = indexes r ++ n :: indexes s := by
    intro n s
    rw [List.append_assoc, indexes, List.filterMap_append]
    rfl
  rw [hindexes, hindexes]
  exact List.append_left_lt (List.cons_lt_cons_iff.mpr (.inl hij))

theorem ne (h : Precedes l l') : l ≠ l' := by
  rintro rfl
  exact List.lt_irrefl _ h.indexes_lt

end Precedes

end Location

/-! ### Places in a document -/

/-- The way to the value at a place. -/
def Place.location : Place → Location
  | .root location => location
  | .field container name => container ++ [.key name]
  | .element array index => array ++ [.index index]

namespace Found

/-- A place is there, with the value: the container of a field is an object that has the name for a
key, and that of an element is an array longer than the index. -/
def StandsIn (doc : Object) (found : Found) : Prop :=
  match found.place with
  | .root location => ∃ o, found.value = .obj o ∧ (Json.obj doc).at? location = some (.obj o)
  | .field container name =>
    ∃ o, (Json.obj doc).at? container = some (.obj o) ∧ hasKey o name ∧
      get? o name = some found.value
  | .element array index =>
    ∃ items, (Json.obj doc).at? array = some (.arr items) ∧ index < items.length ∧
      items[index]? = some found.value

variable {doc : Object} {found : Found}

theorem StandsIn.at?_location (h : found.StandsIn doc) :
    (Json.obj doc).at? found.place.location = some found.value := by
  obtain ⟨place, value⟩ := found
  cases place with
  | root location =>
    obtain ⟨o, hvalue, hat⟩ := h
    exact hat.trans (congrArg some hvalue.symm)
  | field container name =>
    obtain ⟨o, hat, -, hget⟩ := h
    rw [Place.location, Json.at?_append, hat]
    simp [Json.at?, hget]
  | element array index =>
    obtain ⟨items, hat, -, hget⟩ := h
    rw [Place.location, Json.at?_append, hat]
    simp [Json.at?, hget]

end Found

/-! ### What one element chooses -/

namespace PathElement

variable {core : List Text} {e : PathElement} {location : Location} {o doc : Object}
  {found : Found}

/-- What an element chooses of the object at a location, where its name leads to. Of an array it
chooses all items that satisfy its filter, and a single value if there is no filter, or if the value
is not null and satisfies it. -/
inductive Chooses (core : List Text) (e : PathElement) (location : Location) (o : Object) :
    Found → Prop
  | item {key items index value} (hkey : o.findKey? e.name = some key)
      (hget : o.get? key = some (.arr items)) (hitem : items[index]? = some value)
      (hfilter : ∀ f ∈ e.selector, f.holds core value = true) :
      Chooses core e location o ⟨.element (location ++ [.key key]) index, value⟩
  | single {key value} (hkey : o.findKey? e.name = some key) (hget : o.get? key = some value)
      (hsingle : value.items? = none)
      (hfilter : ∀ f ∈ e.selector, value ≠ .null ∧ f.holds core value = true) :
      Chooses core e location o ⟨.field location key, value⟩

/-- The same as a list, in the order of the items. -/
def chosen (core : List Text) (e : PathElement) (location : Location) (o : Object) : List Found :=
  match o.findKey? e.name with
  | none => []
  | some key =>
    match o.get? key with
    | none => []
    | some (.arr items) =>
      (items.zipIdx.filter fun i => e.selects core i.1).map fun i =>
        ⟨.element (location ++ [.key key]) i.2, i.1⟩
    | some v => if e.admits core v then [⟨.field location key, v⟩] else []

theorem selects_iff {item : Json} :
    e.selects core item = true ↔ ∀ f ∈ e.selector, f.holds core item = true := by
  cases hsel : e.selector <;> simp [selects, hsel]

theorem admits_iff {v : Json} :
    e.admits core v = true ↔ ∀ f ∈ e.selector, v ≠ .null ∧ f.holds core v = true := by
  have hnull : v.isNull = false ↔ v ≠ .null := by cases v <;> simp [Json.isNull]
  cases hsel : e.selector <;> simp [admits, hsel, hnull]

theorem chosen_of_arr {key : Text} {items : List Json} (hkey : o.findKey? e.name = some key)
    (hget : o.get? key = some (.arr items)) :
    e.chosen core location o = (items.zipIdx.filter fun i => e.selects core i.1).map fun i =>
      ⟨.element (location ++ [.key key]) i.2, i.1⟩ := by
  simp only [chosen, hkey, hget]

theorem chosen_of_single {key : Text} {v : Json} (hkey : o.findKey? e.name = some key)
    (hget : o.get? key = some v) (hv : v.items? = none) :
    e.chosen core location o = if e.admits core v then [⟨.field location key, v⟩] else [] := by
  cases v with
  | arr items => cases hv
  | _ => simp only [chosen, hkey, hget]

theorem mem_chosen_iff : found ∈ e.chosen core location o ↔ e.Chooses core location o found := by
  constructor
  · intro h
    cases hkey : o.findKey? e.name with
    | none => simp [chosen, hkey] at h
    | some key =>
      cases hget : o.get? key with
      | none => simp [chosen, hkey, hget] at h
      | some v =>
        cases hv : v.items? with
        | some items =>
          obtain rfl := Json.items?_eq_some_iff.mp hv
          rw [chosen_of_arr hkey hget] at h
          obtain ⟨i, hi, rfl⟩ := List.mem_map.mp h
          obtain ⟨hmem, hsel⟩ := List.mem_filter.mp hi
          exact .item hkey hget (List.mem_zipIdx_iff_getElem?.mp hmem) (selects_iff.mp hsel)
        | none =>
          rw [chosen_of_single hkey hget hv] at h
          split_ifs at h with hadmits
          · obtain rfl := List.mem_singleton.mp h
            exact .single hkey hget hv (admits_iff.mp hadmits)
          · cases h
  · intro h
    cases h with
    | @item key items index value hkey hget hitem hfilter =>
      rw [chosen_of_arr hkey hget]
      exact List.mem_map.mpr ⟨(value, index), List.mem_filter.mpr
        ⟨List.mem_zipIdx_iff_getElem?.mpr hitem, selects_iff.mpr hfilter⟩, rfl⟩
    | single hkey hget hsingle hfilter =>
      rw [chosen_of_single hkey hget hsingle, if_pos (admits_iff.mpr hfilter)]
      exact List.mem_singleton_self _

theorem pairwise_zipIdx (items : List Json) (n : Nat) :
    (items.zipIdx n).Pairwise fun i j => i.2 < j.2 := by
  induction items generalizing n with
  | nil => exact .nil
  | cons v rest ih => exact .cons (fun _ hi => List.le_snd_of_mem_zipIdx hi) (ih (n + 1))

theorem pairwise_chosen (core : List Text) (e : PathElement) (location : Location) (o : Object) :
    (e.chosen core location o).Pairwise fun f g => f.place.location.Precedes g.place.location := by
  unfold chosen
  split
  · exact .nil
  · split
    · exact .nil
    · rw [List.pairwise_map]
      exact ((pairwise_zipIdx _ 0).filter _).imp fun hij =>
        ⟨_, _, _, hij, List.prefix_rfl, List.prefix_rfl⟩
    · split
      · exact List.pairwise_singleton ..
      · exact .nil

namespace Chooses

theorem inside (h : e.Chooses core location o found) : location <+: found.place.location := by
  cases h with
  | item => exact (List.prefix_append ..).trans (List.prefix_append ..)
  | single => exact List.prefix_append ..

theorem standsIn (h : e.Chooses core location o found)
    (hat : (Json.obj doc).at? location = some (.obj o)) : found.StandsIn doc := by
  cases h with
  | item hkey hget hitem =>
    refine ⟨_, ?_, (List.getElem?_eq_some_iff.mp hitem).1, hitem⟩
    rw [Json.at?_append, hat]
    simp [Json.at?, hget]
  | single hkey hget => exact ⟨o, hat, by rw [← isSome_get?, hget, Option.isSome_some], hget⟩

end Chooses

end PathElement

/-! ### The walk -/

namespace Path

/-- Where the elements lead to from the object at a location: through the objects that they choose,
one in another, to what the last of them chooses, or to the field itself if it has no filter. -/
inductive Leads (core : List Text) : List PathElement → Location → Object → Found → Prop
  | field {e location} {o : Object} {key value} (hsel : e.selector = none)
      (hkey : o.findKey? e.name = some key) (hget : o.get? key = some value) :
      Leads core [e] location o ⟨.field location key, value⟩
  | selected {e location} {o : Object} {found} (hsel : e.selector.isSome)
      (h : e.Chooses core location o found) : Leads core [e] location o found
  | enter {e rest location} {o : Object} {place inner found}
      (h : e.Chooses core location o ⟨place, .obj inner⟩)
      (hrest : Leads core rest place.location inner found) :
      Leads core (e :: rest) location o found

/-- What a path addresses in a document: the root of its schema, if the path has no elements, else
where the elements lead to from there. -/
def Addresses (core : List Text) (p : Path) (doc : Object) (found : Found) : Prop :=
  ∃ keys root, Schema.rootOf? core doc p.schemaUrn = some (keys, root) ∧
    (p.elements = [] ∧ found = ⟨.root (keys.map .key), .obj root⟩ ∨
      Leads core p.elements (keys.map .key) root found)

/-- What the remaining elements lead to from what an element has chosen. -/
def resolveOn (core : List Text) (rest : List PathElement) (found : Found) : List Found :=
  if rest.isEmpty then [found]
  else found.value.object?.toList.flatMap (resolveFrom core rest found.place.location)

variable {core : List Text} {e : PathElement} {elements rest : List PathElement}
  {location : Location} {o doc : Object} {found g : Found}

theorem resolveFrom_field (hsel : e.selector = none) :
    resolveFrom core [e] location o = (o.findKey? e.name).toList.flatMap fun key =>
      (o.get? key).toList.map fun v => ⟨.field location key, v⟩ := by
  unfold resolveFrom
  cases hkey : o.findKey? e.name with
  | none => rfl
  | some key =>
    cases hget : o.get? key with
    | none => simp [hget]
    | some v => cases v <;> simp [hget, hsel, PathElement.admits]

/-- In all other cases the walk goes on from what the element chooses, one after the other. -/
theorem resolveFrom_eq (h : (rest.isEmpty && e.selector.isNone) = false) :
    resolveFrom core (e :: rest) location o =
      (e.chosen core location o).flatMap (resolveOn core rest) := by
  conv_lhs => unfold resolveFrom
  cases hkey : o.findKey? e.name with
  | none => simp [PathElement.chosen, hkey]
  | some key =>
    cases hget : o.get? key with
    | none => simp [PathElement.chosen, hkey, hget]
    | some v =>
      dsimp only
      rw [hget]
      cases hv : v.items? with
      | some items =>
        obtain rfl := Json.items?_eq_some_iff.mp hv
        simp only [h, Bool.false_eq_true, if_false, PathElement.chosen_of_arr hkey hget,
          List.flatMap_map]
        refine List.flatMap_congr fun i _ => ?_
        cases hi : i.1 <;> simp [resolveOn, Json.object?, Place.location]
      | none =>
        rw [PathElement.chosen_of_single hkey hget hv]
        by_cases hadmits : e.admits core v <;> cases v with
        | arr items => cases hv
        | _ => simp [hadmits, resolveOn, Json.object?, Place.location]

/-- The last element yields the field, if it has no filter, and otherwise what it chooses. -/
theorem leads_last_iff : Leads core [e] location o found ↔
    (e.selector = none ∧ ∃ key value, o.findKey? e.name = some key ∧ o.get? key = some value ∧
      found = ⟨.field location key, value⟩) ∨
    e.selector.isSome ∧ e.Chooses core location o found := by
  constructor
  · intro h
    cases h with
    | field hsel hkey hget => exact .inl ⟨hsel, _, _, hkey, hget, rfl⟩
    | selected hsel h => exact .inr ⟨hsel, h⟩
    | enter _ hrest => cases hrest
  · rintro (⟨hsel, key, value, hkey, hget, rfl⟩ | ⟨hsel, h⟩)
    · exact .field hsel hkey hget
    · exact .selected hsel h

theorem leads_cons_iff (hne : rest ≠ []) : Leads core (e :: rest) location o found ↔
    ∃ place inner, e.Chooses core location o ⟨place, .obj inner⟩ ∧
      Leads core rest place.location inner found := by
  constructor
  · intro h
    cases h with
    | field => exact absurd rfl hne
    | selected => exact absurd rfl hne
    | enter h hrest => exact ⟨_, _, h, hrest⟩
  · rintro ⟨place, inner, h, hrest⟩
    exact .enter h hrest

theorem not_leads_nil : ¬ Leads core [] location o found := by
  intro h
  cases h

theorem mem_resolveOn_iff (hne : rest ≠ []) : found ∈ resolveOn core rest g ↔
    ∃ inner, g.value = .obj inner ∧ found ∈ resolveFrom core rest g.place.location inner := by
  simp [resolveOn, hne, Json.object?_eq_some_iff]

/-- The walk finds a place just if the elements lead there. -/
theorem mem_resolveFrom_iff :
    found ∈ resolveFrom core elements location o ↔ Leads core elements location o found := by
  induction elements generalizing location o found with
  | nil => exact iff_of_false List.not_mem_nil not_leads_nil
  | cons e rest ih =>
    rcases eq_or_ne rest [] with rfl | hne
    · rw [leads_last_iff]
      cases hsel : e.selector with
      | none =>
        simp only [resolveFrom_field hsel, List.mem_flatMap, List.mem_map, Option.mem_toList]
        simp [eq_comm (a := found)]
      | some f =>
        rw [resolveFrom_eq (by simp [hsel])]
        simp [resolveOn, PathElement.mem_chosen_iff]
    · rw [leads_cons_iff hne, resolveFrom_eq (by simp [hne]), List.mem_flatMap]
      simp only [PathElement.mem_chosen_iff, mem_resolveOn_iff hne, ih]
      constructor
      · rintro ⟨⟨place, v⟩, h, inner, rfl, hrest⟩
        exact ⟨place, inner, h, hrest⟩
      · rintro ⟨place, inner, h, hrest⟩
        exact ⟨_, h, inner, rfl, hrest⟩

namespace Leads

/-- Elements lead into the document if they start there. -/
theorem standsIn (h : Leads core elements location o found)
    (hat : (Json.obj doc).at? location = some (.obj o)) : found.StandsIn doc := by
  induction h with
  | field _ _ hget => exact ⟨_, hat, by rw [← isSome_get?, hget, Option.isSome_some], hget⟩
  | selected _ h => exact h.standsIn hat
  | enter h _ ih => exact ih (h.standsIn hat).at?_location

theorem inside (h : Leads core elements location o found) : location <+: found.place.location := by
  induction h with
  | field => exact List.prefix_append ..
  | selected _ h => exact h.inside
  | enter h _ ih => exact h.inside.trans ih

end Leads

/-- Nothing on the way leaves the place that an element has chosen. -/
theorem inside_of_mem_resolveOn (h : found ∈ resolveOn core rest g) :
    g.place.location <+: found.place.location := by
  rcases eq_or_ne rest [] with rfl | hne
  · obtain rfl : found = g := by simpa [resolveOn] using h
    exact List.prefix_rfl
  · obtain ⟨inner, -, h⟩ := (mem_resolveOn_iff hne).mp h
    exact (mem_resolveFrom_iff.mp h).inside

theorem pairwise_resolveFrom (core : List Text) (elements : List PathElement) (location : Location)
    (o : Object) : (resolveFrom core elements location o).Pairwise fun f g =>
      f.place.location.Precedes g.place.location := by
  induction elements generalizing location o with
  | nil => exact .nil
  | cons e rest ih =>
    cases hfield : rest.isEmpty && e.selector.isNone with
    | true =>
      obtain ⟨rfl, hsel⟩ : rest = [] ∧ e.selector = none := by simpa using hfield
      rw [resolveFrom_field hsel]
      cases o.findKey? e.name with
      | none => exact .nil
      | some key => cases hget : o.get? key <;> simp [hget]
    | false =>
      rw [resolveFrom_eq hfield, List.pairwise_flatMap]
      refine ⟨fun found _ => ?_, (PathElement.pairwise_chosen ..).imp fun h f hf g hg => ?_⟩
      · unfold resolveOn
        split_ifs
        · exact List.pairwise_singleton ..
        · cases found.value.object? with
          | none => exact .nil
          | some inner => simpa using ih ..
      · exact h.mono (inside_of_mem_resolveOn hf) (inside_of_mem_resolveOn hg)

/-! ### Reading -/

variable {p : Path}

theorem mem_resolve_iff : found ∈ p.resolve core doc ↔ p.Addresses core doc found := by
  unfold resolve Addresses
  cases hroot : Schema.rootOf? core doc p.schemaUrn with
  | none => simp
  | some place =>
    obtain ⟨keys, root⟩ := place
    rcases eq_or_ne p.elements [] with hnil | hne
    · simp [hnil, not_leads_nil]
    · simp [hne, mem_resolveFrom_iff]

theorem Addresses.standsIn (h : p.Addresses core doc found) : found.StandsIn doc := by
  obtain ⟨keys, root, hroot, h⟩ := h
  have hat : (Json.obj doc).at? (keys.map .key) = some (.obj root) := by
    rcases rootOf?_cases hroot with ⟨rfl, rfl⟩ | ⟨u, key, -, rfl, -, hget⟩
    · rfl
    · simp [Json.at?, hget]
  rcases h with ⟨-, rfl⟩ | h
  · exact ⟨root, rfl, hat⟩
  · exact h.standsIn hat

theorem pairwise_resolve (core : List Text) (p : Path) (doc : Object) :
    (p.resolve core doc).Pairwise fun f g => f.place.location.Precedes g.place.location := by
  unfold resolve
  split
  · exact .nil
  · split_ifs
    · exact List.pairwise_singleton ..
    · exact pairwise_resolveFrom ..

/-- Reading finds the places that the path addresses, and no others. All of them stand in the
document, and they come in document order, each once. -/
theorem resolve_addressed (core : List Text) (p : Path) (doc : Object) :
    (∀ found, found ∈ p.resolve core doc ↔ p.Addresses core doc found) ∧
    (∀ found ∈ p.resolve core doc, found.StandsIn doc) ∧
    ((p.resolve core doc).map fun f => f.place.location).Nodup ∧
    (p.resolve core doc).Pairwise fun f g =>
      f.place.location.indexes < g.place.location.indexes := by
  refine ⟨fun found => mem_resolve_iff, fun found h => (mem_resolve_iff.mp h).standsIn, ?_, ?_⟩
  · exact List.pairwise_map.mpr ((pairwise_resolve core p doc).imp Location.Precedes.ne)
  · exact (pairwise_resolve core p doc).imp Location.Precedes.indexes_lt

/-- Two addresses at work, and one that is not. -/
def addressBook : Object :=
  ⟨[("Emails", .arr [.ofMembers [("type", .str "work"), ("value", .str "a")],
    .ofMembers [("type", .str "home"), ("value", .str "b")],
    .ofMembers [("type", .str "WORK"), ("value", .arr [.str "c"])]])], false⟩

/-- The path `emails[type eq "work"].value`. -/
def atWork : Path :=
  ⟨none, [⟨"emails", some (.compare .eq (.ofName "type") (.str "work"))⟩, ⟨"value", none⟩]⟩

/-- The field of an array is one place, if there is no filter behind it. -/
theorem resolve_addressed_addressBook :
    atWork.resolve [] addressBook = [⟨.field [.key "Emails", .index 0] "value", .str "a"⟩,
      ⟨.field [.key "Emails", .index 2] "value", .arr [.str "c"]⟩] ∧
    atWork.Addresses [] addressBook
      ⟨.field [.key "Emails", .index 2] "value", .arr [.str "c"]⟩ ∧
    Found.StandsIn addressBook ⟨.field [.key "Emails", .index 2] "value", .arr [.str "c"]⟩ := by
  have hresolve : atWork.resolve [] addressBook =
      [⟨.field [.key "Emails", .index 0] "value", .str "a"⟩,
        ⟨.field [.key "Emails", .index 2] "value", .arr [.str "c"]⟩] := rfl
  have hmem : ⟨.field [.key "Emails", .index 2] "value", .arr [.str "c"]⟩ ∈
      atWork.resolve [] addressBook := by
    rw [hresolve]
    exact List.mem_cons_of_mem _ (List.mem_singleton_self _)
  obtain ⟨haddressed, hstands, -⟩ := resolve_addressed [] atWork addressBook
  exact ⟨hresolve, (haddressed _).mp hmem, hstands _ hmem⟩

end Path

end Scim
