import Scim.Json

/-!
# Objects

An object keeps its members in the order of insertion, except that names which are array indexes
come first, in ascending order. Writing to a stored name keeps its place.

`insert` stores a value under any name, and so does `assign` with one exception: an object has to be
unlocked before an assignment gives it a member of the reserved name `__proto__`. Until then such an
assignment stores nothing, but null unlocks the object, and so does an object that has or may have a
member of that name itself.
-/

namespace Scim

/-- The name that an assignment gives to no new member of a locked object. -/
def reservedName : Text := "__proto__"

/-- The index that a name denotes: decimal digits without a leading zero, below 2^32 - 1. -/
def Text.arrayIndex? (name : Text) : Option Nat :=
  if name.isEmpty || !name.all CodeUnit.isDigit then none
  else if name.head? = some CodeUnit.zero && name.length ≠ 1 then none
  else if decimalValue name < 0xFFFFFFFF then some (decimalValue name)
  else none

/-! ### Members -/

namespace Members

/-- Puts a member with an index for a name among the other indexes. -/
def insertIndexed (index : Nat) (key : Text) (value : Json) :
    List (Text × Json) → List (Text × Json)
  | [] => [(key, value)]
  | m :: rest =>
    match m.1.arrayIndex? with
    | some i =>
      if index < i then (key, value) :: m :: rest else m :: insertIndexed index key value rest
    | none => (key, value) :: m :: rest

def add (members : List (Text × Json)) (key : Text) (value : Json) : List (Text × Json) :=
  match key.arrayIndex? with
  | some i => insertIndexed i key value members
  | none => members ++ [(key, value)]

end Members

namespace Object

def empty : Object := ⟨[], false⟩

def keys (o : Object) : List Text := o.members.map (·.1)

def values (o : Object) : List Json := o.members.map (·.2)

def hasKey (o : Object) (key : Text) : Bool := o.members.any (·.1 == key)

/-- The value stored under exactly this name. -/
def get? (o : Object) (key : Text) : Option Json := (o.members.find? (·.1 == key)).map (·.2)

def erase (o : Object) (key : Text) : Object :=
  { o with members := o.members.filter (·.1 != key) }

def add (o : Object) (key : Text) (value : Json) : Object :=
  { o with members := Members.add o.members key value }

def overwrite (o : Object) (key : Text) (value : Json) : Object :=
  { o with members := o.members.map fun m => if m.1 = key then (m.1, value) else m }

def insert (o : Object) (key : Text) (value : Json) : Object :=
  if o.hasKey key then o.overwrite key value else o.add key value

/-- Whether a value unlocks the object to whose reserved name it is assigned. -/
def unlocks : Json → Bool
  | .null => true
  | .obj o => Record.unlocked o || hasKey o reservedName
  | _ => false

/-- Stores a value under a name, unless that would give a locked object a member of the reserved
name. -/
def assign (o : Object) (key : Text) (value : Json) : Object :=
  if o.hasKey key then o.overwrite key value
  else if key = reservedName && !o.unlocked then { o with unlocked := unlocks value }
  else o.add key value

/-- The member of a name, if it has a value. -/
def single (name : Text) (value : Option Json) : List (Text × Json) :=
  (value.map (name, ·)).toList

def insertAll (o : Object) (members : List (Text × Json)) : Object :=
  members.foldl (fun o m => o.insert m.1 m.2) o

/-- The object with the given members, the last value of a repeated name winning. -/
def ofList (members : List (Text × Json)) : Object := empty.insertAll members

/-! ### What is stored under a name -/

variable {o : Object} {key k : Text} {value : Json} {ms ms' : List (Text × Json)} {b : Bool}

@[simp] theorem get?_nil : get? ⟨[], b⟩ k = none := rfl

theorem get?_cons {m : Text × Json} :
    get? ⟨m :: ms, b⟩ k = if m.1 = k then some m.2 else get? ⟨ms, b⟩ k := by
  simp only [get?, List.find?_cons]
  split <;> simp_all

theorem isSome_get? : (o.get? k).isSome = o.hasKey k := by
  obtain ⟨ms, b⟩ := o
  induction ms with
  | nil => rfl
  | cons m rest ih =>
    rw [get?_cons]
    by_cases h : m.1 = k
    · simp [hasKey, h]
    · simpa [hasKey, h, beq_false_of_ne h] using ih

theorem hasKey_iff_mem_keys : o.hasKey k = true ↔ k ∈ o.keys := by
  simp [hasKey, keys]

theorem get?_eq_none_iff : o.get? k = none ↔ o.hasKey k = false := by
  rw [← isSome_get?]; cases o.get? k <;> simp

theorem get?_append : get? ⟨ms ++ ms', b⟩ k = (get? ⟨ms, b⟩ k).or (get? ⟨ms', b⟩ k) := by
  induction ms with
  | nil => rfl
  | cons m rest ih =>
    rw [List.cons_append, get?_cons, get?_cons, ih]
    split <;> simp

theorem get?_erase : (o.erase key).get? k = if k = key then none else o.get? k := by
  obtain ⟨ms, b⟩ := o
  induction ms with
  | nil => simp [erase]
  | cons m rest ih =>
    simp only [erase, List.filter_cons] at ih ⊢
    by_cases hm : m.1 = key <;> by_cases hk : k = key <;>
      simp_all [get?_cons, eq_comm (a := key)]

@[simp] theorem keys_overwrite : (o.overwrite key value).keys = o.keys := by
  simp only [keys, overwrite, List.map_map]
  exact List.map_congr_left fun m _ => by simp only [Function.comp_apply]; split <;> rfl

theorem get?_overwrite :
    (o.overwrite key value).get? k =
      if k = key then (o.get? k).map fun _ => value else o.get? k := by
  obtain ⟨ms, b⟩ := o
  induction ms with
  | nil => simp [overwrite]
  | cons m rest ih =>
    simp only [overwrite, List.map_cons] at ih ⊢
    by_cases hm : m.1 = key <;> by_cases hk : k = key <;>
      simp_all [get?_cons, eq_comm (a := key)]

theorem get?_insertIndexed (i : Nat) (h : hasKey ⟨ms, b⟩ key = false) :
    get? ⟨Members.insertIndexed i key value ms, b⟩ k =
      if k = key then some value else get? ⟨ms, b⟩ k := by
  fun_induction Members.insertIndexed i key value ms with
  | case1 => simp [get?_cons, eq_comm]
  | case2 m rest j hj hlt => simp [get?_cons, eq_comm]
  | case3 m rest j hj hlt ih =>
    simp only [hasKey, List.any_cons, Bool.or_eq_false_iff] at h
    rw [get?_cons, ih h.2, get?_cons]
    by_cases hk : k = key
    · subst hk; simp_all
    · simp [hk]
  | case4 m rest hm => simp [get?_cons, eq_comm]

theorem get?_add (h : o.hasKey key = false) :
    (o.add key value).get? k = if k = key then some value else o.get? k := by
  obtain ⟨ms, b⟩ := o
  simp only [add, Members.add]
  split
  · exact get?_insertIndexed _ h
  · rw [get?_append, get?_cons]
    by_cases hk : k = key
    · subst hk; simp [get?_eq_none_iff.2 h]
    · cases get? ⟨ms, b⟩ k <;> simp [hk, Ne.symm hk]

/-- Insertion changes what is stored under one name. -/
theorem get?_insert : (o.insert key value).get? k = if k = key then some value else o.get? k := by
  unfold insert
  split
  · rename_i h
    rw [get?_overwrite]
    split
    · rename_i hk
      subst hk
      rw [← isSome_get?] at h
      obtain ⟨v, hv⟩ := Option.isSome_iff_exists.1 h
      simp [hv]
    · rfl
  · rename_i h
    exact get?_add (by simpa using h)

/-- Assignment does the same, unless it would give a locked object a member of the reserved name. -/
theorem get?_assign (h : key ≠ reservedName ∨ o.hasKey key = true ∨ o.unlocked = true) :
    (o.assign key value).get? k = if k = key then some value else o.get? k := by
  rw [← get?_insert]
  unfold assign insert
  split
  · rfl
  · rename_i hk
    rw [if_neg]
    simp only [Bool.and_eq_true, decide_eq_true_eq, Bool.not_eq_true', not_and]
    rintro rfl
    simp_all

/-- Otherwise it stores nothing. -/
theorem members_assign_reservedName (h : o.hasKey reservedName = false) (hl : o.unlocked = false) :
    (o.assign reservedName value).members = o.members := by
  simp [assign, h, hl]

end Object

end Scim
