import Scim.Filter.Parse
import Scim.Proofs.Options.Unit
import Scim.Proofs.Text.Split

/-!
# Attribute words

`Path.Word`: the grammar of the attribute words of a filter, names with points between them after an
optional URN. `Path.ofWord` reads exactly these words (`ofWord_eq_ok_iff`), and such a path is
written back as the word it was read from (`Word.render`, in `Proofs/Filter/Written`).
-/

namespace Scim

open CodeUnit

namespace Text

theorem lower_urn {u : Text} (hu : u.lower = "urn") :
    u.length = 3 ∧ (u ++ [colon]).lower = "urn:" := by
  obtain ⟨hascii, hmap⟩ := map_asciiLower_of_lower hu (by decide)
  have hall : ∀ c ∈ u ++ [colon], c < 0x80 := by
    intro c hc
    rcases List.mem_append.mp hc with hc | hc
    · exact hascii c hc
    · rw [List.mem_singleton.mp hc]; decide
  refine ⟨(List.length_map ..).symm.trans (congrArg List.length hmap), ?_⟩
  rw [lower_of_ascii hall, List.map_append, hmap]
  decide

theorem lower_take_four_iff {t : Text} :
    Text.lower (t.take 4) = "urn:" ↔ ∃ u r : Text, t = u ++ colon :: r ∧ u.lower = "urn" := by
  constructor
  · intro hlow
    obtain ⟨hascii, hmap⟩ := map_asciiLower_of_lower hlow (by decide)
    have hlen : (t.take 4).length = 4 := (List.length_map ..).symm.trans (congrArg List.length hmap)
    match t, hlen with
    | a :: b :: c :: d :: r, _ =>
      have hmap' : [a.asciiLower, b.asciiLower, c.asciiLower, d.asciiLower] =
          [0x75, 0x72, 0x6E, colon] := hmap
      simp only [List.cons.injEq, and_true] at hmap'
      have hd : d = colon := by
        have h1 := hmap'.2.2.2
        unfold asciiLower at h1; split at h1 <;> grind
      refine ⟨[a, b, c], r, by rw [hd]; rfl, ?_⟩
      rw [lower_of_ascii fun x hx => hascii x (by simp at hx ⊢; tauto)]
      show [a.asciiLower, b.asciiLower, c.asciiLower] = [0x75, 0x72, 0x6E]
      simp only [hmap'.1, hmap'.2.1, hmap'.2.2.1]
  · rintro ⟨u, r, rfl, hu⟩
    obtain ⟨hlen, hlow⟩ := lower_urn hu
    have htake : (u ++ colon :: r).take 4 = u ++ [colon] := by
      rw [List.take_append, hlen, List.take_of_length_le (by omega)]; rfl
    rw [htake, hlow]

/-- A text starts as a URN if something stands behind the prefix. -/
theorem isUrn_iff {t : Text} :
    t.isUrn ↔ ∃ u r : Text, t = u ++ colon :: r ∧ u.lower = "urn" ∧ r ≠ [] := by
  simp only [isUrn, Bool.and_eq_true, decide_eq_true_eq, beq_iff_eq, lower_take_four_iff]
  constructor
  · rintro ⟨hlen, u, r, rfl, hu⟩
    refine ⟨u, r, rfl, hu, ?_⟩
    rintro rfl
    have := (lower_urn hu).1
    simp at hlen
    omega
  · rintro ⟨u, r, rfl, hu, hr⟩
    have h3 := (lower_urn hu).1
    have hpos : 0 < r.length := List.length_pos_iff.mpr hr
    simp only [List.length_append, List.length_cons]
    exact ⟨by omega, u, r, rfl, hu⟩

theorem colon_mem_of_isUrn {t : Text} (h : t.isUrn) : colon ∈ t := by
  obtain ⟨u, r, rfl, -, -⟩ := isUrn_iff.mp h
  simp

end Text

namespace ParserOptions

/-- An attribute name: at least one unit, and none that names cannot have. -/
def IsName (o : ParserOptions) (n : Text) : Prop := n ≠ [] ∧ ∀ c ∈ n, o.isNameUnit c

instance (o : ParserOptions) (n : Text) : Decidable (o.IsName n) :=
  decidable_of_iff (n ≠ [] ∧ n.all o.isNameUnit) (by rw [IsName, List.all_eq_true])

/-- An attribute name inside a word, where the characters are looked at and not their units. A
further unit that is half of a pair counts only where its other half is missing. -/
def IsWordName (o : ParserOptions) (n : Text) : Prop := n ≠ [] ∧ ∀ p ∈ n.points, o.isNamePoint p

/-- By default no unit of a name is half of a character. -/
theorem IsName.isWordName {n : Text} (h : default.IsName n) : default.IsWordName n := by
  refine ⟨h.1, fun p hp => ?_⟩
  rw [Text.points_of_not_isHigh n fun c hc => not_isHigh_of_isNameUnit (h.2 c hc)] at hp
  obtain ⟨c, hc, rfl⟩ := List.mem_map.mp hp
  rw [isNamePoint_toNat]
  exact h.2 c hc

end ParserOptions

namespace Path

/-- The path of plain attribute names. -/
def ofNames (urn : Option Text) (names : List Text) : Path := ⟨urn, names.map fun n => ⟨n, none⟩⟩

/-- At least one name, and no point inside a name. -/
def AreNames (o : ParserOptions) (names : List Text) : Prop :=
  names ≠ [] ∧ ∀ n ∈ names, o.IsWordName n ∧ dot ∉ n

/-- `[urn ":"] name ("." name)*`. A word that starts as a URN is split at its last colon, any other
word has no URN. -/
inductive Word (o : ParserOptions) : Text → Path → Prop
  | plain {names : List Text} (hurn : ¬ (Text.join [dot] names).isUrn) (hnames : AreNames o names) :
    Word o (Text.join [dot] names) (ofNames none names)
  | qualified {urn : Text} {names : List Text}
    (hurn : (urn ++ colon :: Text.join [dot] names).isUrn)
    (hlast : colon ∉ Text.join [dot] names) (hnames : AreNames o names) :
    Word o (urn ++ colon :: Text.join [dot] names) (ofNames (some urn) names)

variable {o : ParserOptions}

theorem isWordName_iff {n : Text} : o.IsWordName n ↔
    (n.isEmpty || (n.points.takeWhile o.isNamePoint).length < n.points.length) = false := by
  have hle : (n.points.takeWhile o.isNamePoint).length ≤ n.points.length :=
    (List.takeWhile_sublist _).length_le
  have hall : (∀ p ∈ n.points, o.isNamePoint p) ↔
      (n.points.takeWhile o.isNamePoint).length = n.points.length := by
    rw [← List.takeWhile_eq_self_iff]
    exact ⟨congrArg List.length, (List.takeWhile_prefix _).eq_of_length⟩
  rw [ParserOptions.IsWordName, hall]
  simp only [Bool.or_eq_false_iff, List.isEmpty_eq_false_iff, decide_eq_false_iff_not, Nat.not_lt]
  exact and_congr_right fun _ => ⟨fun h => h ▸ Nat.le_refl _, Nat.le_antisymm hle⟩

theorem namesOf_eq_ok_iff {word : Text} {names : List Text} {pos : Nat} {es : List PathElement} :
    namesOf o word pos names = .ok es ↔
      (∀ n ∈ names, o.IsWordName n) ∧ es = names.map fun n => ⟨n, none⟩ := by
  induction names generalizing pos es with
  | nil => simp [namesOf, eq_comm]
  | cons n rest ih =>
    rw [namesOf, List.forall_mem_cons]
    by_cases hn : o.IsWordName n
    · rw [isWordName_iff.mp hn, if_neg Bool.false_ne_true]
      cases hrest : namesOf o word (pos + n.length + 1) rest with
      | error f =>
        have hbad : ¬ ∀ n ∈ rest, o.IsWordName n := fun h => by
          rw [ih.mpr ⟨h, rfl⟩] at hrest; cases hrest
        simp only [Except.map, reduceCtorEq, false_iff]
        exact fun h => hbad h.1.2
      | ok es' =>
        obtain ⟨h, rfl⟩ := ih.mp hrest
        simp only [Except.map, Except.ok.injEq, List.map_cons, eq_comm]
        exact ⟨fun he => ⟨⟨hn, h⟩, he⟩, fun he => he.2⟩
    · rw [eq_true_of_ne_false (isWordName_iff.not.mp hn), if_pos rfl]
      simp only [reduceCtorEq, false_iff]
      exact fun h => hn h.1.1

theorem namesOf_splitOn {word t : Text} {pos : Nat} {es : List PathElement} :
    namesOf o word pos (Text.splitOn dot t) = .ok es ↔
      ∃ names, AreNames o names ∧ t = Text.join [dot] names ∧
        es = names.map fun n => ⟨n, none⟩ := by
  rw [namesOf_eq_ok_iff]
  constructor
  · rintro ⟨h, rfl⟩
    obtain ⟨hne, hdot, ht⟩ := Text.splitOn_eq_iff.mp (rfl : Text.splitOn dot t = _)
    exact ⟨_, ⟨hne, fun n hn => ⟨h n hn, hdot n hn⟩⟩, ht, rfl⟩
  · rintro ⟨names, ⟨hne, h⟩, ht, rfl⟩
    rw [Text.splitOn_eq_iff.mpr ⟨hne, fun n hn => (h n hn).2, ht⟩]
    exact ⟨fun n hn => (h n hn).1, rfl⟩

theorem areNames_of_isName {names : List Text} (hne : names ≠ [])
    (h : ∀ n ∈ names, ParserOptions.default.IsName n) : AreNames .default names := by
  refine ⟨hne, fun n hn => ⟨(h n hn).isWordName, fun hdot => ?_⟩⟩
  have hunit := (h n hn).2 dot hdot
  rw [ParserOptions.isNameUnit_dot] at hunit
  cases hunit

/-- A name is a word of its own. -/
theorem Word.of_isName {n : Text} (h : ParserOptions.default.IsName n) :
    Word .default n (.ofName n) := by
  have hurn : ¬ (Text.join [dot] [n]).isUrn := by
    rw [Text.join_singleton]
    intro hu
    have hcolon := h.2 colon (Text.colon_mem_of_isUrn hu)
    rw [ParserOptions.isNameUnit_colon] at hcolon
    cases hcolon
  have hword := Word.plain hurn (areNames_of_isName (by simp) (by simpa using h))
  rwa [Text.join_singleton] at hword

theorem AreNames.join_ne_nil {names : List Text} (h : AreNames o names) :
    Text.join [dot] names ≠ [] := by
  obtain ⟨hne, h⟩ := h
  cases names with
  | nil => exact absurd rfl hne
  | cons n rest =>
    have hn : n ≠ [] := (h n (by simp)).1.1
    by_cases hrest : rest = []
    · rw [hrest, Text.join_singleton]; exact hn
    · rw [Text.join_cons hrest]; simp

theorem map_namesOf_eq_ok_iff {word t : Text} {pos : Nat} {urn : Option Text} {p : Path} :
    (namesOf o word pos (Text.splitOn dot t)).map (⟨urn, ·⟩) = .ok p ↔
      ∃ names, AreNames o names ∧ t = Text.join [dot] names ∧ p = ofNames urn names := by
  cases h : namesOf o word pos (Text.splitOn dot t) with
  | error f =>
    simp only [Except.map, reduceCtorEq, false_iff]
    rintro ⟨names, hnames, ht, -⟩
    rw [namesOf_splitOn.mpr ⟨names, hnames, ht, rfl⟩] at h
    cases h
  | ok es =>
    obtain ⟨names, hnames, ht, rfl⟩ := namesOf_splitOn.mp h
    simp only [Except.map, Except.ok.injEq]
    constructor
    · rintro rfl; exact ⟨names, hnames, ht, rfl⟩
    · rintro ⟨names', hnames', ht', rfl⟩
      rw [namesOf_splitOn.mpr ⟨names', hnames', ht', rfl⟩] at h
      exact congrArg _ (Except.ok.inj h).symm

theorem ofWord_eq_ok_iff {w : Text} {pos : Nat} {p : Path} :
    ofWord o w pos = .ok p ↔ Word o w p := by
  rw [ofWord]
  by_cases hurn : w.isUrn
  · obtain ⟨⟨urn, r⟩, hs⟩ := Option.ne_none_iff_exists'.mp
      (Text.splitAtLast?_eq_none_iff.not.mpr (not_not.mpr (Text.colon_mem_of_isUrn hurn)))
    obtain ⟨hw, hlast⟩ := Text.splitAtLast?_eq_some_iff.mp hs
    simp only [if_pos hurn, hs]
    constructor
    · intro h
      split_ifs at h
      obtain ⟨names, hnames, rfl, rfl⟩ := map_namesOf_eq_ok_iff.mp h
      exact hw ▸ .qualified (hw ▸ hurn) hlast hnames
    · intro h
      cases h with
      | plain h => exact absurd hurn h
      | @qualified urn' names _ hlast' hnames =>
        rw [Text.splitAtLast?_append_cons hlast'] at hs
        cases hs
        rw [if_neg (by simpa using hnames.join_ne_nil)]
        exact map_namesOf_eq_ok_iff.mpr ⟨names, hnames, rfl, rfl⟩
  · simp only [if_neg hurn, map_namesOf_eq_ok_iff]
    constructor
    · rintro ⟨names, hnames, rfl, rfl⟩
      exact .plain hurn hnames
    · intro h
      cases h with
      | @plain names _ hnames => exact ⟨names, hnames, rfl, rfl⟩
      | qualified h => exact absurd h hurn

end Path

end Scim
