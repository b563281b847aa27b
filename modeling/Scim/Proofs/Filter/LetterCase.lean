import Scim.Proofs.Filter.Parse
import Scim.Proofs.Filter.Same
import Scim.Proofs.Token.LetterCase

/-!
# Filters do not look at letter case

A filter in another case of its ASCII letters, the strings left as they are, is read as well, and is
the same filter (`ofText_recased`). Keywords, operators and URN prefixes are looked at in lower case,
attribute paths are the same in either case, and the grammar respects what is the same
(`congruent_same`).
-/

namespace Scim

open CodeUnit

variable {o : ParserOptions} {t t' w w' : Text}

/-! ### Attribute words -/

namespace Text.Recased

theorem isUrn_eq (h : Recased t t') : t.isUrn = t'.isUrn := by
  have htake : Recased (t.take 4) (t'.take 4) := List.forall₂_take 4 h
  rw [isUrn, isUrn, htake.lower_eq, h.length_eq]

theorem isWordName (h : Recased t t') (ht : o.IsWordName t) : o.IsWordName t' := by
  refine ⟨fun hnil => ht.1 (List.length_eq_zero_iff.mp (by rw [h.length_eq, hnil]; rfl)),
    fun p hp => ?_⟩
  have hmem := List.mem_map_of_mem (f := CodePoint.asciiLower) hp
  rw [← h.points_eq] at hmem
  obtain ⟨q, hq, hqp⟩ := List.mem_map.mp hmem
  rw [← ParserOptions.isNamePoint_asciiLower, ← hqp, ParserOptions.isNamePoint_asciiLower]
  exact ht.2 q hq

theorem not_mem {c : CodeUnit} (h : Recased t t') (hc : c.isAsciiLetter = false) (ht : c ∉ t) :
    c ∉ t' := by
  intro hmem
  obtain ⟨d, hd, hdc⟩ := h.exists_mem hmem
  exact ht (eq_of_not_letter hdc.symm hc ▸ hd)

/-- The pieces of a text between points differ in letter case if the text does. -/
theorem join_inv {ns : List Text} (h : Recased (join [dot] ns) w) :
    ∃ ns', w = join [dot] ns' ∧ List.Forall₂ Recased ns ns' := by
  induction ns generalizing w with
  | nil => cases h; exact ⟨[], rfl, .nil⟩
  | cons n ns ih =>
    by_cases hns : ns = []
    · subst hns
      rw [join_singleton] at h
      exact ⟨[w], (join_singleton ..).symm, .cons h .nil⟩
    · rw [join_cons hns, List.append_assoc, List.singleton_append] at h
      obtain ⟨n', v, rfl, hn, hv⟩ := h.append_cons (by decide)
      obtain ⟨ns', rfl, hall⟩ := ih hv
      have hns' : ns' ≠ [] := by rintro rfl; cases hall; exact hns rfl
      exact ⟨n' :: ns', by rw [join_cons hns', List.append_assoc, List.singleton_append],
        .cons hn hall⟩

end Text.Recased

namespace Path

theorem AreNames.recased {ns ns' : List Text} (h : AreNames o ns)
    (hns : List.Forall₂ Text.Recased ns ns') : AreNames o ns' := by
  obtain ⟨hne, h⟩ := h
  refine ⟨by rintro rfl; cases hns; exact hne rfl, fun n' hn' => ?_⟩
  obtain ⟨n, hn, hnn⟩ := exists_of_mem_right hns hn'
  exact ⟨hnn.isWordName (h n hn).1, hnn.not_mem (by decide) (h n hn).2⟩

theorem sameElements_ofNames {ns ns' : List Text} (h : List.Forall₂ Text.Recased ns ns') :
    sameElements (ns.map fun n => ⟨n, none⟩) (ns'.map fun n => ⟨n, none⟩) := by
  induction h with
  | nil => rfl
  | cons hn _ ih =>
    exact sameElements_cons_iff.mpr
      ⟨_, _, rfl, PathElement.same_plain_iff.mpr ⟨_, rfl, hn.lower_eq⟩, ih⟩

/-- A word in another letter case writes the same path. -/
theorem Word.recased {p : Path} (h : Word o w p) (hw : Text.Recased w w') :
    ∃ p', Word o w' p' ∧ p.same p' := by
  have hurn' := hw.isUrn_eq
  cases h with
  | plain hurn hnames =>
    obtain ⟨ns', rfl, hns⟩ := hw.join_inv
    exact ⟨_, .plain (hurn' ▸ hurn) (hnames.recased hns),
      same_iff.mpr ⟨rfl, sameElements_ofNames hns⟩⟩
  | qualified hurn hlast hnames =>
    obtain ⟨urn', v, rfl, hu, hv⟩ := hw.append_cons (by decide)
    have hlast' := hv.not_mem (by decide) hlast
    obtain ⟨ns', rfl, hns⟩ := hv.join_inv
    exact ⟨_, .qualified (hurn' ▸ hurn) hlast' (hnames.recased hns),
      same_iff.mpr ⟨Text.sameLetters_iff.mpr hu.lower_eq, sameElements_ofNames hns⟩⟩

end Path

/-! ### Filters -/

namespace Filter

theorem congruent_same : Congruent (fun p q => p.same q = true) (fun f g => f.same g = true) where
  compare op l h := same_compare_iff.mpr ⟨_, rfl, h⟩
  present h := same_present_iff.mpr ⟨_, rfl, h⟩
  not h := same_not_iff.mpr ⟨_, rfl, h⟩
  complex hp h := same_complex_iff.mpr ⟨_, _, rfl, hp, h⟩
  chain op h hs := by
    cases hs with
    | nil => exact h
    | cons hf hs => exact same_logical_iff.mpr ⟨_, _, _, rfl, h, hf, sameAll_of_forall₂ hs⟩

/-- A text in another case of its ASCII letters; inside its strings nothing is changed. -/
structure RecasedOutside (ts : List Token) (t t' : Text) : Prop where
  letters : Text.Recased t t'
  strings : ∀ x ∈ ts, x.IsString → ∀ i, x.Covers i → t'[i]? = t[i]?

/-- Letter case does not count in filters, strings apart. -/
theorem ofText_recased {f : Filter} {ts : List Token} (h : ofText o t = .ok f)
    (hts : Token.scan o t = .ok ts) (ht : RecasedOutside ts t t') :
    ∃ f', ofText o t' = .ok f' ∧ f'.same f := by
  obtain ⟨us, hus, hf⟩ := parse_eq_ok_iff.mp (ofText_eq_ok_iff.mp h)
  rw [hts] at hus
  cases hus
  obtain ⟨ts', hts', hall⟩ := (Token.spelled_iff.mp hts).recased ht.letters rfl
    fun x hx hs i hi => ht.strings x hx hs i (by rwa [Nat.zero_add] at hi)
  have hcarries : List.Forall₂ (Carries o o fun p q => p.same q = true) ts ts' :=
    hall.imp fun x x' hxx => ⟨hxx.kind, fun _ p hp => hp.recased hxx.text⟩
  obtain ⟨f', hf', hsame⟩ := hf.carried congruent_same hcarries
  exact ⟨f', ofText_eq_ok_iff.mpr (parse_eq_ok_iff.mpr ⟨ts', Token.spelled_iff.mpr hts', hf'⟩),
    same_equivalence.symm hsame⟩

/-- `a eq "X"` and `A EQ "X"`. -/
theorem ofText_recased_equal :
    RecasedOutside [⟨.word, Text.ofString "a", 0⟩, ⟨.comparison .eq, Text.ofString "eq", 2⟩,
        ⟨.value (.str (Text.ofString "X")), Text.ofString "\"X\"", 5⟩]
      (Text.ofString "a eq \"X\"") (Text.ofString "A EQ \"X\"") ∧
    ∃ f', ofText .default (Text.ofString "A EQ \"X\"") = .ok f' ∧
      f'.same (.compare .eq (.ofName (Text.ofString "a")) (.str (Text.ofString "X"))) := by
  have hscan : Token.scan .default (Text.ofString "a eq \"X\"") = .ok
      [⟨.word, Text.ofString "a", 0⟩, ⟨.comparison .eq, Text.ofString "eq", 2⟩,
        ⟨.value (.str (Text.ofString "X")), Text.ofString "\"X\"", 5⟩] := by decide +kernel
  have hword : Path.Word .default (Text.ofString "a") (.ofName (Text.ofString "a")) :=
    .of_isName (by decide)
  have hf := ofText_eq_ok_iff.mpr (parse_eq_ok_iff.mpr
    ⟨_, hscan, (Operand.compare rfl hword rfl rfl).derives⟩)
  have hstring : (Text.ofString "A EQ \"X\"").drop 5 = (Text.ofString "a eq \"X\"").drop 5 := by
    decide
  have ht : RecasedOutside [⟨.word, Text.ofString "a", 0⟩,
        ⟨.comparison .eq, Text.ofString "eq", 2⟩,
        ⟨.value (.str (Text.ofString "X")), Text.ofString "\"X\"", 5⟩]
      (Text.ofString "a eq \"X\"") (Text.ofString "A EQ \"X\"") := by
    refine ⟨by unfold Text.Recased; decide, fun x hx hs i hi => ?_⟩
    obtain ⟨v, hv⟩ := hs
    simp only [List.mem_cons, List.not_mem_nil, or_false] at hx
    rcases hx with rfl | rfl | rfl
    · cases hv
    · cases hv
    · obtain ⟨j, rfl⟩ := Nat.exists_eq_add_of_le hi.1
      rw [← List.getElem?_drop, ← List.getElem?_drop, hstring]
  exact ⟨ht, ofText_recased hf hscan ht⟩

end Filter

end Scim
