import Scim.Proofs.Text.LetterCase
import Scim.Proofs.Token.Spelled
import Scim.Proofs.Token.Tiling

/-!
# Scanning does not look at letter case

A text that differs from a scanned one in the case of ASCII letters only, and agrees with it inside
strings, is scanned into tokens of the same kinds at the same places, whose texts differ in letter
case at most (`Spelled.recased`). Where a token ends never depends on the case of a letter, since
all letters are units of words and none is a mark; inside a number only the mark of the exponent is
a letter.
-/

namespace Scim

open CodeUnit

namespace CodeUnit

theorem not_letter_of_isDigit {c : CodeUnit} (h : c.isDigit) : c.isAsciiLetter = false := by
  refine Bool.eq_false_iff.mpr fun hl => ?_
  rw [isAsciiLetter_iff] at hl
  simp only [isDigit, Bool.and_eq_true, decide_eq_true_eq, UInt16.le_iff_toNat_le] at h
  have h0 : (0x30 : CodeUnit).toNat = 0x30 := rfl
  have h1 : (0x39 : CodeUnit).toNat = 0x39 := rfl
  omega

theorem IsExponentMark.recased {a b : CodeUnit} (ha : a.IsExponentMark)
    (h : a.asciiLower = b.asciiLower) : b.IsExponentMark := by
  have hlower : b.asciiLower = 0x65 := by rcases ha with rfl | rfl <;> exact h.symm
  unfold asciiLower at hlower
  unfold IsExponentMark
  grind

end CodeUnit

/-! ### Numerals -/

namespace Numeral

variable {n : Numeral} {w : Text}

/-- In front of its exponent a numeral has no letters. -/
theorem WellFormed.not_letter_front (hn : n.WellFormed) :
    ∀ c ∈ (if n.negative then [minus] else []) ++ (n.whole ++ pointed n.fraction),
      c.isAsciiLetter = false := by
  intro c hc
  rcases List.mem_append.mp hc with hc | hc
  · split_ifs at hc
    · rw [List.mem_singleton.mp hc]; decide
    · cases hc
  rcases List.mem_append.mp hc with hc | hc
  · exact not_letter_of_isDigit (hn.whole c hc)
  · unfold pointed at hc
    split_ifs at hc
    · cases hc
    · rcases List.mem_cons.mp hc with rfl | hc
      · decide
      · exact not_letter_of_isDigit (hn.fraction c hc)

/-- Another letter case of a numeral is a numeral of the same number. -/
theorem WellFormed.recased (hn : n.WellFormed) (h : Text.Recased n.text w) :
    ∃ n' : Numeral, n'.WellFormed ∧ n'.text = w ∧ Token.numberValue? n' = Token.numberValue? n := by
  rw [text_eq, ← List.append_assoc, ← List.append_assoc, List.append_assoc _ n.whole] at h
  obtain ⟨u, v, rfl, hu, hv⟩ := h.append_inv
  obtain rfl := hu.eq_of_not_letters hn.not_letter_front
  cases he : n.exponent with
  | none =>
    rw [he] at hv
    cases hv
    exact ⟨n, hn, by rw [text_eq, he]; simp, rfl⟩
  | some e =>
    have hwf := hn.exponent e he
    rw [he, Option.elim, Exponent.text] at hv
    obtain ⟨m, v, hm, hrest, rfl⟩ := List.forall₂_cons_left_iff.mp hv
    obtain rfl := Text.Recased.eq_of_not_letters hrest fun c hc => by
      rcases List.mem_append.mp hc with hc | hc
      · rcases hwf.sign c (by simpa using hc) with rfl | rfl <;> decide
      · exact not_letter_of_isDigit (hwf.digits c hc)
    refine ⟨{ n with exponent := some { e with mark := m } }, ?_, ?_, ?_⟩
    · refine { hn with exponent := ?_ }
      rintro _ ⟨⟩
      exact { hwf with mark := hwf.mark.recased hm }
    · rw [text_eq]
      simp [Exponent.text]
    · simp only [Token.numberValue?, toNumber?, isInteger, he, Option.map_some, Exponent.value,
        Option.isNone_some]

end Numeral

namespace Token

variable {o : ParserOptions} {before before' : Option CodeUnit} {pos : Nat} {a b : CodeUnit}
  {t t' r r' w w' : Text} {k : Kind} {ts : List Token}

/-! ### Units -/

theorem isWordUnit_of_letter (h : a.isAsciiLetter) : o.isWordUnit a :=
  ParserOptions.isWordUnit_of_isNameUnit (ParserOptions.isNameUnit_of_letter h)

theorem isWordUnit_recased (h : a.asciiLower = b.asciiLower) : o.isWordUnit a = o.isWordUnit b :=
  class_eq (fun _ hc => isWordUnit_of_letter hc) h

theorem isBlank_recased (h : a.asciiLower = b.asciiLower) : a.isBlank = b.isBlank :=
  class_eq (fun _ hc => Bool.eq_false_iff.mpr
    (not_isBlank_of_isLetterOrNumber (isLetterOrNumber_of_letter hc))) h

theorem ofPunctuation?_recased (h : a.asciiLower = b.asciiLower) :
    Kind.ofPunctuation? a = Kind.ofPunctuation? b :=
  class_eq (fun _ hc => (no_mark (isWordUnit_of_letter hc)).1) h

theorem not_letter_of_ofPunctuation? (h : Kind.ofPunctuation? a = some k) : a.isAsciiLetter = false :=
  Bool.eq_false_iff.mpr fun hl => by
    rw [(no_mark (isWordUnit_of_letter hl)).1] at h
    cases h

theorem getLast?_recased (h : Text.Recased w w') :
    w.getLast?.any o.isWordUnit = w'.getLast?.any o.isWordUnit := by
  induction h with
  | nil => rfl
  | cons hab h ih =>
    cases h with
    | nil => exact isWordUnit_recased hab
    | cons => rwa [List.getLast?_cons_cons, List.getLast?_cons_cons]

theorem ofWord_recased (h : Text.Recased w w') : Kind.ofWord w = Kind.ofWord w' := by
  rw [Kind.ofWord, Kind.ofWord, h.lower_eq]

/-! ### Tokens -/

/-- A string in quotes. -/
def IsString (x : Token) : Prop := ∃ v, x.kind = .value (.str v)

/-- Tokens of one kind at one place, whose texts differ in letter case at most. -/
structure Recased (x x' : Token) : Prop where
  kind : x'.kind = x.kind
  position : x'.position = x.position
  text : Text.Recased x.text x'.text

theorem Shaped.recased (h : Shaped o w k) (hw : Text.Recased w w')
    (hstring : ∀ v, k = .value (.str v) → w = w') : Shaped o w' k := by
  cases h with
  | string hv =>
    obtain rfl := hstring _ rfl
    exact .string hv
  | number hn hx =>
    obtain ⟨n', hn', rfl, hval⟩ := hn.recased hw
    exact .number hn' (hval.trans hx)
  | word hblank hc hquote hunits hn =>
    rw [ofWord_recased hw]
    obtain ⟨c', v', hcc, -, rfl⟩ := List.forall₂_cons_left_iff.mp hw
    refine .word (isBlank_recased hcc ▸ hblank) (ofPunctuation?_recased hcc ▸ hc) ?_ ?_ ?_
    · rintro rfl
      exact hquote (eq_of_not_letter hcc.symm (by decide)).symm
    · intro d hd
      obtain ⟨e, he, hde⟩ := hw.exists_mem hd
      rw [← isWordUnit_recased hde]
      exact hunits e he
    · rintro n hwf htext
      obtain ⟨n', hn', htext', -⟩ := hwf.recased (htext ▸ hw.symm)
      exact hn n' hn' htext'

theorem Parted.recased (h : Parted o r) (hr : Text.Recased r r') : Parted o r' := by
  cases hr with
  | nil => exact .nil
  | @cons c d _ _ hcd =>
    obtain ⟨hword, hend⟩ := h c rfl
    have hletter : c.isAsciiLetter = false := Bool.eq_false_iff.mpr fun hl => by
      rw [isWordUnit_of_letter hl] at hword
      cases hword
    obtain rfl := eq_of_not_letter hcd hletter
    rintro _ ⟨⟩
    exact ⟨hword, hend⟩

theorem Spelled.recased (h : Spelled o before pos t ts) (ht : Text.Recased t t')
    (hbefore : before.any o.isWordUnit = before'.any o.isWordUnit)
    (hstring : ∀ x ∈ ts, x.IsString → ∀ i, x.Covers (pos + i) → t'[i]? = t[i]?) :
    ∃ ts', Spelled o before' pos t' ts' ∧ List.Forall₂ Recased ts ts' := by
  induction h generalizing t' before' with
  | nil =>
    cases ht
    exact ⟨[], .nil, .nil⟩
  | @blank _ _ c _ _ hc _ ih =>
    obtain ⟨d, rest', hcd, hrest, rfl⟩ := List.forall₂_cons_left_iff.mp ht
    have hword : (some c).any o.isWordUnit = (some d).any o.isWordUnit := isWordUnit_recased hcd
    obtain ⟨ts', hts', hall⟩ := ih hrest hword fun x hx hs i hi => by
      simpa using hstring x hx hs (i + 1) (by rwa [Nat.add_comm i, ← Nat.add_assoc])
    exact ⟨ts', .blank (isBlank_recased hcd ▸ hc) hts', hall⟩
  | @mark _ _ c _ k _ hc _ ih =>
    obtain ⟨d, rest', hcd, hrest, rfl⟩ := List.forall₂_cons_left_iff.mp ht
    obtain rfl := eq_of_not_letter hcd (not_letter_of_ofPunctuation? hc)
    obtain ⟨ts', hts', hall⟩ := ih hrest rfl fun x hx hs i hi => by
      simpa using hstring x (List.mem_cons_of_mem _ hx) hs (i + 1)
        (by rwa [Nat.add_comm i, ← Nat.add_assoc])
    exact ⟨_, .mark hc hts', .cons ⟨rfl, rfl, .refl _⟩ hall⟩
  | @piece before pos w r k ts hw hb hr _ ih =>
    obtain ⟨w', r', rfl, hww, hrr⟩ := ht.append_inv
    have hlen : w.length = w'.length := hww.length_eq
    have hsame : ∀ v, k = .value (.str v) → w = w' := by
      intro v hk
      refine List.ext_getElem? fun i => ?_
      rcases Nat.lt_or_ge i w.length with hi | hi
      · have := hstring _ (List.mem_cons_self ..) ⟨v, hk⟩ i ⟨by simp, by simpa using hi⟩
        rw [List.getElem?_append_left hi, List.getElem?_append_left (hlen ▸ hi)] at this
        exact this.symm
      · rw [List.getElem?_eq_none hi, List.getElem?_eq_none (hlen ▸ hi)]
    obtain ⟨ts', hts', hall⟩ := ih hrr (getLast?_recased hww) fun x hx hs i hi => by
      have := hstring x (List.mem_cons_of_mem _ hx) hs (w.length + i) (by rwa [← Nat.add_assoc])
      rwa [List.getElem?_append_right (by omega), List.getElem?_append_right (by omega), ← hlen,
        Nat.add_sub_cancel_left] at this
    refine ⟨⟨k, w', pos⟩ :: ts', .piece (hw.recased hww hsame) (fun hq => ?_) (hr.recased hrr) ?_,
      .cons ⟨rfl, rfl, hww⟩ hall⟩
    · exact hbefore ▸ hb (hww.head?_eq (by decide) hq)
    · rwa [← hlen]

end Token

end Scim
