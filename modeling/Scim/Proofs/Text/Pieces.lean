import Mathlib.Data.List.Forall2
import Scim.Proofs.Text.Quoted

/-!
# The pieces of a quoted string

Between its quotes a string is a row of pieces, each of which stands for one unit (`Piece`): a unit
that is neither quote nor backslash, an escape with one letter, or an escape with four hexadecimal
digits. No piece is the front of another, so there is at most one such row for a text
(`Piece.forall₂_unique`).

From a range of a text a string is read (`readRange`) exactly if such a row stands up to a quote in
the range, and what is written for a text is read back wherever it stands (`read_range`).
-/

namespace Scim.Quoted

open CodeUnit

/-- The letters of the short escapes, with the units that they stand for. -/
def shortEscapes : List (CodeUnit × CodeUnit) :=
  [(quote, quote), (backslash, backslash), (0x2F, 0x2F), (0x62, 0x08), (0x66, 0x0C), (0x6E, 0x0A),
    (0x72, 0x0D), (0x74, 0x09)]

/-- The digit of base sixteen for `n`, in lower or upper case. -/
def IsHexDigit (c : CodeUnit) (n : Nat) : Prop :=
  (Text.ofString "0123456789abcdef")[n]? = some c ∨ (Text.ofString "0123456789ABCDEF")[n]? = some c

instance (c : CodeUnit) (n : Nat) : Decidable (IsHexDigit c n) :=
  inferInstanceAs (Decidable (_ ∨ _))

/-- What one unit may be written as. -/
inductive Piece : Text → CodeUnit → Prop
  | unit {c : CodeUnit} (hq : c ≠ quote) (hb : c ≠ backslash) : Piece [c] c
  | short {e u : CodeUnit} (he : (e, u) ∈ shortEscapes) : Piece [backslash, e] u
  | unicode {a b c d : CodeUnit} {i j k l : Nat} (ha : IsHexDigit a i) (hb : IsHexDigit b j)
    (hc : IsHexDigit c k) (hd : IsHexDigit d l) :
    Piece [backslash, 0x75, a, b, c, d]
      (UInt16.ofNat (((i * 0x10 + j) * 0x10 + k) * 0x10 + l))

variable {t w v s s' p p' x y : Text} {ps ps' : List Text} {a b c c' d e u : CodeUnit} {n : Nat}

/-! ### Escapes -/

theorem unescape?_eq_some_iff : unescape? e = some u ↔ (e, u) ∈ shortEscapes := by
  constructor
  · intro h
    unfold unescape? at h
    split_ifs at h with h1 h2 h3 h4 h5 h6 h7 h8 <;> cases h <;> subst_vars <;> decide
  · intro h
    have hall : shortEscapes.all fun m => unescape? m.1 == some m.2 := by decide
    exact beq_iff_eq.mp (List.all_eq_true.mp hall _ h)

theorem ne_u_of_mem_shortEscapes (h : (e, u) ∈ shortEscapes) : e ≠ 0x75 := by
  have hall : shortEscapes.all fun m => m.1 != 0x75 := by decide
  exact bne_iff_ne.mp (List.all_eq_true.mp hall _ h)

/-- Digits whose units follow one another. -/
theorem isHexDigit_of_row {first base count : Nat}
    (h : ∀ m < count, IsHexDigit (UInt16.ofNat (first + m)) (base + m)) (hlow : first ≤ c.toNat)
    (hhigh : c.toNat < first + count) : IsHexDigit c (base + (c.toNat - first)) := by
  have hc : UInt16.ofNat (first + (c.toNat - first)) = c := by
    rw [Nat.add_sub_cancel' hlow, UInt16.ofNat_toNat]
  have hdigit := h (c.toNat - first) (by omega)
  rwa [hc] at hdigit

theorem hexValue?_eq_some_iff : hexValue? c = some n ↔ IsHexDigit c n := by
  constructor
  · intro h
    have h0 : ∀ m < 10, IsHexDigit (UInt16.ofNat (0x30 + m)) (0 + m) := by decide
    have hA : ∀ m < 6, IsHexDigit (UInt16.ofNat (0x41 + m)) (10 + m) := by decide
    have ha : ∀ m < 6, IsHexDigit (UInt16.ofNat (0x61 + m)) (10 + m) := by decide
    unfold hexValue? at h
    simp only [Bool.and_eq_true, decide_eq_true_eq, UInt16.le_iff_toNat_le] at h
    split_ifs at h with h1 h2 h3 <;> obtain rfl := Option.some.inj h
    · have hdigit := isHexDigit_of_row h0 h1.1 (Nat.lt_succ_of_le h1.2)
      rwa [Nat.zero_add] at hdigit
    · have hlow : 0x41 ≤ c.toNat := h2.1
      have hdigit := isHexDigit_of_row hA hlow (Nat.lt_succ_of_le h2.2)
      rwa [show 10 + (c.toNat - 0x41) = c.toNat - 0x37 by omega] at hdigit
    · have hlow : 0x61 ≤ c.toNat := h3.1
      have hdigit := isHexDigit_of_row ha hlow (Nat.lt_succ_of_le h3.2)
      rwa [show 10 + (c.toNat - 0x61) = c.toNat - 0x57 by omega] at hdigit
  · have hlower : ∀ m < 16,
        ((Text.ofString "0123456789abcdef")[m]?.bind hexValue?) = some m := by decide
    have hupper : ∀ m < 16,
        ((Text.ofString "0123456789ABCDEF")[m]?.bind hexValue?) = some m := by decide
    rintro (h | h)
    · have hread := hlower n (List.getElem?_eq_some_iff.mp h).1
      rwa [h] at hread
    · have hread := hupper n (List.getElem?_eq_some_iff.mp h).1
      rwa [h] at hread

theorem hexUnit?_eq_some_iff : hexUnit? a b c d = some u ↔ ∃ i j k l, IsHexDigit a i ∧
    IsHexDigit b j ∧ IsHexDigit c k ∧ IsHexDigit d l ∧
      UInt16.ofNat (((i * 0x10 + j) * 0x10 + k) * 0x10 + l) = u := by
  simp only [← hexValue?_eq_some_iff]
  unfold hexUnit?
  constructor
  · intro h
    obtain ⟨i, hi, h⟩ := Option.bind_eq_some_iff.mp h
    obtain ⟨j, hj, h⟩ := Option.bind_eq_some_iff.mp h
    obtain ⟨k, hk, h⟩ := Option.bind_eq_some_iff.mp h
    obtain ⟨l, hl, h⟩ := Option.bind_eq_some_iff.mp h
    exact ⟨i, j, k, l, hi, hj, hk, hl, Option.some.inj h⟩
  · rintro ⟨i, j, k, l, hi, hj, hk, hl, rfl⟩
    rw [hi, hj, hk, hl]
    rfl

/-! ### Rows of pieces -/

theorem body_iff : Body w v ↔ ∃ ps : List Text, ps.flatten = w ∧ List.Forall₂ Piece ps v := by
  constructor
  · intro h
    induction h with
    | nil => exact ⟨[], rfl, .nil⟩
    | unit hq hb _ ih =>
      obtain ⟨ps, rfl, hps⟩ := ih
      exact ⟨_ :: ps, rfl, .cons (.unit hq hb) hps⟩
    | short _ hu _ ih =>
      obtain ⟨ps, rfl, hps⟩ := ih
      exact ⟨_ :: ps, rfl, .cons (.short (unescape?_eq_some_iff.mp hu)) hps⟩
    | unicode hu _ ih =>
      obtain ⟨ps, rfl, hps⟩ := ih
      obtain ⟨i, j, k, l, hi, hj, hk, hl, rfl⟩ := hexUnit?_eq_some_iff.mp hu
      exact ⟨_ :: ps, rfl, .cons (.unicode hi hj hk hl) hps⟩
  · rintro ⟨ps, rfl, hps⟩
    induction hps with
    | nil => exact .nil
    | cons hp _ ih =>
      cases hp with
      | unit hq hb => exact .unit hq hb ih
      | short he =>
        exact .short (ne_u_of_mem_shortEscapes he) (unescape?_eq_some_iff.mpr he) ih
      | unicode hi hj hk hl =>
        exact .unicode (hexUnit?_eq_some_iff.mpr ⟨_, _, _, _, hi, hj, hk, hl, rfl⟩) ih

namespace Piece

theorem ne_nil (h : Piece p c) : p ≠ [] := by
  cases h <;> simp

/-- A text starts with at most one piece, which stands for one unit. -/
theorem front (h : Piece p c) (h' : Piece p' c') (heq : p ++ x = p' ++ y) :
    p = p' ∧ c = c' ∧ x = y := by
  cases h with
  | unit hq hb =>
    cases h' with
    | unit _ _ => simpa using heq
    | short _ | unicode _ _ _ _ => exact absurd (List.cons.inj heq).1 hb
  | short he =>
    cases h' with
    | unit _ hb => exact absurd (List.cons.inj heq).1.symm hb
    | short he' =>
      obtain ⟨rfl, rfl⟩ : _ ∧ x = y := by simpa using heq
      rw [← unescape?_eq_some_iff] at he he'
      exact ⟨rfl, Option.some.inj (he.symm.trans he'), rfl⟩
    | unicode _ _ _ _ =>
      have hletter := (List.cons.inj (List.cons.inj heq).2).1
      exact absurd hletter (ne_u_of_mem_shortEscapes he)
  | unicode hi hj hk hl =>
    cases h' with
    | unit _ hb => exact absurd (List.cons.inj heq).1.symm hb
    | short he =>
      have hletter := (List.cons.inj (List.cons.inj heq).2).1
      exact absurd hletter.symm (ne_u_of_mem_shortEscapes he)
    | unicode hi' hj' hk' hl' =>
      obtain ⟨rfl, rfl, rfl, rfl, rfl⟩ : _ ∧ _ ∧ _ ∧ _ ∧ x = y := by simpa using heq
      have hu := hexUnit?_eq_some_iff.mpr ⟨_, _, _, _, hi, hj, hk, hl, rfl⟩
      have hu' := hexUnit?_eq_some_iff.mpr ⟨_, _, _, _, hi', hj', hk', hl', rfl⟩
      exact ⟨rfl, Option.some.inj (hu.symm.trans hu'), rfl⟩

/-- A text is a row of pieces in at most one way. -/
theorem forall₂_unique (h : List.Forall₂ Piece ps s) (h' : List.Forall₂ Piece ps' s')
    (heq : ps.flatten = ps'.flatten) : ps = ps' ∧ s = s' := by
  induction h generalizing ps' s' with
  | nil =>
    cases h' with
    | nil => exact ⟨rfl, rfl⟩
    | cons hp' _ => exact absurd (List.append_eq_nil_iff.mp heq.symm).1 hp'.ne_nil
  | cons hp _ ih =>
    cases h' with
    | nil => exact absurd (List.append_eq_nil_iff.mp heq).1 hp.ne_nil
    | cons hp' hps' =>
      obtain ⟨rfl, rfl, hrest⟩ := hp.front hp' heq
      obtain ⟨rfl, rfl⟩ := ih hps' hrest
      exact ⟨rfl, rfl⟩

end Piece

/-- Two rows of pieces for one text are the same row. -/
theorem body_iff_existsUnique :
    Body w v ↔ ∃! ps : List Text, ps.flatten = w ∧ List.Forall₂ Piece ps v := by
  rw [body_iff]
  constructor
  · rintro ⟨ps, hflatten, hps⟩
    refine ⟨ps, ⟨hflatten, hps⟩, ?_⟩
    rintro ps' ⟨hflatten', hps'⟩
    exact (Piece.forall₂_unique hps' hps (hflatten'.trans hflatten.symm)).1
  · exact ExistsUnique.exists

/-! ### Ranges of a text -/

/-- A range of a text up to some unit in it. -/
theorem slice_eq_append_iff {start stop : Nat} : (t.take stop).drop start = w ++ c :: v ↔
    start + w.length < stop ∧ t[start + w.length]? = some c ∧
      (t.take (start + w.length)).drop start = w ∧ (t.take stop).drop (start + w.length + 1) = v := by
  constructor
  · intro h
    have hlength := congrArg List.length h
    simp only [List.length_drop, List.length_take, List.length_append, List.length_cons] at hlength
    have hfront := congrArg (List.take w.length) h
    rw [List.take_left, List.take_drop, List.take_take, Nat.min_eq_left (by omega)] at hfront
    have hrest := congrArg (List.drop w.length) h
    rw [List.drop_left, List.drop_drop] at hrest
    have hunit := congrArg List.head? hrest
    rw [List.head?_drop, List.getElem?_take_of_lt (by omega)] at hunit
    have htail := congrArg List.tail hrest
    rw [List.tail_drop] at htail
    exact ⟨by omega, hunit, hfront, htail⟩
  · rintro ⟨hlt, hunit, hfront, rfl⟩
    obtain ⟨hlength, hget⟩ := List.getElem?_eq_some_iff.mp hunit
    have hrest : (t.take stop).drop (start + w.length) =
        c :: (t.take stop).drop (start + w.length + 1) := by
      rw [List.drop_eq_getElem_cons (by rw [List.length_take]; omega), List.getElem_take, hget]
    have htake : ((t.take stop).drop start).take w.length = w := by
      rw [List.take_drop, List.take_take, Nat.min_eq_left (by omega), hfront]
    rw [← List.take_append_drop w.length ((t.take stop).drop start), htake, List.drop_drop, hrest]

theorem readRange_iff {start stop : Nat} :
    (∃ r, readRange t start stop = .ok r ∧ r.value = s ∧ start + r.length = n) ↔
      start + 2 ≤ n ∧ n ≤ stop ∧ t[n - 1]? = some quote ∧
        Body ((t.take (n - 1)).drop (start + 1)) s := by
  unfold readRange
  constructor
  · rintro ⟨r, hr, rfl, rfl⟩
    obtain ⟨w, hw, hslice, hlength⟩ := read_eq_ok_iff.mp hr
    obtain ⟨hlt, hunit, hfront, -⟩ := slice_eq_append_iff.mp hslice
    rw [show start + r.length - 1 = start + 1 + w.length by omega, hfront]
    exact ⟨by omega, by omega, hunit, hw⟩
  · rintro ⟨hlow, hhigh, hquote, hbody⟩
    have hlength := (List.getElem?_eq_some_iff.mp hquote).1
    generalize hw : (t.take (n - 1)).drop (start + 1) = w at hbody
    have hn : start + 1 + w.length = n - 1 := by
      rw [← hw, List.length_drop, List.length_take]
      omega
    have hslice : (t.take stop).drop (start + 1) = w ++ quote :: (t.take stop).drop n := by
      refine slice_eq_append_iff.mpr ⟨by omega, hn ▸ hquote, hn ▸ hw, ?_⟩
      rw [hn, Nat.sub_add_cancel (by omega)]
    have hread : read ((t.take stop).drop (start + 1)) =
        .ok ⟨s, w.length + 2, (t.take stop).drop n⟩ :=
      read_eq_ok_iff.mpr ⟨w, hbody, hslice, rfl⟩
    exact ⟨_, hread, rfl, by dsimp only; omega⟩

theorem readRange_encode (s before after : Text) (k : Nat) :
    readRange (before ++ encode s ++ after) before.length ((before ++ encode s).length + k) =
      .ok ⟨s, (encode s).length, after.take k⟩ := by
  have hlength : (encode s).length = (encodeBody s).length + 2 := by simp [encode]
  unfold readRange
  rw [List.take_length_add_append, List.append_assoc, ← List.drop_drop, List.drop_left, hlength]
  show read ((encodeBody s ++ [quote]) ++ after.take k) = _
  rw [List.append_assoc]
  exact read_encode s (after.take k)

/-- From the opening quote at `start` and before `stop` the text `s` is read, up to `n`, exactly if
there is a quote right before `n` and what stands between the quotes is a row of pieces for the
units of `s`, and then in one way only. The written form of any list of units is read back, wherever
it stands and whatever follows it. -/
theorem read_range :
    (∀ (t : Text) (start stop : Nat) (s : Text) (n : Nat),
      (∃ r, readRange t start stop = .ok r ∧ r.value = s ∧ start + r.length = n) ↔
        start + 2 ≤ n ∧ n ≤ stop ∧ t[n - 1]? = some quote ∧
          ∃! ps : List Text,
            ps.flatten = (t.take (n - 1)).drop (start + 1) ∧ List.Forall₂ Piece ps s) ∧
    ∀ (s before after : Text) (k : Nat),
      readRange (before ++ encode s ++ after) before.length ((before ++ encode s).length + k) =
        .ok ⟨s, (encode s).length, after.take k⟩ := by
  refine ⟨fun t start stop s n => ?_, readRange_encode⟩
  rw [readRange_iff, body_iff_existsUnique]

end Scim.Quoted
