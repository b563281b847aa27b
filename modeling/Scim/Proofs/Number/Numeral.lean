import Scim.Number.Numeral
import Scim.Proofs.Text.Split

/-!
# The grammar of numerals

`Numeral.WellFormed` says which numerals can be written. `Numeral.scan?` takes a well-formed numeral
off the front of a text (`scan?_sound`), and takes it whole where nothing follows that could belong
to it (`WellFormed.scan?_append`). Text behind a text can only carry on a numeral that goes up to
its end, or to a point or exponent that is broken off there (`scan?_append_cases`); a unit foreign to
numerals has no influence (`scan?_append_foreign`).
-/

namespace Scim

open CodeUnit

namespace CodeUnit

/-- The mark of an exponent. -/
def IsExponentMark (c : CodeUnit) : Prop := c = 0x65 ∨ c = 0x45

/-- A unit that occurs in numerals. -/
def IsNumeralUnit (c : CodeUnit) : Prop :=
  c.isDigit ∨ c = minus ∨ c = plus ∨ c = dot ∨ c.IsExponentMark

instance (c : CodeUnit) : Decidable c.IsNumeralUnit := by
  unfold IsNumeralUnit IsExponentMark; infer_instance

end CodeUnit

/-- A mark, at most a sign, and at least one digit. -/
structure Exponent.WellFormed (e : Exponent) : Prop where
  mark : e.mark.IsExponentMark
  sign : ∀ s ∈ e.sign, s = plus ∨ s = minus
  digits_ne : e.digits ≠ []
  digits : ∀ c ∈ e.digits, c.isDigit

/-- `"-"? ("0" | nonzero digit*) ("." digit+)? exponent?` -/
structure Numeral.WellFormed (n : Numeral) : Prop where
  whole_ne : n.whole ≠ []
  whole : ∀ c ∈ n.whole, c.isDigit
  whole_zero : n.whole.head? = some zero → n.whole = [zero]
  fraction : ∀ c ∈ n.fraction, c.isDigit
  exponent : ∀ e ∈ n.exponent, e.WellFormed

variable {t r b : Text}

/-- No digit stands at the front. -/
def NoDigit (r : Text) : Prop := ∀ c ∈ r.head?, c.isDigit = false

theorem mem_takeWhile_isDigit {c : CodeUnit} (h : c ∈ t.takeWhile isDigit) : c.isDigit :=
  List.all_eq_true.mp (List.all_takeWhile ..) c h

/-! ### Exponents -/

namespace Exponent

def signOf (t : Text) : Option CodeUnit := t.head?.filter fun s => s = plus || s = minus

def afterSign (t : Text) : Text := if (signOf t).isSome then t.drop 1 else t

theorem scan_cons {c : CodeUnit} (hc : c.IsExponentMark) (rest : Text) : scan (c :: rest) =
    if ((afterSign rest).takeWhile isDigit).isEmpty then (none, c :: rest)
    else (some ⟨c, signOf rest, (afterSign rest).takeWhile isDigit⟩,
      (afterSign rest).dropWhile isDigit) := by
  rw [scan, if_pos (by simpa [IsExponentMark] using hc)]; rfl

theorem scan_of_head (h : ∀ c ∈ t.head?, ¬ c.IsExponentMark) : scan t = (none, t) := by
  cases t with
  | nil => rfl
  | cons c rest =>
    have hc : ¬ (c = 0x65 ∨ c = 0x45) := h c rfl
    rw [scan, if_neg (by simpa using hc)]

theorem signOf_toList_append (t : Text) : (signOf t).toList ++ afterSign t = t := by
  unfold afterSign signOf
  cases t with
  | nil => rfl
  | cons s rest =>
    by_cases hs : s = plus ∨ s = minus
    · simp [Option.filter, hs]
    · simp [Option.filter, hs]

theorem sign_of_mem {s : CodeUnit} (h : s ∈ signOf t) : s = plus ∨ s = minus := by
  simpa using (Option.filter_eq_some_iff.mp h).2

theorem signOf_of_head (h : ∀ c ∈ t.head?, c ≠ plus ∧ c ≠ minus) :
    signOf t = none ∧ afterSign t = t := by
  have hs : signOf t = none := Option.filter_eq_none_iff.mpr fun c hc => by simpa using h c hc
  exact ⟨hs, by rw [afterSign, hs]; rfl⟩

theorem scan_sound (t : Text) :
    t = (scan t).1.elim [] text ++ (scan t).2 ∧ ∀ e ∈ (scan t).1, e.WellFormed := by
  cases t with
  | nil => exact ⟨rfl, by simp [scan]⟩
  | cons c rest =>
    by_cases hc : c.IsExponentMark
    · rw [scan_cons hc]
      split_ifs with hd
      · exact ⟨rfl, by simp⟩
      · refine ⟨?_, ?_⟩
        · simp only [Option.elim, text, List.cons_append, List.append_assoc,
            List.takeWhile_append_dropWhile, signOf_toList_append]
        · rintro e ⟨⟩
          exact ⟨hc, fun s hs => sign_of_mem hs, by simpa using hd, fun c => mem_takeWhile_isDigit⟩
    · rw [scan_of_head (by rintro _ ⟨⟩; exact hc)]
      exact ⟨rfl, by simp⟩

theorem WellFormed.scan_append {e : Exponent} (he : e.WellFormed) (hr : NoDigit r) :
    scan (e.text ++ r) = (some e, r) := by
  obtain ⟨d, ds, hd⟩ := List.exists_cons_of_ne_nil he.digits_ne
  have hdigit : d.isDigit := he.digits d (by rw [hd]; simp)
  have htake := Text.takeWhile_append_of he.digits hr
  have hsign : signOf (e.sign.toList ++ e.digits ++ r) = e.sign ∧
      afterSign (e.sign.toList ++ e.digits ++ r) = e.digits ++ r := by
    cases hs : e.sign with
    | none =>
      refine signOf_of_head ?_
      rw [hd]
      rintro _ ⟨⟩
      constructor <;> rintro rfl <;> exact absurd hdigit (by decide)
    | some s =>
      have := he.sign s hs
      have h1 : signOf ((some s).toList ++ e.digits ++ r) = some s := by
        simp [signOf, Option.filter, this]
      exact ⟨h1, by rw [afterSign, h1]; rfl⟩
  rw [text, List.cons_append, scan_cons he.mark, hsign.1, hsign.2, htake.1, htake.2,
    if_neg (by simpa using he.digits_ne)]

theorem scan_of_none (h : (scan t).1 = none) : (scan t).2 = t := by
  have ht := (scan_sound t).1
  rw [h] at ht
  exact ht.symm

theorem WellFormed.length_text {e : Exponent} (he : e.WellFormed) :
    e.text.length = 1 + e.sign.toList.length + e.digits.length ∧ 0 < e.digits.length := by
  refine ⟨?_, List.length_pos_iff.mpr he.digits_ne⟩
  rw [text, List.length_cons, List.length_append]
  omega

/-- Text behind `t` can only carry on an exponent that takes up all of `t`. -/
theorem scan_append_cases (t b : Text) :
    scan (t ++ b) = ((scan t).1, (scan t).2 ++ b) ∨
      (∃ e, (scan (t ++ b)).1 = some e ∧ t.length < e.text.length) ∧
        ∀ c ∈ (scan t).2.head?, c.IsExponentMark := by
  by_cases hnone : (scan (t ++ b)).1 = none ∧ (scan t).1 = none
  · refine .inl (Prod.ext (hnone.1.trans hnone.2.symm) ?_)
    rw [scan_of_none hnone.1, scan_of_none hnone.2]
  cases t with
  | nil =>
    obtain ⟨e, he⟩ := Option.ne_none_iff_exists'.mp fun h => hnone ⟨h, rfl⟩
    have hlen := ((scan_sound b).2 e he).length_text
    refine .inr ⟨⟨e, he, ?_⟩, by rintro c ⟨⟩⟩
    simp only [List.length_nil]
    omega
  | cons c rest =>
    have hmark : c.IsExponentMark ∨ ¬ c.IsExponentMark := em _
    rcases hmark with hc | hc
    · cases rest with
      | nil =>
        obtain ⟨e, he⟩ := Option.ne_none_iff_exists'.mp fun h => hnone ⟨h, by rw [scan_cons hc]; rfl⟩
        have hlen := ((scan_sound ([c] ++ b)).2 e he).length_text
        refine .inr ⟨⟨e, he, ?_⟩, by rw [scan_cons hc]; rintro _ ⟨⟩; exact hc⟩
        simp only [List.length_singleton]
        omega
      | cons s rest =>
        have hsign : signOf (s :: rest ++ b) = signOf (s :: rest) := rfl
        have hafter : afterSign (s :: rest ++ b) = afterSign (s :: rest) ++ b := by
          rw [afterSign, afterSign, hsign]
          split_ifs <;> rfl
        rw [List.cons_append, scan_cons hc, scan_cons hc, hsign, hafter]
        rcases Text.takeWhile_append_cases isDigit (afterSign (s :: rest)) b with
          ⟨htake, hdrop⟩ | ⟨hall, hb, htake⟩
        · rw [htake, hdrop]
          refine .inl ?_
          split_ifs <;> rfl
        · rw [htake, if_neg (by simp [hb])]
          have hlen := congrArg List.length (signOf_toList_append (s :: rest))
          have hpos := List.length_pos_iff.mpr hb
          rw [List.length_append] at hlen
          refine .inr ⟨⟨_, rfl, ?_⟩, ?_⟩
          · simp only [text, List.length_cons, List.length_append] at hlen ⊢
            omega
          · split_ifs
            · rintro _ ⟨⟩; exact hc
            · rw [List.dropWhile_eq_nil_iff.mpr hall]; rintro _ ⟨⟩
    · have hstay : ∀ u, scan (c :: u) = (none, c :: u) := fun u =>
        scan_of_head (by rintro _ ⟨⟩; exact hc)
      exact .inl (by rw [List.cons_append, hstay, hstay]; rfl)

end Exponent

/-! ### Digits before and after the point -/

namespace Numeral

theorem scanWhole?_sound {w : Text} (h : scanWhole? t = some (w, r)) :
    t = w ++ r ∧ w ≠ [] ∧ (∀ c ∈ w, c.isDigit) ∧ (w.head? = some zero → w = [zero]) := by
  rw [scanWhole?] at h
  split_ifs at h with hz hd
  · cases h
    cases t with
    | nil => cases hz
    | cons c rest =>
      cases hz
      exact ⟨rfl, by simp, by simp; decide, fun _ => rfl⟩
  · cases h
    refine ⟨List.takeWhile_append_dropWhile.symm, by simpa using hd,
      fun c => mem_takeWhile_isDigit, fun h => ?_⟩
    cases t with
    | nil => cases h
    | cons c rest =>
      rw [List.takeWhile_cons] at h
      split at h
      · exact absurd h hz
      · cases h

theorem scanWhole?_append {w : Text} (hne : w ≠ []) (hw : ∀ c ∈ w, c.isDigit)
    (hz : w.head? = some zero → w = [zero]) (hr : NoDigit r) :
    scanWhole? (w ++ r) = some (w, r) := by
  have hhead : (w ++ r).head? = w.head? := by
    obtain ⟨c, w, rfl⟩ := List.exists_cons_of_ne_nil hne
    rfl
  rw [scanWhole?, hhead]
  split_ifs with h0 hd
  · rw [hz h0]; rfl
  · rw [(Text.takeWhile_append_of hw hr).1] at hd
    exact absurd (List.isEmpty_iff.mp hd) hne
  · rw [(Text.takeWhile_append_of hw hr).1, (Text.takeWhile_append_of hw hr).2]

/-- Text behind `t` can only carry on digits that take up all of `t`. -/
theorem scanWhole?_append_cases (t b : Text) :
    scanWhole? (t ++ b) = (scanWhole? t).map (fun x => (x.1, x.2 ++ b)) ∨
      (∃ x, scanWhole? (t ++ b) = some x ∧ t.length < x.1.length) ∧
        ∀ x ∈ scanWhole? t, x.2 = [] := by
  cases t with
  | nil =>
    cases hb : scanWhole? b with
    | none => exact .inl hb
    | some x =>
      refine .inr ⟨⟨x, hb, ?_⟩, by rintro x ⟨⟩⟩
      exact List.length_pos_iff.mpr (scanWhole?_sound hb).2.1
  | cons c t =>
    have hhead : (c :: t ++ b).head? = (c :: t).head? := rfl
    rw [scanWhole?, scanWhole?, hhead]
    by_cases hz : (c :: t).head? = some zero
    · exact .inl (by rw [if_pos hz, if_pos hz]; rfl)
    rw [if_neg hz, if_neg hz]
    rcases Text.takeWhile_append_cases isDigit (c :: t) b with ⟨htake, hdrop⟩ | ⟨hall, hb, htake⟩
    · rw [htake, hdrop]
      refine .inl ?_
      split_ifs <;> rfl
    · rw [htake, if_neg (by simp)]
      refine .inr ⟨⟨_, rfl, ?_⟩, ?_⟩
      · rw [List.length_append]
        exact Nat.lt_add_of_pos_right (List.length_pos_iff.mpr hb)
      · rw [List.dropWhile_eq_nil_iff.mpr hall]
        split_ifs
        · rintro x ⟨⟩
        · rintro x ⟨⟩; rfl

/-- A fraction with its point; an empty one is not written. -/
def pointed (digits : Text) : Text := if digits.isEmpty then [] else dot :: digits

theorem scanFraction_sound (t : Text) :
    t = pointed (scanFraction t).1 ++ (scanFraction t).2 ∧ ∀ c ∈ (scanFraction t).1, c.isDigit := by
  simp only [scanFraction]
  split_ifs with h
  · simp only [Bool.and_eq_true, decide_eq_true_eq, Bool.not_eq_true'] at h
    refine ⟨?_, fun c => mem_takeWhile_isDigit⟩
    cases t with
    | nil => cases h.1
    | cons c rest =>
      cases h.1
      rw [pointed, if_neg (by rw [h.2]; simp), List.cons_append]
      exact congrArg _ List.takeWhile_append_dropWhile.symm
  · exact ⟨rfl, by simp⟩

theorem scanFraction_append {f : Text} (hf : ∀ c ∈ f, c.isDigit) (hr : NoDigit r)
    (hdot : r.head? ≠ some dot) : scanFraction (pointed f ++ r) = (f, r) := by
  cases f with
  | nil =>
    have : pointed [] ++ r = r := rfl
    rw [this, scanFraction]
    simp [hdot]
  | cons d f =>
    have htake := Text.takeWhile_append_of hf hr
    have : pointed (d :: f) ++ r = dot :: (d :: f ++ r) := rfl
    rw [this, scanFraction]
    simp only [List.drop_one, List.tail_cons, htake.1, htake.2]
    rfl

theorem scanFraction_of_none (h : (scanFraction t).1 = []) : (scanFraction t).2 = t := by
  have ht := (scanFraction_sound t).1
  rw [h] at ht
  exact ht.symm

/-- Text behind `t` can only carry on a fraction that takes up all of `t`. -/
theorem scanFraction_append_cases (t b : Text) :
    scanFraction (t ++ b) = ((scanFraction t).1, (scanFraction t).2 ++ b) ∨
      t.length < (pointed (scanFraction (t ++ b)).1).length ∧
        ∀ c ∈ (scanFraction t).2.head?, c = dot := by
  cases t with
  | nil =>
    by_cases hb : (scanFraction b).1 = []
    · exact .inl (Prod.ext hb (scanFraction_of_none hb))
    · refine .inr ⟨?_, by rintro c ⟨⟩⟩
      simp [pointed, hb]
  | cons c rest =>
    simp only [scanFraction, List.cons_append, List.drop_one, List.tail_cons, List.head?_cons]
    by_cases hc : c = dot
    · subst hc
      rcases Text.takeWhile_append_cases isDigit rest b with ⟨htake, hdrop⟩ | ⟨hall, hb, htake⟩
      · rw [htake, hdrop]
        refine .inl ?_
        by_cases hd : rest.takeWhile isDigit = []
        · simp [hd]
        · simp [hd]
      · have hpos := List.length_pos_iff.mpr hb
        rw [htake, if_pos (by simp [hb])]
        refine .inr ⟨?_, ?_⟩
        · rw [pointed, if_neg (by simp [hb])]
          simp only [List.length_cons, List.length_append]
          omega
        · rw [List.dropWhile_eq_nil_iff.mpr hall]
          split_ifs
          · rintro _ ⟨⟩
          · rintro _ ⟨⟩; rfl
    · exact .inl (by simp [hc])

/-! ### Numerals -/

theorem text_eq (n : Numeral) : n.text =
    (if n.negative then [minus] else []) ++ (n.whole ++ (pointed n.fraction ++
      n.exponent.elim [] Exponent.text)) := by
  rw [text, List.append_assoc, List.append_assoc, pointed]
  cases n.exponent <;> rfl

theorem length_text (n : Numeral) : n.text.length = (if n.negative then 1 else 0) +
    n.whole.length + (pointed n.fraction).length + (n.exponent.elim [] Exponent.text).length := by
  rw [text_eq, List.length_append, List.length_append, List.length_append]
  split_ifs
  · rw [List.length_singleton]; omega
  · rw [List.length_nil]; omega

theorem scan?_eq (t : Text) : scan? t =
    (scanWhole? (if t.head? == some minus then t.drop 1 else t)).map fun x =>
      (⟨t.head? == some minus, x.1, (scanFraction x.2).1, (Exponent.scan (scanFraction x.2).2).1⟩,
        (Exponent.scan (scanFraction x.2).2).2) := by
  rw [scan?]
  cases scanWhole? (if t.head? == some minus then t.drop 1 else t) <;> rfl

theorem scan?_sound {n : Numeral} (h : scan? t = some (n, r)) : t = n.text ++ r ∧ n.WellFormed := by
  rw [scan?_eq] at h
  obtain ⟨⟨w, u⟩, hw, he⟩ := Option.map_eq_some_iff.mp h
  cases he
  obtain ⟨hsplit, hne, hdigits, hz⟩ := scanWhole?_sound hw
  have hf := scanFraction_sound u
  have he := Exponent.scan_sound (scanFraction u).2
  refine ⟨?_, hne, hdigits, hz, hf.2, he.2⟩
  have hsign : t = (if t.head? == some minus then [minus] else []) ++
      (if t.head? == some minus then t.drop 1 else t) := by
    split_ifs with hm
    · cases t with
      | nil => cases hm
      | cons c t => rw [(by simpa using hm : c = minus)]; rfl
    · rfl
  rw [text_eq]
  calc t = _ ++ (w ++ u) := hsign.trans (by rw [hsplit])
    _ = _ ++ (w ++ (pointed (scanFraction u).1 ++ ((Exponent.scan (scanFraction u).2).1.elim []
          Exponent.text ++ (Exponent.scan (scanFraction u).2).2))) := by rw [← he.1, ← hf.1]
    _ = _ := by simp only [List.append_assoc]

theorem WellFormed.head_whole {n : Numeral} (hn : n.WellFormed) :
    ∃ c w, n.whole = c :: w ∧ c.isDigit ∧ c ≠ minus := by
  obtain ⟨c, w, hw⟩ := List.exists_cons_of_ne_nil hn.whole_ne
  have hc : c.isDigit := hn.whole c (by rw [hw]; simp)
  exact ⟨c, w, hw, hc, by rintro rfl; exact absurd hc (by decide)⟩

theorem head?_exponent_append {e : Option Exponent} (he : ∀ x ∈ e, x.WellFormed)
    (hr : ∀ c ∈ r.head?, c.isDigit = false ∧ c ≠ dot) :
    ∀ c ∈ (e.elim [] Exponent.text ++ r).head?, c.isDigit = false ∧ c ≠ dot := by
  cases e with
  | none => exact hr
  | some x =>
    rintro _ ⟨⟩
    rcases (he x rfl).mark with h | h <;> rw [h] <;> decide

theorem WellFormed.scan?_append {n : Numeral} (hn : n.WellFormed)
    (hr : ∀ c ∈ r.head?, c.isDigit = false ∧ c ≠ dot ∧ ¬ c.IsExponentMark) :
    scan? (n.text ++ r) = some (n, r) := by
  obtain ⟨c, w, hw, hc, hminus⟩ := hn.head_whole
  have hdigit : NoDigit r := fun c hc => (hr c hc).1
  have hexp := head?_exponent_append hn.exponent fun c hc => ⟨(hr c hc).1, (hr c hc).2.1⟩
  have hscan : Exponent.scan (n.exponent.elim [] Exponent.text ++ r) = (n.exponent, r) := by
    cases he : n.exponent with
    | none => exact Exponent.scan_of_head fun c hc => (hr c hc).2.2
    | some e => exact (hn.exponent e he).scan_append hdigit
  have hfrac : scanFraction (pointed n.fraction ++ (n.exponent.elim [] Exponent.text ++ r)) =
      (n.fraction, n.exponent.elim [] Exponent.text ++ r) :=
    scanFraction_append hn.fraction (fun c hc => (hexp c hc).1) fun h => (hexp dot h).2 rfl
  have hpoint : NoDigit (pointed n.fraction ++ (n.exponent.elim [] Exponent.text ++ r)) := by
    cases n.fraction with
    | nil => exact fun c hc => (hexp c hc).1
    | cons d f => rintro _ ⟨⟩; decide
  have hwhole := scanWhole?_append hn.whole_ne hn.whole hn.whole_zero hpoint
  have hstart : scanWhole? (if (n.text ++ r).head? == some minus then (n.text ++ r).drop 1
      else n.text ++ r) = some (n.whole, pointed n.fraction ++ (n.exponent.elim [] Exponent.text ++ r)) ∧
      ((n.text ++ r).head? == some minus) = n.negative := by
    rw [text_eq]
    cases hneg : n.negative with
    | true => simpa using hwhole
    | false =>
      rw [hw] at hwhole
      simpa [hw, hminus] using hwhole
  rw [scan?_eq, hstart.1, hstart.2, Option.map_some, hfrac, hscan]

theorem WellFormed.isNumeralUnit {n : Numeral} (hn : n.WellFormed) {c : CodeUnit}
    (hc : c ∈ n.text) : c.IsNumeralUnit := by
  rw [text_eq] at hc
  simp only [List.mem_append] at hc
  rcases hc with hc | hc | hc | hc
  · split_ifs at hc
    · rw [List.mem_singleton.mp hc]; decide
    · cases hc
  · exact .inl (hn.whole c hc)
  · unfold pointed at hc
    split_ifs at hc
    · cases hc
    · rcases List.mem_cons.mp hc with rfl | hc
      · decide
      · exact .inl (hn.fraction c hc)
  · cases he : n.exponent with
    | none => rw [he] at hc; cases hc
    | some e =>
      have hwf := hn.exponent e he
      rw [he] at hc
      rcases List.mem_cons.mp hc with rfl | hc
      · exact .inr (.inr (.inr (.inr hwf.mark)))
      · rcases List.mem_append.mp hc with hc | hc
        · rcases hwf.sign c (by simpa using hc) with rfl | rfl <;> decide
        · exact .inl (hwf.digits c hc)

/-! ### In front of other text -/

/-- Text behind `t` can only carry on a numeral that takes up all of `t`, or all but a point or the
mark of an exponent and what follows it. -/
theorem scan?_append_cases (t b : Text) :
    scan? (t ++ b) = (scan? t).map (fun x => (x.1, x.2 ++ b)) ∨
      (∃ n r, scan? (t ++ b) = some (n, r) ∧ t.length < n.text.length) ∧
        ∀ n r, scan? t = some (n, r) → ∀ c ∈ r.head?, c = dot ∨ c.IsExponentMark := by
  cases t with
  | nil =>
    cases hb : scan? b with
    | none => exact .inl hb
    | some x =>
      obtain ⟨c, w, hw, -⟩ := (scan?_sound hb).2.head_whole
      refine .inr ⟨⟨x.1, x.2, hb, ?_⟩, by rintro n r ⟨⟩⟩
      rw [length_text, hw, List.length_cons, List.length_nil]
      omega
  | cons c rest =>
    obtain ⟨u, hu⟩ : ∃ u, u = if (c :: rest).head? == some minus then rest else c :: rest := ⟨_, rfl⟩
    have hbehind : (if (c :: rest ++ b).head? == some minus then (c :: rest ++ b).drop 1
        else c :: rest ++ b) = u ++ b := by
      rw [hu, apply_ite (· ++ b)]; rfl
    have hlen : (c :: rest).length =
        (if (c :: rest).head? == some minus then 1 else 0) + u.length := by
      rw [hu]
      split_ifs
      · rw [List.length_cons]; omega
      · omega
    have hhead : (c :: rest ++ b).head? = (c :: rest).head? := rfl
    rw [scan?_eq (c :: rest ++ b), hbehind, hhead, scan?_eq (c :: rest), List.drop_one, List.tail_cons,
      ← hu]
    rcases scanWhole?_append_cases u b with hwhole | ⟨⟨x, hx, hlong⟩, hend⟩
    · cases hw : scanWhole? u with
      | none => exact .inl (by rw [hwhole, hw]; rfl)
      | some x =>
        obtain ⟨w, v⟩ := x
        have hsplit := congrArg List.length (scanWhole?_sound hw).1
        rw [List.length_append] at hsplit
        rw [hwhole, hw, Option.map_some, Option.map_some, Option.map_some]
        rcases scanFraction_append_cases v b with hfrac | ⟨hlong, hdot⟩
        · have hsplit' := congrArg List.length (scanFraction_sound v).1
          rw [List.length_append] at hsplit'
          rw [hfrac]
          rcases Exponent.scan_append_cases (scanFraction v).2 b with hexp | ⟨⟨e, he, hlong⟩, hmark⟩
          · exact .inl (by rw [hexp]; rfl)
          · refine .inr ⟨⟨_, _, rfl, ?_⟩, ?_⟩
            · rw [length_text, hlen, he]
              simp only [Option.elim]
              omega
            · rintro n r ⟨⟩ c hc
              exact .inr (hmark c hc)
        · refine .inr ⟨⟨_, _, rfl, ?_⟩, ?_⟩
          · rw [length_text, hlen]
            simp only
            omega
          · -- The point stops the exponent as well.
            have hstop : Exponent.scan (scanFraction v).2 = (none, (scanFraction v).2) :=
              Exponent.scan_of_head fun c hc => by
                rw [hdot c hc]
                rintro (h | h) <;> exact absurd h (by decide)
            rintro n r ⟨⟩ c hc
            rw [hstop] at hc
            exact .inl (hdot c hc)
    · refine .inr ⟨⟨_, _, by rw [hx]; rfl, ?_⟩, ?_⟩
      · rw [length_text, hlen]
        simp only
        omega
      · intro n r h
        obtain ⟨x', hx', he⟩ := Option.map_eq_some_iff.mp h
        cases he
        rw [hend x' hx']
        rintro c ⟨⟩

theorem scan?_append_foreign (hb : ∀ c ∈ b.head?, ¬ c.IsNumeralUnit) (t : Text) :
    scan? (t ++ b) = (scan? t).map fun x => (x.1, x.2 ++ b) := by
  rcases scan?_append_cases t b with h | ⟨⟨n, r, h, hlong⟩, -⟩
  · exact h
  -- The unit behind `t` would belong to the numeral.
  obtain ⟨htext, hn⟩ := scan?_sound h
  have hmem : (n.text ++ r)[t.length]? = some n.text[t.length] := by
    rw [List.getElem?_append_left hlong, List.getElem?_eq_getElem hlong]
  rw [← htext, List.getElem?_append_right (Nat.le_refl _), Nat.sub_self, ← List.head?_eq_getElem?] at hmem
  exact absurd (hn.isNumeralUnit (List.getElem_mem hlong)) (hb _ hmem)

end Numeral

end Scim
