import Scim.Proofs.Token.Scan

/-!
# Scanning a range

A range is scanned like the text that it covers, at other positions (`scanFrom_shift`), save for one
thing: a numeral is looked for in the whole text, and one that goes on behind the range is no number
in it. So the two scans agree if and only if no numeral at the end of the range `Continues` behind
it (`scanRange_eq_shifted_iff`); a numeral that does is read as a word. A filter in a path stands in
brackets, where no numeral goes on (`scanRange_of_foreign`).
-/

namespace Scim.Token

open CodeUnit

variable {o : ParserOptions} {beyond : Text} {before : Option CodeUnit} {pos : Nat}

/-! ### Positions -/

/-- What comes of a scan, `k` units further right. -/
def shifted (k : Nat) (r : Except SyntaxFault (List Token)) : Except SyntaxFault (List Token) :=
  (r.map (List.map (shift k))).mapError (SyntaxFault.shift k)

theorem shifted_map_cons (k : Nat) (t : Token) (r : Except SyntaxFault (List Token)) :
    shifted k (r.map (t :: ·)) = (shifted k r).map (shift k t :: ·) := by
  cases r <;> rfl

theorem shifted_injective (k : Nat) : Function.Injective (shifted k) := by
  have htoken : Function.Injective (shift k) := by
    rintro ⟨k1, t1, p1⟩ ⟨k2, t2, p2⟩ h
    simpa [shift] using h
  rintro (f | ts) (f' | ts') h
  · obtain ⟨c, p⟩ := f
    obtain ⟨c', p'⟩ := f'
    simpa [shifted, Except.map, Except.mapError, SyntaxFault.shift] using h
  · cases h
  · cases h
  · exact congrArg _ ((List.map_inj_right fun _ _ ht => htoken ht).mp (Except.ok.inj h))

/-- Where a text stands has no influence but on positions. -/
theorem scanFrom_shift (k : Nat) (t : Text) :
    scanFrom o beyond before (k + pos) t = shifted k (scanFrom o beyond before pos t) := by
  fun_induction scanFrom o beyond before pos t with
  | case1 => rw [scanFrom]; rfl
  | case2 before pos c rest hc ih => rw [scanFrom_blank hc, Nat.add_assoc, ih]
  | case3 before pos c rest hc f hl =>
    rw [scanFrom, if_neg hc, hl]
    simp only [shifted, Except.map, Except.mapError, SyntaxFault.shift, Nat.add_assoc]
  | case4 before pos c rest hc l hl text ih =>
    rw [scanFrom_lexed hc (lexeme_eq_ok_iff.mp hl), Nat.add_assoc, ih, shifted_map_cons]
    rfl

theorem le_position_of_scanFrom {t : Text} {f : SyntaxFault}
    (h : scanFrom o beyond before pos t = .error f) : pos ≤ f.position := by
  fun_induction scanFrom o beyond before pos t with
  | case1 => cases h
  | case2 before pos c rest hc ih => exact Nat.le_of_succ_le (ih h)
  | case3 => cases h; exact Nat.le_add_right ..
  | case4 before pos c rest hc l hl text ih =>
    cases hts : scanFrom o beyond text.getLast? (pos + text.length) (rest.drop l.more) with
    | ok ts => rw [hts] at h; cases h
    | error f' =>
      rw [hts] at h
      cases h
      exact Nat.le_trans (Nat.le_add_right ..) (ih hts)

/-! ### Numerals that go on behind the range -/

/-- The numeral at the front of `text` goes on into the text beyond it. -/
def Continues (beyond text : Text) : Prop :=
  ∃ n r, Numeral.scan? (text ++ beyond) = some (n, r) ∧ text.length < n.text.length

/-- What stands beyond matters only for a numeral that takes up the whole text. -/
theorem numberLexeme?_cases (o : ParserOptions) (beyond t : Text) :
    numberLexeme? o beyond t = numberLexeme? o [] t ∨
      numberLexeme? o beyond t = none ∧ Continues beyond t ∧ ∃ n : Numeral, n.WellFormed ∧ n.text = t := by
  rw [numberLexeme?, numberLexeme?, followedBy_eq, followedBy_eq, List.append_nil]
  rcases Numeral.scan?_append_cases t beyond with h | ⟨⟨m, r, hm, hlong⟩, hbroken⟩
  · rw [h]
    cases Numeral.scan? t <;> exact .inl rfl
  · rw [hm]
    simp only [hlong, decide_true, Bool.true_or, if_true]
    cases hs : Numeral.scan? t with
    | none => exact .inl rfl
    | some x =>
      obtain ⟨n, u⟩ := x
      obtain ⟨htext, hn⟩ := Numeral.scan?_sound hs
      cases u with
      | nil => exact .inr ⟨trivial, ⟨m, r, hm, hlong⟩, n, hn, by rw [htext, List.append_nil]⟩
      | cons c u =>
        -- A point or the mark of an exponent belongs to a word.
        have hc : o.isWordUnit c := by
          rcases hbroken n (c :: u) hs c rfl with rfl | rfl | rfl <;>
            exact ParserOptions.isWordUnit_of_default (by decide)
        left
        simp only [htext, List.drop_left, List.head?_cons, Option.any_some, hc, Bool.or_true, if_true]

theorem lexeme_unit {c : CodeUnit} {rest : Text} (hc : Kind.ofPunctuation? c = none)
    (hq : c ≠ quote) (hw : o.isWordUnit c) : lexeme o beyond before c rest =
      (numberLexeme? o beyond (c :: rest)).getD (.ok ⟨Kind.ofWord (c :: rest.takeWhile o.isWordUnit),
        (rest.takeWhile o.isWordUnit).length⟩) := by
  rw [lexeme, hc]
  simp only [if_neg hq, hw, Bool.not_true, Bool.false_eq_true, if_false]
  cases numberLexeme? o beyond (c :: rest) <;> rfl

theorem lexeme_cases (o : ParserOptions) (beyond : Text) (before : Option CodeUnit) (c : CodeUnit)
    (rest : Text) : lexeme o beyond before c rest = lexeme o [] before c rest ∨
      Continues beyond (c :: rest) ∧ ∃ n : Numeral, n.WellFormed ∧ n.text = c :: rest := by
  rcases numberLexeme?_cases o beyond (c :: rest) with h | ⟨-, h⟩
  · exact .inl (by rw [lexeme, lexeme, h])
  · exact .inr h

theorem ofWord_ne_num (w : Text) (x : Number) : Kind.ofWord w ≠ .value (.num x) := by
  intro h
  rcases value_of_ofWord h with hv | ⟨b, hv⟩ <;> cases hv

theorem exists_numeral_head {n : Numeral} (hn : n.WellFormed) : ∃ c rest, n.text = c :: rest ∧
    o.isWordUnit c ∧ Kind.ofPunctuation? c = none ∧ c ≠ quote ∧ ¬ c.isBlank := by
  obtain ⟨c, rest, htext, hc⟩ := exists_head_text hn
  exact ⟨c, rest, htext, ParserOptions.isWordUnit_of_default hc, (no_mark hc).1, (no_mark hc).2,
    ParserOptions.not_isBlank_of_isWordUnit hc⟩

/-- A numeral is scanned as one number, or it is refused. -/
theorem scanFrom_numeral_eq {n : Numeral} (hn : n.WellFormed) (before : Option CodeUnit)
    (pos : Nat) :
    scanFrom o [] before pos n.text = match numberValue? n with
      | some x => .ok [⟨.value (.num x), n.text, pos⟩]
      | none => .error ⟨.numberOutOfRange n.text, pos⟩ := by
  obtain ⟨c, rest, htext, hw, hc, hq, hb⟩ := exists_numeral_head (o := o) hn
  have hat : NumeralAt o [] n.text n := by
    have hscan := hn.scan?_append (r := []) (by simp)
    exact ⟨⟨[], hscan⟩, Nat.le_refl _, by rw [List.drop_length]; rintro _ ⟨⟩⟩
  rcases numberLexeme?_eq o [] n.text with ⟨-, hnone⟩ | ⟨n', hn', hl⟩
  · exact absurd hat (hnone n)
  obtain rfl := numeralAt_unique hat hn'
  rw [htext] at hat hl ⊢
  cases hx : numberValue? n with
  | some x =>
    have hmore : (c :: rest).length - 1 = rest.length := rfl
    have hlexed : Lexed o [] before c rest ⟨.value (.num x), rest.length⟩ := by
      have h : Lexed o [] before c rest _ := .number hc hq hw hat hx
      rwa [htext, hmore] at h
    rw [scanFrom_lexed hb hlexed, List.take_length, List.drop_length, scanFrom]
    rfl
  | none =>
    rw [hx] at hl
    rw [scanFrom, if_neg hb, lexeme_unit hc hq hw, hl]
    rfl

theorem scanFrom_numeral {n : Numeral} (hn : n.WellFormed) (before : Option CodeUnit) (pos : Nat) :
    (∃ x, scanFrom o [] before pos n.text = .ok [⟨.value (.num x), n.text, pos⟩]) ∨
      scanFrom o [] before pos n.text = .error ⟨.numberOutOfRange n.text, pos⟩ := by
  rw [scanFrom_numeral_eq hn]
  cases numberValue? n with
  | some x => exact .inl ⟨x, rfl⟩
  | none => exact .inr rfl

/-- A numeral that goes on behind the range is scanned as a word first. -/
theorem scanFrom_continued {n : Numeral} (hn : n.WellFormed) (h : Continues beyond n.text)
    (before : Option CodeUnit) (pos : Nat) :
    (∃ t ts, scanFrom o beyond before pos n.text = .ok (t :: ts) ∧ ∀ x, t.kind ≠ .value (.num x)) ∨
      ∃ f, scanFrom o beyond before pos n.text = .error f ∧ pos < f.position := by
  obtain ⟨c, rest, htext, hw, hc, hq, hb⟩ := exists_numeral_head (o := o) hn
  have hword : Lexed o beyond before c rest ⟨Kind.ofWord (c :: rest.takeWhile o.isWordUnit),
      (rest.takeWhile o.isWordUnit).length⟩ := by
    refine .word hc hq hw ?_
    rintro n' ⟨⟨r, hr⟩, hlen, -⟩
    obtain ⟨m, r', hm, hlong⟩ := h
    rw [htext, hr] at hm
    cases hm
    exact absurd hlen (by rw [← htext]; omega)
  rw [htext, scanFrom_lexed hb hword]
  generalize (rest.takeWhile o.isWordUnit).length = k
  cases hts : scanFrom o beyond (c :: rest.take k).getLast? (pos + (c :: rest.take k).length)
      (rest.drop k) with
  | ok ts => exact .inl ⟨_, ts, rfl, ofWord_ne_num _⟩
  | error f =>
    refine .inr ⟨f, rfl, Nat.lt_of_lt_of_le ?_ (le_position_of_scanFrom hts)⟩
    exact Nat.lt_add_of_pos_right (by simp)

theorem scanFrom_ne_of_continues {n : Numeral} (hn : n.WellFormed) (h : Continues beyond n.text) :
    scanFrom o beyond before pos n.text ≠ scanFrom o [] before pos n.text := by
  intro heq
  rcases scanFrom_numeral (o := o) hn before pos with ⟨x, hx⟩ | hx <;>
    rcases scanFrom_continued (o := o) hn h before pos with
      ⟨t, ts, ht, hkind⟩ | ⟨f, hf, hpos⟩
  · rw [hx, ht] at heq
    cases heq
    exact hkind x rfl
  · rw [hx, hf] at heq
    cases heq
  · rw [hx, ht] at heq
    cases heq
  · rw [hx, hf] at heq
    cases heq
    exact Nat.lt_irrefl _ hpos

/-! ### Whole ranges -/

/-- What was read up to `stop` ends in the number `text`, or was refused because of it. -/
def EndsInNumeral (stop : Nat) (text : Text) (r : Except SyntaxFault (List Token)) : Prop :=
  ∃ pos, pos + text.length = stop ∧
    ((∃ ts x, r = .ok ts ∧ ts.getLast? = some ⟨.value (.num x), text, pos⟩) ∨
      r = .error ⟨.numberOutOfRange text, pos⟩)

theorem map_cons_injective {t : Token} {r r' : Except SyntaxFault (List Token)}
    (h : r.map (t :: ·) = r'.map (t :: ·)) : r = r' := by
  cases r with
  | error f => cases r' with
    | error f' => cases h; rfl
    | ok ts => cases h
  | ok ts => cases r' with
    | error f' => cases h
    | ok ts' => cases h; rfl

theorem not_endsInNumeral_nil {stop : Nat} {text : Text} : ¬ EndsInNumeral stop text (.ok []) := by
  rintro ⟨pos, -, ⟨ts, x, h, hlast⟩ | h⟩
  · cases h
    cases hlast
  · cases h

theorem endsInNumeral_map_cons {stop : Nat} {text : Text} {t : Token}
    {r : Except SyntaxFault (List Token)} (h : EndsInNumeral stop text (r.map (t :: ·))) :
    EndsInNumeral stop text r ∨
      r = .ok [] ∧ ∃ pos x, pos + text.length = stop ∧ t = ⟨.value (.num x), text, pos⟩ := by
  obtain ⟨pos, hpos, ⟨ts, x, hr, hlast⟩ | hr⟩ := h
  · cases r with
    | error f => cases hr
    | ok us =>
      cases hr
      cases us with
      | nil => exact .inr ⟨rfl, pos, x, hpos, Option.some.inj hlast⟩
      | cons u us => exact .inl ⟨pos, hpos, .inl ⟨u :: us, x, rfl, hlast⟩⟩
  · cases r with
    | error f => cases hr; exact .inl ⟨pos, hpos, .inr rfl⟩
    | ok us => cases hr

theorem EndsInNumeral.map_cons {stop : Nat} {text : Text} {r : Except SyntaxFault (List Token)}
    (h : EndsInNumeral stop text r) (t : Token) : EndsInNumeral stop text (r.map (t :: ·)) := by
  obtain ⟨pos, hpos, ⟨ts, x, rfl, hlast⟩ | rfl⟩ := h
  · cases ts with
    | nil => cases hlast
    | cons u us => exact ⟨pos, hpos, .inl ⟨t :: u :: us, x, rfl, hlast⟩⟩
  · exact ⟨pos, hpos, .inr rfl⟩

theorem endsInNumeral_numeral {n : Numeral} (hn : n.WellFormed) :
    EndsInNumeral (pos + n.text.length) n.text (scanFrom o [] before pos n.text) := by
  refine ⟨pos, rfl, ?_⟩
  rcases scanFrom_numeral (o := o) hn before pos with ⟨x, hx⟩ | hx
  · exact .inl ⟨_, x, hx, rfl⟩
  · exact .inr hx

theorem stringLexeme_ne_numberOutOfRange (rest text : Text) (p : Nat) :
    stringLexeme o before rest ≠ .error ⟨.numberOutOfRange text, p⟩ := by
  rw [stringLexeme]
  split_ifs
  · rintro ⟨⟩
  cases Quoted.read rest with
  | error f => cases f <;> rintro ⟨⟩
  | ok r =>
    obtain ⟨v, k, u⟩ := r
    cases u with
    | nil => rintro ⟨⟩
    | cons d u =>
      simp only
      split_ifs <;> rintro ⟨⟩

theorem numeral_of_lexeme_error {c : CodeUnit} {rest text : Text} {p : Nat}
    (h : lexeme o [] before c rest = .error ⟨.numberOutOfRange text, p⟩) :
    p = 0 ∧ ∃ n, NumeralAt o [] (c :: rest) n ∧ n.text = text := by
  cases hc : Kind.ofPunctuation? c with
  | some k => rw [lexeme, hc] at h; cases h
  | none =>
    by_cases hq : c = quote
    · rw [lexeme, hc] at h
      simp only [hq, if_true] at h
      exact absurd h (stringLexeme_ne_numberOutOfRange rest text p)
    by_cases hw : o.isWordUnit c
    · rw [lexeme_unit hc hq hw] at h
      rcases numberLexeme?_eq o [] (c :: rest) with ⟨hnone, -⟩ | ⟨n, hn, hl⟩
      · rw [hnone] at h; cases h
      · rw [hl] at h
        cases hx : numberValue? n with
        | some x => rw [hx] at h; cases h
        | none => rw [hx] at h; cases h; exact ⟨rfl, n, hn, rfl⟩
    · rw [lexeme, hc] at h
      simp only [hq, hw, if_false, Bool.not_false, if_true] at h
      cases h

theorem numeral_of_lexed {c : CodeUnit} {rest : Text} {l : Lexeme} {x : Number}
    (h : Lexed o beyond before c rest l) (hx : l.kind = .value (.num x)) :
    ∃ n : Numeral, n.WellFormed ∧ n.text = c :: rest.take l.more ∧ numberValue? n = some x := by
  cases h with
  | @mark c _ _ hc => exact absurd (hc.trans (congrArg some hx)) (ofPunctuation?_ne_value c _)
  | string => cases hx
  | number _ _ _ hn hvalue =>
    cases hx
    exact ⟨_, hn.text_eq.1, hn.take_eq.symm, hvalue⟩
  | word => exact absurd hx (ofWord_ne_num _ _)

/-- The numeral at the end is all of the text, or it is at the end of what follows the first token. -/
theorem EndsInNumeral.cons_cases {c : CodeUnit} {rest text : Text} (hc : ¬ c.isBlank)
    (h : EndsInNumeral (pos + (c :: rest).length) text (scanFrom o [] before pos (c :: rest))) :
    (text = c :: rest ∧ ∃ n : Numeral, n.WellFormed ∧ n.text = text) ∨
      ∃ l, lexeme o [] before c rest = .ok l ∧ EndsInNumeral (pos + (c :: rest).length) text
        (scanFrom o [] (c :: rest.take l.more).getLast? (pos + (c :: rest.take l.more).length)
          (rest.drop l.more)) := by
  cases hl : lexeme o [] before c rest with
  | error f =>
    rw [scanFrom, if_neg hc, hl] at h
    obtain ⟨pos', hpos, ⟨ts, x, ⟨⟩, -⟩ | hf⟩ := h
    obtain ⟨cause, p⟩ := f
    cases hf
    obtain ⟨rfl, n, hn, rfl⟩ := numeral_of_lexeme_error hl
    obtain ⟨hwf, htext⟩ := hn.text_eq
    have hlen := congrArg List.length htext
    rw [List.length_append] at hlen
    have hpos' : pos + n.text.length = pos + (c :: rest).length := hpos
    have hrest := List.eq_nil_of_length_eq_zero (show ((c :: rest).drop n.text.length).length = 0 by omega)
    rw [hrest, List.append_nil] at htext
    exact .inl ⟨htext.symm, n, hwf, rfl⟩
  | ok l =>
    have hlexed := lexeme_eq_ok_iff.mp hl
    rw [scanFrom_lexed hc hlexed] at h
    rcases endsInNumeral_map_cons h with h | ⟨-, pos', x, hpos, ht⟩
    · exact .inr ⟨l, rfl, h⟩
    · obtain ⟨hkind, htext, rfl⟩ := Token.mk.injEq .. ▸ ht
      obtain ⟨n, hwf, hn, -⟩ := numeral_of_lexed hlexed hkind
      have hall : rest.take l.more = rest := by
        refine List.take_of_length_le ?_
        have hlen := congrArg List.length htext
        simp only [List.length_cons, List.length_take] at hlen hpos
        omega
      rw [hall] at htext hn
      exact .inl ⟨htext.symm, n, hwf, hn.trans htext⟩

/-- A text is scanned as it is on its own if and only if no numeral at its end goes on behind it. -/
theorem scanFrom_eq_iff (t : Text) : scanFrom o beyond before pos t = scanFrom o [] before pos t ↔
    ∀ text, EndsInNumeral (pos + t.length) text (scanFrom o [] before pos t) →
      ¬ Continues beyond text := by
  fun_induction scanFrom o [] before pos t with
  | case1 =>
    rw [scanFrom]
    exact iff_of_true rfl fun text h => absurd h not_endsInNumeral_nil
  | case2 before pos c rest hc ih =>
    rw [scanFrom_blank hc, ih, List.length_cons, Nat.add_assoc, Nat.add_comm 1]
  | case3 before pos c rest hc f hl =>
    have hscan : scanFrom o [] before pos (c :: rest) = .error (f.shift pos) := by
      rw [scanFrom, if_neg hc, hl]
    rw [← hscan]
    rcases lexeme_cases o beyond before c rest with h | ⟨h, n, hn, htext⟩
    · have heq : scanFrom o beyond before pos (c :: rest) = scanFrom o [] before pos (c :: rest) := by
        rw [hscan, scanFrom, if_neg hc, h, hl]
      refine iff_of_true heq fun text hend hcont => ?_
      rcases hend.cons_cases hc with ⟨rfl, n, hn, htext⟩ | ⟨l, hl', -⟩
      · rw [← htext] at heq hcont
        exact scanFrom_ne_of_continues hn hcont heq
      · rw [hl] at hl'
        cases hl'
    · rw [← htext] at h ⊢
      exact iff_of_false (scanFrom_ne_of_continues hn h) fun hno => hno _ (endsInNumeral_numeral hn) h
  | case4 before pos c rest hc l hl text ih =>
    have hscan := scanFrom_lexed hc (lexeme_eq_ok_iff.mp hl) pos
    have hstop : pos + (c :: rest).length = pos + text.length + (rest.drop l.more).length := by
      rw [Nat.add_assoc, ← List.length_append, List.cons_append, List.take_append_drop]
    rw [← hscan]
    rcases lexeme_cases o beyond before c rest with h | ⟨h, n, hn, htext⟩
    · have hbehind := scanFrom_lexed hc (lexeme_eq_ok_iff.mp (h.trans hl)) pos
      constructor
      · intro heq t hend hcont
        rcases hend.cons_cases hc with ⟨rfl, n, hn, htext⟩ | ⟨l', hl', hend⟩
        · rw [← htext] at heq hcont
          exact scanFrom_ne_of_continues hn hcont heq
        · rw [hl] at hl'
          cases hl'
          rw [hbehind, hscan] at heq
          rw [hstop] at hend
          exact ih.mp (map_cons_injective heq) t hend hcont
      · intro hno
        rw [hscan, hstop] at hno
        rw [hbehind, hscan, ih.mpr fun t hend => hno t (hend.map_cons _)]
    · rw [← htext] at h ⊢
      exact iff_of_false (scanFrom_ne_of_continues hn h) fun hno => hno _ (endsInNumeral_numeral hn) h

theorem scanRange_eq_shifted {t : Text} (start : Nat) {stop : Nat} (hstop : stop ≤ t.length) :
    scanRange o t start stop =
      shifted start (scanFrom o (t.drop stop) none 0 ((t.take stop).drop start)) := by
  rw [scanRange_of_le hstop, ← scanFrom_shift, Nat.add_zero]

/-- A text whose front does not belong to any numeral. -/
def Foreign (t : Text) : Prop := ∀ c ∈ t.head?, ¬ c.IsNumeralUnit

theorem not_continues_of_foreign (hb : Foreign beyond) (text : Text) : ¬ Continues beyond text := by
  rintro ⟨n, r, hn, hlong⟩
  rw [Numeral.scan?_append_foreign hb] at hn
  obtain ⟨⟨n', r'⟩, hn', he⟩ := Option.map_eq_some_iff.mp hn
  cases he
  have hlen := congrArg List.length (Numeral.scan?_sound hn').1
  rw [List.length_append] at hlen
  simp only at hlong
  omega

theorem scanRange_of_foreign {t : Text} (start : Nat) {stop : Nat} (hstop : stop ≤ t.length)
    (hb : Foreign (t.drop stop)) :
    scanRange o t start stop = shifted start (scan o ((t.take stop).drop start)) := by
  rw [scanRange_eq_shifted start hstop, scan,
    (scanFrom_eq_iff _).mpr fun text _ => not_continues_of_foreign hb text]

/-- The tokens of a range, or the fault in it, are those of the text that it covers, moved to the
place of the range, if and only if no numeral at its end goes on behind it. -/
theorem scanRange_eq_shifted_iff {o : ParserOptions} {t : Text} (start : Nat) {stop : Nat}
    (hstop : stop ≤ t.length) :
    scanRange o t start stop = shifted start (scan o ((t.take stop).drop start)) ↔
      ∀ text, EndsInNumeral (stop - start) text (scan o ((t.take stop).drop start)) →
        ¬ Continues (t.drop stop) text := by
  have hlen : 0 + ((t.take stop).drop start).length = stop - start := by
    rw [List.length_drop, List.length_take, Nat.min_eq_left hstop, Nat.zero_add]
  rw [scanRange_eq_shifted start hstop, scan, ← hlen, ← scanFrom_eq_iff]
  exact (shifted_injective _).eq_iff

theorem scanRange_eq_shifted_bracket :
    21 ≤ (Text.ofString "emails[type eq \"work\"]").length ∧
      scanRange .default (Text.ofString "emails[type eq \"work\"]") 7 21 =
        shifted 7 (scan .default (Text.ofString "type eq \"work\"")) :=
  ⟨by decide, (scanRange_eq_shifted_iff 7 (by decide)).mpr fun text _ =>
    not_continues_of_foreign (by rintro c ⟨⟩; decide) text⟩

/-- The first digit of `12` is a word as a range of that text, and a number on its own. -/
theorem scanRange_ne_shifted_digit :
    scanRange .default (Text.ofString "12") 0 1 = .ok [⟨.word, Text.ofString "1", 0⟩] ∧
      scanRange .default (Text.ofString "12") 0 1 ≠
        shifted 0 (scan .default (((Text.ofString "12").take 1).drop 0)) :=
  ⟨by decide +kernel, by decide +kernel⟩

end Scim.Token
