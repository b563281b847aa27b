import Scim.Proofs.Number.Numeral
import Scim.Proofs.Options.Unit
import Scim.Proofs.Text.Quoted
import Scim.Token

/-!
# Scanning

`Lexed` says what one step of the scanner takes off a text, and `Scanned` what a whole successful
run does (`lexeme_eq_ok_iff`, `scanFrom_eq_ok_iff`); later proofs are by induction on `Scanned`.
-/

namespace Scim.Token

open CodeUnit

variable {o : ParserOptions} {beyond : Text} {before : Option CodeUnit}

/-! ### One step -/

/-- No unit that belongs to a word stands at the front. -/
def NoWordUnit (o : ParserOptions) (t : Text) : Prop := ∀ c ∈ t.head?, o.isWordUnit c = false

/-- The number at the front of `t`: a numeral within `t` that no word unit follows. -/
def NumeralAt (o : ParserOptions) (beyond t : Text) (n : Numeral) : Prop :=
  (∃ r, Numeral.scan? (t ++ beyond) = some (n, r)) ∧ n.text.length ≤ t.length ∧
    NoWordUnit o (t.drop n.text.length)

/-- What the scanner takes off `c :: rest`: a mark, a string, a number, or a word. -/
inductive Lexed (o : ParserOptions) (beyond : Text) (before : Option CodeUnit) :
    CodeUnit → Text → Lexeme → Prop
  | mark {c : CodeUnit} {rest : Text} {k : Kind} (hc : Kind.ofPunctuation? c = some k) :
    Lexed o beyond before c rest ⟨k, 0⟩
  | string {rest : Text} {r : Quoted.Reading} (hbefore : before.any o.isWordUnit = false)
    (hr : Quoted.read rest = .ok r) (hnext : NoWordUnit o r.rest) (hquote : r.rest.head? ≠ some quote) :
    Lexed o beyond before quote rest ⟨.value (.str r.value), r.length - 1⟩
  | number {c : CodeUnit} {rest : Text} {n : Numeral} {x : Number}
    (hc : Kind.ofPunctuation? c = none) (hquote : c ≠ quote) (hword : o.isWordUnit c)
    (hn : NumeralAt o beyond (c :: rest) n) (hx : numberValue? n = some x) :
    Lexed o beyond before c rest ⟨.value (.num x), n.text.length - 1⟩
  | word {c : CodeUnit} {rest : Text} (hc : Kind.ofPunctuation? c = none) (hquote : c ≠ quote)
    (hword : o.isWordUnit c) (hn : ∀ n, ¬ NumeralAt o beyond (c :: rest) n) :
    Lexed o beyond before c rest
      ⟨Kind.ofWord (c :: rest.takeWhile o.isWordUnit), (rest.takeWhile o.isWordUnit).length⟩

theorem noWordUnit_iff {t : Text} : t.head?.any o.isWordUnit = false ↔ NoWordUnit o t := by
  cases t <;> simp [NoWordUnit]

/-- Where no number stands, and what comes of the number where one does. -/
theorem numberLexeme?_eq (o : ParserOptions) (beyond t : Text) :
    (numberLexeme? o beyond t = none ∧ ∀ n, ¬ NumeralAt o beyond t n) ∨
    ∃ n, NumeralAt o beyond t n ∧ numberLexeme? o beyond t = some (match numberValue? n with
      | some x => .ok ⟨.value (.num x), n.text.length - 1⟩
      | none => .error ⟨.numberOutOfRange n.text, 0⟩) := by
  rw [numberLexeme?, followedBy_eq]
  cases hs : Numeral.scan? (t ++ beyond) with
  | none =>
    refine .inl ⟨rfl, ?_⟩
    rintro n ⟨⟨r, hr⟩, -⟩
    rw [hs] at hr
    cases hr
  | some nr =>
    obtain ⟨n, r⟩ := nr
    simp only
    split_ifs with hc
    · refine .inl ⟨rfl, ?_⟩
      rintro n' ⟨⟨r', hr⟩, hlen, hnext⟩
      rw [hs] at hr
      cases hr
      rw [noWordUnit_iff.mpr hnext] at hc
      simp at hc
      omega
    · simp only [Bool.or_eq_true, decide_eq_true_eq, not_or, Nat.not_lt,
        Bool.not_eq_true] at hc
      refine .inr ⟨n, ⟨⟨r, hs⟩, hc.1, noWordUnit_iff.mp hc.2⟩, ?_⟩
      cases numberValue? n <;> rfl

theorem numeralAt_unique {t : Text} {n n' : Numeral} (h : NumeralAt o beyond t n)
    (h' : NumeralAt o beyond t n') : n = n' := by
  obtain ⟨⟨r, h⟩, -⟩ := h
  obtain ⟨⟨r', h'⟩, -⟩ := h'
  rw [h] at h'
  exact congrArg Prod.fst (Option.some.inj h')

theorem stringLexeme_eq_ok_iff {rest : Text} {l : Lexeme} : stringLexeme o before rest = .ok l ↔
    before.any o.isWordUnit = false ∧ ∃ r, Quoted.read rest = .ok r ∧ NoWordUnit o r.rest ∧
      r.rest.head? ≠ some quote ∧ l = ⟨.value (.str r.value), r.length - 1⟩ := by
  rw [stringLexeme]
  split_ifs with hb
  · simp [hb]
  cases hr : Quoted.read rest with
  | error f => simp
  | ok r =>
    have hb' : before.any o.isWordUnit = false := by simpa using hb
    obtain ⟨v, k, u⟩ := r
    simp only [hb', true_and, Except.ok.injEq, exists_eq_left']
    cases u with
    | nil => simp [NoWordUnit, @eq_comm _ l]
    | cons c u =>
      by_cases hw : o.isWordUnit c
      · simp [hw, NoWordUnit]
      · by_cases hq : c = quote
        · simp [hq]
        · simp [hw, hq, NoWordUnit, @eq_comm _ l]

theorem lexed_mark_iff {c : CodeUnit} {rest : Text} {l : Lexeme} {k : Kind}
    (hc : Kind.ofPunctuation? c = some k) : Lexed o beyond before c rest l ↔ l = ⟨k, 0⟩ := by
  constructor
  · intro h
    cases h with
    | mark hk => rw [hc] at hk; cases hk; rfl
    | string => cases (show Kind.ofPunctuation? quote = none from rfl).symm.trans hc
    | number hk | word hk => rw [hc] at hk; cases hk
  · rintro rfl
    exact .mark hc

theorem lexed_quote_iff {rest : Text} {l : Lexeme} :
    Lexed o beyond before quote rest l ↔ stringLexeme o before rest = .ok l := by
  rw [stringLexeme_eq_ok_iff]
  constructor
  · intro h
    cases h with
    | mark hk => cases hk
    | string hb hr hnext hquote => exact ⟨hb, _, hr, hnext, hquote, rfl⟩
    | number _ hq | word _ hq => exact absurd rfl hq
  · rintro ⟨hb, r, hr, hnext, hquote, rfl⟩
    exact .string hb hr hnext hquote

/-- Any other unit starts a number or a word, and only if it is a unit of words. -/
theorem lexed_unit_iff {c : CodeUnit} {rest : Text} {l : Lexeme} (hc : Kind.ofPunctuation? c = none)
    (hq : c ≠ quote) : Lexed o beyond before c rest l ↔ o.isWordUnit c ∧
      ((∃ n x, NumeralAt o beyond (c :: rest) n ∧ numberValue? n = some x ∧
          l = ⟨.value (.num x), n.text.length - 1⟩) ∨
        (∀ n, ¬ NumeralAt o beyond (c :: rest) n) ∧
          l = ⟨Kind.ofWord (c :: rest.takeWhile o.isWordUnit),
            (rest.takeWhile o.isWordUnit).length⟩) := by
  constructor
  · intro h
    cases h with
    | mark hk => rw [hc] at hk; cases hk
    | string => exact absurd rfl hq
    | number _ _ hw hn hx => exact ⟨hw, .inl ⟨_, _, hn, hx, rfl⟩⟩
    | word _ _ hw hn => exact ⟨hw, .inr ⟨hn, rfl⟩⟩
  · rintro ⟨hw, ⟨n, x, hn, hx, rfl⟩ | ⟨hn, rfl⟩⟩
    · exact .number hc hq hw hn hx
    · exact .word hc hq hw hn

theorem lexeme_eq_ok_iff {c : CodeUnit} {rest : Text} {l : Lexeme} :
    lexeme o beyond before c rest = .ok l ↔ Lexed o beyond before c rest l := by
  unfold lexeme
  cases hc : Kind.ofPunctuation? c with
  | some k => simp only [lexed_mark_iff hc, Except.ok.injEq, eq_comm]
  | none =>
    by_cases hq : c = quote
    · subst hq
      exact lexed_quote_iff.symm
    rw [lexed_unit_iff hc hq]
    by_cases hw : o.isWordUnit c
    · rcases numberLexeme?_eq o beyond (c :: rest) with ⟨h, hnone⟩ | ⟨n, hn, h⟩
      · simp [hq, hw, h, hnone, eq_comm]
      · have hne : ¬ ∀ n, ¬ NumeralAt o beyond (c :: rest) n := fun hnone => hnone n hn
        cases hx : numberValue? n with
        | none =>
          simp only [hq, hw, h, hx, hne]
          refine iff_of_false (by simp) ?_
          rintro ⟨-, ⟨n', x, hn', hx', -⟩ | ⟨h, -⟩⟩
          · rw [numeralAt_unique hn hn', hx'] at hx
            cases hx
          · exact h
        | some x =>
          simp only [hq, hw, h, hx, hne]
          constructor
          · rintro ⟨⟩
            exact ⟨trivial, .inl ⟨n, x, hn, hx, rfl⟩⟩
          · rintro ⟨-, ⟨n', x', hn', hx', rfl⟩ | ⟨h, -⟩⟩
            · obtain rfl := numeralAt_unique hn hn'
              rw [hx] at hx'
              cases hx'
              rfl
            · exact h.elim
    · simp [hq, hw]

/-! ### The texts of tokens -/

theorem take_of_read {rest : Text} {r : Quoted.Reading} (h : Quoted.read rest = .ok r) :
    ∃ w, Quoted.Body w r.value ∧ rest.take (r.length - 1) = w ++ [quote] := by
  obtain ⟨w, hw, rfl, hlen⟩ := Quoted.read_eq_ok_iff.mp h
  refine ⟨w, hw, ?_⟩
  rw [hlen, show w ++ quote :: r.rest = (w ++ [quote]) ++ r.rest by simp]
  exact List.take_left' (by simp)

theorem NumeralAt.text_eq {t : Text} {n : Numeral} (h : NumeralAt o beyond t n) :
    n.WellFormed ∧ t = n.text ++ t.drop n.text.length := by
  obtain ⟨⟨r, hr⟩, hlen, -⟩ := h
  obtain ⟨ht, hn⟩ := Numeral.scan?_sound hr
  refine ⟨hn, ?_⟩
  have htake := congrArg (List.take n.text.length) ht
  rw [List.take_append_of_le_length hlen, List.take_left] at htake
  calc t = t.take n.text.length ++ t.drop n.text.length := (List.take_append_drop ..).symm
    _ = _ := by rw [htake]

theorem NumeralAt.take_eq {c : CodeUnit} {rest : Text} {n : Numeral}
    (h : NumeralAt o beyond (c :: rest) n) : c :: rest.take (n.text.length - 1) = n.text := by
  obtain ⟨hn, ht⟩ := h.text_eq
  have hpos : n.text.length = n.text.length - 1 + 1 := by
    obtain ⟨d, w, hw, -⟩ := hn.head_whole
    rw [Numeral.text_eq, hw]
    simp; omega
  have htake := congrArg (List.take n.text.length) ht
  rw [List.take_left, hpos, List.take_succ_cons] at htake
  exact htake

theorem no_mark {c : CodeUnit} (hc : ParserOptions.default.isWordUnit c) :
    Kind.ofPunctuation? c = none ∧ c ≠ quote := by
  have hne (d : CodeUnit) (hd : d ∈ [quote, openParen, closeParen, openBracket, closeBracket, comma,
      backslash, plus, (0x20 : CodeUnit)]) : c ≠ d :=
    ParserOptions.ne_of_isWordUnit hc (ParserOptions.isWordUnit_mark d hd)
  refine ⟨?_, hne quote (by simp)⟩
  rw [Kind.ofPunctuation?, if_neg (hne _ (by simp)), if_neg (hne _ (by simp)),
    if_neg (hne _ (by simp)), if_neg (hne _ (by simp)), if_neg (hne _ (by simp))]

theorem ofWord_cases (w : Text) : (∃ op, Kind.ofWord w = .comparison op) ∨
    (∃ k ∈ Kind.keywords, Kind.ofWord w = k.2) ∨ Kind.ofWord w = .word := by
  rw [Kind.ofWord]
  cases Comparison.ofName? w.lower with
  | some op => exact .inl ⟨op, rfl⟩
  | none =>
    cases hk : Kind.keywords.find? fun k => k.1 == w.lower with
    | none => exact .inr (.inr rfl)
    | some k => exact .inr (.inl ⟨k, List.mem_of_find?_eq_some hk, rfl⟩)

/-- Of the values, only `null`, `true` and `false` are words. -/
theorem value_of_ofWord {w : Text} {v : Literal} (h : Kind.ofWord w = .value v) :
    v = .null ∨ ∃ b, v = .bool b := by
  rcases ofWord_cases w with ⟨op, hop⟩ | ⟨k, hk, hkey⟩ | hword
  · rw [hop] at h
    cases h
  · rw [hkey] at h
    simp only [Kind.keywords, List.mem_cons, List.not_mem_nil, or_false] at hk
    rcases hk with rfl | rfl | rfl | rfl | rfl | rfl | rfl <;> cases h
    · exact .inr ⟨true, rfl⟩
    · exact .inr ⟨false, rfl⟩
    · exact .inl rfl
  · rw [hword] at h
    cases h

theorem ofPunctuation?_ne_value (c : CodeUnit) (v : Literal) :
    Kind.ofPunctuation? c ≠ some (.value v) := by
  intro h
  unfold Kind.ofPunctuation? at h
  split_ifs at h <;> cases h

theorem exists_head_text {n : Numeral} (hn : n.WellFormed) :
    ∃ c rest, n.text = c :: rest ∧ ParserOptions.default.isWordUnit c := by
  obtain ⟨d, w, hw, hd, -⟩ := hn.head_whole
  rw [Numeral.text_eq, hw]
  cases n.negative with
  | true => exact ⟨minus, _, rfl, by decide⟩
  | false => exact ⟨d, _, rfl, ParserOptions.isWordUnit_of_isNameUnit
      (ParserOptions.isNameUnit_of_isDigit hd)⟩

theorem not_isBlank_of_ofPunctuation? {c : CodeUnit} {k : Kind}
    (hc : Kind.ofPunctuation? c = some k) : ¬ c.isBlank := by
  unfold Kind.ofPunctuation? at hc
  split_ifs at hc with h1 h2 h3 h4 h5 <;> subst_vars <;> decide

/-! ### Where numerals end -/

theorem isNumeralUnit_cases {c : CodeUnit} (h : c.IsNumeralUnit) : o.isWordUnit c ∨ c = plus := by
  rcases h with h | rfl | rfl | rfl | rfl | rfl
  · exact .inl (ParserOptions.isWordUnit_of_isNameUnit (ParserOptions.isNameUnit_of_isDigit h))
  · exact .inl (ParserOptions.isWordUnit_of_default (by decide))
  · exact .inr rfl
  all_goals exact .inl (ParserOptions.isWordUnit_of_default (by decide))

theorem numeralAt_text {n : Numeral} {r : Text} (hn : n.WellFormed) (hr : NoWordUnit o r) :
    NumeralAt o [] (n.text ++ r) n := by
  refine ⟨⟨r, ?_⟩, by simp, by rw [List.drop_left]; exact hr⟩
  rw [List.append_nil]
  refine hn.scan?_append fun c hc => ?_
  have hword : ¬ o.isWordUnit c := by rw [hr c hc]; exact Bool.false_ne_true
  refine ⟨?_, ?_, ?_⟩
  · exact Bool.eq_false_iff.mpr fun h => hword (ParserOptions.isWordUnit_of_isNameUnit
      (ParserOptions.isNameUnit_of_isDigit h))
  · rintro rfl; exact hword (ParserOptions.isWordUnit_of_default (by decide))
  · rintro (rfl | rfl) <;> exact hword (ParserOptions.isWordUnit_of_default (by decide))

/-- No numeral starts with the units of a word that is none itself, wherever the word ends. -/
theorem not_numeralAt {w r : Text} (hw : ∀ c ∈ w, o.isWordUnit c)
    (hnum : ∀ n : Numeral, n.WellFormed → n.text ≠ w)
    (hr : ∀ c ∈ r.head?, o.isWordUnit c = false ∧ c ≠ plus) (n : Numeral) :
    ¬ NumeralAt o [] (w ++ r) n := by
  intro h
  obtain ⟨hn, htext⟩ := h.text_eq
  rcases Nat.lt_trichotomy n.text.length w.length with hlt | heq | hgt
  · -- The word goes on behind the numeral.
    obtain ⟨c, hc⟩ : ∃ c, (w.drop n.text.length).head? = some c := by
      rw [List.head?_drop]
      exact ⟨_, List.getElem?_eq_getElem hlt⟩
    have hnext := h.2.2 c (by
      rw [List.drop_append_of_le_length hlt.le, List.head?_append, hc]; rfl)
    have hunit := hw c (List.mem_of_mem_drop (List.mem_of_head? hc))
    rw [hunit] at hnext
    cases hnext
  · refine hnum n hn ?_
    rw [heq, List.drop_left] at htext
    exact (List.append_cancel_right htext).symm
  · -- The numeral goes on behind the word.
    obtain ⟨c, r', rfl⟩ : ∃ c r', r = c :: r' := by
      have hlen := h.2.1
      rw [List.length_append] at hlen
      exact List.exists_cons_of_ne_nil (by rintro rfl; simp at hlen; omega)
    have hmem : c ∈ n.text := by
      have htake := congrArg (List.take n.text.length) htext
      rw [List.take_left, List.take_append, List.take_of_length_le hgt.le,
        show n.text.length - w.length = n.text.length - w.length - 1 + 1 by omega,
        List.take_succ_cons] at htake
      rw [← htake]
      simp
    obtain ⟨hword, hplus⟩ := hr c rfl
    rcases isNumeralUnit_cases (o := o) (hn.isNumeralUnit hmem) with h | h
    · rw [hword] at h; cases h
    · exact hplus h

/-! ### Whole runs -/

/-- The tokens of a text that is scanned to its end. -/
inductive Scanned (o : ParserOptions) (beyond : Text) :
    Option CodeUnit → Nat → Text → List Token → Prop
  | nil {before : Option CodeUnit} {pos : Nat} : Scanned o beyond before pos [] []
  | blank {before : Option CodeUnit} {pos : Nat} {c : CodeUnit} {rest : Text} {ts : List Token}
    (hc : c.isBlank) (h : Scanned o beyond (some c) (pos + 1) rest ts) :
    Scanned o beyond before pos (c :: rest) ts
  | token {before : Option CodeUnit} {pos : Nat} {c : CodeUnit} {rest : Text} {l : Lexeme}
    {ts : List Token} (hc : ¬ c.isBlank) (hl : Lexed o beyond before c rest l)
    (h : Scanned o beyond (c :: rest.take l.more).getLast? (pos + (c :: rest.take l.more).length)
      (rest.drop l.more) ts) :
    Scanned o beyond before pos (c :: rest) (⟨l.kind, c :: rest.take l.more, pos⟩ :: ts)

theorem scanFrom_blank {c : CodeUnit} (hc : c.isBlank) (pos : Nat) (rest : Text) :
    scanFrom o beyond before pos (c :: rest) = scanFrom o beyond (some c) (pos + 1) rest := by
  rw [scanFrom, if_pos hc]

theorem scanFrom_lexed {c : CodeUnit} {rest : Text} {l : Lexeme} (hc : ¬ c.isBlank)
    (hl : Lexed o beyond before c rest l) (pos : Nat) :
    scanFrom o beyond before pos (c :: rest) =
      (scanFrom o beyond (c :: rest.take l.more).getLast? (pos + (c :: rest.take l.more).length)
        (rest.drop l.more)).map (⟨l.kind, c :: rest.take l.more, pos⟩ :: ·) := by
  rw [scanFrom, if_neg hc, lexeme_eq_ok_iff.mpr hl]

theorem scanFrom_of_scanned {pos : Nat} {t : Text} {ts : List Token}
    (h : Scanned o beyond before pos t ts) : scanFrom o beyond before pos t = .ok ts := by
  induction h with
  | nil => rw [scanFrom]
  | blank hc _ ih => rw [scanFrom_blank hc, ih]
  | token hc hl _ ih => rw [scanFrom_lexed hc hl, ih]; rfl

theorem scanned_of_scanFrom {pos : Nat} {t : Text} {ts : List Token}
    (h : scanFrom o beyond before pos t = .ok ts) : Scanned o beyond before pos t ts := by
  fun_induction scanFrom o beyond before pos t generalizing ts with
  | case1 => cases h; exact .nil
  | case2 before pos c rest hc ih => exact .blank hc (ih h)
  | case3 => cases h
  | case4 =>
    rename_i before pos c rest hc l hl text ih
    cases hts : scanFrom o beyond (c :: rest.take l.more).getLast?
        (pos + (c :: rest.take l.more).length) (rest.drop l.more) with
    | error f => rw [hts] at h; cases h
    | ok ts' =>
      rw [hts] at h
      cases h
      exact .token hc (lexeme_eq_ok_iff.mp hl) (ih hts)

theorem scanFrom_eq_ok_iff {pos : Nat} {t : Text} {ts : List Token} :
    scanFrom o beyond before pos t = .ok ts ↔ Scanned o beyond before pos t ts :=
  ⟨scanned_of_scanFrom, scanFrom_of_scanned⟩

/-- The token `k` units further right. -/
def shift (k : Nat) (t : Token) : Token := { t with position := k + t.position }

end Scim.Token
