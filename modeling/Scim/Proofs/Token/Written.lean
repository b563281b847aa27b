import Scim.Filter.Render
import Scim.Proofs.Number.Shortest
import Scim.Proofs.Token.Scan

/-!
# Scanning what is written

`Reads ok P t r`: in front of `r`, the scanner takes the text `t` as tokens of which `P` holds, or
refuses it if `ok` is false. Texts that are read can be put one behind the other (`Reads.append`).
Every word, mark and literal that a filter is written with is read as the token it was made of,
save for numbers that are written as integers too long to be read (`reads_literal`).
-/

namespace Scim

open CodeUnit

/-! ### Numbers -/

namespace Number

/-- Integers that are written with digits alone but are not exact. -/
def IsLongInteger (x : Number) : Prop :=
  (∃ z : Int, x.value = z) ∧ maxSafe < |x.value| ∧ |x.value| < 10 ^ 21

theorem isInteger_iff {x : Number} : x.isInteger ↔ ∃ z : Int, x.value = z := by
  rw [isInteger, beq_iff_eq, Rat.den_eq_one_iff]
  constructor
  · intro h
    exact ⟨_, h.symm⟩
  · rintro ⟨z, hz⟩
    rw [hz, Rat.num_intCast]

theorem isSafeInteger_iff {x : Number} {z : Int} (hz : x.value = z) :
    x.isSafeInteger ↔ |x.value| ≤ maxSafe := by
  have habs : |x.value| = (x.value.num.natAbs : Rat) := by
    rw [hz, ← Int.cast_abs, Int.abs_eq_natAbs, Int.cast_natCast, Rat.num_intCast]
  rw [isSafeInteger, isInteger_iff.mpr ⟨z, hz⟩, Bool.true_and, decide_eq_true_eq, habs, Nat.cast_le]

end Number

namespace Token

variable {r t u w : Text}

/-- A number is read back from its numeral unless it is a long integer. -/
theorem numberValue?_toNumeral (x : Number) :
    (¬ x.IsLongInteger ∧ numberValue? x.toNumeral = some x) ∨
      (x.IsLongInteger ∧ numberValue? x.toNumeral = none) := by
  rw [numberValue?, x.toNumber?_toNumeral]
  by_cases hint : x.toNumeral.isInteger
  · obtain ⟨⟨z, hz⟩, hlt⟩ := x.isInteger_toNumeral_iff.mp hint
    by_cases hsafe : x.isSafeInteger
    · have hle := (Number.isSafeInteger_iff hz).mp hsafe
      exact .inl ⟨fun h => absurd hle (not_le.mpr h.2.1), by simp [Option.filter, hsafe]⟩
    · have hgt := not_le.mp (mt (Number.isSafeInteger_iff hz).mpr hsafe)
      exact .inr ⟨⟨⟨z, hz⟩, hgt, hlt⟩, by simp [Option.filter, hint, hsafe]⟩
  · refine .inl ⟨fun h => hint (x.isInteger_toNumeral_iff.mpr ⟨h.1, h.2.2⟩), ?_⟩
    simp [Option.filter, hint]

/-! ### Texts that are read -/

/-- In front of `r`, the text `t` is scanned to tokens with the property `P` if `ok` holds, and is
refused if not. -/
def Reads (ok : Prop) (P : List Token → Prop) (t r : Text) : Prop :=
  ∀ before pos,
    (ok ∧ ∃ before' ts, P ts ∧ scanFrom .default [] before pos (t ++ r) =
      (scanFrom .default [] before' (pos + t.length) r).map (ts ++ ·)) ∨
    (¬ ok ∧ ∃ fault, scanFrom .default [] before pos (t ++ r) = .error fault)

variable {ok ok' : Prop} {P Q R : List Token → Prop}

theorem Reads.imp (h : Reads ok P t r) (hok : ok ↔ ok') (hP : ∀ ts, P ts → Q ts) :
    Reads ok' Q t r := by
  intro before pos
  rcases h before pos with ⟨hyes, before', ts, hts, h⟩ | ⟨hno, h⟩
  · exact .inl ⟨hok.mp hyes, before', ts, hP ts hts, h⟩
  · exact .inr ⟨mt hok.mpr hno, h⟩

theorem Reads.append (h : Reads ok P t (u ++ r)) (h' : Reads ok' Q u r)
    (hR : ∀ ts us, P ts → Q us → R (ts ++ us)) : Reads (ok ∧ ok') R (t ++ u) r := by
  intro before pos
  rw [List.append_assoc]
  rcases h before pos with ⟨hyes, before', ts, hts, h⟩ | ⟨hno, fault, h⟩
  · rcases h' before' (pos + t.length) with ⟨hyes', before'', us, hus, h'⟩ | ⟨hno', fault, h'⟩
    · refine .inl ⟨⟨hyes, hyes'⟩, before'', ts ++ us, hR ts us hts hus, ?_⟩
      rw [h, h', List.length_append, Nat.add_assoc]
      cases scanFrom .default [] before'' (pos + (t.length + u.length)) r with
      | error f => rfl
      | ok vs => exact congrArg Except.ok (List.append_assoc ts us vs).symm
    · exact .inr ⟨fun hboth => hno' hboth.2, fault, by rw [h, h']; rfl⟩
  · exact .inr ⟨fun hboth => hno hboth.1, fault, h⟩

theorem Reads.behind (h : Reads True P t (u ++ r)) (h' : Reads ok Q u r)
    (hR : ∀ ts us, P ts → Q us → R (ts ++ us)) : Reads ok R (t ++ u) r :=
  (h.append h' hR).imp (iff_of_eq (true_and ok)) fun _ => id

theorem Reads.before (h : Reads ok P t (u ++ r)) (h' : Reads True Q u r)
    (hR : ∀ ts us, P ts → Q us → R (ts ++ us)) : Reads ok R (t ++ u) r :=
  (h.append h' hR).imp (iff_of_eq (and_true ok)) fun _ => id

theorem Reads.scan (h : Reads ok P t []) :
    (ok ∧ ∃ ts, P ts ∧ Token.scan .default t = .ok ts) ∨
      (¬ ok ∧ ∃ fault, Token.scan .default t = .error fault) := by
  have h := h none 0
  rw [List.append_nil] at h
  rcases h with ⟨hyes, before', ts, hts, h⟩ | h
  · refine .inl ⟨hyes, ts, hts, ?_⟩
    rw [Token.scan, h, scanFrom]
    exact congrArg Except.ok (List.append_nil ts)
  · exact .inr h

/-! ### Tokens -/

def OfKind (k : Kind) (ts : List Token) : Prop := ∃ t, ts = [t] ∧ t.kind = k

theorem reads_blank (r : Text) : Reads True (· = []) [0x20] r := by
  intro before pos
  refine .inl ⟨trivial, some 0x20, [], rfl, ?_⟩
  have hblank : CodeUnit.isBlank 0x20 := by decide
  rw [List.singleton_append, scanFrom_blank hblank, List.length_singleton]
  cases scanFrom .default [] (some 0x20) (pos + 1) r <;> rfl

theorem scanFrom_token {before : Option CodeUnit} {c : CodeUnit} {rest : Text} {l : Lexeme}
    (hc : ¬ c.isBlank) (hl : Lexed .default [] before c (rest ++ r) l)
    (hmore : l.more = rest.length) (pos : Nat) :
    scanFrom .default [] before pos (c :: (rest ++ r)) =
      (scanFrom .default [] (c :: rest).getLast? (pos + (c :: rest).length) r).map
        ([⟨l.kind, c :: rest, pos⟩] ++ ·) := by
  rw [scanFrom_lexed hc hl, hmore, List.take_left, List.drop_left]
  rfl

theorem reads_lexed {c : CodeUnit} {rest : Text} {l : Lexeme} (hc : ¬ c.isBlank)
    (hl : ∀ before, Lexed .default [] before c (rest ++ r) l) (hmore : l.more = rest.length)
    (hP : ∀ pos, P [⟨l.kind, c :: rest, pos⟩]) : Reads True P (c :: rest) r :=
  fun before pos => .inl ⟨trivial, _, _, hP pos, scanFrom_token hc (hl before) hmore pos⟩

theorem ofPunctuation?_openParen : Kind.ofPunctuation? openParen = some .openParen := rfl

theorem ofPunctuation?_closeParen : Kind.ofPunctuation? closeParen = some .closeParen := rfl

theorem ofPunctuation?_openBracket : Kind.ofPunctuation? openBracket = some .openBracket := rfl

theorem ofPunctuation?_closeBracket : Kind.ofPunctuation? closeBracket = some .closeBracket := rfl

theorem reads_mark {c : CodeUnit} {k : Kind} (hc : Kind.ofPunctuation? c = some k) (r : Text) :
    Reads True (OfKind k) [c] r :=
  reads_lexed (l := ⟨k, 0⟩) (not_isBlank_of_ofPunctuation? hc) (fun _ => .mark hc) rfl
    fun _ => ⟨_, rfl, rfl⟩

/-- What may follow a word or a literal: no unit that would belong to it, and no quote. -/
def Ends (r : Text) : Prop :=
  ∀ c ∈ r.head?, ParserOptions.default.isWordUnit c = false ∧ c ≠ quote ∧ c ≠ plus

theorem ends_cons {c : CodeUnit} (hc : ParserOptions.default.isWordUnit c = false ∧ c ≠ quote ∧ c ≠ plus)
    (r : Text) : Ends (c :: r) := by
  rintro _ ⟨⟩
  exact hc

/-! ### Words -/

/-- A text that is scanned as one word: neither a quote, nor a mark, nor a numeral. -/
structure IsWord (w : Text) : Prop where
  ne_nil : w ≠ []
  units : ∀ c ∈ w, ParserOptions.default.isWordUnit c
  noNumeral : ∀ n : Numeral, n.WellFormed → n.text ≠ w

theorem isWord_of_scan {w : Text} (hw : w ≠ [] ∧ w.all ParserOptions.default.isWordUnit ∧
    Numeral.scan? w = none) : IsWord w := by
  refine ⟨hw.1, List.all_eq_true.mp hw.2.1, ?_⟩
  rintro n hn rfl
  have h := hn.scan?_append (r := []) (by simp)
  rw [List.append_nil, hw.2.2] at h
  cases h

theorem IsWord.not_numeralAt (hw : IsWord w) (hr : Ends r) (n : Numeral) :
    ¬ NumeralAt .default [] (w ++ r) n :=
  Token.not_numeralAt hw.units hw.noNumeral (fun c hc => ⟨(hr c hc).1, (hr c hc).2.2⟩) n

theorem reads_word (hw : IsWord w) (hr : Ends r) :
    Reads True (fun ts => ∃ pos, ts = [⟨Kind.ofWord w, w, pos⟩]) w r := by
  obtain ⟨c, rest, rfl⟩ := List.exists_cons_of_ne_nil hw.ne_nil
  have hc := hw.units c (by simp)
  have hrest : (rest ++ r).takeWhile ParserOptions.default.isWordUnit = rest :=
    (Text.takeWhile_append_of (fun x hx => hw.units x (List.mem_cons_of_mem _ hx))
      fun x hx => (hr x hx).1).1
  obtain ⟨hmark, hquote⟩ := no_mark hc
  refine reads_lexed (ParserOptions.not_isBlank_of_isWordUnit hc) (fun _ =>
    .word hmark hquote hc (hw.not_numeralAt hr)) ?_ fun pos => ⟨pos, ?_⟩
  · exact congrArg List.length hrest
  · rw [hrest]

theorem isWord_of_lexed {before : Option CodeUnit} {c : CodeUnit} {rest : Text} {l : Lexeme}
    (h : Lexed .default [] before c rest l) (hkind : l.kind = .word) :
    IsWord (c :: rest.take l.more) ∧ Kind.ofWord (c :: rest.take l.more) = .word := by
  cases h with
  | mark hc =>
    simp only at hkind
    subst hkind
    unfold Kind.ofPunctuation? at hc
    split_ifs at hc <;> cases hc
  | string => cases hkind
  | number => cases hkind
  | word _ _ hword hn =>
    have htake : rest.take (rest.takeWhile ParserOptions.default.isWordUnit).length =
        rest.takeWhile ParserOptions.default.isWordUnit :=
      (List.prefix_iff_eq_take.mp (List.takeWhile_prefix _)).symm
    rw [htake]
    refine ⟨⟨by simp, fun x hx => ?_, fun n hwf htext => hn n ?_⟩, hkind⟩
    · rcases List.mem_cons.mp hx with rfl | hx
      · exact hword
      · exact List.all_eq_true.mp (List.all_takeWhile ..) x hx
    · have hat := numeralAt_text hwf (Text.head?_dropWhile ParserOptions.default.isWordUnit rest)
      rwa [htext, List.cons_append, List.takeWhile_append_dropWhile] at hat

theorem isWord_of_scanned {before : Option CodeUnit} {pos : Nat} {ts : List Token}
    (h : Scanned .default [] before pos t ts) :
    ∀ x ∈ ts, x.kind = .word → IsWord x.text ∧ Kind.ofWord x.text = .word := by
  induction h with
  | nil => simp
  | blank _ _ ih => exact ih
  | token _ hl _ ih =>
    intro x hx hkind
    rcases List.mem_cons.mp hx with rfl | hx
    · exact isWord_of_lexed hl hkind
    · exact ih x hx hkind

/-! ### Literals -/

theorem reads_number (x : Number) (hr : Ends r) :
    Reads (¬ x.IsLongInteger) (OfKind (.value (.num x))) x.text r := by
  have hn := x.wellFormed_toNumeral
  have hat := numeralAt_text hn fun c hc => (hr c hc).1
  obtain ⟨c, rest, htext, hc⟩ := exists_head_text hn
  obtain ⟨hmark, hquote⟩ := no_mark hc
  have hblank := ParserOptions.not_isBlank_of_isWordUnit hc
  rw [htext, List.cons_append] at hat
  rw [Number.text, htext]
  rcases numberValue?_toNumeral x with ⟨hok, hvalue⟩ | ⟨hlong, hvalue⟩
  · refine (reads_lexed hblank (fun _ => .number hmark hquote hc hat hvalue) ?_
      fun _ => ⟨_, rfl, rfl⟩).imp (iff_of_true trivial hok) fun _ => id
    rw [htext]; rfl
  · intro before pos
    have herror : lexeme .default [] before c (rest ++ r) =
        .error ⟨.numberOutOfRange x.toNumeral.text, 0⟩ := by
      rcases numberLexeme?_eq .default [] (c :: (rest ++ r)) with
        ⟨-, hnone⟩ | ⟨n, hn', h⟩
      · exact absurd hat (hnone _)
      · rw [numeralAt_unique hn' hat, hvalue] at h
        rw [lexeme, hmark]
        simp only
        rw [if_neg hquote, hc, Bool.not_true, if_neg Bool.false_ne_true, h]
    refine .inr ⟨fun h => h hlong, ?_⟩
    rw [List.cons_append, scanFrom, if_neg hblank, herror]
    exact ⟨_, rfl⟩

/-- A string stands behind a blank: it must not touch a word. -/
theorem reads_string (v : Text) (hr : Ends r) :
    Reads True (OfKind (.value (.str v))) (0x20 :: Quoted.encode v) r := by
  intro before pos
  have hblank : CodeUnit.isBlank 0x20 := by decide
  have hlexed : Lexed .default [] (some 0x20) quote ((Quoted.encodeBody v ++ [quote]) ++ r)
      ⟨.value (.str v), (Quoted.encodeBody v).length + 1⟩ := by
    have hread := Quoted.read_encode v r
    rw [List.append_assoc, List.singleton_append]
    exact .string (by decide) hread (fun c hc => (hr c hc).1) fun h => (hr quote h).2.1 rfl
  refine .inl ⟨trivial, (Quoted.encode v).getLast?, [⟨.value (.str v), Quoted.encode v, pos + 1⟩],
    ⟨_, rfl, rfl⟩, ?_⟩
  rw [List.cons_append, scanFrom_blank hblank, Quoted.encode, List.cons_append,
    scanFrom_token (by decide) hlexed (by simp), Nat.add_assoc, Nat.add_comm 1]
  rfl

end Token

/-- A value that is read back as it was written. -/
def Literal.IsExact : Literal → Prop
  | .num x => ¬ x.IsLongInteger
  | _ => True

namespace Token

theorem reads_spaced {r w : Text} (hw : IsWord w) (hr : Ends r) :
    Reads True (OfKind (Kind.ofWord w)) (0x20 :: w) r := by
  refine (reads_blank _).behind (reads_word hw hr) ?_
  rintro ts us rfl ⟨pos, rfl⟩
  exact ⟨_, rfl, rfl⟩

theorem reads_literal {r : Text} (v : Literal) (hr : Ends r) :
    Reads v.IsExact (OfKind (.value v)) (0x20 :: v.render) r := by
  cases v with
  | null => exact reads_spaced (w := Text.ofString "null") (isWord_of_scan (by decide)) hr
  | bool b =>
    cases b with
    | true => exact reads_spaced (w := Text.ofString "true") (isWord_of_scan (by decide)) hr
    | false => exact reads_spaced (w := Text.ofString "false") (isWord_of_scan (by decide)) hr
  | num x =>
    refine (reads_blank _).behind (reads_number x hr) ?_
    rintro ts us rfl hus
    exact hus
  | str t => exact reads_string t hr

end Token

end Scim
