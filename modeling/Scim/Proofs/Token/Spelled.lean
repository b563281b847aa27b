import Scim.Proofs.Token.Scan

/-!
# How tokens are spelled

`Shaped o w k`: the text `w` is one of a token of the kind `k`, whatever stands around it. `Spelled`
is a text made of marks and of such texts, with white space between them; two of these touch only
where a mark stands between them (`Parted`). A text is scanned to its end exactly if it is spelled
like this (`spelled_iff`). So a change of the text or of the options that leaves the shapes of the
tokens alone does not change how the text is scanned, and no later proof looks at the steps of the
scanner.
-/

namespace Scim

open CodeUnit

theorem Numeral.WellFormed.getLast?_text {n : Numeral} (hn : n.WellFormed) :
    ∃ c, n.text.getLast? = some c ∧ c.isDigit := by
  have hlast : ∀ u ds : Text, n.text = u ++ ds → ds ≠ [] → (∀ c ∈ ds, c.isDigit) →
      ∃ c, n.text.getLast? = some c ∧ c.isDigit := by
    intro u ds htext hne hds
    obtain ⟨d, hd⟩ := Option.ne_none_iff_exists'.mp (List.getLast?_eq_none_iff.not.mpr hne)
    exact ⟨d, by rw [htext, List.getLast?_append, hd]; rfl, hds d (List.mem_of_getLast? hd)⟩
  have htext := n.text_eq
  cases he : n.exponent with
  | some e =>
    have hwf := hn.exponent e he
    rw [he, Option.elim, Exponent.text, ← List.cons_append] at htext
    simp only [← List.append_assoc] at htext
    exact hlast _ _ htext hwf.digits_ne hwf.digits
  | none =>
    rw [he, Option.elim, List.append_nil, Numeral.pointed] at htext
    split_ifs at htext with hneg hf hf
    · exact hlast _ _ (by rwa [List.append_nil] at htext) hn.whole_ne hn.whole
    · exact hlast ([minus] ++ (n.whole ++ [dot])) _ (by simpa using htext) (by simpa using hf)
        hn.fraction
    · exact hlast [] _ (by rwa [List.append_nil] at htext) hn.whole_ne hn.whole
    · exact hlast (n.whole ++ [dot]) _ (by simpa using htext) (by simpa using hf) hn.fraction

namespace Token

variable {o : ParserOptions} {before : Option CodeUnit} {pos : Nat} {c : CodeUnit} {w r t : Text}
  {k : Kind} {l : Lexeme} {ts : List Token}

/-! ### Shapes -/

/-- The texts of tokens that are no marks. A word starts with no unit that starts something else,
and is no numeral. -/
inductive Shaped (o : ParserOptions) : Text → Kind → Prop
  | string {w v : Text} (hw : Quoted.Body w v) : Shaped o (quote :: (w ++ [quote])) (.value (.str v))
  | number {n : Numeral} {x : Number} (hn : n.WellFormed) (hx : numberValue? n = some x) :
    Shaped o n.text (.value (.num x))
  | word {c : CodeUnit} {w : Text} (hblank : ¬ c.isBlank) (hc : Kind.ofPunctuation? c = none)
    (hquote : c ≠ quote) (hunits : ∀ d ∈ c :: w, o.isWordUnit d)
    (hn : ∀ n : Numeral, n.WellFormed → n.text ≠ c :: w) :
    Shaped o (c :: w) (Kind.ofWord (c :: w))

/-- In front of `r` a token may end that is no mark. -/
def Parted (o : ParserOptions) (r : Text) : Prop :=
  ∀ c ∈ r.head?, o.isWordUnit c = false ∧ (c.isBlank ∨ ∃ k, Kind.ofPunctuation? c = some k)

theorem Parted.nil : Parted o [] := by
  rintro c ⟨⟩

theorem Parted.noWordUnit (h : Parted o r) : NoWordUnit o r := fun c hc => (h c hc).1

theorem Parted.ne (h : Parted o r) {d : CodeUnit} (hd : ¬ d.isBlank)
    (hk : Kind.ofPunctuation? d = none) : ∀ c ∈ r.head?, c ≠ d := by
  rintro c hc rfl
  rcases (h c hc).2 with hblank | ⟨k, hmark⟩
  · exact hd hblank
  · rw [hk] at hmark
    cases hmark

theorem Shaped.exists_cons (h : Shaped o w k) :
    ∃ c v, w = c :: v ∧ ¬ c.isBlank ∧ Kind.ofPunctuation? c = none := by
  cases h with
  | string => exact ⟨_, _, rfl, by decide, rfl⟩
  | number hn =>
    obtain ⟨c, v, htext, hc⟩ := exists_head_text hn
    exact ⟨c, v, htext, ParserOptions.not_isBlank_of_isWordUnit hc, (no_mark hc).1⟩
  | word hblank hc => exact ⟨_, _, rfl, hblank, hc⟩

/-- A string stands between quotes, a number or a word ends with a unit of words. -/
theorem Shaped.getLast? (h : Shaped o w k) :
    w.head? = some quote ∧ w.getLast? = some quote ∨ ∃ c, w.getLast? = some c ∧ o.isWordUnit c := by
  cases h with
  | string =>
    refine .inl ⟨rfl, ?_⟩
    rw [← List.cons_append, List.getLast?_append]
    rfl
  | number hn =>
    obtain ⟨c, hc, hdigit⟩ := hn.getLast?_text
    exact .inr ⟨c, hc, ParserOptions.isWordUnit_of_isNameUnit
      (ParserOptions.isNameUnit_of_isDigit hdigit)⟩
  | @word c w _ _ _ hunits =>
    obtain ⟨d, hd⟩ := Option.ne_none_iff_exists'.mp
      (List.getLast?_eq_none_iff.not.mpr (List.cons_ne_nil c w))
    exact .inr ⟨d, hd, hunits d (List.mem_of_getLast? hd)⟩

/-! ### Shapes and steps of the scanner -/

/-- A text in the shape of a token is taken off as this token, where it may end. -/
theorem Shaped.lexed (h : Shaped o (c :: w) k)
    (hbefore : c = quote → before.any o.isWordUnit = false) (hr : Parted o r) :
    Lexed o [] before c (w ++ r) ⟨k, w.length⟩ := by
  obtain ⟨u, hu⟩ : ∃ u, u = c :: w := ⟨_, rfl⟩
  rw [← hu] at h
  cases h with
  | @string v x hv =>
    cases hu
    have hread : Quoted.read (v ++ [quote] ++ r) = .ok ⟨x, v.length + 2, r⟩ :=
      Quoted.read_eq_ok_iff.mpr ⟨v, hv, by simp, rfl⟩
    have hlexed : Lexed o [] before quote _ _ := .string (hbefore rfl) hread hr.noWordUnit
      fun hq => hr.ne (by decide) rfl quote hq rfl
    simpa using hlexed
  | @number n x hn hx =>
    obtain ⟨d, v, htext, hd⟩ := exists_head_text hn
    obtain ⟨rfl, rfl⟩ := List.cons.inj (htext.symm.trans hu)
    have hat := numeralAt_text hn hr.noWordUnit
    rw [htext] at hat
    have hlexed : Lexed o [] before d _ _ := .number (no_mark hd).1 (no_mark hd).2
      (ParserOptions.isWordUnit_of_default hd) hat hx
    rwa [htext] at hlexed
  | word hblank hc hquote hunits hn =>
    cases hu
    have htake := Text.takeWhile_append_of (fun d hd => hunits d (List.mem_cons_of_mem c hd))
      hr.noWordUnit
    have hlexed : Lexed o [] before c (w ++ r) _ := .word hc hquote (hunits c (by simp))
      (not_numeralAt hunits hn fun d hd => ⟨hr.noWordUnit d hd, hr.ne (by decide) rfl d hd⟩)
    rwa [htake.1] at hlexed

/-- What is taken off is a mark, or has the shape of a token, with no unit of words behind it. -/
theorem shaped_of_lexed {rest : Text} (hblank : ¬ c.isBlank) (h : Lexed o [] before c rest l) :
    Kind.ofPunctuation? c = some l.kind ∧ l.more = 0 ∨
      Shaped o (c :: rest.take l.more) l.kind ∧ NoWordUnit o (rest.drop l.more) ∧
        (c = quote → before.any o.isWordUnit = false ∧ (rest.drop l.more).head? ≠ some quote) := by
  cases h with
  | mark hc => exact .inl ⟨hc, rfl⟩
  | @string _ r hb hr hnext hquote =>
    obtain ⟨w, hw, rfl, hlen⟩ := Quoted.read_eq_ok_iff.mp hr
    have hsplit : w ++ quote :: r.rest = (w ++ [quote]) ++ r.rest := by simp
    have hmore : r.length - 1 = (w ++ [quote]).length := by rw [hlen]; simp
    simp only [hsplit, hmore, List.take_left, List.drop_left]
    exact .inr ⟨.string hw, hnext, fun _ => ⟨hb, hquote⟩⟩
  | @number _ _ n x hc hquote hword hn hx =>
    have hdrop : rest.drop (n.text.length - 1) = (c :: rest).drop n.text.length := by
      have hpos := congrArg List.length hn.take_eq
      rw [List.length_cons] at hpos
      conv_rhs => rw [show n.text.length = n.text.length - 1 + 1 by omega, List.drop_succ_cons]
    simp only [hn.take_eq, hdrop]
    exact .inr ⟨.number hn.text_eq.1 hx, hn.2.2, fun hq => absurd hq hquote⟩
  | word hc hquote hword hn =>
    have htake : rest.take (rest.takeWhile o.isWordUnit).length = rest.takeWhile o.isWordUnit :=
      (List.prefix_iff_eq_take.mp (List.takeWhile_prefix _)).symm
    have hdrop : rest.drop (rest.takeWhile o.isWordUnit).length = rest.dropWhile o.isWordUnit := by
      have hsplit := List.take_append_drop (rest.takeWhile o.isWordUnit).length rest
      rw [htake] at hsplit
      exact List.append_cancel_left (hsplit.trans List.takeWhile_append_dropWhile.symm)
    have hend := Text.head?_dropWhile o.isWordUnit rest
    simp only [htake, hdrop]
    refine .inr ⟨.word hblank hc hquote (List.forall_mem_cons.mpr ⟨hword, fun d hd =>
      List.all_eq_true.mp (List.all_takeWhile ..) d hd⟩) fun n hwf htext => hn n ?_, hend,
      fun hq => absurd hq hquote⟩
    have hat := numeralAt_text hwf hend
    rwa [htext, List.cons_append, List.takeWhile_append_dropWhile] at hat

/-! ### Rows of tokens -/

/-- The text `t`, at `pos` and behind the unit `before`, is made of the tokens `ts` and of white
space. -/
inductive Spelled (o : ParserOptions) : Option CodeUnit → Nat → Text → List Token → Prop
  | nil {before : Option CodeUnit} {pos : Nat} : Spelled o before pos [] []
  | blank {before : Option CodeUnit} {pos : Nat} {c : CodeUnit} {rest : Text} {ts : List Token}
    (hc : c.isBlank) (h : Spelled o (some c) (pos + 1) rest ts) :
    Spelled o before pos (c :: rest) ts
  | mark {before : Option CodeUnit} {pos : Nat} {c : CodeUnit} {rest : Text} {k : Kind}
    {ts : List Token} (hc : Kind.ofPunctuation? c = some k)
    (h : Spelled o (some c) (pos + 1) rest ts) :
    Spelled o before pos (c :: rest) (⟨k, [c], pos⟩ :: ts)
  | piece {before : Option CodeUnit} {pos : Nat} {w r : Text} {k : Kind} {ts : List Token}
    (hw : Shaped o w k) (hbefore : w.head? = some quote → before.any o.isWordUnit = false)
    (hr : Parted o r) (h : Spelled o w.getLast? (pos + w.length) r ts) :
    Spelled o before pos (w ++ r) (⟨k, w, pos⟩ :: ts)

theorem Spelled.scanned (h : Spelled o before pos t ts) : Scanned o [] before pos t ts := by
  induction h with
  | nil => exact .nil
  | blank hc _ ih => exact .blank hc ih
  | mark hc _ ih => exact .token (not_isBlank_of_ofPunctuation? hc) (.mark hc) ih
  | piece hw hbefore hr _ ih =>
    obtain ⟨c, v, rfl, hblank, -⟩ := hw.exists_cons
    have hlexed := hw.lexed (fun hq => hbefore (congrArg some hq)) hr
    have hscanned := Scanned.token hblank hlexed (by rw [List.take_left, List.drop_left]; exact ih)
    rwa [List.take_left] at hscanned

/-- Where a row goes on without a unit of words and without a quote, a token may end. -/
theorem Scanned.parted (h : Scanned o [] before pos r ts) (hword : NoWordUnit o r)
    (hquote : before.any o.isWordUnit = false → r.head? ≠ some quote) : Parted o r := by
  cases h with
  | nil => exact .nil
  | @blank _ _ c _ _ hc =>
    rintro _ ⟨⟩
    exact ⟨hword c rfl, .inl hc⟩
  | @token _ _ c _ _ _ _ hl =>
    rintro _ ⟨⟩
    refine ⟨hword c rfl, .inr ?_⟩
    cases hl with
    | mark hc => exact ⟨_, hc⟩
    | string hb => exact absurd rfl (hquote hb)
    | number _ _ hw => rw [hword c rfl] at hw; cases hw
    | word _ _ hw => rw [hword c rfl] at hw; cases hw

theorem Scanned.spelled (h : Scanned o [] before pos t ts) : Spelled o before pos t ts := by
  induction h with
  | nil => exact .nil
  | blank hc _ ih => exact .blank hc ih
  | @token before pos c rest l ts hblank hl hrest ih =>
    rcases shaped_of_lexed hblank hl with ⟨hmark, hmore⟩ | ⟨hshape, hword, hquote⟩
    · rw [hmore] at ih ⊢
      exact .mark hmark ih
    · have hparted : Parted o (rest.drop l.more) := by
        refine hrest.parted hword fun hlast => ?_
        rcases hshape.getLast? with ⟨hfirst, -⟩ | ⟨d, hd, hunit⟩
        · exact (hquote (Option.some.inj hfirst)).2
        · rw [hd, Option.any_some, hunit] at hlast; cases hlast
      have hspelled := Spelled.piece hshape (fun hq => (hquote (Option.some.inj hq)).1) hparted ih
      rwa [List.cons_append, List.take_append_drop] at hspelled

theorem spelled_iff : scanFrom o [] before pos t = .ok ts ↔ Spelled o before pos t ts :=
  scanFrom_eq_ok_iff.trans ⟨Scanned.spelled, Spelled.scanned⟩

end Token

end Scim
