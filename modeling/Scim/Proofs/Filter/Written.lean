import Scim.Filter.Render
import Scim.Proofs.Filter.Parse
import Scim.Proofs.Filter.Same
import Scim.Proofs.Token.Written

/-!
# Reading what is written

A filter whose attribute paths are words is written as a text that derives it (`isRead_of_every`), save
for the integers that are written too long to be read. Every filter that was read is of this kind
(`every_of_parse`). So a filter that was read is read back from its written form exactly if it holds
no long integer (`ofText_render_iff_isExact`).
-/

namespace Scim

open CodeUnit
open Token (Reads OfKind Ends)

theorem Text.ofString_openBracket : Text.ofString "[" = [openBracket] := by decide

theorem Text.ofString_closeBracket : Text.ofString "]" = [closeBracket] := by decide

/-! ### Attribute paths -/

/-- A path that is written as a word of its own: an attribute path of filters. -/
structure Path.IsAttribute (p : Path) : Prop where
  word : Path.Word .default p.render p
  text : Token.IsWord p.render
  kind : Token.Kind.ofWord p.render = .word

theorem Path.renderElements_names (names : List Text) :
    Path.renderElements (names.map fun n => ⟨n, none⟩) = names := by
  induction names with
  | nil => rfl
  | cons n rest ih => rw [List.map_cons, Path.renderElements, ih]; rfl

theorem Path.Word.render {o : ParserOptions} {w : Text} {p : Path} (h : Path.Word o w p) :
    p.render = w := by
  cases h with
  | plain =>
    rw [ofNames, Path.render, Path.renderElements_names]; rfl
  | @qualified urn names =>
    rw [ofNames, Path.render, Path.renderElements_names]
    exact List.append_assoc urn [colon] _

theorem Path.IsAttribute.of_word {w : Text} {p : Path} (h : Path.Word .default w p)
    (hw : Token.IsWord w) (hk : Token.Kind.ofWord w = .word) : p.IsAttribute := by
  obtain rfl := h.render
  exact ⟨h, hw, hk⟩

namespace Filter

/-! ### What a filter holds -/

/-- `P` holds of every attribute path of the filter, and `Q` of every value. -/
inductive Every (P : Path → Prop) (Q : Literal → Prop) : Filter → Prop
  | compare {op : Comparison} {p : Path} {v : Literal} (hp : P p) (hv : Q v) :
    Every P Q (.compare op p v)
  | present {p : Path} (hp : P p) : Every P Q (.present p)
  | logical {op : Connective} {f g : Filter} {fs : List Filter}
    (h : ∀ x ∈ f :: g :: fs, Every P Q x) : Every P Q (.logical op f g fs)
  | not {f : Filter} (h : Every P Q f) : Every P Q (.not f)
  | complex {p : Path} {f : Filter} (hp : P p) (h : Every P Q f) : Every P Q (.complex p f)

variable {P : Path → Prop} {Q : Literal → Prop} {f g : Filter} {fs : List Filter} {p : Path}

theorem every_compare_iff {op : Comparison} {v : Literal} :
    Every P Q (.compare op p v) ↔ P p ∧ Q v := by
  constructor
  · intro h
    cases h with
    | compare hp hv => exact ⟨hp, hv⟩
  · rintro ⟨hp, hv⟩
    exact .compare hp hv

theorem every_logical_iff {op : Connective} :
    Every P Q (.logical op f g fs) ↔ ∀ x ∈ f :: g :: fs, Every P Q x := by
  refine ⟨?_, .logical⟩
  intro h
  cases h with
  | logical h => exact h

theorem every_not_iff : Every P Q (.not f) ↔ Every P Q f := by
  refine ⟨?_, .not⟩
  intro h
  cases h with
  | not h => exact h

theorem every_complex_iff : Every P Q (.complex p f) ↔ P p ∧ Every P Q f := by
  constructor
  · intro h
    cases h with
    | complex hp h => exact ⟨hp, h⟩
  · rintro ⟨hp, h⟩
    exact .complex hp h

theorem Every.imp {P' : Path → Prop} {Q' : Literal → Prop} (h : f.Every P Q)
    (hP : ∀ p, P p → P' p) (hQ : ∀ v, Q v → Q' v) : f.Every P' Q' := by
  induction h with
  | compare hp hv => exact .compare (hP _ hp) (hQ _ hv)
  | present hp => exact .present (hP _ hp)
  | logical _ ih => exact .logical ih
  | not _ ih => exact .not ih
  | complex hp _ ih => exact .complex (hP _ hp) ih

/-- Every value of the filter is read back as it was written. -/
def IsExact (f : Filter) : Prop := f.Every (fun _ => True) Literal.IsExact

/-! ### The written form, piece by piece -/

theorem render_compare (op : Comparison) (p : Path) (v : Literal) :
    (Filter.compare op p v).render = p.render ++ ((0x20 :: op.name) ++ (0x20 :: v.render)) := by
  have hspace : Text.ofString " " = [0x20] := by decide
  rw [render, hspace]
  simp

theorem render_present (p : Path) :
    (Filter.present p).render = p.render ++ (0x20 :: Text.ofString "pr") := by
  rw [render]; rfl

theorem render_logical (op : Connective) (f g : Filter) (fs : List Filter) :
    (Filter.logical op f g fs).render = [openParen] ++
      (Text.join (0x20 :: op.name ++ [0x20]) (f.render :: renderAll (g :: fs)) ++ [closeParen]) := by
  rw [render]; rfl

theorem render_not (f : Filter) : (Filter.not f).render =
    Text.ofString "not" ++ ([0x20] ++ ([openParen] ++ (f.render ++ [closeParen]))) := by
  have hopen : Text.ofString "not (" = Text.ofString "not" ++ [0x20, openParen] := by decide
  have hclose : Text.ofString ")" = [closeParen] := by decide
  rw [render, hopen, hclose]
  simp

theorem render_complex (p : Path) (f : Filter) : (Filter.complex p f).render =
    p.render ++ ([openBracket] ++ (f.render ++ [closeBracket])) := by
  rw [render, Text.ofString_openBracket, Text.ofString_closeBracket]
  simp

/-! ### Reading a written filter -/

/-- The written filter is read as tokens that derive it, if all its values are exact. -/
def IsRead (f : Filter) : Prop :=
  ∀ r, Ends r → Reads f.IsExact (Operand .default .and · f) f.render r

theorem ends_mark {c : CodeUnit} (hc : c ∈ [openParen, closeParen, openBracket, closeBracket,
    (0x20 : CodeUnit)]) (r : Text) : Ends (c :: r) :=
  Token.ends_cons ⟨ParserOptions.isWordUnit_mark c (by simp at hc ⊢; tauto), by
    simp only [List.mem_cons, List.not_mem_nil, or_false] at hc
    rcases hc with rfl | rfl | rfl | rfl | rfl <;> decide⟩ r

theorem reads_attribute {r : Text} (hp : p.IsAttribute) (hr : Ends r) : Reads True
    (fun ts => ∃ t, ts = [t] ∧ t.kind = .word ∧ Path.Word .default t.text p) p.render r :=
  (Token.reads_word hp.text hr).imp Iff.rfl fun _ ⟨_, h⟩ => ⟨_, h, hp.kind, hp.word⟩

theorem isWord_comparison (op : Comparison) :
    Token.IsWord op.name ∧ Token.Kind.ofWord op.name = .comparison op := by
  cases op <;> exact ⟨Token.isWord_of_scan (by decide), by decide⟩

theorem isWord_connective (op : Connective) :
    Token.IsWord op.name ∧ Token.Kind.ofWord op.name = .connective op := by
  cases op <;> exact ⟨Token.isWord_of_scan (by decide), by decide⟩

theorem IsRead.compare {op : Comparison} {v : Literal} (hp : p.IsAttribute) :
    IsRead (.compare op p v) := by
  intro r hr
  obtain ⟨hword, hkind⟩ := isWord_comparison op
  have hop := Token.reads_spaced hword (ends_mark (c := 0x20) (by simp) (v.render ++ r))
  rw [hkind] at hop
  have hrest := hop.behind (Token.reads_literal v hr)
    (R := fun ts => ∃ t u, ts = [t, u] ∧ t.kind = .comparison op ∧ u.kind = .value v)
    (by rintro _ _ ⟨t, rfl, ht⟩ ⟨u, rfl, hu⟩; exact ⟨t, u, rfl, ht, hu⟩)
  rw [render_compare]
  refine ((reads_attribute hp (ends_mark (by simp) _)).behind hrest ?_).imp
    (by rw [IsExact, every_compare_iff, true_and]) fun _ => id
  rintro _ _ ⟨t, rfl, ht, hword⟩ ⟨u, v, rfl, hu, hv⟩
  exact .compare ht hword hu hv

theorem IsRead.present (hp : p.IsAttribute) : IsRead (.present p) := by
  intro r hr
  have hword : Token.IsWord (Text.ofString "pr") := Token.isWord_of_scan (by decide)
  have hkind : Token.Kind.ofWord (Text.ofString "pr") = .present := by decide
  have hop := Token.reads_spaced hword hr
  rw [hkind] at hop
  rw [render_present]
  refine ((reads_attribute hp (ends_mark (by simp) _)).behind hop ?_).imp
    (iff_of_true trivial (.present trivial)) fun _ => id
  rintro _ _ ⟨t, rfl, ht, hword⟩ ⟨u, rfl, hu⟩
  exact .present ht hword hu

theorem IsRead.between {a b : CodeUnit} {k l : Token.Kind} (h : IsRead f)
    (ha : Token.Kind.ofPunctuation? a = some k) (hb : Token.Kind.ofPunctuation? b = some l)
    (hends : b = closeParen ∨ b = closeBracket) (r : Text) : Reads f.IsExact
      (fun ts => ∃ t us u, ts = t :: (us ++ [u]) ∧ t.kind = k ∧ Derives .default us f ∧ u.kind = l)
      ([a] ++ (f.render ++ [b])) r := by
  have hbody := (h ([b] ++ r) (ends_mark (by rcases hends with rfl | rfl <;> simp) r)).before
    (Token.reads_mark hb r)
    (R := fun ts => ∃ us u, ts = us ++ [u] ∧ Derives .default us f ∧ u.kind = l)
    (by rintro us _ hus ⟨u, rfl, hu⟩; exact ⟨us, u, rfl, hus.derives, hu⟩)
  refine (Token.reads_mark ha _).behind hbody ?_
  rintro _ _ ⟨t, rfl, ht⟩ ⟨us, u, rfl, hus, hu⟩
  exact ⟨t, us, u, rfl, ht, hus, hu⟩

theorem IsRead.not (h : IsRead f) : IsRead (.not f) := by
  intro r hr
  have hword : Token.IsWord (Text.ofString "not") := Token.isWord_of_scan (by decide)
  have hkind : Token.Kind.ofWord (Text.ofString "not") = .not := by decide
  have hgroup := h.between Token.ofPunctuation?_openParen Token.ofPunctuation?_closeParen (.inl rfl) r
  have hspace := (Token.reads_blank _).behind hgroup (R := fun ts => ∃ t us u, ts = t :: (us ++ [u]) ∧
      t.kind = .openParen ∧ Derives .default us f ∧ u.kind = .closeParen)
    (by rintro _ _ rfl hts; exact hts)
  rw [render_not]
  refine ((Token.reads_word hword (ends_mark (c := 0x20) (by simp) _)).behind hspace ?_).imp
    (by rw [IsExact, IsExact, every_not_iff]) fun _ => id
  rintro _ _ ⟨pos, rfl⟩ ⟨t, us, u, rfl, ht, hus, hu⟩
  exact .not hkind ht hus hu

theorem IsRead.complex (hp : p.IsAttribute) (h : IsRead f) : IsRead (.complex p f) := by
  intro r hr
  have hgroup :=
    h.between Token.ofPunctuation?_openBracket Token.ofPunctuation?_closeBracket (.inr rfl) r
  rw [render_complex]
  refine ((reads_attribute hp (ends_mark (c := openBracket) (by simp) _)).behind hgroup ?_).imp
    (by rw [IsExact, IsExact, every_complex_iff, true_and]) fun _ => id
  rintro _ _ ⟨t, rfl, ht, hword⟩ ⟨u, us, w, rfl, hu, hus, hw⟩
  exact .complex ht hword hu hus hw

theorem Operand.any {o : ParserOptions} {ts : List Token} (h : Operand o .and ts f) :
    ∀ op, Operand o op ts f
  | .and => h
  | .or => .conjunction (.single h)

theorem reads_row (op : Connective) {f : Filter} {fs : List Filter} (h : ∀ x ∈ f :: fs, IsRead x) :
    ∀ r, Ends r → Reads (∀ x ∈ f :: fs, x.IsExact) (Row .default op · f fs)
      (Text.join (0x20 :: op.name ++ [0x20]) (f.render :: renderAll fs)) r := by
  intro r hr
  induction fs generalizing f with
  | nil =>
    rw [renderAll, Text.join_singleton]
    refine (h f (by simp) r hr).imp (by simp) fun ts hts => .single (hts.any op)
  | cons g gs ih =>
    obtain ⟨hword, hkind⟩ := isWord_connective op
    have hrest := ih (f := g) fun x hx => h x (List.mem_cons_of_mem _ hx)
    have hspace := (Token.reads_blank _).behind hrest (R := fun ts => Row .default op ts g gs)
      (by rintro _ _ rfl hts; exact hts)
    have hop := Token.reads_spaced hword (ends_mark (c := 0x20) (by simp)
      (Text.join (0x20 :: op.name ++ [0x20]) (g.render :: renderAll gs) ++ r))
    rw [hkind] at hop
    have htail := hop.behind hspace
      (R := fun ts => ∃ t us, ts = t :: us ∧ t.kind = .connective op ∧ Row .default op us g gs)
      (by rintro _ us ⟨t, rfl, ht⟩ hus; exact ⟨t, us, rfl, ht, hus⟩)
    have htext : Text.join (0x20 :: op.name ++ [0x20]) (f.render :: renderAll (g :: gs)) =
        f.render ++ ((0x20 :: op.name) ++
          ([0x20] ++ Text.join (0x20 :: op.name ++ [0x20]) (g.render :: renderAll gs))) := by
      rw [renderAll, Text.join_cons (by simp)]
      simp
    rw [htext]
    refine ((h f (by simp) _ (ends_mark (c := 0x20) (by simp) _)).append htail ?_).imp
      (List.forall_mem_cons).symm fun _ => id
    rintro ts _ hts ⟨t, us, rfl, ht, hus⟩
    exact .cons (hts.any op) ht hus

theorem Row.derives {o : ParserOptions} {op : Connective} {ts : List Token} (h : Row o op ts f (g :: fs)) :
    Derives o ts (.logical op f g fs) := by
  cases op with
  | and => exact .alternatives (.single (.conjunction h))
  | or => exact .alternatives h

theorem IsRead.logical {op : Connective} (h : ∀ x ∈ f :: g :: fs, IsRead x) :
    IsRead (.logical op f g fs) := by
  intro r hr
  have hbody := (reads_row op h ([closeParen] ++ r) (ends_mark (by simp) r)).before
    (Token.reads_mark Token.ofPunctuation?_closeParen r)
    (R := fun ts => ∃ us u, ts = us ++ [u] ∧ Row .default op us f (g :: fs) ∧ u.kind = .closeParen)
    (by rintro us _ hus ⟨u, rfl, hu⟩; exact ⟨us, u, rfl, hus, hu⟩)
  rw [render_logical]
  refine ((Token.reads_mark Token.ofPunctuation?_openParen _).behind hbody ?_).imp
    (by rw [IsExact, every_logical_iff]; rfl) fun _ => id
  rintro _ _ ⟨t, rfl, ht⟩ ⟨us, u, rfl, hus, hu⟩
  exact .group ht hus.derives hu

theorem isRead_of_every (h : f.Every Path.IsAttribute Q) : IsRead f := by
  induction h with
  | compare hp => exact .compare hp
  | present hp => exact .present hp
  | logical _ ih => exact .logical ih
  | not _ ih => exact .not ih
  | complex hp _ ih => exact .complex hp ih

/-- A filter that is written of words is read back if it is exact, and refused if not. -/
theorem parse_render (h : f.Every Path.IsAttribute Q) :
    (f.IsExact ∧ parse .default f.render = .ok f) ∨
      (¬ f.IsExact ∧ ∃ fault, parse .default f.render = .error fault) := by
  rcases (isRead_of_every h [] (by simp [Ends])).scan with ⟨hyes, ts, hts, hscan⟩ | ⟨hno, fault, hscan⟩
  · exact .inl ⟨hyes, parse_eq_ok_iff.mpr ⟨ts, hscan, hts.derives⟩⟩
  · refine .inr ⟨hno, ?_⟩
    cases hp : parse .default f.render with
    | error e => exact ⟨e, rfl⟩
    | ok g =>
      obtain ⟨ts, hts, -⟩ := parse_eq_ok_iff.mp hp
      rw [hts] at hscan
      cases hscan

/-! ### Filters that were read -/

/-- The word tokens among the tokens are words that are no keywords and no numerals. -/
def WordTokens (ts : List Token) : Prop :=
  ∀ t ∈ ts, t.kind = .word → Token.IsWord t.text ∧ Token.Kind.ofWord t.text = .word

theorem WordTokens.of_subset {ts us : List Token} (h : WordTokens us) (hs : ts ⊆ us) :
    WordTokens ts := fun t ht => h t (hs ht)

theorem WordTokens.isAttribute {ts : List Token} (h : WordTokens ts) {t : Token} (ht : t ∈ ts)
    (hkind : t.kind = .word) (hp : Path.Word .default t.text p) : p.IsAttribute :=
  .of_word hp (h t ht hkind).1 (h t ht hkind).2

theorem every_chain {op : Connective} (h : ∀ x ∈ f :: fs, x.Every P Q) : (chain op f fs).Every P Q := by
  cases fs with
  | nil => exact h f (by simp)
  | cons g gs => exact .logical h

mutual

/-- A filter that is derived from scanned tokens is written of words. -/
theorem Derives.every : ∀ {ts : List Token} {f : Filter}, Derives .default ts f → WordTokens ts →
    f.Every Path.IsAttribute fun _ => True
  | _, _, .alternatives h => fun hts => every_chain (h.every hts)

theorem Row.every : ∀ {op : Connective} {ts : List Token} {f : Filter} {fs : List Filter},
    Row .default op ts f fs → WordTokens ts →
      ∀ x ∈ f :: fs, x.Every Path.IsAttribute fun _ => True
  | _, _, _, _, .single h => by
    intro hts x hx
    rw [List.mem_singleton.mp hx]
    exact h.every hts
  | _, _, _, _, .cons h _ hrest => by
    intro hts x hx
    rcases List.mem_cons.mp hx with hx | hx
    · rw [hx]
      exact h.every (hts.of_subset (by simp))
    · exact hrest.every (hts.of_subset fun t ht => by simp [ht]) x hx

theorem Operand.every : ∀ {op : Connective} {ts : List Token} {f : Filter},
    Operand .default op ts f → WordTokens ts → f.Every Path.IsAttribute fun _ => True
  | _, _, _, .conjunction h => fun hts => every_chain (h.every hts)
  | _, _, _, .not _ _ h _ => fun hts => .not (h.every (hts.of_subset fun t ht => by simp [ht]))
  | _, _, _, .group _ h _ => fun hts => h.every (hts.of_subset fun t ht => by simp [ht])
  | _, _, _, .complex ht hp _ h _ => fun hts =>
    .complex (hts.isAttribute (by simp) ht hp) (h.every (hts.of_subset fun t ht => by simp [ht]))
  | _, _, _, .present ht hp _ => fun hts => .present (hts.isAttribute (by simp) ht hp)
  | _, _, _, .compare ht hp _ _ => fun hts => .compare (hts.isAttribute (by simp) ht hp) trivial

end

theorem every_of_parse {t : Text} (h : parse .default t = .ok f) :
    f.Every Path.IsAttribute fun _ => True := by
  obtain ⟨ts, hts, hf⟩ := parse_eq_ok_iff.mp h
  exact hf.every (Token.isWord_of_scanned (Token.scanFrom_eq_ok_iff.mp hts))

/-- A filter that was read is read back from its written form, as the same filter, exactly if none
of its values is an integer above 2^53 - 1 and below 1e21. Those are written with digits alone,
and such integers are refused. -/
theorem ofText_render_iff_isExact {t : Text} (h : ofText .default t = .ok f) :
    (∃ g, ofText .default f.render = .ok g ∧ f.same g) ↔ f.IsExact := by
  rcases parse_render (every_of_parse (ofText_eq_ok_iff.mp h)) with ⟨hyes, hread⟩ | ⟨hno, fault, hread⟩
  · exact iff_of_true ⟨f, ofText_eq_ok_iff.mpr hread, f.same_refl⟩ hyes
  · refine iff_of_false ?_ hno
    rintro ⟨g, hg, -⟩
    rw [ofText_eq_ok_iff, hread] at hg
    cases hg

/-- The number 1e20, an integer that is written with digits alone. -/
def tenTo20 : Number :=
  ⟨10 ^ 20, 95367431640625, 20, by decide, by decide, by decide, by norm_num⟩

/-- What `a eq 1e20` writes. -/
def eqTenTo20 : Filter := .compare .eq (.ofName (Text.ofString "a")) (.num tenTo20)

theorem ofText_eqTenTo20 : ofText .default (Text.ofString "a eq 1e20") = .ok eqTenTo20 := by
  have hscan : Token.scan .default (Text.ofString "a eq 1e20") =
      .ok [⟨.word, Text.ofString "a", 0⟩, ⟨.comparison .eq, Text.ofString "eq", 2⟩,
        ⟨.value (.num tenTo20), Text.ofString "1e20", 5⟩] := by decide +kernel
  have hword : Path.Word .default (Text.ofString "a") (.ofName (Text.ofString "a")) :=
    .of_isName (by decide)
  exact ofText_eq_ok_iff.mpr
    (parse_eq_ok_iff.mpr ⟨_, hscan, (Operand.compare rfl hword rfl rfl).derives⟩)

theorem ofText_render_iff_isExact_eqTenTo20 :
    ofText .default (Text.ofString "a eq 1e20") = .ok eqTenTo20 ∧
      ((∃ g, ofText .default eqTenTo20.render = .ok g ∧ eqTenTo20.same g) ↔ eqTenTo20.IsExact) :=
  ⟨ofText_eqTenTo20, ofText_render_iff_isExact ofText_eqTenTo20⟩

/-- `a eq 1e20` is read, but the filter that it writes is not read back from its written form
`a eq 100000000000000000000`. -/
theorem eqTenTo20_not_read_back : ofText .default (Text.ofString "a eq 1e20") = .ok eqTenTo20 ∧
    ¬ ∃ g, ofText .default eqTenTo20.render = .ok g ∧ eqTenTo20.same g := by
  refine ⟨ofText_eqTenTo20, ?_⟩
  have hlong : tenTo20.IsLongInteger :=
    ⟨⟨10 ^ 20, by norm_num [tenTo20]⟩, by norm_num [tenTo20, Number.maxSafe],
      by norm_num [tenTo20]⟩
  rintro ⟨g, hg, -⟩
  rw [ofText_eq_ok_iff] at hg
  rcases parse_render (every_of_parse (ofText_eq_ok_iff.mp ofText_eqTenTo20)) with
    ⟨hexact, -⟩ | ⟨-, fault, hread⟩
  · exact (every_compare_iff.mp hexact).2 hlong
  · rw [hread] at hg
    cases hg

end Filter

end Scim
