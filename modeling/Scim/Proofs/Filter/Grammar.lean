import Scim.Proofs.Path.Word
import Scim.Proofs.Token.Scan

/-!
# The grammar of filters

`Filter.Derives`: which rows of tokens write which filter. The grammar is stratified, `or` over
`and` over primary filters, and says nothing about how a row is read. `Proofs/Filter/Parse` shows
that the reader of filters accepts exactly the rows that derive a filter.
-/

namespace Scim.Filter

mutual

/-- `or := and ("or" and)*`. One operand stands for itself, several are one node. -/
inductive Derives (o : ParserOptions) : List Token → Filter → Prop
  | alternatives {ts : List Token} {f : Filter} {fs : List Filter} (h : Row o .or ts f fs) :
    Derives o ts (chain .or f fs)

/-- The operands of a connective in order, with the connective between neighbours. -/
inductive Row (o : ParserOptions) : Connective → List Token → Filter → List Filter → Prop
  | single {op : Connective} {ts : List Token} {f : Filter} (h : Operand o op ts f) :
    Row o op ts f []
  | cons {op : Connective} {ts ts' : List Token} {t : Token} {f g : Filter} {gs : List Filter}
    (h : Operand o op ts f) (ht : t.kind = .connective op) (hrest : Row o op ts' g gs) :
    Row o op (ts ++ t :: ts') f (g :: gs)

/-- The operands of `or` are conjunctions, `and := primary ("and" primary)*`; the operands of `and`
are the primary filters. -/
inductive Operand (o : ParserOptions) : Connective → List Token → Filter → Prop
  | conjunction {ts : List Token} {f : Filter} {fs : List Filter} (h : Row o .and ts f fs) :
    Operand o .or ts (chain .and f fs)
  /-- `"not" "(" or ")"` -/
  | not {t opening closing : Token} {ts : List Token} {f : Filter} (ht : t.kind = .not)
    (hopen : opening.kind = .openParen) (h : Derives o ts f) (hclose : closing.kind = .closeParen) :
    Operand o .and (t :: opening :: (ts ++ [closing])) (.not f)
  /-- `"(" or ")"` -/
  | group {opening closing : Token} {ts : List Token} {f : Filter}
    (hopen : opening.kind = .openParen) (h : Derives o ts f) (hclose : closing.kind = .closeParen) :
    Operand o .and (opening :: (ts ++ [closing])) f
  /-- `attr "[" or "]"` -/
  | complex {t opening closing : Token} {ts : List Token} {p : Path} {f : Filter}
    (ht : t.kind = .word) (hp : Path.Word o t.text p) (hopen : opening.kind = .openBracket)
    (h : Derives o ts f) (hclose : closing.kind = .closeBracket) :
    Operand o .and (t :: opening :: (ts ++ [closing])) (.complex p f)
  /-- `attr "pr"` -/
  | present {t operator : Token} {p : Path} (ht : t.kind = .word) (hp : Path.Word o t.text p)
    (hop : operator.kind = .present) : Operand o .and [t, operator] (.present p)
  /-- `attr cmp value` -/
  | compare {t operator value : Token} {p : Path} {op : Comparison} {l : Literal}
    (ht : t.kind = .word) (hp : Path.Word o t.text p) (hop : operator.kind = .comparison op)
    (hvalue : value.kind = .value l) : Operand o .and [t, operator, value] (.compare op p l)

end

variable {o : ParserOptions} {ts : List Token} {f : Filter}

theorem Operand.derives (h : Operand o .and ts f) : Derives o ts f :=
  .alternatives (.single (.conjunction (.single h)))

mutual

theorem Derives.ne_nil : ∀ {ts : List Token} {f : Filter}, Derives o ts f → ts ≠ []
  | _, _, .alternatives h => h.ne_nil

theorem Row.ne_nil : ∀ {op : Connective} {ts : List Token} {f : Filter} {fs : List Filter},
    Row o op ts f fs → ts ≠ []
  | _, _, _, _, .single h => h.ne_nil
  | _, _, _, _, .cons .. => by simp

theorem Operand.ne_nil : ∀ {op : Connective} {ts : List Token} {f : Filter},
    Operand o op ts f → ts ≠ []
  | _, _, _, .conjunction h => h.ne_nil
  | _, _, _, .not .. | _, _, _, .group .. | _, _, _, .complex .. | _, _, _, .present ..
  | _, _, _, .compare .. => by simp

end

mutual

/-- No filter is written with a comma outside its strings. -/
theorem Derives.kind_ne_comma : ∀ {ts : List Token} {f : Filter}, Derives o ts f →
    ∀ x ∈ ts, x.kind ≠ .comma
  | _, _, .alternatives h => h.kind_ne_comma

theorem Row.kind_ne_comma : ∀ {op : Connective} {ts : List Token} {f : Filter} {fs : List Filter},
    Row o op ts f fs → ∀ x ∈ ts, x.kind ≠ .comma
  | _, _, _, _, .single h => h.kind_ne_comma
  | _, _, _, _, .cons h ht hrest => List.forall_mem_append.mpr
    ⟨h.kind_ne_comma, List.forall_mem_cons.mpr ⟨by simp [ht], hrest.kind_ne_comma⟩⟩

theorem Operand.kind_ne_comma : ∀ {op : Connective} {ts : List Token} {f : Filter},
    Operand o op ts f → ∀ x ∈ ts, x.kind ≠ .comma
  | _, _, _, .conjunction h => h.kind_ne_comma
  | _, _, _, .not ht hopen h hclose => by
    have := h.kind_ne_comma
    simpa [or_imp, forall_and, ht, hopen, hclose] using this
  | _, _, _, .group hopen h hclose => by
    have := h.kind_ne_comma
    simpa [or_imp, forall_and, hopen, hclose] using this
  | _, _, _, .complex ht _ hopen h hclose => by
    have := h.kind_ne_comma
    simpa [or_imp, forall_and, ht, hopen, hclose] using this
  | _, _, _, .present ht _ hop => by simp [ht, hop]
  | _, _, _, .compare ht _ hop hvalue => by simp [ht, hop, hvalue]

end

/-! ### Other tokens

The grammar looks at the kinds of tokens, and of words at the paths they write. So a derivation goes
over to other tokens, and to other options, up to any relation of paths that filters respect. -/

/-- A token of the same kind. If it is a word, it writes a path for every path that `x` writes, and
`S` relates the two. -/
structure Carries (o o' : ParserOptions) (S : Path → Path → Prop) (x x' : Token) : Prop where
  kind : x'.kind = x.kind
  word : x.kind = .word → ∀ p, Path.Word o x.text p → ∃ p', Path.Word o' x'.text p' ∧ S p p'

/-- `Q` relates filters of one form whose paths are related by `S`. -/
structure Congruent (S : Path → Path → Prop) (Q : Filter → Filter → Prop) : Prop where
  compare {p p' : Path} (op : Comparison) (l : Literal) (h : S p p') :
    Q (.compare op p l) (.compare op p' l)
  present {p p' : Path} (h : S p p') : Q (.present p) (.present p')
  not {f f' : Filter} (h : Q f f') : Q (.not f) (.not f')
  complex {p p' : Path} {f f' : Filter} (hp : S p p') (h : Q f f') : Q (.complex p f) (.complex p' f')
  chain {f f' : Filter} {fs fs' : List Filter} (op : Connective) (h : Q f f')
    (hs : List.Forall₂ Q fs fs') : Q (chain op f fs) (chain op f' fs')

section Carried

variable {o' : ParserOptions} {S : Path → Path → Prop} {Q : Filter → Filter → Prop}

theorem forall₂_enclosed {α β : Type} {R : α → β → Prop} {a b : α} {as : List α} {cs : List β}
    (h : List.Forall₂ R (a :: (as ++ [b])) cs) :
    ∃ a' as' b', cs = a' :: (as' ++ [b']) ∧ R a a' ∧ List.Forall₂ R as as' ∧ R b b' := by
  obtain ⟨a', cs', ha, hcs, rfl⟩ := List.forall₂_cons_left_iff.mp h
  obtain ⟨as', bs', rfl, has, hbs⟩ := forall₂_append_left hcs
  obtain ⟨b', _, hb, ⟨⟩, rfl⟩ := List.forall₂_cons_left_iff.mp hbs
  exact ⟨a', as', b', rfl, ha, has, hb⟩

mutual

theorem Derives.carried (hQ : Congruent S Q) : ∀ {ts : List Token} {f : Filter}, Derives o ts f →
    ∀ {ts' : List Token}, List.Forall₂ (Carries o o' S) ts ts' → ∃ f', Derives o' ts' f' ∧ Q f f'
  | _, _, .alternatives h, _, hts => by
    obtain ⟨f', fs', h', hf, hfs⟩ := h.carried hQ hts
    exact ⟨_, .alternatives h', hQ.chain .or hf hfs⟩

theorem Row.carried (hQ : Congruent S Q) : ∀ {op : Connective} {ts : List Token} {f : Filter}
    {fs : List Filter}, Row o op ts f fs → ∀ {ts' : List Token},
      List.Forall₂ (Carries o o' S) ts ts' → ∃ f' fs', Row o' op ts' f' fs' ∧ Q f f' ∧
        List.Forall₂ Q fs fs'
  | _, _, _, _, .single h, _, hts => by
    obtain ⟨f', h', hf⟩ := h.carried hQ hts
    exact ⟨f', [], .single h', hf, .nil⟩
  | _, _, _, _, .cons h ht hrest, _, hts => by
    obtain ⟨us, _, rfl, hus, hvs⟩ := forall₂_append_left hts
    obtain ⟨x, vs, hx, hrow, rfl⟩ := List.forall₂_cons_left_iff.mp hvs
    obtain ⟨f', h', hf⟩ := h.carried hQ hus
    obtain ⟨g', gs', hrest', hg, hgs⟩ := hrest.carried hQ hrow
    exact ⟨f', g' :: gs', .cons h' (hx.kind.trans ht) hrest', hf, .cons hg hgs⟩

theorem Operand.carried (hQ : Congruent S Q) : ∀ {op : Connective} {ts : List Token} {f : Filter},
    Operand o op ts f → ∀ {ts' : List Token}, List.Forall₂ (Carries o o' S) ts ts' →
      ∃ f', Operand o' op ts' f' ∧ Q f f'
  | _, _, _, .conjunction h, _, hts => by
    obtain ⟨f', fs', h', hf, hfs⟩ := h.carried hQ hts
    exact ⟨_, .conjunction h', hQ.chain .and hf hfs⟩
  | _, _, _, .not ht hopen h hclose, _, hts => by
    obtain ⟨x, _, hx, hgroup, rfl⟩ := List.forall₂_cons_left_iff.mp hts
    obtain ⟨y, us, z, rfl, hy, hus, hz⟩ := forall₂_enclosed hgroup
    obtain ⟨f', h', hf⟩ := h.carried hQ hus
    exact ⟨_, .not (hx.kind.trans ht) (hy.kind.trans hopen) h' (hz.kind.trans hclose), hQ.not hf⟩
  | _, _, _, .group hopen h hclose, _, hts => by
    obtain ⟨y, us, z, rfl, hy, hus, hz⟩ := forall₂_enclosed hts
    obtain ⟨f', h', hf⟩ := h.carried hQ hus
    exact ⟨_, .group (hy.kind.trans hopen) h' (hz.kind.trans hclose), hf⟩
  | _, _, _, .complex ht hp hopen h hclose, _, hts => by
    obtain ⟨x, _, hx, hgroup, rfl⟩ := List.forall₂_cons_left_iff.mp hts
    obtain ⟨y, us, z, rfl, hy, hus, hz⟩ := forall₂_enclosed hgroup
    obtain ⟨f', h', hf⟩ := h.carried hQ hus
    obtain ⟨p', hp', hpp⟩ := hx.word ht _ hp
    exact ⟨_, .complex (hx.kind.trans ht) hp' (hy.kind.trans hopen) h' (hz.kind.trans hclose),
      hQ.complex hpp hf⟩
  | _, _, _, .present ht hp hop, _, hts => by
    obtain ⟨x, _, hx, hrest, rfl⟩ := List.forall₂_cons_left_iff.mp hts
    obtain ⟨y, _, hy, ⟨⟩, rfl⟩ := List.forall₂_cons_left_iff.mp hrest
    obtain ⟨p', hp', hpp⟩ := hx.word ht _ hp
    exact ⟨_, .present (hx.kind.trans ht) hp' (hy.kind.trans hop), hQ.present hpp⟩
  | _, _, _, .compare ht hp hop hvalue, _, hts => by
    obtain ⟨x, _, hx, hrest, rfl⟩ := List.forall₂_cons_left_iff.mp hts
    obtain ⟨y, _, hy, hlast, rfl⟩ := List.forall₂_cons_left_iff.mp hrest
    obtain ⟨z, _, hz, ⟨⟩, rfl⟩ := List.forall₂_cons_left_iff.mp hlast
    obtain ⟨p', hp', hpp⟩ := hx.word ht _ hp
    exact ⟨_, .compare (hx.kind.trans ht) hp' (hy.kind.trans hop) (hz.kind.trans hvalue),
      hQ.compare _ _ hpp⟩

end

/-- Where the words write the same paths, the same filter is derived. -/
theorem Derives.of_carries {ts' : List Token} (h : Derives o ts f)
    (hts : List.Forall₂ (Carries o o' Eq) ts ts') : Derives o' ts' f := by
  have heq : Congruent Eq Eq :=
    { compare := by rintro _ _ _ _ rfl; rfl
      present := by rintro _ _ rfl; rfl
      not := by rintro _ _ rfl; rfl
      complex := by rintro _ _ _ _ rfl rfl; rfl
      chain := by
        rintro f _ fs fs' op rfl hs
        rw [List.forall₂_eq_eq_eq] at hs
        rw [hs] }
  obtain ⟨_, h', rfl⟩ := h.carried heq hts
  exact h'

end Carried

/-- Positions do not count. -/
theorem derives_shift_iff {k : Nat} : Derives o (ts.map (Token.shift k)) f ↔ Derives o ts f := by
  have hcarries : ∀ x, Carries o o Eq (x.shift k) x ∧ Carries o o Eq x (x.shift k) := fun x =>
    ⟨⟨rfl, fun _ p hp => ⟨p, hp, rfl⟩⟩, ⟨rfl, fun _ p hp => ⟨p, hp, rfl⟩⟩⟩
  constructor
  · intro h
    exact h.of_carries (List.forall₂_map_left_iff.mpr
      (List.forall₂_same.mpr fun x _ => (hcarries x).1))
  · intro h
    exact h.of_carries (List.forall₂_map_right_iff.mpr
      (List.forall₂_same.mpr fun x _ => (hcarries x).2))

end Scim.Filter
