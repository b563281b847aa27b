import Scim.Filter.Build
import Scim.Proofs.Filter.Grammar
import Scim.Proofs.Token.Range

/-!
# Reading filters by the grammar

The reader of filters is sound and complete for the grammar (`derives_of_ofTokens`,
`ofTokens_of_derives`). It collects the operands of both connectives in one row and groups them
afterwards; `Rows` is a row of operands before the grouping, over any notion of operand, and
`Grouped` the same row as alternatives. What one call of the reader does is said once, in
`parseOperand_gives_iff` and `parseOperands_gives_iff`.
-/

namespace Scim

namespace Operands

def append : Operands → Connective → Operands → Operands
  | single f, op, s => cons f op s
  | cons f op' r, op, s => cons f op' (r.append op s)

theorem alternatives_append_or (r s : Operands) : (r.append .or s).alternatives =
    (r.alternatives.1, r.alternatives.2 ++ s.alternatives.1 :: s.alternatives.2) := by
  induction r with
  | single f => rfl
  | cons f op r ih => cases op <;> simp [append, alternatives, ih]

/-- The filter of a run of operands joined by `and`. -/
def conjunction (fs : Filter × List Filter) : Filter := Filter.chain .and fs.1 fs.2

end Operands

namespace Filter

open Operands (conjunction)

variable {o : ParserOptions} {stop : Nat} {ts ts' rest : List Token} {t : Token} {f : Filter}

/-! ### What a reader gives -/

/-- The reader gives `a` and leaves `rest`. -/
def Parsed.Gives {α : Type} (r : Parsed α ts) (a : α) (rest : List Token) : Prop :=
  ∃ h, r = .ok ⟨(a, rest), h⟩

namespace Parsed

variable {α β : Type} {a b : α}

theorem gives_ok {h : rest.length < ts.length} {rest' : List Token} :
    Gives (.ok ⟨(a, rest), h⟩ : Parsed α ts) b rest' ↔ b = a ∧ rest' = rest := by
  constructor
  · rintro ⟨h', he⟩; cases he; exact ⟨rfl, rfl⟩
  · rintro ⟨rfl, rfl⟩; exact ⟨h, rfl⟩

theorem not_gives_error {e : SyntaxFault} : ¬ Gives (.error e : Parsed α ts) a rest := by
  rintro ⟨_, h⟩; cases h

theorem gives_weaken {r : Parsed α ts} (h : ts.length ≤ ts'.length) :
    (r.weaken h).Gives a rest ↔ r.Gives a rest := by
  rcases r with e | ⟨r, hr⟩
  · exact iff_of_false not_gives_error not_gives_error
  · exact gives_ok.trans gives_ok.symm

theorem gives_map {r : Parsed α ts} {g : α → β} {b : β} :
    (r.map g).Gives b rest ↔ ∃ a, r.Gives a rest ∧ b = g a := by
  rcases r with e | ⟨⟨a, rest'⟩, hr⟩
  · exact iff_of_false not_gives_error fun ⟨_, h, _⟩ => not_gives_error h
  · simp only [map, gives_ok]
    constructor
    · rintro ⟨rfl, rfl⟩
      exact ⟨a, ⟨rfl, rfl⟩, rfl⟩
    · rintro ⟨_, ⟨rfl, rfl⟩, rfl⟩
      exact ⟨rfl, rfl⟩

theorem gives_closeGroup {b : Bracket} {opening : Token} {r : Parsed Operands ts} :
    (closeGroup b opening r).Gives f rest ↔
      ∃ s closing, r.Gives s (closing :: rest) ∧ closing.kind = b.closing ∧ f = s.toFilter := by
  match r with
  | .error e => exact iff_of_false not_gives_error fun ⟨_, _, h, _⟩ => not_gives_error h
  | .ok ⟨(s, []), hr⟩ =>
    refine iff_of_false not_gives_error ?_
    rintro ⟨_, _, h, _⟩
    exact absurd (gives_ok.mp h).2 (by simp)
  | .ok ⟨(s, t :: rest'), hr⟩ =>
    rw [closeGroup]
    split_ifs with ht
    · simp only [gives_ok, List.cons.injEq]
      constructor
      · rintro ⟨rfl, rfl⟩
        exact ⟨s, t, ⟨rfl, rfl, rfl⟩, ht, rfl⟩
      · rintro ⟨_, _, ⟨rfl, -, rfl⟩, -, rfl⟩
        exact ⟨rfl, rfl⟩
    · refine iff_of_false not_gives_error ?_
      rintro ⟨_, _, h, hc, _⟩
      obtain ⟨-, h⟩ := gives_ok.mp h
      cases h
      exact ht hc

end Parsed

/-- The forms of one operand in front of `rest`, where `G` says what is read inside brackets. -/
inductive OperandForm (o : ParserOptions) (G : List Token → Filter → List Token → Prop)
    (rest : List Token) : List Token → Filter → Prop
  | not {t opening closing : Token} {ts : List Token} {f : Filter} (ht : t.kind = .not)
    (hopen : opening.kind = .openParen) (h : G ts f (closing :: rest))
    (hclose : closing.kind = .closeParen) : OperandForm o G rest (t :: opening :: ts) (.not f)
  | group {opening closing : Token} {ts : List Token} {f : Filter}
    (hopen : opening.kind = .openParen) (h : G ts f (closing :: rest))
    (hclose : closing.kind = .closeParen) : OperandForm o G rest (opening :: ts) f
  | complex {t opening closing : Token} {ts : List Token} {p : Path} {f : Filter}
    (ht : t.kind = .word) (hp : Path.Word o t.text p) (hopen : opening.kind = .openBracket)
    (h : G ts f (closing :: rest)) (hclose : closing.kind = .closeBracket) :
    OperandForm o G rest (t :: opening :: ts) (.complex p f)
  | present {t operator : Token} {p : Path} (ht : t.kind = .word) (hp : Path.Word o t.text p)
    (hop : operator.kind = .present) : OperandForm o G rest (t :: operator :: rest) (.present p)
  | compare {t operator value : Token} {p : Path} {op : Comparison} {l : Literal}
    (ht : t.kind = .word) (hp : Path.Word o t.text p) (hop : operator.kind = .comparison op)
    (hvalue : value.kind = .value l) :
    OperandForm o G rest (t :: operator :: value :: rest) (.compare op p l)

/-- The filter of the operands that are read from the front of a row. -/
def ReadsGroup (o : ParserOptions) (stop : Nat) (ts : List Token) (f : Filter) (rest : List Token) :
    Prop := ∃ s, (parseOperands o stop ts).Gives s rest ∧ f = s.toFilter

theorem gives_closeGroup_iff {b : Bracket} {opening : Token} :
    (closeGroup b opening (parseOperands o stop ts)).Gives f rest ↔
      ∃ closing, ReadsGroup o stop ts f (closing :: rest) ∧ closing.kind = b.closing := by
  rw [Parsed.gives_closeGroup]
  constructor
  · rintro ⟨s, closing, h, hc, hf⟩
    exact ⟨closing, ⟨s, h, hf⟩, hc⟩
  · rintro ⟨closing, ⟨s, h, hf⟩, hc⟩
    exact ⟨s, closing, h, hc, hf⟩

theorem operandForm_of_gives (h : (parseOperand o stop ts).Gives f rest) :
    OperandForm o (ReadsGroup o stop) rest ts f := by
  rw [parseOperand.eq_def] at h
  split at h
  · exact absurd h Parsed.not_gives_error
  rename_i t ts
  split at h
  · rename_i ht
    split at h
    · exact absurd h Parsed.not_gives_error
    split_ifs at h with hopen
    · obtain ⟨g, hg, rfl⟩ := Parsed.gives_map.mp h
      obtain ⟨c, hc, hclose⟩ := gives_closeGroup_iff.mp ((Parsed.gives_weaken _).mp hg)
      exact .not ht hopen hc hclose
    · exact absurd h Parsed.not_gives_error
  · rename_i ht
    obtain ⟨c, hc, hclose⟩ := gives_closeGroup_iff.mp ((Parsed.gives_weaken _).mp h)
    exact .group ht hc hclose
  · exact absurd h Parsed.not_gives_error
  · rename_i ht
    split at h
    · exact absurd h Parsed.not_gives_error
    rename_i p hp
    have hp := Path.ofWord_eq_ok_iff.mp hp
    split at h
    · exact absurd h Parsed.not_gives_error
    split at h
    · rename_i hopen
      obtain ⟨g, hg, rfl⟩ := Parsed.gives_map.mp h
      obtain ⟨c, hc, hclose⟩ := gives_closeGroup_iff.mp ((Parsed.gives_weaken _).mp hg)
      exact .complex ht hp hopen hc hclose
    · rename_i hop
      obtain ⟨rfl, rfl⟩ := Parsed.gives_ok.mp h
      exact .present ht hp hop
    · rename_i hop
      split at h
      · exact absurd h Parsed.not_gives_error
      split at h
      · rename_i hv
        obtain ⟨rfl, rfl⟩ := Parsed.gives_ok.mp h
        exact .compare ht hp hop hv
      · exact absurd h Parsed.not_gives_error
    · exact absurd h Parsed.not_gives_error
  · exact absurd h Parsed.not_gives_error

theorem gives_of_operandForm (h : OperandForm o (ReadsGroup o stop) rest ts f) :
    (parseOperand o stop ts).Gives f rest := by
  rw [parseOperand.eq_def]
  cases h with
  | not ht hopen h hclose =>
    simp only [ht, if_pos hopen, Parsed.gives_map, Parsed.gives_weaken, gives_closeGroup_iff]
    exact ⟨_, ⟨_, h, hclose⟩, rfl⟩
  | group hopen h hclose =>
    simp only [hopen, Parsed.gives_weaken, gives_closeGroup_iff]
    exact ⟨_, h, hclose⟩
  | complex ht hp hopen h hclose =>
    simp only [ht, Path.ofWord_eq_ok_iff.mpr hp, hopen, Parsed.gives_map, Parsed.gives_weaken,
      gives_closeGroup_iff]
    exact ⟨_, ⟨_, h, hclose⟩, rfl⟩
  | present ht hp hop =>
    simp only [ht, Path.ofWord_eq_ok_iff.mpr hp, hop, Parsed.gives_ok, and_self]
  | compare ht hp hop hvalue =>
    simp only [ht, Path.ofWord_eq_ok_iff.mpr hp, hop, hvalue, Parsed.gives_ok, and_self]

theorem parseOperand_gives_iff : (parseOperand o stop ts).Gives f rest ↔
    OperandForm o (ReadsGroup o stop) rest ts f :=
  ⟨operandForm_of_gives, gives_of_operandForm⟩

/-- No connective stands at the front. -/
def Ended (ts : List Token) : Prop := ∀ t ∈ ts.head?, ∀ op, t.kind ≠ .connective op

theorem parseOperands_gives_iff {s : Operands} : (parseOperands o stop ts).Gives s rest ↔
    (∃ f, (parseOperand o stop ts).Gives f rest ∧ Ended rest ∧ s = .single f) ∨
    ∃ f t op ts' s', (parseOperand o stop ts).Gives f (t :: ts') ∧ t.kind = .connective op ∧
      (parseOperands o stop ts').Gives s' rest ∧ s = .cons f op s' := by
  rw [parseOperands.eq_def]
  rcases hp : parseOperand o stop ts with e | ⟨⟨f, _ | ⟨t, ts'⟩⟩, hlt⟩
  · simp [Parsed.not_gives_error]
  · simp only [Parsed.gives_ok]
    constructor
    · rintro ⟨rfl, rfl⟩
      exact .inl ⟨f, ⟨rfl, rfl⟩, by simp [Ended], rfl⟩
    · rintro (⟨g, ⟨rfl, rfl⟩, -, rfl⟩ | ⟨g, t, op, ts', s', ⟨-, h⟩, -⟩)
      · exact ⟨rfl, rfl⟩
      · cases h
  · simp only [Parsed.gives_ok]
    split
    · rename_i op ht
      rw [Parsed.gives_map]
      simp only [Parsed.gives_weaken]
      constructor
      · rintro ⟨s', hs', rfl⟩
        exact .inr ⟨f, t, op, ts', s', ⟨rfl, rfl⟩, ht, hs', rfl⟩
      · rintro (⟨g, ⟨rfl, rfl⟩, hend, -⟩ | ⟨g, t', op', ts'', s', ⟨rfl, h⟩, ht', hs', rfl⟩)
        · exact absurd ht (hend t rfl op)
        · cases h
          rw [ht] at ht'
          cases ht'
          exact ⟨s', hs', rfl⟩
    · rename_i ht
      simp only [Parsed.gives_ok]
      constructor
      · rintro ⟨rfl, rfl⟩
        refine .inl ⟨f, ⟨rfl, rfl⟩, fun t' h' op h => ?_, rfl⟩
        cases h'
        exact ht op h
      · rintro (⟨g, ⟨rfl, rfl⟩, -, rfl⟩ | ⟨g, t', op', ts'', s', ⟨rfl, h⟩, ht', -⟩)
        · exact ⟨rfl, rfl⟩
        · cases h
          exact absurd ht' (ht op')

/-! ### Rows of operands and their groups -/

/-- Tokens of operands with connectives between them; `P` says which tokens write an operand. -/
inductive Rows (P : List Token → Filter → Prop) : List Token → Operands → Prop
  | single {ts : List Token} {f : Filter} (h : P ts f) : Rows P ts (.single f)
  | cons {ts ts' : List Token} {t : Token} {f : Filter} {op : Connective} {s : Operands}
    (h : P ts f) (ht : t.kind = .connective op) (hrest : Rows P ts' s) :
    Rows P (ts ++ t :: ts') (.cons f op s)

theorem Rows.append {P : List Token → Filter → Prop} {op : Connective} {r s : Operands}
    (hr : Rows P ts r) (ht : t.kind = .connective op) (hs : Rows P ts' s) :
    Rows P (ts ++ t :: ts') (r.append op s) := by
  induction hr with
  | single h => exact .cons h ht hs
  | cons h ht' _ ih =>
    rw [List.append_assoc, List.cons_append]
    exact .cons h ht' ih

/-- Tokens of alternatives, each a run of operands joined by `and`. -/
inductive Grouped (o : ParserOptions) :
    List Token → Filter × List Filter → List (Filter × List Filter) → Prop
  | last {ts : List Token} {a : Filter × List Filter} (h : Row o .and ts a.1 a.2) : Grouped o ts a []
  | cons {ts ts' : List Token} {t : Token} {a b : Filter × List Filter}
    {bs : List (Filter × List Filter)} (h : Row o .and ts a.1 a.2) (ht : t.kind = .connective .or)
    (hrest : Grouped o ts' b bs) : Grouped o (ts ++ t :: ts') a (b :: bs)

namespace Grouped

variable {a : Filter × List Filter} {as : List (Filter × List Filter)}

theorem row (h : Grouped o ts a as) : Row o .or ts (conjunction a) (as.map conjunction) := by
  induction h with
  | last h => exact .single (.conjunction h)
  | cons h ht _ ih => exact .cons (.conjunction h) ht ih

theorem prepend (hf : Operand o .and ts f) (ht : t.kind = .connective .and)
    (h : Grouped o ts' a as) : Grouped o (ts ++ t :: ts') (f, a.1 :: a.2) as := by
  cases h with
  | last h => exact .last (.cons hf ht h)
  | @cons ts₁ ts₂ t' _ b bs h ht' hrest =>
    rw [← List.cons_append, ← List.append_assoc]
    exact .cons (.cons hf ht h) ht' hrest

end Grouped

theorem Rows.grouped {s : Operands} (h : Rows (Operand o .and) ts s) :
    Grouped o ts s.alternatives.1 s.alternatives.2 := by
  induction h with
  | single h => exact .last (.single h)
  | @cons _ _ _ _ op _ h ht _ ih =>
    cases op with
    | and => exact ih.prepend h ht
    | or => exact .cons (.single h) ht ih

theorem Rows.derives {s : Operands} (h : Rows (Operand o .and) ts s) : Derives o ts s.toFilter :=
  .alternatives h.grouped.row

/-! ### Soundness -/

/-- What the reader takes off a row writes what it gives. The induction is on the length of the row,
for one operand and for a row of them together. -/
theorem used_of_gives (n : Nat) : ∀ ts : List Token, ts.length ≤ n →
    (∀ f rest, (parseOperand o stop ts).Gives f rest →
      ∃ used, ts = used ++ rest ∧ Operand o .and used f) ∧
    ∀ s rest, (parseOperands o stop ts).Gives s rest →
      ∃ used, ts = used ++ rest ∧ Rows (Operand o .and) used s := by
  induction n with
  | zero =>
    intro ts hlen
    obtain rfl := List.length_eq_zero_iff.mp (Nat.le_zero.mp hlen)
    exact ⟨fun _ _ ⟨h, _⟩ => absurd h (Nat.not_lt_zero _),
      fun _ _ ⟨h, _⟩ => absurd h (Nat.not_lt_zero _)⟩
  | succ n ih =>
    intro ts hlen
    have group : ∀ {ts' : List Token} {f : Filter} {rest : List Token}, ts'.length ≤ n →
        ReadsGroup o stop ts' f rest → ∃ used, ts' = used ++ rest ∧ Derives o used f := by
      rintro ts' f rest hlen' ⟨s, hs, rfl⟩
      obtain ⟨used, h, hrows⟩ := (ih ts' hlen').2 s rest hs
      exact ⟨used, h, hrows.derives⟩
    have operand : ∀ f rest, (parseOperand o stop ts).Gives f rest →
        ∃ used, ts = used ++ rest ∧ Operand o .and used f := by
      intro f rest h
      cases parseOperand_gives_iff.mp h with
      | not ht hopen hg hclose =>
        obtain ⟨used, rfl, hd⟩ := group (by simp at hlen; omega) hg
        exact ⟨_, by simp, .not ht hopen hd hclose⟩
      | group hopen hg hclose =>
        obtain ⟨used, rfl, hd⟩ := group (by simpa using hlen) hg
        exact ⟨_, by simp, .group hopen hd hclose⟩
      | complex ht hp hopen hg hclose =>
        obtain ⟨used, rfl, hd⟩ := group (by simp at hlen; omega) hg
        exact ⟨_, by simp, .complex ht hp hopen hd hclose⟩
      | present ht hp hop => exact ⟨_, rfl, .present ht hp hop⟩
      | compare ht hp hop hvalue => exact ⟨_, rfl, .compare ht hp hop hvalue⟩
    refine ⟨operand, fun s rest h => ?_⟩
    rcases parseOperands_gives_iff.mp h with ⟨f, hf, -, rfl⟩ | ⟨f, t, op, ts', s', hf, ht, hs', rfl⟩
    · obtain ⟨used, h, hused⟩ := operand f rest hf
      exact ⟨used, h, .single hused⟩
    · obtain ⟨used, rfl, hused⟩ := operand f _ hf
      have hlen' : ts'.length ≤ n := by simp at hlen; omega
      obtain ⟨used', rfl, hrest⟩ := (ih ts' hlen').2 s' rest hs'
      exact ⟨used ++ t :: used', by simp, .cons hused ht hrest⟩

theorem derives_of_ofTokens (h : ofTokens o stop ts = .ok f) : Derives o ts f := by
  rw [ofTokens] at h
  rcases hs : parseOperands o stop ts with e | ⟨⟨s, _ | ⟨t, rest⟩⟩, hlt⟩
  · rw [hs] at h; cases h
  · rw [hs] at h
    cases h
    obtain ⟨used, rfl, hrows⟩ := (used_of_gives ts.length ts (Nat.le_refl _)).2 s [] ⟨hlt, hs⟩
    rw [List.append_nil]
    exact hrows.derives
  · rw [hs] at h
    dsimp only at h
    split_ifs at h

/-! ### Completeness -/

/-- The reader takes exactly `ts` for `f`, whatever follows. -/
def Taken (o : ParserOptions) (stop : Nat) (ts : List Token) (f : Filter) : Prop :=
  ∀ rest, (parseOperand o stop (ts ++ rest)).Gives f rest

theorem Rows.gives {s : Operands} (h : Rows (Taken o stop) ts s) (hend : Ended rest) :
    (parseOperands o stop (ts ++ rest)).Gives s rest := by
  induction h with
  | single h => exact parseOperands_gives_iff.mpr (.inl ⟨_, h rest, hend, rfl⟩)
  | @cons ts ts' t f op s h ht _ ih =>
    rw [List.append_assoc, List.cons_append]
    exact parseOperands_gives_iff.mpr (.inr ⟨f, t, op, _, s, h _, ht, ih, rfl⟩)

theorem readsGroup_closing {closing : Token} {b : Bracket} {s : Operands}
    (h : Rows (Taken o stop) ts s) (hclose : closing.kind = b.closing) :
    ReadsGroup o stop (ts ++ closing :: rest) s.toFilter (closing :: rest) := by
  refine ⟨s, h.gives ?_, rfl⟩
  rintro t ⟨⟩ op hop
  rw [hclose] at hop
  cases b <;> cases hop

/-- The operands `f` and `fs` of a connective are what a row of operands is grouped to. -/
def Groups : Connective → Operands → Filter → List Filter → Prop
  | .and, s, f, fs => s.alternatives = ((f, fs), [])
  | .or, s, f, fs => conjunction s.alternatives.1 = f ∧ s.alternatives.2.map conjunction = fs

/-- How the reader meets an operand of a connective: an operand of `and` at once, an operand of `or`
as a row of which it makes one alternative. -/
def Met (o : ParserOptions) (stop : Nat) : Connective → List Token → Filter → Prop
  | .and, ts, f => Taken o stop ts f
  | .or, ts, f => ∃ s, Rows (Taken o stop) ts s ∧ conjunction s.alternatives.1 = f ∧
    s.alternatives.2 = []

theorem groups_single {op : Connective} (h : Met o stop op ts f) :
    ∃ s, Rows (Taken o stop) ts s ∧ Groups op s f [] := by
  cases op with
  | and => exact ⟨.single f, .single h, rfl⟩
  | or =>
    obtain ⟨s, hs, h1, h2⟩ := h
    exact ⟨s, hs, h1, by rw [h2]; rfl⟩

theorem groups_cons {op : Connective} {g : Filter} {gs : List Filter} {s : Operands}
    (h : Met o stop op ts f) (ht : t.kind = .connective op) (hs : Rows (Taken o stop) ts' s)
    (hg : Groups op s g gs) :
    ∃ s, Rows (Taken o stop) (ts ++ t :: ts') s ∧ Groups op s f (g :: gs) := by
  cases op with
  | and => exact ⟨.cons f .and s, .cons h ht hs, by
      have hg : s.alternatives = ((g, gs), []) := hg
      rw [Groups, Operands.alternatives, hg]⟩
  | or =>
    obtain ⟨r, hr, h1, h2⟩ := h
    obtain ⟨rfl, rfl⟩ := hg
    refine ⟨r.append .or s, hr.append ht hs, ?_, ?_⟩
    · rw [Operands.alternatives_append_or]; exact h1
    · rw [Operands.alternatives_append_or, h2]; rfl

mutual

theorem Derives.rows : ∀ {ts : List Token} {f : Filter}, Derives o ts f →
    ∃ s, Rows (Taken o stop) ts s ∧ s.toFilter = f
  | _, _, .alternatives h => by
    obtain ⟨s, hs, rfl, rfl⟩ := h.rows
    exact ⟨s, hs, rfl⟩

theorem Row.rows : ∀ {op : Connective} {ts : List Token} {f : Filter} {fs : List Filter},
    Row o op ts f fs → ∃ s, Rows (Taken o stop) ts s ∧ Groups op s f fs
  | _, _, _, _, .single h => groups_single h.met
  | _, _, _, _, .cons h ht hrest => by
    obtain ⟨s, hs, hg⟩ := hrest.rows
    exact groups_cons h.met ht hs hg

theorem Operand.met : ∀ {op : Connective} {ts : List Token} {f : Filter},
    Operand o op ts f → Met o stop op ts f
  | _, _, _, .conjunction h => by
    obtain ⟨s, hs, hg⟩ := h.rows
    have hg : s.alternatives = ((_, _), []) := hg
    exact ⟨s, hs, by rw [hg]; rfl, by rw [hg]⟩
  | _, _, _, .not ht hopen h hclose => by
    intro rest
    obtain ⟨s, hs, rfl⟩ := h.rows
    rw [List.cons_append, List.cons_append, List.append_assoc]
    exact parseOperand_gives_iff.mpr (.not ht hopen (readsGroup_closing (b := .round) hs hclose) hclose)
  | _, _, _, .group hopen h hclose => by
    intro rest
    obtain ⟨s, hs, rfl⟩ := h.rows
    rw [List.cons_append, List.append_assoc]
    exact parseOperand_gives_iff.mpr (.group hopen (readsGroup_closing (b := .round) hs hclose) hclose)
  | _, _, _, .complex ht hp hopen h hclose => by
    intro rest
    obtain ⟨s, hs, rfl⟩ := h.rows
    rw [List.cons_append, List.cons_append, List.append_assoc]
    exact parseOperand_gives_iff.mpr
      (.complex ht hp hopen (readsGroup_closing (b := .square) hs hclose) hclose)
  | _, _, _, .present ht hp hop => fun _ => parseOperand_gives_iff.mpr (.present ht hp hop)
  | _, _, _, .compare ht hp hop hvalue => fun _ => parseOperand_gives_iff.mpr (.compare ht hp hop hvalue)

end

theorem ofTokens_of_derives (h : Derives o ts f) : ofTokens o stop ts = .ok f := by
  obtain ⟨s, hs, rfl⟩ : ∃ s, Rows (Taken o stop) ts s ∧ s.toFilter = f := h.rows
  have hg : (parseOperands o stop (ts ++ [])).Gives s [] := hs.gives (by simp [Ended])
  rw [List.append_nil] at hg
  obtain ⟨_, hg⟩ := hg
  rw [ofTokens, hg]

theorem ofTokens_eq_ok_iff : ofTokens o stop ts = .ok f ↔ Derives o ts f :=
  ⟨derives_of_ofTokens, ofTokens_of_derives⟩

theorem Derives.unique {g : Filter} (hf : Derives o ts f) (hg : Derives o ts g) : f = g :=
  have h : ofTokens o 0 ts = .ok f := ofTokens_of_derives hf
  Except.ok.inj (h.symm.trans (ofTokens_of_derives hg))

/-! ### Texts -/

theorem parseRange_eq_ok_iff {t : Text} {start : Nat} : parseRange o t start stop = .ok f ↔
    ∃ ts, Token.scanRange o t start stop = .ok ts ∧ Derives o ts f := by
  rw [parseRange]
  cases Token.scanRange o t start stop with
  | error e => simp
  | ok ts => simp [ofTokens_eq_ok_iff]

theorem parse_eq_ok_iff {t : Text} :
    parse o t = .ok f ↔ ∃ ts, Token.scan o t = .ok ts ∧ Derives o ts f := by
  rw [parse, parseRange_eq_ok_iff, Token.scanRange_of_le (Nat.le_refl _), List.drop_length,
    List.take_length, List.drop_zero, Token.scan]

/-- A filter inside a text is read like the filter alone, if a numeral at its end would end there. -/
theorem parseRange_append {u t v : Text} (hv : Token.Foreign v) :
    parseRange o (u ++ (t ++ v)) u.length (u.length + t.length) = .ok f ↔ parse o t = .ok f := by
  have hlen : u.length + t.length ≤ (u ++ (t ++ v)).length := by simp
  have hdrop : (u ++ (t ++ v)).drop (u.length + t.length) = v := by
    rw [← List.append_assoc]; exact List.drop_left' (by simp)
  have htake : ((u ++ (t ++ v)).take (u.length + t.length)).drop u.length = t := by
    rw [← List.append_assoc, List.take_left' (by simp), List.drop_left]
  have hscan := Token.scanRange_of_foreign (o := o) u.length hlen (by rwa [hdrop])
  rw [htake] at hscan
  rw [parseRange_eq_ok_iff, parse_eq_ok_iff, hscan]
  cases hts : Token.scan o t with
  | error fault =>
    refine iff_of_false ?_ ?_
    · rintro ⟨ts, ⟨⟩, -⟩
    · rintro ⟨ts, ⟨⟩, -⟩
  | ok ts =>
    constructor
    · rintro ⟨ts', hts', hd⟩
      cases hts'
      exact ⟨ts, rfl, derives_shift_iff.mp hd⟩
    · rintro ⟨ts', hts', hd⟩
      cases hts'
      exact ⟨_, rfl, derives_shift_iff.mpr hd⟩

theorem ofText_eq_ok_iff {t : Text} : ofText o t = .ok f ↔ parse o t = .ok f := by
  rw [ofText]
  cases parse o t <;> simp [Except.mapError]

theorem ofText_eq_error {t : Text} (h : ∀ f, ofText o t ≠ .ok f) :
    ∃ fault, ofText o t = .error (.filterSyntax fault) := by
  cases hp : parse o t with
  | error e => exact ⟨e, by rw [ofText, hp]; rfl⟩
  | ok f => exact absurd (ofText_eq_ok_iff.mpr hp) (h f)

/-- A text is read as a filter exactly if its tokens derive it. The tokens derive at most one, and
every other text is refused with a syntax fault. -/
theorem ofText_eq_ok_iff_derives (o : ParserOptions) (t : Text) :
    (∀ f, ofText o t = .ok f ↔ ∃ ts, Token.scan o t = .ok ts ∧ Derives o ts f) ∧
    (∀ ts f g, Derives o ts f → Derives o ts g → f = g) ∧
    ((¬ ∃ ts f, Token.scan o t = .ok ts ∧ Derives o ts f) →
      ∃ fault, ofText o t = .error (.filterSyntax fault)) := by
  have hiff : ∀ f, ofText o t = .ok f ↔ ∃ ts, Token.scan o t = .ok ts ∧ Derives o ts f :=
    fun f => ofText_eq_ok_iff.trans parse_eq_ok_iff
  refine ⟨hiff, fun ts f g => Derives.unique, fun hnone => ofText_eq_error fun f hf => ?_⟩
  obtain ⟨ts, hts⟩ := (hiff f).mp hf
  exact hnone ⟨ts, f, hts⟩

/-- `a pr` is read, and the empty text is refused. -/
theorem ofText_eq_ok_iff_derives_present :
    ofText .default (Text.ofString "a pr") = .ok (.present (.ofName (Text.ofString "a"))) ∧
      ∃ fault, ofText .default [] = .error (.filterSyntax fault) := by
  have hscan : Token.scan .default (Text.ofString "a pr") =
      .ok [⟨.word, Text.ofString "a", 0⟩, ⟨.present, Text.ofString "pr", 2⟩] := by decide +kernel
  have hword : Path.Word .default (Text.ofString "a") (.ofName (Text.ofString "a")) :=
    .of_isName (by decide)
  refine ⟨((ofText_eq_ok_iff_derives _ _).1 _).mpr ⟨_, hscan, (Operand.present rfl hword rfl).derives⟩,
    (ofText_eq_ok_iff_derives _ _).2.2 ?_⟩
  rintro ⟨ts, f, hts, hf⟩
  rw [Token.scan, Token.scanFrom] at hts
  cases hts
  exact hf.ne_nil rfl

end Filter

end Scim
