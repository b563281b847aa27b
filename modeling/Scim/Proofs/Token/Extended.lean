import Scim.Proofs.Token.Spelled

/-!
# Scanning with more units for names

`ParserOptions.Extends o o'`: names may have further units in `o'`, none of which ends a word or
parts a path. What belongs to no word in `o` may belong to one in `o'`, but the shapes of tokens
stay shapes, and a unit between them stays one, the comma apart (`Spelled.extended`).
-/

namespace Scim

open CodeUnit

/-- White space, brackets, the quote, and the marks inside words. -/
def CodeUnit.IsDelimiter (c : CodeUnit) : Prop :=
  c.isBlank ∨ c ∈ [openParen, closeParen, openBracket, closeBracket, quote, dot, colon]

instance (c : CodeUnit) : Decidable c.IsDelimiter := by unfold IsDelimiter; infer_instance

namespace ParserOptions

variable {o o' : ParserOptions} {c : CodeUnit}

/-- All further units of `o` are further units of `o'`, and those that are new are no delimiters. -/
structure Extends (o o' : ParserOptions) : Prop where
  keeps : ∀ c ∈ o.extended, c ∈ o'.extended
  added : ∀ c ∈ o'.extended, c.IsDelimiter → c ∈ o.extended

namespace Extends

theorem isNameUnit (h : Extends o o') (hc : o.isNameUnit c) : o'.isNameUnit c :=
  isNameUnit_iff.mpr ((isNameUnit_iff.mp hc).imp_right (h.keeps c))

theorem isWordUnit (h : Extends o o') (hc : o.isWordUnit c) : o'.isWordUnit c :=
  isWordUnit_iff.mpr ((isWordUnit_iff.mp hc).imp_right (h.keeps c))

theorem isNamePoint (h : Extends o o') {n : Nat} (hn : o.isNamePoint n) : o'.isNamePoint n := by
  unfold ParserOptions.isNamePoint at hn ⊢
  split_ifs at hn ⊢
  · exact h.isNameUnit hn
  · exact hn

theorem isNameUnit_eq_false (h : Extends o o') (hd : c.IsDelimiter) (hc : o.isNameUnit c = false) :
    o'.isNameUnit c = false := by
  refine Bool.eq_false_iff.mpr fun hc' => Bool.eq_false_iff.mp hc ?_
  exact isNameUnit_iff.mpr ((isNameUnit_iff.mp hc').imp_right fun hmem => h.added c hmem hd)

theorem isWordUnit_eq_false (h : Extends o o') (hd : c.IsDelimiter) (hc : o.isWordUnit c = false) :
    o'.isWordUnit c = false := by
  refine Bool.eq_false_iff.mpr fun hc' => Bool.eq_false_iff.mp hc ?_
  exact isWordUnit_iff.mpr ((isWordUnit_iff.mp hc').imp_right fun hmem => h.added c hmem hd)

end Extends

end ParserOptions

namespace Token

variable {o o' : ParserOptions} {before : Option CodeUnit} {pos : Nat} {c : CodeUnit} {t r w : Text}
  {k : Kind} {ts : List Token}

theorem isDelimiter_of_ofPunctuation? (hc : Kind.ofPunctuation? c = some k) (hk : k ≠ .comma) :
    c.IsDelimiter := by
  unfold Kind.ofPunctuation? at hc
  split_ifs at hc with h1 h2 h3 h4 h5
  · exact .inr (by simp [h1])
  · exact .inr (by simp [h2])
  · exact .inr (by simp [h3])
  · exact .inr (by simp [h4])
  · exact absurd (Option.some.inj hc).symm hk

theorem Shaped.extended (hx : o.Extends o') (h : Shaped o w k) : Shaped o' w k := by
  cases h with
  | string hv => exact .string hv
  | number hn hval => exact .number hn hval
  | word hblank hc hquote hunits hn =>
    exact .word hblank hc hquote (fun d hd => hx.isWordUnit (hunits d hd)) hn

/-- A text in front of which a token ends starts with white space or with a mark, and a mark is a
token of its own. -/
theorem Spelled.parted_extended (hx : o.Extends o') (h : Spelled o before pos r ts)
    (hts : ∀ x ∈ ts, x.kind ≠ .comma) (hr : Parted o r) : Parted o' r := by
  intro c hc
  obtain ⟨hword, hend⟩ := hr c hc
  refine ⟨hx.isWordUnit_eq_false ?_ hword, hend⟩
  rcases hend with hblank | ⟨k, hmark⟩
  · exact .inl hblank
  · refine isDelimiter_of_ofPunctuation? hmark ?_
    cases h with
    | nil => cases hc
    | blank hblank =>
      cases hc
      exact absurd hblank (not_isBlank_of_ofPunctuation? hmark)
    | mark hc' =>
      cases hc
      rw [hmark] at hc'
      cases hc'
      exact hts _ (List.mem_cons_self ..)
    | piece hw =>
      obtain ⟨d, v, rfl, -, hnone⟩ := hw.exists_cons
      cases hc
      rw [hnone] at hmark
      cases hmark

/-- What is spelled in `o` without a comma is spelled in `o'`. -/
theorem Spelled.extended (hx : o.Extends o') (h : Spelled o before pos t ts)
    (hts : ∀ x ∈ ts, x.kind ≠ .comma)
    (hbefore : before.any o.isWordUnit = false → before.any o'.isWordUnit = false) :
    Spelled o' before pos t ts := by
  induction h with
  | nil => exact .nil
  | blank hc _ ih =>
    exact .blank hc (ih hts fun hword => hx.isWordUnit_eq_false (.inl hc) hword)
  | mark hc _ ih =>
    obtain ⟨hk, hts⟩ := List.forall_mem_cons.mp hts
    exact .mark hc (ih hts fun hword =>
      hx.isWordUnit_eq_false (isDelimiter_of_ofPunctuation? hc hk) hword)
  | piece hw hb hr h ih =>
    obtain ⟨-, hts⟩ := List.forall_mem_cons.mp hts
    refine .piece (hw.extended hx) (fun hq => hbefore (hb hq)) (h.parted_extended hx hts hr)
      (ih hts fun hlast => ?_)
    rcases hw.getLast? with ⟨-, hquote⟩ | ⟨d, hd, hunit⟩
    · rw [hquote] at hlast ⊢
      exact hx.isWordUnit_eq_false (by decide) hlast
    · rw [hd, Option.any_some, hunit] at hlast
      cases hlast

end Token

end Scim
