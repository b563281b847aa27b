import Mathlib.Tactic.Common
import Scim.Filter.Same

/-!
# Sameness is an equivalence

Every filter and every path is the same as itself, and what is the same is the same as the same
filters (`Filter.same_congr`, `Path.same_congr`). Symmetry and transitivity follow from these two
alone.
-/

namespace Scim

namespace Text

variable {a b : Text}

theorem sameLetters_iff : a.sameLetters b ↔ a.lower = b.lower := by
  simp [sameLetters]

theorem sameLetters_refl (t : Text) : t.sameLetters t := by
  simp [sameLetters]

theorem sameLetters_congr (h : a.sameLetters b) (c : Text) : a.sameLetters c = b.sameLetters c := by
  rw [sameLetters, sameLetters, sameLetters_iff.mp h]

end Text

theorem sameUrn_refl : ∀ urn : Option Text, sameUrn urn urn
  | none => rfl
  | some urn => urn.sameLetters_refl

theorem sameUrn_congr : ∀ {a b : Option Text}, sameUrn a b → ∀ c, sameUrn a c = sameUrn b c
  | none, none, _, _ => rfl
  | some _, some _, _, none => rfl
  | some _, some _, h, some c => Text.sameLetters_congr h c

/-- A test that is reflexive and gives the same answers for what it relates is an equivalence. -/
theorem equivalence_of_congr {α : Type} {r : α → α → Bool} (hrefl : ∀ a, r a a)
    (hcongr : ∀ a b, r a b → ∀ c, r a c = r b c) : Equivalence fun a b => r a b = true where
  refl := hrefl
  symm {a b} h := hcongr a b h a ▸ hrefl a
  trans {a b c} h h' := (hcongr a b h c).trans h'

/-! ### Reflexivity -/

mutual

theorem Filter.same_refl : ∀ f : Filter, f.same f
  | .compare op p v => by simp [Filter.same, p.same_refl]
  | .present p => by simp [Filter.same, p.same_refl]
  | .logical op f g fs => by simp [Filter.same, f.same_refl, g.same_refl, Filter.sameAll_refl fs]
  | .not f => by simp [Filter.same, f.same_refl]
  | .complex p f => by simp [Filter.same, p.same_refl, f.same_refl]
termination_by structural f => f

theorem Filter.sameAll_refl : ∀ fs : List Filter, Filter.sameAll fs fs
  | [] => rfl
  | f :: fs => by simp [Filter.sameAll, f.same_refl, Filter.sameAll_refl fs]
termination_by structural fs => fs

theorem Path.same_refl : ∀ p : Path, p.same p
  | ⟨urn, es⟩ => by simp [Path.same, sameUrn_refl, Path.sameElements_refl es]
termination_by structural p => p

theorem Path.sameElements_refl : ∀ es : List PathElement, Path.sameElements es es
  | [] => rfl
  | e :: es => by simp [Path.sameElements, e.same_refl, Path.sameElements_refl es]
termination_by structural es => es

theorem PathElement.same_refl : ∀ e : PathElement, e.same e
  | ⟨name, none⟩ => by simp [PathElement.same, Text.sameLetters_refl]
  | ⟨name, some f⟩ => by simp [PathElement.same, Text.sameLetters_refl, f.same_refl]
termination_by structural e => e

end

/-! ### The shape of what is the same -/

namespace Filter

variable {op : Comparison} {c : Connective} {l : Literal} {p : Path} {f f' g : Filter}
  {fs gs : List Filter}

theorem same_compare_iff : (compare op p l).same g ↔ ∃ q, g = compare op q l ∧ p.same q := by
  cases g with
  | compare op' q l' =>
    simp only [same, Bool.and_eq_true, beq_iff_eq, compare.injEq]
    constructor
    · rintro ⟨⟨rfl, h⟩, rfl⟩
      exact ⟨q, ⟨rfl, rfl, rfl⟩, h⟩
    · rintro ⟨q, ⟨rfl, rfl, rfl⟩, h⟩
      exact ⟨⟨rfl, h⟩, rfl⟩
  | _ => simp [same]

theorem same_present_iff : (present p).same g ↔ ∃ q, g = present q ∧ p.same q := by
  cases g <;> simp [same]

theorem same_logical_iff : (logical c f f' fs).same g ↔
    ∃ h h' hs, g = logical c h h' hs ∧ f.same h ∧ f'.same h' ∧ sameAll fs hs := by
  cases g with
  | logical c' h h' hs =>
    simp only [same, Bool.and_eq_true, beq_iff_eq, logical.injEq]
    constructor
    · rintro ⟨⟨⟨rfl, hf⟩, hf'⟩, hfs⟩
      exact ⟨h, h', hs, ⟨rfl, rfl, rfl, rfl⟩, hf, hf', hfs⟩
    · rintro ⟨h, h', hs, ⟨rfl, rfl, rfl, rfl⟩, hf, hf', hfs⟩
      exact ⟨⟨⟨rfl, hf⟩, hf'⟩, hfs⟩
  | _ => simp [same]

theorem same_not_iff : (not f).same g ↔ ∃ h, g = not h ∧ f.same h := by
  cases g <;> simp [same]

theorem same_complex_iff : (complex p f).same g ↔
    ∃ q h, g = complex q h ∧ p.same q ∧ f.same h := by
  cases g <;> simp [same]

theorem sameAll_cons_iff : sameAll (f :: fs) gs ↔
    ∃ h hs, gs = h :: hs ∧ f.same h ∧ sameAll fs hs := by
  cases gs <;> simp [sameAll]

theorem sameAll_of_forall₂ (h : List.Forall₂ (fun f g => f.same g = true) fs gs) : sameAll fs gs := by
  induction h with
  | nil => rfl
  | cons hf _ ih => exact sameAll_cons_iff.mpr ⟨_, _, rfl, hf, ih⟩

end Filter

namespace Path

variable {p q : Path} {e : PathElement} {es es' : List PathElement}

theorem same_iff : p.same q ↔
    sameUrn p.schemaUrn q.schemaUrn ∧ sameElements p.elements q.elements := by
  obtain ⟨urn, es⟩ := p
  simp [same]

theorem sameElements_cons_iff : sameElements (e :: es) es' ↔
    ∃ e' rest, es' = e' :: rest ∧ e.same e' ∧ sameElements es rest := by
  cases es' <;> simp [sameElements]

theorem sameElements_nil_iff : sameElements [] es' ↔ es' = [] := by
  cases es' <;> simp [sameElements]

end Path

namespace PathElement

variable {name : Text} {f : Filter} {e : PathElement}

theorem same_plain_iff : same ⟨name, none⟩ e ↔ ∃ name', e = ⟨name', none⟩ ∧
    name.lower = name'.lower := by
  obtain ⟨name', _ | f'⟩ := e <;> simp [same, Text.sameLetters]

theorem same_selector_iff : same ⟨name, some f⟩ e ↔ ∃ name' f', e = ⟨name', some f'⟩ ∧
    name.lower = name'.lower ∧ f.same f' := by
  obtain ⟨name', _ | f'⟩ := e <;> simp [same, Text.sameLetters]

theorem lower_name : ∀ (e : PathElement) {e' : PathElement}, e.same e' → e.name.lower = e'.name.lower
  | ⟨_, none⟩, _, h => by
    obtain ⟨name', rfl, hname⟩ := same_plain_iff.mp h
    exact hname
  | ⟨_, some _⟩, _, h => by
    obtain ⟨name', f', rfl, hname, -⟩ := same_selector_iff.mp h
    exact hname

end PathElement

/-! ### Congruence -/

mutual

theorem Filter.same_congr : ∀ f g : Filter, f.same g → ∀ h, f.same h = g.same h
  | .compare op p l, g, hs, h => by
    obtain ⟨q, rfl, hpq⟩ := Filter.same_compare_iff.mp hs
    cases h <;> simp [Filter.same, p.same_congr q hpq]
  | .present p, g, hs, h => by
    obtain ⟨q, rfl, hpq⟩ := Filter.same_present_iff.mp hs
    cases h <;> simp [Filter.same, p.same_congr q hpq]
  | .logical c f f' fs, g, hs, h => by
    obtain ⟨k, k', ks, rfl, hf, hf', hfs⟩ := Filter.same_logical_iff.mp hs
    cases h <;> simp [Filter.same, f.same_congr k hf, f'.same_congr k' hf', Filter.sameAll_congr fs ks hfs]
  | .not f, g, hs, h => by
    obtain ⟨k, rfl, hf⟩ := Filter.same_not_iff.mp hs
    cases h <;> simp [Filter.same, f.same_congr k hf]
  | .complex p f, g, hs, h => by
    obtain ⟨q, k, rfl, hpq, hf⟩ := Filter.same_complex_iff.mp hs
    cases h <;> simp [Filter.same, p.same_congr q hpq, f.same_congr k hf]
termination_by structural f => f

theorem Filter.sameAll_congr : ∀ fs gs : List Filter, Filter.sameAll fs gs →
    ∀ hs, Filter.sameAll fs hs = Filter.sameAll gs hs
  | [], gs, hs, l => by cases gs <;> simp [Filter.sameAll] at hs ⊢
  | f :: fs, gs, hs, l => by
    obtain ⟨g, gs, rfl, hf, hfs⟩ := Filter.sameAll_cons_iff.mp hs
    cases l <;> simp [Filter.sameAll, f.same_congr g hf, Filter.sameAll_congr fs gs hfs]
termination_by structural fs => fs

theorem Path.same_congr : ∀ p q : Path, p.same q → ∀ r, p.same r = q.same r
  | ⟨urn, es⟩, ⟨urn', es'⟩, hs, r => by
    obtain ⟨hurn, hes⟩ := Path.same_iff.mp hs
    rw [Path.same, Path.same, sameUrn_congr hurn, Path.sameElements_congr es es' hes]
termination_by structural p => p

theorem Path.sameElements_congr : ∀ es es' : List PathElement, Path.sameElements es es' →
    ∀ l, Path.sameElements es l = Path.sameElements es' l
  | [], es', hs, l => by rw [Path.sameElements_nil_iff.mp hs]
  | e :: es, es', hs, l => by
    obtain ⟨e', rest, rfl, he, hes⟩ := Path.sameElements_cons_iff.mp hs
    cases l <;> simp [Path.sameElements, e.same_congr e' he, Path.sameElements_congr es rest hes]
termination_by structural es => es

theorem PathElement.same_congr : ∀ e e' : PathElement, e.same e' → ∀ x, e.same x = e'.same x
  | ⟨name, none⟩, e', hs, x => by
    obtain ⟨name', rfl, hname⟩ := PathElement.same_plain_iff.mp hs
    simp [PathElement.same, Text.sameLetters, hname]
  | ⟨name, some f⟩, e', hs, x => by
    obtain ⟨name', f', rfl, hname, hf⟩ := PathElement.same_selector_iff.mp hs
    simp only [PathElement.same, Text.sameLetters, hname]
    cases x.selector with
    | none => rfl
    | some k => simp only [f.same_congr f' hf]
termination_by structural e => e

end

theorem Filter.same_equivalence : Equivalence fun f g : Filter => f.same g = true :=
  equivalence_of_congr same_refl same_congr

theorem Path.same_equivalence : Equivalence fun p q : Path => p.same q = true :=
  equivalence_of_congr same_refl same_congr

end Scim
