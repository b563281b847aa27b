import Mathlib.Data.List.Forall2
import Mathlib.Data.List.TakeWhile
import Scim.Text

/-!
# Cutting texts

What the cuts of a text are: `splitOn` gives the pieces between separators, none of which holds one
(`splitOn_eq_iff`), and `splitAtLast?` the two parts around the last separator
(`splitAtLast?_eq_some_iff`).
-/

namespace Scim

/-! ### Lists that are related item by item -/

theorem exists_of_mem_right {α β : Type} {R : α → β → Prop} {xs : List α} {ys : List β} {y : β}
    (h : List.Forall₂ R xs ys) (hy : y ∈ ys) : ∃ x ∈ xs, R x y := by
  induction h with
  | nil => cases hy
  | cons hxy _ ih =>
    rcases List.mem_cons.mp hy with rfl | hy
    · exact ⟨_, List.mem_cons_self .., hxy⟩
    · obtain ⟨x, hx, hxy⟩ := ih hy
      exact ⟨x, List.mem_cons_of_mem _ hx, hxy⟩

theorem forall₂_append_left {α β : Type} {R : α → β → Prop} {as bs : List α} {cs : List β}
    (h : List.Forall₂ R (as ++ bs) cs) :
    ∃ as' bs', cs = as' ++ bs' ∧ List.Forall₂ R as as' ∧ List.Forall₂ R bs bs' := by
  have hcs := h.flip (R := flip R)
  refine ⟨cs.take as.length, cs.drop as.length, (List.take_append_drop ..).symm, ?_, ?_⟩
  · exact (List.forall₂_take_append cs as bs hcs).flip
  · exact (List.forall₂_drop_append cs as bs hcs).flip

/-! ### Texts -/

namespace Text

variable {sep c : CodeUnit} {t u r : Text}

theorem not_mem_of_mem_splitOn : ∀ {t : Text}, ∀ p ∈ splitOn sep t, sep ∉ p
  | [], p, hp => by
    obtain rfl := List.mem_singleton.mp hp
    exact List.not_mem_nil
  | c :: rest, p, hp => by
    have ih : ∀ p ∈ splitOn sep rest, sep ∉ p := not_mem_of_mem_splitOn
    rw [splitOn] at hp
    split at hp
    · rcases List.mem_cons.mp hp with rfl | hp
      · exact List.not_mem_nil
      · exact ih p hp
    · rename_i hc
      split at hp
      · rename_i hs
        exact absurd hs (splitOn_ne_nil sep rest)
      · rename_i piece pieces hs
        rw [hs] at ih
        rcases List.mem_cons.mp hp with rfl | hp
        · have := ih piece (by simp)
          simp [this, Ne.symm hc]
        · exact ih p (List.mem_cons_of_mem _ hp)

theorem splitOn_of_not_mem (h : sep ∉ t) : splitOn sep t = [t] := by
  induction t with
  | nil => rfl
  | cons c rest ih =>
    have hc : c ≠ sep := fun hc => h (hc ▸ List.mem_cons_self ..)
    rw [splitOn, if_neg hc, ih fun hm => h (List.mem_cons_of_mem _ hm)]

theorem splitOn_append_cons (h : sep ∉ t) : splitOn sep (t ++ sep :: u) = t :: splitOn sep u := by
  induction t with
  | nil => rw [List.nil_append, splitOn, if_pos rfl]
  | cons c rest ih =>
    have hc : c ≠ sep := fun hc => h (hc ▸ List.mem_cons_self ..)
    rw [List.cons_append, splitOn, if_neg hc, ih fun hm => h (List.mem_cons_of_mem _ hm)]

theorem splitOn_join {ts : List Text} (hne : ts ≠ []) (h : ∀ p ∈ ts, sep ∉ p) :
    splitOn sep (join [sep] ts) = ts := by
  induction ts with
  | nil => exact absurd rfl hne
  | cons p ps ih =>
    cases ps with
    | nil => rw [join_singleton, splitOn_of_not_mem (h p (by simp))]
    | cons q qs =>
      rw [join_cons (by simp), List.append_assoc]
      show splitOn sep (p ++ sep :: join [sep] (q :: qs)) = _
      rw [splitOn_append_cons (h p (by simp)),
        ih (by simp) fun x hx => h x (List.mem_cons_of_mem _ hx)]

theorem splitOn_eq_iff {ts : List Text} :
    splitOn sep t = ts ↔ ts ≠ [] ∧ (∀ p ∈ ts, sep ∉ p) ∧ t = join [sep] ts := by
  constructor
  · rintro rfl
    exact ⟨splitOn_ne_nil sep t, not_mem_of_mem_splitOn, (join_splitOn sep t).symm⟩
  · rintro ⟨hne, h, rfl⟩
    exact splitOn_join hne h

theorem splitAtLast?_eq_none_iff : splitAtLast? sep t = none ↔ sep ∉ t := by
  induction t with
  | nil => simp [splitAtLast?]
  | cons c rest ih =>
    rw [splitAtLast?]
    split
    · rename_i before after hs
      have : ¬ sep ∉ rest := fun h => by rw [ih.mpr h] at hs; cases hs
      simp only [reduceCtorEq, false_iff]
      exact fun h => this fun hm => h (List.mem_cons_of_mem _ hm)
    · rename_i hs
      have := ih.mp hs
      split_ifs with hc
      · simp [hc]
      · simp [this, Ne.symm hc]

theorem splitAtLast?_append_cons (h : sep ∉ u) : splitAtLast? sep (t ++ sep :: u) = some (t, u) := by
  induction t with
  | nil => rw [List.nil_append, splitAtLast?, splitAtLast?_eq_none_iff.mpr h]; simp
  | cons c rest ih => rw [List.cons_append, splitAtLast?, ih]

theorem splitAtLast?_eq_some_iff :
    splitAtLast? sep t = some (u, r) ↔ t = u ++ sep :: r ∧ sep ∉ r := by
  constructor
  · intro h
    induction t generalizing u with
    | nil => cases h
    | cons c rest ih =>
      rw [splitAtLast?] at h
      split at h
      · rename_i before after hs
        cases h
        obtain ⟨rfl, hr⟩ := ih hs
        exact ⟨rfl, hr⟩
      · rename_i hs
        split_ifs at h with hc
        cases h
        exact ⟨by rw [hc]; rfl, splitAtLast?_eq_none_iff.mp hs⟩
  · rintro ⟨rfl, h⟩
    exact splitAtLast?_append_cons h

theorem mem_join {ts : List Text} (h : c ∈ join [sep] ts) : c = sep ∨ ∃ p ∈ ts, c ∈ p := by
  induction ts with
  | nil => simp [join, List.intercalate] at h
  | cons p ps ih =>
    by_cases hps : ps = []
    · subst hps
      rw [join_singleton] at h
      exact .inr ⟨p, by simp, h⟩
    · rw [join_cons hps, List.append_assoc] at h
      rcases List.mem_append.mp h with h | h
      · exact .inr ⟨p, by simp, h⟩
      · rcases List.mem_cons.mp h with rfl | h
        · exact .inl rfl
        · rcases ih h with h | ⟨q, hq, h⟩
          · exact .inl h
          · exact .inr ⟨q, List.mem_cons_of_mem _ hq, h⟩

/-- Text behind `t` is taken as well only where all of `t` is. -/
theorem takeWhile_append_cases (p : CodeUnit → Bool) (t r : Text) :
    (t ++ r).takeWhile p = t.takeWhile p ∧ (t ++ r).dropWhile p = t.dropWhile p ++ r ∨
      (∀ c ∈ t, p c) ∧ r.takeWhile p ≠ [] ∧ (t ++ r).takeWhile p = t ++ r.takeWhile p := by
  induction t with
  | nil =>
    by_cases hr : r.takeWhile p = []
    · have hsplit := List.takeWhile_append_dropWhile (p := p) (l := r)
      rw [hr] at hsplit
      exact .inl ⟨hr, hsplit⟩
    · exact .inr ⟨by simp, hr, rfl⟩
  | cons c t ih =>
    rw [List.cons_append, List.takeWhile_cons, List.dropWhile_cons, List.takeWhile_cons,
      List.dropWhile_cons]
    cases hc : p c with
    | false => exact .inl ⟨rfl, rfl⟩
    | true =>
      rcases ih with ⟨htake, hdrop⟩ | ⟨hall, hr, htake⟩
      · exact .inl ⟨congrArg _ htake, hdrop⟩
      · exact .inr ⟨List.forall_mem_cons.mpr ⟨hc, hall⟩, hr, congrArg _ htake⟩

theorem takeWhile_append_of {p : CodeUnit → Bool} (h : ∀ c ∈ t, p c) (hr : ∀ c ∈ r.head?, p c = false) :
    (t ++ r).takeWhile p = t ∧ (t ++ r).dropWhile p = r := by
  rcases takeWhile_append_cases p t r with ⟨htake, hdrop⟩ | ⟨-, hne, -⟩
  · rw [htake, hdrop, List.takeWhile_eq_self_iff.mpr h, List.dropWhile_eq_nil_iff.mpr h]
    exact ⟨rfl, rfl⟩
  · cases r with
    | nil => exact absurd rfl hne
    | cons c r => rw [List.takeWhile_cons, hr c rfl] at hne; exact absurd rfl hne

theorem head?_dropWhile (p : CodeUnit → Bool) (t : Text) : ∀ c ∈ (t.dropWhile p).head?, p c = false := by
  intro c hc
  have := List.head?_dropWhile_not p t
  rw [hc] at this
  exact this

end Text

end Scim
