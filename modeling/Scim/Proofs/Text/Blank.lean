import Mathlib.Data.List.DropRight
import Mathlib.Data.List.TakeWhile
import Scim.Text.Blank

/-!
# Trimming

A text is trimmed to nothing exactly if it is white space throughout (`trim_eq_nil_iff`), and is
trimmed already if no white space stands at its ends (`trim_eq_self`). What is taken off is white
space (`exists_blank_trail`), and white space around a text makes no difference (`trim_around`).
-/

namespace Scim.Text

variable {t lead trail : Text}

theorem trimRight_eq_nil_iff : t.trimRight = [] ↔ ∀ c ∈ t, c.isBlank := by
  rw [trimRight, List.reverse_eq_nil_iff, List.dropWhile_eq_nil_iff]
  simp

theorem trim_eq_nil_iff : t.trim = [] ↔ ∀ c ∈ t, c.isBlank := by
  rw [trim, trimRight_eq_nil_iff, trimLeft]
  constructor
  · intro h
    -- The first unit that is left would not be blank.
    have hnil : t.dropWhile CodeUnit.isBlank = [] := by
      by_contra hne
      have := List.head_dropWhile_not CodeUnit.isBlank hne
      rw [h _ (List.head_mem hne)] at this
      cases this
    exact List.dropWhile_eq_nil_iff.mp hnil
  · intro h c hc
    exact h c ((List.dropWhile_sublist _).subset hc)

theorem trim_eq_self (hhead : ∀ c ∈ t.head?, ¬ c.isBlank) (hlast : ∀ c ∈ t.getLast?, ¬ c.isBlank) :
    t.trim = t := by
  have hleft : t.trimLeft = t := by
    cases t with
    | nil => rfl
    | cons c rest => exact List.dropWhile_cons_of_neg (hhead c rfl)
  rw [trim, hleft, trimRight]
  rw [← List.head?_reverse] at hlast
  cases hr : t.reverse with
  | nil => rw [List.reverse_eq_nil_iff.mp hr]; rfl
  | cons c rest =>
    rw [List.dropWhile_cons_of_neg (hlast c (by rw [hr]; rfl)), ← hr, List.reverse_reverse]

/-! ### What trimming takes off -/

theorem trimRight_append (h : ∀ c ∈ trail, c.isBlank) (t : Text) :
    (t ++ trail).trimRight = t.trimRight := by
  rw [trimRight, trimRight, List.reverse_append,
    List.dropWhile_append_of_pos fun c hc => h c (List.mem_reverse.mp hc)]

/-- White space around a text is not looked at. -/
theorem trim_around (hlead : ∀ c ∈ lead, c.isBlank) (htrail : ∀ c ∈ trail, c.isBlank) (t : Text) :
    (lead ++ (t ++ trail)).trim = t.trim := by
  rw [trim, trimLeft, List.dropWhile_append_of_pos hlead, List.dropWhile_append]
  split_ifs with h
  · have hnil : t.trim = [] := by
      rw [trim, trimLeft, List.isEmpty_iff.mp h]; rfl
    rw [hnil, List.dropWhile_eq_nil_iff.mpr htrail]; rfl
  · exact trimRight_append htrail _

theorem exists_blank_trail (t : Text) : ∃ trail, (∀ c ∈ trail, c.isBlank) ∧
    t = t.takeWhile CodeUnit.isBlank ++ (t.trim ++ trail) := by
  refine ⟨(t.trimLeft.reverse.takeWhile CodeUnit.isBlank).reverse,
    fun c hc => List.all_eq_true.mp List.all_takeWhile c (List.mem_reverse.mp hc), ?_⟩
  have htrail : t.trimLeft = t.trim ++ (t.trimLeft.reverse.takeWhile CodeUnit.isBlank).reverse := by
    rw [trim, trimRight, ← List.reverse_append, List.takeWhile_append_dropWhile, List.reverse_reverse]
  rw [← htrail]
  exact List.takeWhile_append_dropWhile.symm

theorem exists_trail (t : Text) : ∃ trail, t = t.takeWhile CodeUnit.isBlank ++ (t.trim ++ trail) :=
  (exists_blank_trail t).imp fun _ h => h.2

end Scim.Text
