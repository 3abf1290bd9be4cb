import Mathlib.Data.List.Infix
import Mathlib.Data.List.TakeWhile

/-!
# Words in a text

How many words a text has, where `blank` tells what separates them: a word is
counted where it ends. A blank cuts the count of a text in two
(`runs_append_blank`); elsewhere a cut makes at most one word more
(`runs_append_le`).
-/

namespace Runs

variable {α : Type} {blank : α → Bool}

/-- A word ends in front of this text. -/
def ends (blank : α → Bool) : List α → Bool
  | [] => true
  | c :: _ => blank c

/-- The number of words. -/
def runs (blank : α → Bool) : List α → Nat
  | [] => 0
  | c :: s => (if !blank c && ends blank s then 1 else 0) + runs blank s

/-- A blank is between words. -/
theorem runs_append_blank (a b : List α) {c : α} (hc : blank c = true) :
    runs blank (a ++ c :: b) = runs blank a + runs blank b := by
  induction a with
  | nil => simp [runs, hc]
  | cons x rest ih =>
      have hends : ends blank (rest ++ c :: b) = ends blank rest := by
        cases rest with
        | nil => exact hc
        | cons y more => rfl
      rw [List.cons_append, runs, runs, ih, hends, Nat.add_assoc]

theorem runs_append_le (a b : List α) : runs blank (a ++ b) ≤ runs blank a + runs blank b := by
  induction a with
  | nil => simp [runs]
  | cons x rest ih =>
      have hends : ends blank (rest ++ b) = true → ends blank rest = true := by
        cases rest with
        | nil => exact fun _ => rfl
        | cons y more => exact id
      have hle : (if (!blank x && ends blank (rest ++ b)) = true then 1 else 0) ≤
          if (!blank x && ends blank rest) = true then 1 else 0 := by
        cases blank x with
        | true => simp
        | false =>
            by_cases h : ends blank (rest ++ b) = true
            · simp [h, hends h]
            · simp [h]
      rw [List.cons_append, runs, runs]
      omega

theorem runs_of_blank {l : List α} (h : ∀ c ∈ l, blank c = true) : runs blank l = 0 := by
  induction l with
  | nil => rfl
  | cons c rest ih =>
      rw [runs, h c List.mem_cons_self, ih fun d hd => h d (List.mem_cons_of_mem c hd)]
      rfl

/-- A text without blanks has at most one word. -/
theorem runs_le_one {l : List α} (h : ∀ c ∈ l, blank c = false) : runs blank l ≤ 1 := by
  induction l with
  | nil => exact Nat.zero_le 1
  | cons c rest ih =>
      have hrest := ih fun d hd => h d (List.mem_cons_of_mem c hd)
      cases rest with
      | nil => simp [runs, ends, h c]
      | cons d more =>
          have hd : blank d = false := h d (by simp)
          rw [runs, ends, hd]
          simpa using hrest

/-- What is not blank is part of a word. -/
theorem one_le_runs {l : List α} {c : α} (hmem : c ∈ l) (hc : blank c = false) :
    1 ≤ runs blank l := by
  induction l generalizing c with
  | nil => cases hmem
  | cons d rest ih =>
      rw [runs]
      rcases List.mem_cons.mp hmem with rfl | hmem
      · -- the word ends here or in the rest
        cases rest with
        | nil => simp [hc, ends]
        | cons e more =>
            by_cases he : blank e = true
            · simp [hc, ends, he]
            · have hmore := ih List.mem_cons_self (Bool.eq_false_iff.mpr he)
              omega
      · exact Nat.le_add_left_of_le (ih hmem hc)

end Runs
