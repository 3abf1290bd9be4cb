import DistKv.Lib.History
import Mathlib.Logic.Function.Basic

/-!
# Sequences of one order

A family of growing sequences, one for each party. If an entry is appended at
a party only after every earlier entry of that party has reached all the
others, then no two parties ever have two entries in opposite orders. Nothing
is assumed about how the entries compare.
-/

namespace CommonOrder

open History

variable {ι α : Type}

/-- The sequences have no repetitions, what is followed by another entry has
reached everyone, and no two sequences disagree. -/
structure Consistent (L : ι → List α) : Prop where
  nodup : ∀ p, (L p).Nodup
  reached : ∀ q a b, [a, b].Sublist (L q) → ∀ p, a ∈ L p
  agree : ∀ p q a b, [a, b].Sublist (L p) → ¬ [b, a].Sublist (L q)

theorem consistent_nil : Consistent (fun _ : ι => ([] : List α)) :=
  ⟨by simp, by simp, by simp⟩

variable [DecidableEq ι]

/-- **Append rule.** A new entry is appended where all earlier entries have
reached everyone. -/
theorem Consistent.append {L : ι → List α} (h : Consistent L) {p : ι} {m : α} (hm : m ∉ L p)
    (hall : ∀ a ∈ L p, ∀ q, a ∈ L q) :
    Consistent (Function.update L p (L p ++ [m])) := by
  have hgrow : ∀ q a, a ∈ L q → a ∈ Function.update L p (L p ++ [m]) q := by
    intro q a ha
    by_cases hq : q = p
    · subst hq
      simp [ha]
    · simpa [hq] using ha
  have hpair : ∀ q a b, [a, b].Sublist (Function.update L p (L p ++ [m]) q) →
      [a, b].Sublist (L q) ∨ q = p ∧ b = m ∧ a ∈ L p := by
    intro q a b hab
    by_cases hq : q = p
    · subst hq
      rw [Function.update_self, pair_sublist_append_singleton] at hab
      exact hab.imp id fun hab => ⟨rfl, hab⟩
    · exact Or.inl (by simpa [hq] using hab)
  have hnodup : ∀ q, (Function.update L p (L p ++ [m]) q).Nodup := by
    intro q
    by_cases hq : q = p
    · subst hq
      rw [Function.update_self, List.nodup_append]
      refine ⟨h.nodup q, List.nodup_singleton m, fun a ha b hb hab => hm ?_⟩
      rwa [← List.mem_singleton.mp hb, ← hab]
    · simpa [hq] using h.nodup q
  refine ⟨hnodup, fun q a b hab r => hgrow r a ?_, fun q r a b hab hba => ?_⟩
  · rcases hpair q a b hab with hab | ⟨-, -, ha⟩
    · exact h.reached q a b hab r
    · exact hall a ha r
  · rcases hpair q a b hab with hold | ⟨rfl, rfl, ha⟩
    · rcases hpair r b a hba with hold' | ⟨rfl, rfl, hb⟩
      · exact h.agree q r a b hold hold'
      · exact hm (h.reached q a b hold r)
    · -- the new pair at `q` against a pair at `r`
      by_cases hr : r = q
      · subst hr
        exact not_pair_sublist_swap (hnodup r) hab hba
      · rw [Function.update_of_ne hr] at hba
        exact hm (h.reached r b a hba q)

end CommonOrder
