import DistKv.Lib.Transition
import Mathlib.Algebra.Ring.Nat
import Mathlib.Tactic.Push

/-!
# Amortized bounds on runs

A rank pays for transitions: each one costs `cost`, out of the rank that the
state holds and of what its label brings in (`gain`). A run can then not be
longer than what its labels brought in (`Ranks.length_le`), and labels that
bring in nothing can not go on for ever: every state is led to one where none
of them is enabled (`Ranks.exists_stuck`).
-/

namespace Transition.System

variable {σ α : Type} {M : System σ α}

/-- Along the states of `I`, `rank` pays `cost` for every transition. -/
structure Ranks (M : System σ α) (I : σ → Prop) (cost : Nat) (gain : α → Nat)
    (rank : σ → Nat) : Prop where
  keeps : ∀ s a s', I s → M.step s a = some s' → I s'
  pays : ∀ s a s', I s → M.step s a = some s' → rank s' + cost ≤ rank s + gain a

/-- No label of a kind is enabled. -/
def Stuck (M : System σ α) (inner : α → Prop) (s : σ) : Prop :=
  ∀ a, inner a → M.step s a = none

variable {I : σ → Prop} {cost : Nat} {gain : α → Nat} {rank : σ → Nat}

/-- **Amortized bound.** The cost of a run and the rank left over are covered
by the rank at its start and by what its labels brought in. -/
theorem Ranks.length_le (h : M.Ranks I cost gain rank) {s t : σ} {as : List α}
    (hs : I s) (hrun : M.exec s as = some t) :
    as.length * cost + rank t ≤ rank s + (as.map gain).sum := by
  induction as generalizing s with
  | nil =>
      obtain rfl : s = t := Option.some.inj hrun
      rw [List.length_nil, Nat.zero_mul, Nat.zero_add]
      exact Nat.le_add_right _ _
  | cons a rest ih =>
      obtain ⟨s', hstep, -, hrest⟩ := runVia_cons_eq_some.mp hrun
      have hpays := h.pays s a s' hs hstep
      have htail := ih (h.keeps s a s' hs hstep) hrest
      rw [List.length_cons, Nat.add_mul, Nat.one_mul, List.map_cons, List.sum_cons]
      calc rest.length * cost + cost + rank t
          = rest.length * cost + rank t + cost := Nat.add_right_comm ..
        _ ≤ rank s' + (rest.map gain).sum + cost := Nat.add_le_add_right htail cost
        _ = rank s' + cost + (rest.map gain).sum := Nat.add_right_comm ..
        _ ≤ rank s + gain a + (rest.map gain).sum := Nat.add_le_add_right hpays _
        _ = rank s + (gain a + (rest.map gain).sum) := Nat.add_assoc ..

/-- Labels that bring in nothing come to an end. -/
theorem Ranks.exists_stuck (h : M.Ranks I cost gain rank) (hcost : 0 < cost)
    {inner : α → Prop} (hinner : ∀ a, inner a → gain a = 0) {s : σ} (hs : I s) :
    ∃ as t, (∀ a ∈ as, inner a) ∧ M.exec s as = some t ∧ M.Stuck inner t := by
  induction hr : rank s using Nat.strongRecOn generalizing s with
  | _ r ih =>
      by_cases hstuck : M.Stuck inner s
      · exact ⟨[], s, by simp, rfl, hstuck⟩
      · -- some label of the kind is enabled, and it lowers the rank
        unfold Stuck at hstuck
        push Not at hstuck
        obtain ⟨a, ha, hne⟩ := hstuck
        obtain ⟨s', hstep⟩ := Option.ne_none_iff_exists'.mp hne
        have hpays := h.pays s a s' hs hstep
        have hgain := hinner a ha
        obtain ⟨as, t, hall, hrun, ht⟩ :=
          ih (rank s') (by omega) (h.keeps s a s' hs hstep) rfl
        refine ⟨a :: as, t, ?_, runVia_cons_eq_some.mpr ⟨s', hstep, rfl, hrun⟩, ht⟩
        intro b hb
        rcases List.mem_cons.mp hb with rfl | hb
        · exact ha
        · exact hall b hb

end Transition.System
