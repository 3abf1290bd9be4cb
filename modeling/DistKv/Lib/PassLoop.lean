import Mathlib.Tactic.ByContra

/-!
# A loop that runs passes until one is done

`pass i s` is what pass number `i` makes of the state `s`: a state to go on
with (`again`) or a result (`done`). The fuel of `run` is scaffolding: the loop
returns exactly when some pass is done (`returns_iff`), and at most one result
(`Returns.unique`).
-/

namespace PassLoop

variable {σ β : Type*}

/-- What a pass ends with. -/
inductive Ends (σ β : Type*)
  | again (s : σ)
  | done (b : β)

/-- Passes from number `i` on. -/
def run (pass : Nat → σ → Ends σ β) : Nat → Nat → σ → Option β
  | 0, _, _ => none
  | fuel + 1, i, s =>
    match pass i s with
    | .again s' => run pass fuel (i + 1) s'
    | .done b => some b

/-- The loop returns `b`. -/
def Returns (pass : Nat → σ → Ends σ β) (s : σ) (b : β) : Prop :=
  ∃ fuel, run pass fuel 0 s = some b

/-- The state before pass `k`, if the loop gets there. -/
def before (pass : Nat → σ → Ends σ β) (s : σ) : Nat → Option σ
  | 0 => some s
  | k + 1 =>
    match before pass s k with
    | none => none
    | some t =>
      match pass k t with
      | .again t' => some t'
      | .done _ => none

variable {pass : Nat → σ → Ends σ β} {s t t' : σ} {b b' : β} {i k : Nat}

theorem before_succ_of_again (hi : before pass s i = some t) (hpass : pass i t = .again t') :
    before pass s (i + 1) = some t' := by
  simp only [before, hi, hpass]

theorem before_succ_of_done (hi : before pass s i = some t) (hpass : pass i t = .done b) :
    before pass s (i + 1) = none := by
  simp only [before, hi, hpass]

/-- A pass has one before it that went on. -/
theorem before_succ_eq_some :
    before pass s (k + 1) = some t' ↔ ∃ t, before pass s k = some t ∧ pass k t = .again t' := by
  constructor
  · intro h
    cases hk : before pass s k with
    | none => simp [before, hk] at h
    | some t =>
      cases hpass : pass k t with
      | again u =>
        rw [before_succ_of_again hk hpass] at h
        injection h with h
        exact ⟨t, rfl, by rw [hpass, h]⟩
      | done b =>
        rw [before_succ_of_done hk hpass] at h
        cases h
  · intro ⟨t, hk, hpass⟩
    exact before_succ_of_again hk hpass

theorem before_eq_none_of_le (hi : before pass s i = none) (hk : i ≤ k) :
    before pass s k = none := by
  induction hk with
  | refl => exact hi
  | step _ ih => simp only [before, ih]

/-- **Invariant rule.** -/
theorem before_invariant {P : Nat → σ → Prop} (init : P 0 s)
    (step : ∀ k t t', P k t → pass k t = .again t' → P (k + 1) t') :
    ∀ k t, before pass s k = some t → P k t := by
  intro k
  induction k with
  | zero =>
    intro t h
    injection h with h
    exact h ▸ init
  | succ k ih =>
    intro t' h
    obtain ⟨t, hk, hpass⟩ := before_succ_eq_some.mp h
    exact step k t t' (ih t hk) hpass

theorem run_eq_some_iff (fuel : Nat) (hi : before pass s i = some t) :
    run pass fuel i t = some b ↔
      ∃ k t', i ≤ k ∧ k < i + fuel ∧ before pass s k = some t' ∧ pass k t' = .done b := by
  induction fuel generalizing i t with
  | zero =>
    constructor
    · intro h
      cases h
    · intro ⟨k, t', hle, hlt, _⟩
      omega
  | succ fuel ih =>
    unfold run
    cases hpass : pass i t with
    | again t' =>
      show run pass fuel (i + 1) t' = some b ↔ _
      rw [ih (before_succ_of_again hi hpass)]
      constructor
      · intro ⟨k, u, hle, hlt, hk, hdone⟩
        exact ⟨k, u, by omega, by omega, hk, hdone⟩
      · intro ⟨k, u, hle, hlt, hk, hdone⟩
        refine ⟨k, u, ?_, by omega, hk, hdone⟩
        -- pass `i` went on, so it is not the one that is done
        by_contra hki
        obtain rfl : k = i := by omega
        rw [hi] at hk
        injection hk with hk
        rw [← hk, hpass] at hdone
        cases hdone
    | done b' =>
      show some b' = some b ↔ _
      constructor
      · intro h
        injection h with h
        exact ⟨i, t, Nat.le_refl i, by omega, hi, by rw [hpass, h]⟩
      · intro ⟨k, u, hle, hlt, hk, hdone⟩
        rcases Nat.eq_or_lt_of_le hle with rfl | hlt
        · rw [hi] at hk
          injection hk with hk
          rw [← hk, hpass] at hdone
          injection hdone with hdone
          rw [hdone]
        · rw [before_eq_none_of_le (before_succ_of_done hi hpass) hlt] at hk
          cases hk

/-- **The loop returns what the first pass that is done gives.** -/
theorem returns_iff :
    Returns pass s b ↔ ∃ k t, before pass s k = some t ∧ pass k t = .done b := by
  constructor
  · intro ⟨fuel, h⟩
    obtain ⟨k, t, _, _, hk, hdone⟩ := (run_eq_some_iff fuel rfl).mp h
    exact ⟨k, t, hk, hdone⟩
  · intro ⟨k, t, hk, hdone⟩
    exact ⟨k + 1, (run_eq_some_iff (k + 1) rfl).mpr ⟨k, t, by omega, by omega, hk, hdone⟩⟩

theorem Returns.unique (h : Returns pass s b) (h' : Returns pass s b') : b = b' := by
  obtain ⟨k, t, hk, hdone⟩ := returns_iff.mp h
  obtain ⟨k', t', hk', hdone'⟩ := returns_iff.mp h'
  rcases Nat.lt_trichotomy k k' with hlt | rfl | hlt
  · rw [before_eq_none_of_le (before_succ_of_done hk hdone) hlt] at hk'
    cases hk'
  · rw [hk] at hk'
    injection hk' with hk'
    rw [← hk', hdone] at hdone'
    injection hdone'
  · rw [before_eq_none_of_le (before_succ_of_done hk' hdone') hlt] at hk
    cases hk

end PassLoop
