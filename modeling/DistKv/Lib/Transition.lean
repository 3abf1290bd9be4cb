import Mathlib.Logic.Basic

/-!
# Runs of a labelled transition system

A system is an initial state and a step function that is undefined where a
label is not enabled. `ReachableVia G` are the states of the runs all of
whose transitions satisfy `G`; with the trivial `G` these are the reachable
states. A run is given as the list of its labels (`exec`), so a concrete
execution can be evaluated, and `runVia` evaluates it together with a
decidable check of every transition.
-/

namespace Transition

variable {σ α : Type}

/-- A labelled system; `step s a = none` where `a` is not enabled. -/
structure System (σ α : Type) where
  init : σ
  step : σ → α → Option σ

namespace System

variable (M : System σ α)

/-- The states of the runs whose every transition `s —a→ s'` satisfies `G`. -/
inductive ReachableVia (G : σ → α → σ → Prop) : σ → Prop
  | init : ReachableVia G M.init
  | step {s a s'} : ReachableVia G s → M.step s a = some s' → G s a s' →
      ReachableVia G s'

/-- The states of all runs. -/
abbrev Reachable (s : σ) : Prop := M.ReachableVia (fun _ _ _ => True) s

/-- Execute a list of labels, checking every transition. -/
def runVia (g : σ → α → σ → Bool) (s : σ) : List α → Option σ
  | [] => some s
  | a :: rest =>
      (M.step s a).bind fun s' => if g s a s' then runVia g s' rest else none

/-- Execute a list of labels. -/
abbrev exec (s : σ) (as : List α) : Option σ := M.runVia (fun _ _ _ => true) s as

/-- Every state of an execution satisfies `P`; it ends at a label that is not enabled. -/
def Along (P : σ → Prop) : σ → List α → Prop
  | s, [] => P s
  | s, a :: rest => P s ∧ ∀ s', M.step s a = some s' → Along P s' rest

/-- Every transition of an execution satisfies `G`. -/
def Meets (G : σ → α → σ → Prop) : σ → List α → Prop
  | _, [] => True
  | s, a :: rest => ∀ s', M.step s a = some s' → G s a s' ∧ Meets G s' rest

variable {M}

/-- **Invariant rule.** What holds at the start and is kept by every
transition that satisfies `G` holds along every such run. -/
theorem ReachableVia.invariant {G : σ → α → σ → Prop} {P : σ → Prop} (init : P M.init)
    (step : ∀ s a s', M.ReachableVia G s → P s → M.step s a = some s' → G s a s' → P s') :
    ∀ s, M.ReachableVia G s → P s := by
  intro s hs
  induction hs with
  | init => exact init
  | step hreach hstep hG ih => exact step _ _ _ hreach ih hstep hG

/-- A weaker check admits more runs. -/
theorem ReachableVia.mono {G G' : σ → α → σ → Prop} (hG : ∀ s a s', G s a s' → G' s a s')
    {s : σ} (hs : M.ReachableVia G s) : M.ReachableVia G' s := by
  induction hs with
  | init => exact .init
  | step _ hstep hg ih => exact .step ih hstep (hG _ _ _ hg)

theorem ReachableVia.reachable {G : σ → α → σ → Prop} {s : σ} (hs : M.ReachableVia G s) :
    M.Reachable s :=
  hs.mono fun _ _ _ _ => trivial

/-- **Simulation rule.** Where every transition of the one system can be followed by a
transition of the other one that satisfies `H`, every run can. -/
theorem ReachableVia.simulated {τ β : Type} {N : System τ β} {G : σ → α → σ → Prop}
    {H : τ → β → τ → Prop} {R : σ → τ → Prop} (init : R M.init N.init)
    (step : ∀ s a s' t, M.ReachableVia G s → N.ReachableVia H t → R s t →
      M.step s a = some s' → G s a s' → ∃ b t', N.step t b = some t' ∧ H t b t' ∧ R s' t') :
    ∀ s, M.ReachableVia G s → ∃ t, N.ReachableVia H t ∧ R s t := by
  intro s hs
  induction hs with
  | init => exact ⟨N.init, .init, init⟩
  | step hreach hstep hG ih =>
      obtain ⟨t, ht, hR⟩ := ih
      obtain ⟨b, t', hstep', hH, hR'⟩ := step _ _ _ _ hreach ht hR hstep hG
      exact ⟨t', .step ht hstep' hH, hR'⟩

/-- The first label of a checked execution passes its check. -/
theorem runVia_cons_eq_some {g : σ → α → σ → Bool} {s t : σ} {a : α} {as : List α} :
    M.runVia g s (a :: as) = some t ↔
      ∃ s', M.step s a = some s' ∧ g s a s' = true ∧ M.runVia g s' as = some t := by
  simp only [runVia, Option.bind_eq_some_iff, Option.ite_none_right_eq_some]

/-- An execution that passes its check is a run of the checked kind. -/
theorem ReachableVia.of_runVia {G : σ → α → σ → Prop} {g : σ → α → σ → Bool}
    (hg : ∀ s a s', g s a s' = true → G s a s') {s t : σ} (hs : M.ReachableVia G s)
    {as : List α} (hrun : M.runVia g s as = some t) : M.ReachableVia G t := by
  induction as generalizing s with
  | nil =>
      obtain rfl : s = t := by simpa [runVia] using hrun
      exact hs
  | cons a rest ih =>
      obtain ⟨s', hstep, hgs, hrest⟩ := runVia_cons_eq_some.mp hrun
      exact ih (.step hs hstep (hg _ _ _ hgs)) hrest

/-- One run after another. -/
theorem runVia_append (g : σ → α → σ → Bool) (s : σ) (as bs : List α) :
    M.runVia g s (as ++ bs) = (M.runVia g s as).bind fun t => M.runVia g t bs := by
  induction as generalizing s with
  | nil => rfl
  | cons a rest ih =>
      show (M.step s a).bind _ = ((M.step s a).bind _).bind _
      rw [Option.bind_assoc]
      refine Option.bind_congr fun s' _ => ?_
      split
      · exact ih s'
      · rfl

/-- One more label. -/
theorem runVia_append_singleton {g : σ → α → σ → Bool} {s : σ} {as : List α} {a : α} :
    M.runVia g s (as ++ [a]) =
      (M.runVia g s as).bind fun t =>
        (M.step t a).bind fun t' => if g t a t' then some t' else none :=
  runVia_append g s as [a]

/-- A checked execution is an execution. -/
theorem exec_of_runVia {g : σ → α → σ → Bool} {s t : σ} {as : List α}
    (hrun : M.runVia g s as = some t) : M.exec s as = some t := by
  induction as generalizing s with
  | nil => exact hrun
  | cons a rest ih =>
      obtain ⟨s', hstep, -, hrest⟩ := runVia_cons_eq_some.mp hrun
      exact runVia_cons_eq_some.mpr ⟨s', hstep, rfl, ih hrest⟩

/-- What every transition keeps holds at the end of an execution. -/
theorem exec_keeps {P : σ → Prop} {s t : σ} {as : List α} (hs : M.Reachable s) (hP : P s)
    (step : ∀ s a s', M.Reachable s → P s → M.step s a = some s' → P s')
    (hrun : M.exec s as = some t) : P t := by
  induction as generalizing s with
  | nil =>
      obtain rfl : s = t := by simpa [runVia] using hrun
      exact hP
  | cons a rest ih =>
      obtain ⟨s', hstep, -, hrest⟩ := runVia_cons_eq_some.mp hrun
      exact ih (.step hs hstep trivial) (step s a s' hs hP hstep) hrest

/-- An execution whose every transition satisfies a decidable `G`. -/
theorem ReachableVia.of_runVia_decide {G : σ → α → σ → Prop} [∀ s a s', Decidable (G s a s')]
    {t : σ} {as : List α}
    (hrun : M.runVia (fun s a s' => decide (G s a s')) M.init as = some t) :
    M.ReachableVia G t :=
  of_runVia (fun _ _ _ h => of_decide_eq_true h) .init hrun

/-- Every execution from the start is a run. -/
theorem reachable_of_exec {t : σ} {as : List α} (hrun : M.exec M.init as = some t) :
    M.Reachable t :=
  ReachableVia.of_runVia (fun _ _ _ _ => trivial) .init hrun

/-- A run that goes on by transitions that satisfy `G`. -/
theorem ReachableVia.of_meets {G : σ → α → σ → Prop} {s t : σ} {as : List α}
    (hs : M.ReachableVia G s) (hG : M.Meets G s as) (hrun : M.exec s as = some t) :
    M.ReachableVia G t := by
  induction as generalizing s with
  | nil =>
      obtain rfl : s = t := by simpa [runVia] using hrun
      exact hs
  | cons a rest ih =>
      obtain ⟨s', hstep, -, hrest⟩ := runVia_cons_eq_some.mp hrun
      obtain ⟨ha, hmeets⟩ := hG s' hstep
      exact ih (.step hs hstep ha) hmeets hrest

/-- Transitions that satisfy `G` by their labels. -/
theorem meets_of_labels {G : σ → α → σ → Prop} {as : List α}
    (hG : ∀ a ∈ as, ∀ s s', G s a s') (s : σ) : M.Meets G s as := by
  induction as generalizing s with
  | nil => trivial
  | cons a rest ih =>
      intro s' _
      exact ⟨hG a List.mem_cons_self s s', ih (fun b hb => hG b (List.mem_cons_of_mem a hb)) s'⟩

/-- A run that goes on by labels whose transitions satisfy `G`. -/
theorem ReachableVia.of_exec {G : σ → α → σ → Prop} {s t : σ} {as : List α}
    (hs : M.ReachableVia G s) (hG : ∀ a ∈ as, ∀ s s', G s a s') (hrun : M.exec s as = some t) :
    M.ReachableVia G t :=
  hs.of_meets (meets_of_labels hG s) hrun

/-- The transitions of a checked execution satisfy the check. -/
theorem meets_of_runVia {G : σ → α → σ → Prop} {g : σ → α → σ → Bool}
    (hg : ∀ s a s', g s a s' = true → G s a s') {s : σ} {as : List α}
    (h : (M.runVia g s as).isSome = true) : M.Meets G s as := by
  obtain ⟨t, hrun⟩ := Option.isSome_iff_exists.mp h
  clear h
  induction as generalizing s with
  | nil => trivial
  | cons a rest ih =>
      obtain ⟨s', hstep, hgs, hrest⟩ := runVia_cons_eq_some.mp hrun
      intro s'' hstep'
      obtain rfl : s' = s'' := Option.some.inj (hstep.symm.trans hstep')
      exact ⟨hg s a s' hgs, ih hrest⟩

/-- What holds along an execution holds where it starts. -/
theorem Along.here {P : σ → Prop} {s : σ} {as : List α} (h : M.Along P s as) : P s := by
  cases as with
  | nil => exact h
  | cons a rest => exact h.1

/-- **Step conditions.** Where a transition from a state that satisfies the invariant `I`
leads to `P` if and only if it satisfies `G`, and `G` keeps `I`, the executions along which
`P` holds are those whose transitions satisfy `G`. -/
theorem along_iff {I P : σ → Prop} {G : σ → α → σ → Prop}
    (keeps : ∀ s a s', M.Reachable s → I s → M.step s a = some s' → G s a s' → I s')
    (holds : ∀ s a s', M.Reachable s → I s → M.step s a = some s' → (P s' ↔ G s a s'))
    {s : σ} (hs : M.Reachable s) (hI : I s) (hP : P s) (as : List α) :
    M.Along P s as ↔ M.Meets G s as := by
  induction as generalizing s with
  | nil => exact iff_of_true hP trivial
  | cons a rest ih =>
      have hnext : ∀ s', M.step s a = some s' → G s a s' →
          (M.Along P s' rest ↔ M.Meets G s' rest) := fun s' hstep hG =>
        ih (.step hs hstep trivial) (keeps s a s' hs hI hstep hG)
          ((holds s a s' hs hI hstep).mpr hG)
      constructor
      · rintro ⟨-, hrest⟩ s' hstep
        have hG := (holds s a s' hs hI hstep).mp (hrest s' hstep).here
        exact ⟨hG, (hnext s' hstep hG).mp (hrest s' hstep)⟩
      · intro h
        refine ⟨hP, fun s' hstep => ?_⟩
        obtain ⟨hG, hrest⟩ := h s' hstep
        exact (hnext s' hstep hG).mpr hrest

/-- The state in which an execution from the start ends. -/
def endOf (M : System σ α) (as : List α) : σ := (M.exec M.init as).getD M.init

theorem endOf_reachable (as : List α) : M.Reachable (M.endOf as) := by
  unfold endOf
  cases hrun : M.exec M.init as with
  | none => exact .init
  | some t => exact reachable_of_exec hrun

/-- An execution that passes its check ends where the unchecked one does. -/
theorem runVia_eq_some_endOf {g : σ → α → σ → Bool} {as : List α}
    (h : (M.runVia g M.init as).isSome = true) : M.runVia g M.init as = some (M.endOf as) := by
  obtain ⟨t, ht⟩ := Option.isSome_iff_exists.mp h
  rw [endOf, exec_of_runVia ht, Option.getD_some, ht]

theorem endOf_reachableVia {G : σ → α → σ → Prop} [∀ s a s', Decidable (G s a s')] {as : List α}
    (h : (M.runVia (fun s a s' => decide (G s a s')) M.init as).isSome = true) :
    M.ReachableVia G (M.endOf as) :=
  .of_runVia_decide (runVia_eq_some_endOf h)

/-- A run from the start, cut in two. -/
theorem runVia_endOf_append {g : σ → α → σ → Bool} (as bs : List α)
    (h : (M.runVia g M.init (as ++ bs)).isSome = true) :
    M.runVia g (M.endOf as) bs = some (M.endOf (as ++ bs)) := by
  have hwhole := runVia_eq_some_endOf h
  rw [runVia_append] at hwhole
  obtain ⟨s, hs, hrest⟩ := Option.bind_eq_some_iff.mp hwhole
  rw [show M.endOf as = s by rw [endOf, exec_of_runVia hs, Option.getD_some]]
  exact hrest

end System

end Transition
