import DistKv.Lib.History

/-!
# Linearizability

Operations are called and answered at different moments, and any number of
them overlap. A history is linearizable when its operations can be put into one
sequence that answers them all as a sequential object does, and in which an
operation stands behind every one that was answered before it was called
(`Linearizes`).

The usual proof names for each operation the moment at which it takes effect.
The history then has a `commit` for it, somewhere between call and answer
(`Timed`), and the order of the commits is the sequence (`linearizes_commits`).

A sequence for one object is a sequence for another one that it simulates
(`Linearizes.simulate`).
-/

namespace Linearizable

open History

/-- A sequential object: how an operation changes it, and the response. -/
structure Spec (σ ι ρ : Type) where
  init : σ
  next : σ → ι → σ
  response : σ → ι → ρ

/-- Operation `i` is called, takes effect, is answered. -/
inductive Event (ι ρ : Type)
  | call (i : Nat) (op : ι)
  | commit (i : Nat) (op : ι)
  | answer (i : Nat) (r : ρ)
deriving DecidableEq

variable {σ τ ι ρ : Type}

/-- The state after a sequence of operations. -/
def Spec.after (spec : Spec σ ι ρ) (l : List (Nat × ι)) : σ :=
  l.foldl (fun s x => spec.next s x.2) spec.init

theorem Spec.after_append_singleton (spec : Spec σ ι ρ) (l : List (Nat × ι)) (x : Nat × ι) :
    spec.after (l ++ [x]) = spec.next (spec.after l) x.2 :=
  List.foldl_concat ..

/-- `i` is answered before `j` is called. -/
def Precedes (history : List (Event ι ρ)) (i j : Nat) : Prop :=
  ∃ r op, [.answer i r, .call j op].Sublist history

/-- In the sequence `l`, operation `i` is answered with `r`. -/
def Spec.Answers (spec : Spec σ ι ρ) (l : List (Nat × ι)) (i : Nat) (r : ρ) : Prop :=
  ∃ pre op post, l = pre ++ (i, op) :: post ∧ r = spec.response (spec.after pre) op

/-- `l` puts the operations of a history into a sequence. Operations that have no
answer yet may be part of it. -/
structure Linearizes (spec : Spec σ ι ρ) (history : List (Event ι ρ)) (l : List (Nat × ι)) :
    Prop where
  nodup : (l.map Prod.fst).Nodup
  called : ∀ x ∈ l, .call x.1 x.2 ∈ history
  answers : ∀ i r, .answer i r ∈ history → spec.Answers l i r
  order : ∀ i j, Precedes history i j → j ∈ l.map Prod.fst → [i, j].Sublist (l.map Prod.fst)

variable {spec : Spec σ ι ρ} {history : List (Event ι ρ)} {l : List (Nat × ι)}

theorem Spec.Answers.append {i : Nat} {r : ρ} (h : spec.Answers l i r) (more : List (Nat × ι)) :
    spec.Answers (l ++ more) i r := by
  obtain ⟨pre, op, post, rfl, hr⟩ := h
  exact ⟨pre, op, post ++ more, by rw [List.append_assoc, List.cons_append], hr⟩

/-- What is answered before an operation is called stands in front of it. -/
theorem Linearizes.mem_of_precedes (h : Linearizes spec history l) {i j : Nat}
    (hij : Precedes history i j) {pre post : List (Nat × ι)} {op : ι}
    (hl : l = pre ++ (j, op) :: post) : i ∈ pre.map Prod.fst := by
  have hids : l.map Prod.fst = pre.map Prod.fst ++ j :: post.map Prod.fst := by
    rw [hl, List.map_append, List.map_cons]
  have hsub := h.order i j hij (by rw [hids]; simp)
  have hnodup := h.nodup
  rw [hids] at hsub hnodup
  exact mem_of_pair_sublist hnodup hsub

/-- What stands between two operations one of which precedes the other overlaps one of
them, or was called and answered between them. -/
theorem Linearizes.between (h : Linearizes spec history l) {i j : Nat}
    (hij : Precedes history i j) {pre post : List (Nat × ι)} {b : ι}
    (hl : l = pre ++ (j, b) :: post) : ∃ front a rest, pre = front ++ (i, a) :: rest ∧
      ∀ x ∈ rest, x.1 ≠ i ∧ ¬ Precedes history x.1 i ∧ ¬ Precedes history j x.1 := by
  obtain ⟨⟨i', a⟩, ha, rfl⟩ := List.mem_map.mp (h.mem_of_precedes hij hl)
  obtain ⟨front, rest, rfl⟩ := List.append_of_mem ha
  refine ⟨front, a, rest, rfl, fun x hx => ?_⟩
  have hnodup := h.nodup
  have hli : l = front ++ (i', a) :: (rest ++ (j, b) :: post) := by
    rw [hl, List.append_assoc, List.cons_append]
  have hxi : x.1 ≠ i' ∧ x.1 ∉ front.map Prod.fst := by
    rw [hli, List.map_append, List.map_cons, List.map_append] at hnodup
    obtain ⟨-, hrest, hdisj⟩ := List.nodup_append.mp hnodup
    have hmem : x.1 ∈ rest.map Prod.fst := List.mem_map_of_mem hx
    refine ⟨fun heq => ?_, fun hfront => ?_⟩
    · exact (List.nodup_cons.mp hrest).1 (List.mem_append_left _ (heq ▸ hmem))
    · exact hdisj _ hfront _ (List.mem_cons_of_mem _ (List.mem_append_left _ hmem)) rfl
  refine ⟨hxi.1, fun hprec => hxi.2 (h.mem_of_precedes hprec hli), fun hprec => ?_⟩
  -- `x` stands in front of `j`
  obtain ⟨before, after, rfl⟩ := List.append_of_mem hx
  have hlx : l = (front ++ (i', a) :: before) ++ x :: (after ++ (j, b) :: post) := by
    rw [hli]
    simp
  have hj := h.mem_of_precedes hprec hlx
  rw [hl, List.map_append, List.map_cons] at hnodup
  obtain ⟨-, -, hdisj⟩ := List.nodup_append.mp hnodup
  have hpre : front ++ (i', a) :: before <+: front ++ (i', a) :: (before ++ x :: after) :=
    ⟨x :: after, by simp⟩
  exact hdisj j ((hpre.map Prod.fst).subset hj) j List.mem_cons_self rfl

/-! ## Linearization points -/

/-- The operations of a history in the order in which they take effect. -/
def commits (history : List (Event ι ρ)) : List (Nat × ι) :=
  history.filterMap fun e => match e with
    | .commit i op => some (i, op)
    | _ => none

/-- What an event owes to the history before it: an operation is called once, takes effect
once and after its call, and is answered after it took effect. -/
def Timed (before : List (Event ι ρ)) : Event ι ρ → Prop
  | .call i _ => ∀ op, .call i op ∉ before
  | .commit i op => .call i op ∈ before ∧ i ∉ (commits before).map Prod.fst
  | .answer i _ => i ∈ (commits before).map Prod.fst

@[simp] theorem commits_call (history : List (Event ι ρ)) (i : Nat) (op : ι) :
    commits (history ++ [.call i op]) = commits history := by
  simp [commits]

@[simp] theorem commits_commit (history : List (Event ι ρ)) (i : Nat) (op : ι) :
    commits (history ++ [.commit i op]) = commits history ++ [(i, op)] := by
  simp [commits]

@[simp] theorem commits_answer (history : List (Event ι ρ)) (i : Nat) (r : ρ) :
    commits (history ++ [.answer i r]) = commits history := by
  simp [commits]

theorem precedes_append_singleton {e : Event ι ρ} {i j : Nat} :
    Precedes (history ++ [e]) i j ↔
      Precedes history i j ∨ ∃ r op, e = .call j op ∧ .answer i r ∈ history := by
  unfold Precedes
  constructor
  · intro h
    obtain ⟨r, op, hsub⟩ := h
    rcases pair_sublist_append_singleton.mp hsub with hold | ⟨he, hans⟩
    · exact Or.inl ⟨r, op, hold⟩
    · exact Or.inr ⟨r, op, he.symm, hans⟩
  · rintro (⟨r, op, h⟩ | ⟨r, op, rfl, h⟩)
    · exact ⟨r, op, pair_sublist_append_singleton.mpr (Or.inl h)⟩
    · exact ⟨r, op, pair_sublist_append_singleton.mpr (Or.inr ⟨rfl, h⟩)⟩

/-- Nothing takes effect twice. -/
theorem commits_nodup (h : AtEvents Timed history) :
    ((commits history).map Prod.fst).Nodup := by
  induction history using List.reverseRec with
  | nil => exact List.nodup_nil
  | append_singleton past e ih =>
      obtain ⟨hpast, he⟩ := atEvents_append_singleton.mp h
      cases e with
      | call j op => simpa using ih hpast
      | answer j r => simpa using ih hpast
      | commit j op =>
          rw [commits_commit, List.map_append]
          refine List.nodup_append.mpr ⟨ih hpast, List.nodup_singleton _, ?_⟩
          intro a ha b hb hab
          obtain rfl := List.mem_singleton.mp hb
          exact he.2 (hab ▸ ha)

/-- What takes effect was called. -/
theorem called_of_commits (h : AtEvents Timed history) :
    ∀ x ∈ commits history, .call x.1 x.2 ∈ history := by
  induction history using List.reverseRec with
  | nil => exact fun x hx => absurd hx List.not_mem_nil
  | append_singleton past e ih =>
      obtain ⟨hpast, he⟩ := atEvents_append_singleton.mp h
      intro x hx
      apply List.mem_append_left
      cases e with
      | call j op => exact ih hpast x (by simpa using hx)
      | answer j r => exact ih hpast x (by simpa using hx)
      | commit j op =>
          rw [commits_commit] at hx
          rcases List.mem_append.mp hx with hx | hx
          · exact ih hpast x hx
          · obtain rfl := List.mem_singleton.mp hx
            exact he.1

/-- What is answered has taken effect. -/
theorem mem_commits_of_answer (h : AtEvents Timed history) {i : Nat} {r : ρ}
    (hi : .answer i r ∈ history) : i ∈ (commits history).map Prod.fst := by
  obtain ⟨before, after, rfl, hbefore⟩ := h.at_mem hi
  have hsub : commits before <+: commits (before ++ .answer i r :: after) :=
    ⟨commits (.answer i r :: after), (List.filterMap_append ..).symm⟩
  exact (hsub.map Prod.fst).subset hbefore

/-- What is answered before an operation is called takes effect before it. -/
theorem commits_order (h : AtEvents Timed history) {i j : Nat} (hij : Precedes history i j)
    (hj : j ∈ (commits history).map Prod.fst) :
    [i, j].Sublist ((commits history).map Prod.fst) := by
  induction history using List.reverseRec with
  | nil => cases hj
  | append_singleton past e ih =>
      obtain ⟨hpast, he⟩ := atEvents_append_singleton.mp h
      rcases precedes_append_singleton.mp hij with hold | ⟨r, op, rfl, -⟩
      · cases e with
        | call k op =>
            rw [commits_call] at hj ⊢
            exact ih hpast hold hj
        | answer k r =>
            rw [commits_answer] at hj ⊢
            exact ih hpast hold hj
        | commit k op =>
            rw [commits_commit, List.map_append] at hj ⊢
            rcases List.mem_append.mp hj with hj | hj
            · exact (ih hpast hold hj).trans (List.sublist_append_left _ _)
            · -- `i` has been answered, so it has taken effect
              obtain rfl := List.mem_singleton.mp hj
              obtain ⟨r, _, hsub⟩ := hold
              have hi := mem_commits_of_answer hpast (hsub.subset List.mem_cons_self)
              exact (List.singleton_sublist.mpr hi).append (List.Sublist.refl _)
      · -- `j` is called by this event, and has not taken effect
        rw [commits_call] at hj
        obtain ⟨x, hx, rfl⟩ := List.mem_map.mp hj
        exact absurd (called_of_commits hpast x hx) (he x.2)

/-- **Linearization points.** The order in which the operations take effect is a sequence
for the history, if it answers them. -/
theorem linearizes_commits (h : AtEvents Timed history)
    (hans : ∀ i r, .answer i r ∈ history → spec.Answers (commits history) i r) :
    Linearizes spec history (commits history) :=
  { nodup := commits_nodup h
    called := called_of_commits h
    answers := hans
    order := fun _ _ hij hj => commits_order h hij hj }

/-- An operation is called once. -/
theorem call_unique (h : AtEvents Timed history) {i : Nat} {a b : ι}
    (ha : .call i a ∈ history) (hb : .call i b ∈ history) : a = b := by
  induction history using List.reverseRec with
  | nil => cases ha
  | append_singleton past e ih =>
      obtain ⟨hpast, he⟩ := atEvents_append_singleton.mp h
      rcases List.mem_append.mp ha with hpa | hpa <;> rcases List.mem_append.mp hb with hpb | hpb
      · exact ih hpast hpa hpb
      · rw [← List.mem_singleton.mp hpb] at he
        exact absurd hpa (he a)
      · rw [← List.mem_singleton.mp hpa] at he
        exact absurd hpb (he b)
      · have hab := (List.mem_singleton.mp hpa).trans (List.mem_singleton.mp hpb).symm
        exact (Event.call.inj hab).2

/-! ## Simulation -/

/-- From related states, the operations that are `ok` get one response from both
objects and leave related states. -/
structure Simulates (spec : Spec σ ι ρ) (abs : Spec τ ι ρ) (R : σ → τ → Prop) (ok : ι → Prop) :
    Prop where
  init : R spec.init abs.init
  next : ∀ s t op, ok op → R s t → R (spec.next s op) (abs.next t op)
  response : ∀ s t op, ok op → R s t → spec.response s op = abs.response t op

variable {abs : Spec τ ι ρ} {R : σ → τ → Prop} {ok : ι → Prop}

theorem Simulates.after (h : Simulates spec abs R ok) (hl : ∀ x ∈ l, ok x.2) :
    R (spec.after l) (abs.after l) := by
  induction l using List.reverseRec with
  | nil => exact h.init
  | append_singleton rest x ih =>
      rw [spec.after_append_singleton, abs.after_append_singleton]
      exact h.next _ _ _ (hl x (by simp)) (ih fun y hy => hl y (List.mem_append_left _ hy))

/-- **Refinement.** A sequence for an object is one for every object it simulates. -/
theorem Linearizes.simulate (h : Linearizes spec history l) (hsim : Simulates spec abs R ok)
    (hok : ∀ i op, .call i op ∈ history → ok op) : Linearizes abs history l := by
  refine ⟨h.nodup, h.called, fun i r hi => ?_, h.order⟩
  obtain ⟨pre, op, post, rfl, rfl⟩ := h.answers i r hi
  have hall : ∀ x ∈ pre ++ (i, op) :: post, ok x.2 := fun x hx => hok _ _ (h.called x hx)
  have hpre := hsim.after fun x hx => hall x (List.mem_append_left _ hx)
  exact ⟨pre, op, post, rfl, hsim.response _ _ op (hall (i, op) (by simp)) hpre⟩

end Linearizable
