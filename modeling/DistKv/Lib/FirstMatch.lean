import Mathlib.Data.List.Basic

/-!
# The first match and the latest match

`updateFirst` changes the first entry of a list that a test picks, as a search
loop does that stops at its first hit. `latest` is the last entry of a history
that a test picks.
-/

namespace FirstMatch

variable {α : Type} {p : α → Bool} {f : α → α}

/-- First match, updated in place. -/
def updateFirst (p : α → Bool) (f : α → α) : List α → List α
  | [] => []
  | x :: l => if p x then f x :: l else x :: updateFirst p f l

theorem updateFirst_append {pre post : List α} {x : α}
    (hx : p x = true) (hpre : ∀ y ∈ pre, p y = false) :
    updateFirst p f (pre ++ x :: post) = pre ++ f x :: post := by
  induction pre with
  | nil => simp [updateFirst, hx]
  | cons y rest ih =>
      simp only [List.cons_append, updateFirst, hpre y List.mem_cons_self, Bool.false_eq_true,
        if_false]
      rw [ih (fun z hz => hpre z (List.mem_cons_of_mem _ hz))]

theorem mem_updateFirst {l : List α} {y : α} (hy : y ∈ updateFirst p f l) :
    ∃ x ∈ l, y = x ∨ y = f x := by
  induction l with
  | nil => simp [updateFirst] at hy
  | cons x rest ih =>
      unfold updateFirst at hy
      by_cases hx : p x = true
      · rw [if_pos hx] at hy
        rcases List.mem_cons.mp hy with rfl | hy
        · exact ⟨x, List.mem_cons_self, Or.inr rfl⟩
        · exact ⟨y, List.mem_cons_of_mem _ hy, Or.inl rfl⟩
      · rw [if_neg hx] at hy
        rcases List.mem_cons.mp hy with rfl | hy
        · exact ⟨y, List.mem_cons_self, Or.inl rfl⟩
        · obtain ⟨z, hz, hyz⟩ := ih hy
          exact ⟨z, List.mem_cons_of_mem _ hz, hyz⟩

/-- An update that keeps `g` everywhere keeps the list of `g`s. -/
theorem map_updateFirst {β : Type} (g : α → β)
    (hg : ∀ x, g (f x) = g x) (l : List α) : (updateFirst p f l).map g = l.map g := by
  induction l with
  | nil => rfl
  | cons x rest ih =>
      unfold updateFirst
      by_cases hx : p x = true
      · simp [hx, hg]
      · simp [hx, ih]

/-- The test that picked the entry finds the changed one. -/
theorem find?_updateFirst (hf : ∀ x, p x = true → p (f x) = true) (l : List α) :
    (updateFirst p f l).find? p = (l.find? p).map f := by
  induction l with
  | nil => rfl
  | cons x rest ih =>
      unfold updateFirst
      by_cases hx : p x = true
      · simp [hx, hf x hx]
      · simp [hx, ih]

/-- A test that picks neither the entry nor the changed one finds what it found. -/
theorem find?_updateFirst_of_not {q : α → Bool}
    (hq : ∀ x, p x = true → q x = false ∧ q (f x) = false) (l : List α) :
    (updateFirst p f l).find? q = l.find? q := by
  induction l with
  | nil => rfl
  | cons x rest ih =>
      unfold updateFirst
      by_cases hx : p x = true
      · simp [hx, (hq x hx).1, (hq x hx).2]
      · simp [hx, List.find?_cons, ih]

/-- Without an entry that is not the first match, the first match stays. -/
theorem find?_remove {q : α → Bool} {before after : List α} {x : α}
    (h : q x = false ∨ ∃ y ∈ before, q y = true) :
    (before ++ after).find? q = (before ++ x :: after).find? q := by
  rw [List.find?_append, List.find?_append]
  rcases h with hx | ⟨y, hy, hq⟩
  · rw [List.find?_cons_of_neg (by simp [hx])]
  · have hsome : (before.find? q).isSome = true := List.find?_isSome.mpr ⟨y, hy, hq⟩
    obtain ⟨z, hz⟩ := Option.isSome_iff_exists.mp hsome
    rw [hz, Option.some_or, Option.some_or]

/-- Without the first match something else is found, unless it is there once more. -/
theorem find?_remove_ne {q : α → Bool} {before after : List α} {x : α} (hx : q x = true)
    (hbefore : ∀ y ∈ before, q y = false) (hmem : x ∉ before ++ after) :
    (before ++ after).find? q ≠ (before ++ x :: after).find? q := by
  have hfirst : (before ++ x :: after).find? q = some x :=
    List.find?_eq_some_iff_append.mpr
      ⟨hx, before, after, rfl, fun y hy => by simp [hbefore y hy]⟩
  rw [hfirst]
  exact fun h => hmem (List.mem_of_find?_eq_some h)

/-- The last entry that `p` picks. -/
def latest (p : α → Bool) (history : List α) : Option α := history.reverse.find? p

theorem latest_append (a b : List α) : latest p (a ++ b) = (latest p b).or (latest p a) := by
  simp [latest]

theorem latest_append_singleton (history : List α) (x : α) :
    latest p (history ++ [x]) = if p x = true then some x else latest p history := by
  by_cases hx : p x = true
  · simp [latest, hx]
  · simp [latest, hx]

theorem latest_eq_none_iff {history : List α} :
    latest p history = none ↔ ∀ x ∈ history, p x = false := by
  simp [latest]

theorem of_latest_eq_some {history : List α} {x : α} (h : latest p history = some x) :
    p x = true ∧ x ∈ history :=
  ⟨List.find?_some h, List.mem_reverse.mp (List.mem_of_find?_eq_some h)⟩

theorem latest_eq_getLast? {history : List α} (h : ∀ x ∈ history, p x = true) :
    latest p history = history.getLast? := by
  unfold latest
  rw [← List.head?_reverse]
  cases hrev : history.reverse with
  | nil => rfl
  | cons x rest =>
      have hx : x ∈ history := List.mem_reverse.mp (by rw [hrev]; exact List.mem_cons_self)
      simp [h x hx]

/-- The latest entry that `p` picks is the latest that a stronger `q` picks, if `q` picks it. -/
theorem latest_of_imp {q : α → Bool} {history : List α} {x : α} (h : latest p history = some x)
    (hqp : ∀ y, q y = true → p y = true) (hx : q x = true) : latest q history = some x := by
  unfold latest at *
  rw [List.find?_eq_some_iff_append] at *
  obtain ⟨-, newer, older, hsplit, hnewer⟩ := h
  refine ⟨hx, newer, older, hsplit, fun y hy => ?_⟩
  have hp := hnewer y hy
  cases hqy : q y with
  | false => rfl
  | true => simp [hqp y hqy] at hp

end FirstMatch
