import Mathlib.Algebra.BigOperators.Fin
import Mathlib.Algebra.Order.BigOperators.Group.Finset
import Mathlib.Data.List.Induction
import Mathlib.Tactic.Abel

/-!
# Histories and ledgers

A history is the list of events of a run, oldest first. `AtEvents P` is a
property of every event relative to what came before it, so "only after" and
"at that moment" are said once and kept by appending events.

A ledger balances how often an event happened against what is stored or in
flight; the lemmas on sums say how a family of stores, one for each party,
changes when one party moves.
-/

namespace History

variable {ε : Type}

/-- `P before e` at every event `e` of the history. -/
def AtEvents (P : List ε → ε → Prop) (history : List ε) : Prop :=
  ∀ before e after, history = before ++ e :: after → P before e

theorem atEvents_nil (P : List ε → ε → Prop) : AtEvents P [] := by
  intro before e after h
  simp at h

/-- One more event. -/
theorem atEvents_append_singleton {P : List ε → ε → Prop} {history : List ε} {e : ε} :
    AtEvents P (history ++ [e]) ↔ AtEvents P history ∧ P history e := by
  constructor
  · intro h
    refine ⟨fun before d after hd => ?_, h history e [] rfl⟩
    exact h before d (after ++ [e]) (by rw [hd]; simp)
  · rintro ⟨h, he⟩ before d after hd
    rcases List.eq_nil_or_concat after with rfl | ⟨after', z, rfl⟩
    · obtain ⟨rfl, hde⟩ := List.append_inj' hd rfl
      obtain rfl : e = d := by simpa using hde
      exact he
    · have hcat : history ++ [e] = (before ++ d :: after') ++ [z] := by rw [hd]; simp
      exact h before d after' (List.append_inj' hcat rfl).1

/-- What is demanded of the events that are kept, with what was kept before them. -/
theorem AtEvents.filter {P Q : List ε → ε → Prop} {keep : ε → Bool} {history : List ε}
    (h : AtEvents P history) (hkeep : ∀ before e, P before e → Q (before.filter keep) e) :
    AtEvents Q (history.filter keep) := by
  intro before e after hsplit
  obtain ⟨front, back, rfl, rfl, hback⟩ := List.filter_eq_append_iff.mp hsplit
  obtain ⟨skipped, rest, rfl, hskipped, -, -⟩ := List.filter_eq_cons_iff.mp hback
  have hnone : skipped.filter keep = [] := List.filter_eq_nil_iff.mpr hskipped
  have he := hkeep _ _ (h (front ++ skipped) e rest (by simp))
  rw [List.filter_append, hnone, List.append_nil] at he
  exact he

/-- Appending events of a kind at which nothing is demanded. -/
theorem AtEvents.append {P : List ε → ε → Prop} {history events : List ε}
    (h : AtEvents P history) (hnew : ∀ e ∈ events, ∀ before, P before e) :
    AtEvents P (history ++ events) := by
  induction events using List.reverseRec with
  | nil => simpa using h
  | append_singleton rest e ih =>
      rw [← List.append_assoc, atEvents_append_singleton]
      exact ⟨ih (fun d hd => hnew d (List.mem_append_left _ hd)), hnew e (by simp) _⟩

theorem AtEvents.imp {P Q : List ε → ε → Prop} {history : List ε} (h : AtEvents P history)
    (hPQ : ∀ before e, P before e → Q before e) : AtEvents Q history :=
  fun before e after hd => hPQ _ _ (h before e after hd)

/-- Demands that are equivalent wherever `R` holds. -/
theorem AtEvents.congr {P Q R : List ε → ε → Prop} {history : List ε} (h : AtEvents R history)
    (hPQ : ∀ before e, R before e → (P before e ↔ Q before e)) :
    AtEvents P history ↔ AtEvents Q history :=
  ⟨fun hP before e after hd => (hPQ _ _ (h before e after hd)).mp (hP before e after hd),
    fun hQ before e after hd => (hPQ _ _ (h before e after hd)).mpr (hQ before e after hd)⟩

theorem atEvents_iff_getElem {P : List ε → ε → Prop} {history : List ε} :
    AtEvents P history ↔ ∀ i : Fin history.length, P (history.take i) history[i] := by
  constructor
  · intro h i
    exact h _ _ (history.drop (i + 1)) (by simp)
  · rintro h before e after rfl
    simpa using h ⟨before.length, by simp⟩

/-- An entry of a list with one more is an old one, or the new one at the end. -/
theorem getElem?_append_singleton_cases {l : List ε} {a b : ε} {i : Nat}
    (h : (l ++ [a])[i]? = some b) : l[i]? = some b ∨ i = l.length ∧ b = a := by
  rcases Nat.lt_trichotomy i l.length with hlt | rfl | hgt
  · rw [List.getElem?_append_left hlt] at h
    exact Or.inl h
  · rw [List.getElem?_concat_length] at h
    exact Or.inr ⟨rfl, (Option.some.inj h).symm⟩
  · have hlt := (List.getElem?_eq_some_iff.mp h).1
    rw [List.length_append, List.length_singleton] at hlt
    omega

/-- Entries with names of their own are where their names are. -/
theorem index_eq_of_nodup_map {β : Type*} {name : ε → β} {entries : List ε}
    (h : (entries.map name).Nodup) {i j : Nat} {a b : ε} (hi : entries[i]? = some a)
    (hj : entries[j]? = some b) (hname : name a = name b) : i = j := by
  have hlt : i < (entries.map name).length := by
    rw [List.length_map]
    exact (List.getElem?_eq_some_iff.mp hi).1
  refine (List.getElem?_inj hlt h).mp ?_
  rw [List.getElem?_map, List.getElem?_map, hi, hj, Option.map_some, Option.map_some, hname]

instance {P : List ε → ε → Prop} [∀ before e, Decidable (P before e)] {history : List ε} :
    Decidable (AtEvents P history) :=
  decidable_of_iff _ atEvents_iff_getElem.symm

/-- What is demanded at an event holds of the history it is in. -/
theorem AtEvents.at_mem {P : List ε → ε → Prop} {history : List ε} (h : AtEvents P history)
    {e : ε} (he : e ∈ history) : ∃ before after, history = before ++ e :: after ∧ P before e := by
  obtain ⟨before, after, hd⟩ := List.append_of_mem he
  exact ⟨before, after, hd, h _ _ _ hd⟩

/-! ## The order of two entries -/

/-- `a` stands before `b`, one entry later. -/
theorem pair_sublist_append_singleton {α : Type} {a b c : α} {l : List α} :
    [a, b].Sublist (l ++ [c]) ↔ [a, b].Sublist l ∨ b = c ∧ a ∈ l := by
  constructor
  · intro h
    rw [List.sublist_append_iff] at h
    obtain ⟨l₁, l₂, hcat, h₁, h₂⟩ := h
    rcases List.sublist_singleton.mp h₂ with rfl | rfl
    · rw [List.append_nil] at hcat
      exact Or.inl (hcat ▸ h₁)
    · obtain ⟨rfl, hbc⟩ := List.append_inj' (show [a] ++ [b] = l₁ ++ [c] from hcat) rfl
      exact Or.inr ⟨by simpa using hbc, List.singleton_sublist.mp h₁⟩
  · rintro (h | ⟨rfl, ha⟩)
    · exact h.trans (List.sublist_append_left l [c])
    · exact (List.singleton_sublist.mpr ha).append (List.Sublist.refl [b])

/-- The later of two entries is in the first part or in the second. -/
theorem pair_sublist_append {α : Type} {a b : α} {l l' : List α}
    (h : [a, b].Sublist (l ++ l')) : [a, b].Sublist l ∨ b ∈ l' := by
  induction l' using List.reverseRec with
  | nil => exact Or.inl (by simpa using h)
  | append_singleton rest c ih =>
      rw [← List.append_assoc, pair_sublist_append_singleton] at h
      rcases h with h | ⟨rfl, -⟩
      · rcases ih h with h | h
        · exact Or.inl h
        · exact Or.inr (List.mem_append_left _ h)
      · exact Or.inr (by simp)

/-- Of two different entries one stands before the other. -/
theorem pair_sublist_or {α : Type} {a b : α} {l : List α} (ha : a ∈ l) (hb : b ∈ l)
    (hab : a ≠ b) : [a, b].Sublist l ∨ [b, a].Sublist l := by
  induction l using List.reverseRec with
  | nil => simp at ha
  | append_singleton rest c ih =>
      simp only [pair_sublist_append_singleton]
      rcases List.mem_append.mp ha with ha | ha
      · rcases List.mem_append.mp hb with hb | hb
        · rcases ih ha hb with h | h
          · exact Or.inl (Or.inl h)
          · exact Or.inr (Or.inl h)
        · exact Or.inl (Or.inr ⟨by simpa using hb, ha⟩)
      · rcases List.mem_append.mp hb with hb | hb
        · exact Or.inr (Or.inr ⟨by simpa using ha, hb⟩)
        · exact absurd ((List.mem_singleton.mp ha).trans (List.mem_singleton.mp hb).symm) hab

/-- A list without repetitions has two entries in one order only. -/
theorem not_pair_sublist_swap {α : Type} {a b : α} {l : List α} (hl : l.Nodup)
    (h : [a, b].Sublist l) : ¬ [b, a].Sublist l := by
  induction l using List.reverseRec with
  | nil => simp at h
  | append_singleton rest c ih =>
      obtain ⟨hrest, -, hc⟩ := List.nodup_append.mp hl
      intro h'
      rw [pair_sublist_append_singleton] at h h'
      rcases h with h | ⟨rfl, ha⟩
      · rcases h' with h' | ⟨rfl, hb⟩
        · exact ih hrest h h'
        · exact hc a (h.subset (by simp)) a (by simp) rfl
      · rcases h' with h' | ⟨rfl, hb⟩
        · exact hc b (h'.subset (by simp)) b (by simp) rfl
        · exact hc a ha a (by simp) rfl

/-- What stands before an entry of a list without repetitions is in front of it. -/
theorem mem_of_pair_sublist {α : Type} {a b : α} {pre post : List α}
    (hl : (pre ++ b :: post).Nodup) (h : [a, b].Sublist (pre ++ b :: post)) : a ∈ pre := by
  induction pre with
  | nil =>
      have hb : b ∉ post := (List.nodup_cons.mp hl).1
      rcases List.sublist_cons_iff.mp h with h | ⟨r, hr, h⟩
      · exact absurd (h.subset (by simp)) hb
      · obtain ⟨-, rfl⟩ := List.cons.inj hr
        exact absurd (List.singleton_sublist.mp h) hb
  | cons x rest ih =>
      rcases List.sublist_cons_iff.mp h with h | ⟨r, hr, -⟩
      · exact List.mem_cons_of_mem x (ih (List.nodup_cons.mp hl).2 h)
      · rw [(List.cons.inj hr).1]
        exact List.mem_cons_self

/-! ## Ledgers of families -/

/-- The sum over the parties when one of them moves. -/
theorem sum_update {n : Nat} {β M : Type} [AddCommMonoid M] (g : Fin n → β) (F : β → M)
    (p : Fin n) (x : β) :
    ∑ q, F (Function.update g p x q) + F (g p) = ∑ q, F (g q) + F x := by
  have hold := Finset.add_sum_erase Finset.univ (fun q => F (g q)) (Finset.mem_univ p)
  have hnew := Finset.add_sum_erase Finset.univ (fun q => F (Function.update g p x q))
    (Finset.mem_univ p)
  have hrest : ∑ q ∈ Finset.univ.erase p, F (Function.update g p x q) =
      ∑ q ∈ Finset.univ.erase p, F (g q) := by
    apply Finset.sum_congr rfl
    intro q hq
    rw [Function.update_of_ne (Finset.ne_of_mem_erase hq)]
  simp only [Function.update_self] at hnew
  rw [← hold, ← hnew, hrest]
  abel

/-- If every event of kind `f` is of one of the kinds `g q`, the counts of the
kinds add up to at least the count of `f`. -/
theorem countP_le_sum {n : Nat} {f : ε → Bool} {g : Fin n → ε → Bool} {history : List ε}
    (h : ∀ e ∈ history, f e = true → ∃ q, g q e = true) :
    history.countP f ≤ ∑ q, history.countP (g q) := by
  induction history with
  | nil => simp
  | cons e rest ih =>
      have hrest := ih (fun d hd => h d (List.mem_cons_of_mem e hd))
      simp only [List.countP_cons, Finset.sum_add_distrib]
      by_cases he : f e = true
      · obtain ⟨q, hq⟩ := h e List.mem_cons_self he
        have hone : 1 ≤ ∑ q, (if g q e = true then 1 else 0) := by
          have := Finset.single_le_sum (f := fun q => if g q e = true then 1 else 0)
            (fun _ _ => Nat.zero_le _) (Finset.mem_univ q)
          simpa [hq] using this
        simp only [he, if_true]
        omega
      · simp only [he, Bool.false_eq_true, if_false]
        omega

/-- If the kinds `g q` exclude each other and are all of kind `f`, their counts
add up to at most the count of `f`. -/
theorem sum_countP_le {n : Nat} {f : ε → Bool} {g : Fin n → ε → Bool} {history : List ε}
    (h : ∀ e ∈ history, ∀ q, g q e = true → f e = true)
    (hone : ∀ e ∈ history, ∀ q r, g q e = true → g r e = true → q = r) :
    ∑ q, history.countP (g q) ≤ history.countP f := by
  induction history with
  | nil => simp
  | cons e rest ih =>
      have hrest := ih (fun d hd => h d (List.mem_cons_of_mem e hd))
        (fun d hd => hone d (List.mem_cons_of_mem e hd))
      simp only [List.countP_cons, Finset.sum_add_distrib]
      have hhead : ∑ q, (if g q e = true then 1 else 0) ≤ if f e = true then 1 else 0 := by
        by_cases hany : ∃ q, g q e = true
        · obtain ⟨q, hq⟩ := hany
          rw [if_pos (h e List.mem_cons_self q hq), Finset.sum_eq_single q]
          · rw [if_pos hq]
          · intro r _ hr
            rw [if_neg fun hrt => hr (hone e List.mem_cons_self r q hrt hq)]
          · exact fun hnot => absurd (Finset.mem_univ q) hnot
        · have hzero : ∑ q, (if g q e = true then 1 else 0) = 0 :=
            Finset.sum_eq_zero fun q _ => if_neg fun hq => hany ⟨q, hq⟩
          omega
      omega

section Kinds

variable {ι : Type} {any : ε → Bool} {own : ι → ε → Bool} {history : List ε}

/-- An event of a kind is one of someone. -/
theorem exists_countP_own (hany : ∀ e, any e = true ↔ ∃ q, own q e = true)
    (h : 0 < history.countP any) : ∃ q, 0 < history.countP (own q) := by
  obtain ⟨e, he, hkind⟩ := List.countP_pos_iff.mp h
  obtain ⟨q, hq⟩ := (hany e).mp hkind
  exact ⟨q, List.countP_pos_iff.mpr ⟨e, he, hq⟩⟩

theorem countP_own_le (hany : ∀ e, any e = true ↔ ∃ q, own q e = true) (q : ι) :
    history.countP (own q) ≤ history.countP any :=
  List.countP_mono_left fun e _ he => (hany e).mpr ⟨q, he⟩

/-- If they are all of one, that one has them all. -/
theorem countP_le_own (hany : ∀ e, any e = true ↔ ∃ q, own q e = true) {q : ι}
    (hone : ∀ r, 0 < history.countP (own r) → r = q) :
    history.countP any ≤ history.countP (own q) := by
  apply List.countP_mono_left
  intro e he hkind
  obtain ⟨r, hr⟩ := (hany e).mp hkind
  obtain rfl := hone r (List.countP_pos_iff.mpr ⟨e, he, hr⟩)
  exact hr

end Kinds

/-- One event more than the narrower kind has. -/
theorem countP_lt_of_mem {f g : ε → Bool} {history : List ε} {e : ε} (he : e ∈ history)
    (hle : ∀ d, f d = true → g d = true) (hf : f e = false) (hg : g e = true) :
    history.countP f < history.countP g := by
  obtain ⟨pre, post, rfl⟩ := List.append_of_mem he
  have hpre : pre.countP f ≤ pre.countP g := List.countP_mono_left fun d _ => hle d
  have hpost : post.countP f ≤ post.countP g := List.countP_mono_left fun d _ => hle d
  rw [List.countP_append, List.countP_append, List.countP_cons_of_neg (by simp [hf]),
    List.countP_cons_of_pos hg]
  omega

/-- Terms of at most one that add up to `n` are all one. -/
theorem eq_one_of_le_sum {n : Nat} {f : Fin n → Nat} (hle : ∀ q, f q ≤ 1)
    (hsum : n ≤ ∑ q, f q) (q : Fin n) : f q = 1 := by
  by_contra hne
  have hlt : ∑ r, f r < ∑ _r : Fin n, 1 :=
    Finset.sum_lt_sum (fun r _ => hle r) ⟨q, Finset.mem_univ q, by have := hle q; omega⟩
  simp at hlt
  omega

end History
