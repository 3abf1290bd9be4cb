import Mathlib.Data.List.Induction
import Mathlib.Data.List.Sort

/-!
# Insertion from the left, behind equals

The list-level content of an insertion sort that takes the elements from
front to back and puts each one behind everything that may stay in front of
it: `le b a` reads "`b` may stay in front of `a`". For a total preorder the
result is sorted, elements that are equal under `le` keep their order, and a
list that is sorted already comes back unchanged.
-/

namespace StableInsert

variable {α : Type} (le : α → α → Prop) [DecidableRel le]

/-- Insert `a` behind every leading element that may stay in front of it. -/
def insertBehind (a : α) (l : List α) : List α :=
  l.orderedInsert (fun x y => ¬ le y x) a

/-- Insert the elements of `l` from front to back. -/
def stableSort (l : List α) : List α :=
  l.foldl (fun done a => insertBehind le a done) []

variable {le}

@[simp] theorem insertBehind_nil (a : α) : insertBehind le a [] = [a] := rfl

theorem insertBehind_cons (a b : α) (l : List α) :
    insertBehind le a (b :: l) =
      if le b a then b :: insertBehind le a l else a :: b :: l := by
  unfold insertBehind
  rw [List.orderedInsert_cons]
  by_cases h : le b a
  · simp [h]
  · simp [h]

theorem insertBehind_of_le {a b : α} (l : List α) (h : le b a) :
    insertBehind le a (b :: l) = b :: insertBehind le a l := by
  rw [insertBehind_cons, if_pos h]

theorem insertBehind_of_not_le {a b : α} (l : List α) (h : ¬ le b a) :
    insertBehind le a (b :: l) = a :: b :: l := by
  rw [insertBehind_cons, if_neg h]

/-- Insertion adds one element and changes no other. -/
theorem perm_insertBehind (le : α → α → Prop) [DecidableRel le] (a : α) (l : List α) :
    (insertBehind le a l).Perm (a :: l) :=
  List.perm_orderedInsert _ a l

@[simp] theorem mem_insertBehind {a b : α} {l : List α} :
    b ∈ insertBehind le a l ↔ b = a ∨ b ∈ l := by
  rw [(perm_insertBehind le a l).mem_iff, List.mem_cons]

/-- An element that everything may precede goes to the end. -/
theorem insertBehind_eq_append {a : α} {l : List α} (h : ∀ b ∈ l, le b a) :
    insertBehind le a l = l ++ [a] := by
  induction l with
  | nil => rfl
  | cons b rest ih =>
      rw [insertBehind_of_le rest (h b List.mem_cons_self),
        ih (fun c hc => h c (List.mem_cons_of_mem _ hc))]
      rfl

/-- Insertion keeps a sorted list sorted. -/
theorem pairwise_insertBehind (total : ∀ x y, le x y ∨ le y x)
    (trans : ∀ x y z, le x y → le y z → le x z) (a : α) {l : List α}
    (hl : l.Pairwise le) : (insertBehind le a l).Pairwise le := by
  induction l with
  | nil => simp
  | cons b rest ih =>
      obtain ⟨hb, hrest⟩ := List.pairwise_cons.mp hl
      by_cases hba : le b a
      · rw [insertBehind_of_le rest hba]
        refine List.pairwise_cons.mpr ⟨fun c hc => ?_, ih hrest⟩
        rcases mem_insertBehind.mp hc with rfl | hc
        · exact hba
        · exact hb c hc
      · have hab : le a b := (total a b).resolve_right hba
        rw [insertBehind_of_not_le rest hba]
        refine List.pairwise_cons.mpr ⟨fun c hc => ?_, hl⟩
        rcases List.mem_cons.mp hc with rfl | hc
        · exact hab
        · exact trans a b c hab (hb c hc)

/-- Insertion commutes with a map that reflects the order. -/
theorem map_insertBehind {β : Type} {le' : β → β → Prop} [DecidableRel le'] (f : α → β)
    (hf : ∀ x y, le' (f x) (f y) ↔ le x y) (a : α) (l : List α) :
    (insertBehind le a l).map f = insertBehind le' (f a) (l.map f) := by
  induction l with
  | nil => rfl
  | cons b rest ih =>
      rw [List.map_cons, insertBehind_cons, insertBehind_cons]
      by_cases h : le b a
      · rw [if_pos h, if_pos ((hf b a).mpr h), List.map_cons, ih]
      · rw [if_neg h, if_neg (fun h' => h ((hf b a).mp h')), List.map_cons, List.map_cons]

/-! ## The whole sort -/

@[simp] theorem stableSort_nil : stableSort le [] = [] := rfl

/-- The last element is inserted into the sorted rest. -/
theorem stableSort_append_singleton (l : List α) (a : α) :
    stableSort le (l ++ [a]) = insertBehind le a (stableSort le l) := by
  simp [stableSort, List.foldl_append]

/-- Sorting commutes with a map that reflects the order. -/
theorem map_stableSort {β : Type} {le' : β → β → Prop} [DecidableRel le'] (f : α → β)
    (hf : ∀ x y, le' (f x) (f y) ↔ le x y) (l : List α) :
    (stableSort le l).map f = stableSort le' (l.map f) := by
  induction l using List.reverseRec with
  | nil => rfl
  | append_singleton rest a ih =>
      rw [stableSort_append_singleton, map_insertBehind f hf, ih, List.map_append,
        List.map_singleton, stableSort_append_singleton]

/-- Sorting permutes. -/
theorem perm_stableSort (le : α → α → Prop) [DecidableRel le] (l : List α) :
    (stableSort le l).Perm l := by
  induction l using List.reverseRec with
  | nil => exact List.Perm.refl _
  | append_singleton rest a ih =>
      rw [stableSort_append_singleton]
      exact ((perm_insertBehind le a _).trans (ih.cons a)).trans
        (List.perm_append_singleton a rest).symm

/-- Sorting sorts. -/
theorem pairwise_stableSort (total : ∀ x y, le x y ∨ le y x)
    (trans : ∀ x y z, le x y → le y z → le x z) (l : List α) :
    (stableSort le l).Pairwise le := by
  induction l using List.reverseRec with
  | nil => exact List.Pairwise.nil
  | append_singleton rest a ih =>
      rw [stableSort_append_singleton]
      exact pairwise_insertBehind total trans a ih

/-- Insertion puts `a` behind the elements it is equal to, and moves no other. -/
theorem filter_insertBehind (trans : ∀ x y z, le x y → le y z → le x z) {p : α → Bool}
    (hp : ∀ x y, p x = true → p y = true → le x y) (a : α) {l : List α} (hl : l.Pairwise le) :
    (insertBehind le a l).filter p = (l ++ [a]).filter p := by
  induction l with
  | nil => rfl
  | cons b rest ih =>
      obtain ⟨hb, hrest⟩ := List.pairwise_cons.mp hl
      by_cases hba : le b a
      · rw [insertBehind_of_le rest hba, List.cons_append, List.filter_cons, List.filter_cons,
          ih hrest]
      · rw [insertBehind_of_not_le rest hba]
        by_cases hpa : p a = true
        · -- no element of the class is left: each would have to stay in front of `a`
          have hnone : (b :: rest).filter p = [] := by
            rw [List.filter_eq_nil_iff]
            intro c hc hpc
            have hca : le c a := hp c a hpc hpa
            rcases List.mem_cons.mp hc with rfl | hc
            · exact hba hca
            · exact hba (trans b c a (hb c hc) hca)
          rw [List.filter_append, hnone, List.filter_cons_of_pos hpa, hnone]
          simp [hpa]
        · rw [List.filter_append, List.filter_cons_of_neg hpa]
          simp [hpa]

/-- **Stability.** The elements of a class whose members are all equal under
`le` come out in the order they went in. -/
theorem filter_stableSort (total : ∀ x y, le x y ∨ le y x)
    (trans : ∀ x y z, le x y → le y z → le x z) {p : α → Bool}
    (hp : ∀ x y, p x = true → p y = true → le x y) (l : List α) :
    (stableSort le l).filter p = l.filter p := by
  induction l using List.reverseRec with
  | nil => rfl
  | append_singleton rest a ih =>
      rw [stableSort_append_singleton,
        filter_insertBehind trans hp a (pairwise_stableSort total trans rest),
        List.filter_append, List.filter_append, ih]

/-- A sorted list comes back unchanged. -/
theorem stableSort_of_pairwise {l : List α} (hl : l.Pairwise le) : stableSort le l = l := by
  induction l using List.reverseRec with
  | nil => rfl
  | append_singleton rest a ih =>
      obtain ⟨hrest, _, hlast⟩ := List.pairwise_append.mp hl
      rw [stableSort_append_singleton, ih hrest,
        insertBehind_eq_append (fun b hb => hlast b hb a (List.mem_singleton_self a))]

end StableInsert
