import DistKv.Lib.BlockHeap
import DistKv.Lib.History
import Mathlib.Data.List.Induction

/-!
# A linked queue and the threads that wait for it

Blocks are hung behind the last one of a linked list and taken off at its front;
one pointer stands at each end, and the one at the end is reset when the list is
empty. So it holds a list of blocks across emptying and refilling (`Holds`):
hanging a block behind grows the list at its end (`Holds.first`,
`Holds.behind`), and taking one off shortens it at its front (`Holds.pop`).

Threads sleep on a condition variable, and a signal wakes one of them if there
is one (`CanWake`). What is summed up over the threads changes by that one
(`sum_wake`).
-/

namespace WorkQueue

open BlockHeap

/-! ## The list -/

section queue

variable {α : Type} {heap : Heap α} {head tail : Option Nat} {l : List (Nat × α)}

/-- The blocks `l` are linked from `head`, and `tail` is the last of them, if any. -/
structure Holds (heap : Heap α) (head tail : Option Nat) (l : List (Nat × α)) : Prop where
  chain : Chain heap head l
  tail_eq : tail = (addrs l).getLast?

theorem holds_nil : Holds ([] : Heap α) none none [] := ⟨rfl, rfl⟩

/-- What is read off the pointers is the list. -/
theorem Holds.walk_eq (h : Holds heap head tail l) :
    (walk heap heap.length head).map Prod.snd = l.map Prod.snd := by
  rw [h.chain.walk_eq h.chain.length_le]

theorem getLast?_addrs_concat (l : List (Nat × α)) (a : Nat) (v : α) :
    (addrs (l ++ [(a, v)])).getLast? = some a := by
  rw [addrs, List.map_append]
  exact List.getLast?_concat

/-- The first block of an empty list. -/
theorem Holds.first (h : Holds heap head none l) (v : α) :
    Holds (malloc heap v) (some heap.length) (some heap.length) (l ++ [(heap.length, v)]) := by
  have hnil : l = [] := List.map_eq_nil_iff.mp (List.getLast?_eq_none_iff.mp h.tail_eq.symm)
  subst hnil
  exact ⟨⟨rfl, none, load_malloc_self heap v, rfl⟩, rfl⟩

/-- `tail->next = new; tail = new` finds the last block, and appends. -/
theorem Holds.behind {t : Nat} (h : Holds heap head (some t) l) (v : α) :
    (∃ c, load (malloc heap v) t = some c) ∧
      Holds (setNext (malloc heap v) t (some heap.length)) head (some heap.length)
        (l ++ [(heap.length, v)]) := by
  cases l using List.reverseRec with
  | nil => cases h.tail_eq
  | append_singleton pre b =>
      obtain rfl : t = b.1 :=
        Option.some.inj (h.tail_eq.trans (getLast?_addrs_concat pre b.1 b.2))
      have hchain := Seg.malloc h.chain v
      obtain ⟨nx, hload⟩ := hchain.load_mem b (by simp)
      refine ⟨⟨_, hload⟩, ?_, (getLast?_addrs_concat _ _ v).symm⟩
      exact Chain.snoc hchain (load_malloc_self heap v) (Seg.length_not_mem h.chain)

/-- There is no first block. -/
theorem Holds.eq_nil (h : Holds heap none tail l) : l = [] := by
  cases l with
  | nil => rfl
  | cons b rest => cases h.chain.1

/-- `head = head->next` takes the first block off; of the last one no pointer is left. -/
theorem Holds.pop {a : Nat} (h : Holds heap (some a) tail l) :
    ∃ c rest, load heap a = some c ∧ l = (a, c.val) :: rest ∧ a ∉ addrs rest ∧
      Holds heap c.next (if c.next = none then none else tail) rest := by
  cases l with
  | nil => cases h.chain
  | cons b rest =>
      have hnodup := h.chain.nodup
      obtain ⟨hhead, nx, hload, hrest⟩ := h.chain
      obtain rfl := Option.some.inj hhead
      refine ⟨⟨b.2, nx⟩, rest, hload, rfl, (List.nodup_cons.mp hnodup).1, hrest, ?_⟩
      cases rest with
      | nil =>
          have hnx : nx = none := hrest
          exact if_pos hnx
      | cons d more =>
          have hnx : nx = some d.1 := hrest.1
          show (if nx = none then none else tail) = _
          rw [if_neg (by rw [hnx]; simp), h.tail_eq]
          exact List.getLast?_cons_cons

/-- A block that was taken off may be freed. -/
theorem Holds.free (h : Holds heap head tail l) {a : Nat} (ha : a ∉ addrs l) :
    Holds (free heap a) head tail l :=
  ⟨Seg.free h.chain ha, h.tail_eq⟩

end queue

/-! ## The threads -/

section threads

variable {n : Nat} {β : Type} {worker : Fin n → β} {sleeping woken : β} {wakes : Option (Fin n)}

/-- A signal wakes one sleeping thread, and nobody only if nobody sleeps. -/
def CanWake (worker : Fin n → β) (sleeping : β) : Option (Fin n) → Prop
  | none => ∀ w, worker w ≠ sleeping
  | some w => worker w = sleeping

instance [DecidableEq β] : Decidable (CanWake worker sleeping wakes) :=
  match wakes with
  | none => inferInstanceAs (Decidable (∀ _, _))
  | some _ => inferInstanceAs (Decidable (_ = _))

/-- The thread that was asleep is woken. -/
def wake (worker : Fin n → β) (woken : β) : Option (Fin n) → Fin n → β
  | none => worker
  | some w => Function.update worker w woken

/-- A sum over the threads changes by the thread that wakes up. -/
theorem sum_wake (h : CanWake worker sleeping wakes) (woken : β) (f : β → Nat) :
    ∑ w, f (wake worker woken wakes w) + (if wakes.isSome then f sleeping else 0) =
      ∑ w, f (worker w) + (if wakes.isSome then f woken else 0) := by
  cases wakes with
  | none => rfl
  | some w =>
      have hsum := History.sum_update worker f w woken
      rw [show worker w = sleeping from h] at hsum
      exact hsum

/-- A sum that does not tell a woken thread from a sleeping one. -/
theorem sum_wake_eq (h : CanWake worker sleeping wakes) {f : β → Nat} (hf : f woken = f sleeping) :
    ∑ w, f (wake worker woken wakes w) = ∑ w, f (worker w) := by
  have hsum := sum_wake h woken f
  rw [hf] at hsum
  exact Nat.add_right_cancel hsum

theorem sum_wake_le (h : CanWake worker sleeping wakes) (woken : β) (f : β → Nat) :
    ∑ w, f (wake worker woken wakes w) ≤ ∑ w, f (worker w) + f woken := by
  have hsum := sum_wake h woken f
  split at hsum <;> omega

end threads

end WorkQueue
