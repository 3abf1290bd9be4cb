import DistKv.Tob.QueueSpec

/-!
# `order_queue` on any nodes

`order_queue` (`queue.c`) reads two fields of a node: the unsigned clock `lc`
and the signed `pid`. Here a node is any record with these two fields, so the
result covers every clock and every `pid_t`, and says of all other fields that
they keep their values: the blocks of the sorted list are blocks of the old
one, with their whole payload. The queue of the middleware is the case of
`Node`, whose process ids are not negative (`Queue.ends_orderQueue_eq`).
-/

namespace DistKv.Tob

open BlockHeap ChainSort StableInsert

namespace OrderQueue

variable {α : Type} (lc : α → UInt32) (pid : α → Int)

/-- The test at the head of `order_queue`: `current` goes in front of the
sorted list when its clock is smaller, or when the clocks are the same and its
pid is larger. -/
def goesFirst (current sorted : α) : Prop :=
  lc sorted > lc current ∨ lc sorted = lc current ∧ pid sorted < pid current

/-- The test of the search loop: the walk passes `next` when its clock is
smaller, or when the clocks are the same and its pid is not smaller. -/
def passes (next current : α) : Prop :=
  lc next < lc current ∨ lc next = lc current ∧ pid next ≥ pid current

instance : DecidableRel (goesFirst lc pid) := fun _ _ => inferInstanceAs (Decidable (_ ∨ _))

instance : DecidableRel (passes lc pid) := fun _ _ => inferInstanceAs (Decidable (_ ∨ _))

/-- `order_queue()` on the nodes between `head` and `tail`. -/
def orderQueue (q : Ends α) : Option (Ends α) := order (goesFirst lc pid) (passes lc pid) q

variable {lc pid}

/-- The two tests are each other's negation: ties pass in the loop and do not
go first. -/
theorem goesFirst_iff (current sorted : α) :
    goesFirst lc pid current sorted ↔ ¬ passes lc pid sorted current := by
  simp only [goesFirst, passes, gt_iff_lt, ge_iff_le, UInt32.lt_iff_toNat_lt, ← UInt32.toNat_inj]
  omega

theorem passes_total (x y : Nat × α) :
    onBlocks (passes lc pid) x y ∨ onBlocks (passes lc pid) y x := by
  simp only [onBlocks, passes, UInt32.lt_iff_toNat_lt, ← UInt32.toNat_inj]
  omega

theorem passes_trans (x y z : Nat × α) (hxy : onBlocks (passes lc pid) x y)
    (hyz : onBlocks (passes lc pid) y z) : onBlocks (passes lc pid) x z := by
  simp only [onBlocks, passes, UInt32.lt_iff_toNat_lt, ← UInt32.toNat_inj] at *
  omega

/-- Nodes with the same clock and pid pass each other. -/
theorem passes_of_eq {x y : α} {c : UInt32} {p : Int} (hx : lc x = c ∧ pid x = p)
    (hy : lc y = c ∧ pid y = p) : passes lc pid x y := by
  refine Or.inr ⟨hx.1.trans hy.1.symm, ?_⟩
  rw [hx.2, hy.2]

variable (lc pid)

/-- **`order_queue` is a stable sort.** On every NULL-terminated queue it
returns, `head` then starts a list of the same nodes by ascending clock and,
among equal clocks, descending pid, and `tail` is its last node. Nodes with
the same clock and pid keep their order, no field but `next` changes, and
nothing outside the queue does. -/
theorem order_queue_stable {q : Ends α} {l : List (Nat × α)} (hq : q.Holds l) :
    ∃ q' l', orderQueue lc pid q = some q' ∧ q'.Holds l' ∧ l'.Perm l ∧
      l'.Pairwise (fun x y => lc x.2 < lc y.2 ∨ lc x.2 = lc y.2 ∧ pid y.2 ≤ pid x.2) ∧
      (∀ c p, l'.filter (fun b => lc b.2 = c ∧ pid b.2 = p) =
        l.filter (fun b => lc b.2 = c ∧ pid b.2 = p)) ∧
      ∀ b, b ∉ addrs l → load q'.heap b = load q.heap b := by
  have htests : ∀ current sorted, goesFirst lc pid current sorted ↔
      ¬ passes lc pid sorted current := goesFirst_iff
  obtain ⟨q', hq', hholds, -, hframe⟩ := hq.order htests
  refine ⟨q', stableSort (onBlocks (passes lc pid)) l, hq', hholds, perm_stableSort _ l,
    pairwise_stableSort passes_total passes_trans l, fun c p => ?_, hframe⟩
  refine filter_stableSort passes_total passes_trans (fun x y hx hy => ?_) l
  exact passes_of_eq (of_decide_eq_true hx) (of_decide_eq_true hy)

/-- Three nodes between which clocks and pids tie, a negative pid among them. -/
theorem order_queue_stable_ties :
    let q : Ends (UInt32 × Int × String) :=
      { heap := [some ⟨(2, -1, "a"), some 2⟩, some ⟨(2, -1, "c"), none⟩,
          some ⟨(2, 5, "b"), some 1⟩]
        head := some 0, tail := some 1 }
    let l := [(0, (2, -1, "a")), (2, (2, 5, "b")), (1, (2, -1, "c"))]
    ∃ q' l', orderQueue Prod.fst (fun x => x.2.1) q = some q' ∧ q'.Holds l' ∧ l'.Perm l ∧
      l'.Pairwise (fun x y => x.2.1 < y.2.1 ∨ x.2.1 = y.2.1 ∧ y.2.2.1 ≤ x.2.2.1) ∧
      (∀ c p, l'.filter (fun b => b.2.1 = c ∧ b.2.2.1 = p) =
        l.filter (fun b => b.2.1 = c ∧ b.2.2.1 = p)) ∧
      ∀ b, b ∉ addrs l → load q'.heap b = load q.heap b := by
  refine order_queue_stable Prod.fst (fun x : UInt32 × Int × String => x.2.1) ⟨?_, ?_⟩
  · exact ⟨rfl, some 2, rfl, rfl, some 1, rfl, rfl, none, rfl, rfl⟩
  · simp

end OrderQueue

/-- The middleware's `order_queue` is the one above on its own nodes. -/
theorem Queue.ends_orderQueue_eq (q : Queue) :
    q.orderQueue.map Queue.ends =
      OrderQueue.orderQueue Node.lc (fun x => (x.pid : Int)) q.ends := by
  have hfirst : Queue.goesFirst = OrderQueue.goesFirst Node.lc (fun x => (x.pid : Int)) := by
    funext current sorted
    simp only [Queue.goesFirst, OrderQueue.goesFirst, gt_iff_lt, Int.ofNat_lt]
  have hpass : Node.staysBefore = OrderQueue.passes Node.lc (fun x => (x.pid : Int)) := by
    funext next current
    simp only [Node.staysBefore, OrderQueue.passes, ge_iff_le, Int.ofNat_le]
  rw [Queue.ends_orderQueue, OrderQueue.orderQueue]
  congr!

end DistKv.Tob
