import DistKv.Lib.WorkQueue

/-!
# The queue of accepted connections (`threadqueue.c`)

`head` and `tail` point into the heap of queue nodes. `none` is a run that
dereferences NULL or a freed node. Unlike the message queue of the middleware,
`dequeue` resets `tail` when it empties the queue, so the linked list is a FIFO
across emptying and refilling: `Holds q l` is kept by every call, with `l` grown
at its end by `enqueue` and shortened at its front by `dequeue`.
-/

namespace DistKv.Memcache

open BlockHeap

/-- The heap of nodes, each with its `client_fd`, and the two global pointers. -/
structure ThreadQueue where
  heap : Heap Nat
  head : Option Nat
  tail : Option Nat
deriving DecidableEq, Repr

namespace ThreadQueue

def empty : ThreadQueue := { heap := [], head := none, tail := none }

/-- `enqueue(client_fd)`. -/
def enqueue (q : ThreadQueue) (clientFd : Nat) : Option ThreadQueue :=
  let newNode := q.heap.length
  let heap := malloc q.heap clientFd
  match q.tail with
  | none => some { heap, head := some newNode, tail := some newNode }
  | some t =>
      (load heap t).bind fun _ =>
        some { heap := setNext heap t (some newNode), head := q.head, tail := some newNode }

/-- `dequeue()`: the descriptor it returns, `none` for NULL. -/
def dequeue (q : ThreadQueue) : Option (Option Nat × ThreadQueue) :=
  match q.head with
  | none => some (none, q)
  | some temp =>
      (load q.heap temp).bind fun c =>
        some (some c.val,
          { heap := free q.heap temp
            head := c.next
            tail := if c.next = none then none else q.tail })

/-- The descriptors reachable from `head`, in order. -/
def fds (q : ThreadQueue) : List Nat := (walk q.heap q.heap.length q.head).map Prod.snd

/-- The blocks `l` are linked from `head`, and `tail` is the last of them, if any. -/
def Holds (q : ThreadQueue) (l : List (Nat × Nat)) : Prop := WorkQueue.Holds q.heap q.head q.tail l

theorem empty_holds : empty.Holds [] := WorkQueue.holds_nil

theorem Holds.fds_eq {q : ThreadQueue} {l : List (Nat × Nat)} (h : q.Holds l) :
    q.fds = l.map Prod.snd :=
  h.walk_eq

/-- `enqueue` appends. -/
theorem Holds.enqueue {q : ThreadQueue} {l : List (Nat × Nat)} (h : q.Holds l) (fd : Nat) :
    ∃ q', q.enqueue fd = some q' ∧ q'.Holds (l ++ [(q.heap.length, fd)]) := by
  obtain ⟨heap, head, tail⟩ := q
  cases tail with
  | none => exact ⟨_, rfl, h.first fd⟩
  | some t =>
      obtain ⟨⟨c, hload⟩, hheld⟩ := h.behind fd
      have henq : ThreadQueue.enqueue ⟨heap, head, some t⟩ fd = some
          ⟨setNext (malloc heap fd) t (some heap.length), head, some heap.length⟩ := by
        simp only [ThreadQueue.enqueue, hload, Option.bind_some]
      exact ⟨_, henq, hheld⟩

/-- `dequeue` of an empty queue returns NULL. -/
theorem Holds.dequeue_nil {q : ThreadQueue} (h : q.Holds []) : q.dequeue = some (none, q) := by
  have hhead : q.head = none := h.chain
  rw [ThreadQueue.dequeue, hhead]

/-- `dequeue` takes the first block; of the last one it leaves no pointer behind. -/
theorem Holds.dequeue_cons {q : ThreadQueue} {a fd : Nat} {l : List (Nat × Nat)}
    (h : q.Holds ((a, fd) :: l)) :
    ∃ q', q.dequeue = some (some fd, q') ∧ q'.Holds l := by
  obtain ⟨heap, head, tail⟩ := q
  obtain rfl : head = some a := h.chain.1
  obtain ⟨c, rest, hload, heq, hout, hrest⟩ := WorkQueue.Holds.pop h
  obtain ⟨hcell, rfl⟩ := List.cons.inj heq
  obtain rfl : fd = c.val := (Prod.mk.inj hcell).2
  have hdeq : ThreadQueue.dequeue ⟨heap, some a, tail⟩ = some (some c.val,
      ⟨free heap a, c.next, if c.next = none then none else tail⟩) := by
    simp only [ThreadQueue.dequeue, hload, Option.bind_some]
  exact ⟨_, hdeq, hrest.free hout⟩

end ThreadQueue

end DistKv.Memcache
