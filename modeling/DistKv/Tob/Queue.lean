import DistKv.Lib.BlockHeap
import DistKv.Lib.StableInsert

/-!
# The message queue of a process (`queue.c`)

`head` and `tail` are C pointers into the heap of queue nodes, and every
operation below performs the pointer reads and stores of its C counterpart in
their order. A loop carries fuel for one visit per block; `none` is a run
that dereferences NULL or a freed node, or that never leaves the loop.

`dequeue` leaves `tail` alone when it removes the head. On a queue of one
node that makes `tail` a pointer to the freed node while `head` is NULL
(`wedged`): from then on `enqueue` stores through the dangling pointer and
the new node is not reachable from `head`.
-/

namespace DistKv.Tob

open BlockHeap StableInsert

abbrev Bytes := List UInt8

/-- `struct node`, without the `next` pointer its heap block carries. `mid` is
a history variable: the position of the message among the messages issued.
No operation reads it. -/
structure Node where
  pid : Nat
  portNum : Nat
  ackFlg : Bool
  ackCount : Nat
  buffer : Bytes
  bufLen : Nat
  lc : UInt32
  uid : UInt32
  nprocs : Nat
  mid : Nat
deriving DecidableEq, Repr

/-- The node `create_node` fills in; the buffer is a copy of `bufLen` bytes. -/
def createNode (pid portNum : Nat) (ackFlg : Bool) (ackCount : Nat) (buffer : Bytes)
    (bufLen : Nat) (lc uid : UInt32) (nprocs mid : Nat) : Node :=
  { pid, portNum, ackFlg, ackCount, buffer := buffer.take bufLen, bufLen, lc, uid, nprocs, mid }

/-- `sorted` stays in front of `current` in `order_queue`: a smaller clock, or
the same clock and a pid that is not smaller. -/
def Node.staysBefore (sorted current : Node) : Prop :=
  sorted.lc < current.lc ∨ sorted.lc = current.lc ∧ current.pid ≤ sorted.pid

instance : DecidableRel Node.staysBefore := fun _ _ =>
  inferInstanceAs (Decidable (_ ∨ _))

/-- The heap of queue nodes with the two global pointers. -/
structure Queue where
  heap : Heap Node
  head : Option Nat
  tail : Option Nat
deriving DecidableEq, Repr

namespace Queue

def empty : Queue := { heap := [], head := none, tail := none }

/-- `malloc` of a node; the new block's address is `q.heap.length`. -/
def malloc (q : Queue) (node : Node) : Queue :=
  { q with heap := BlockHeap.malloc q.heap node }

/-- `enqueue(new_node)`. -/
def enqueue (q : Queue) (newNode : Nat) : Queue :=
  match q.tail with
  | none => { q with head := some newNode, tail := some newNode }
  | some t => { q with heap := setNext q.heap t (some newNode), tail := some newNode }

/-- The loop of `find_node`. -/
def findFrom (h : Heap Node) (uid : UInt32) : Nat → Option Nat → Option (Option Nat)
  | _, none => some none
  | 0, some _ => none
  | fuel + 1, some a =>
      (load h a).bind fun c =>
        if c.val.uid = uid then some (some a) else findFrom h uid fuel c.next

/-- `find_node(uid)`: the first node with the uid, or NULL. -/
def findNode (q : Queue) (uid : UInt32) : Option (Option Nat) :=
  findFrom q.heap uid q.heap.length q.head

/-- The inner loop of `order_queue`: advance `temp` while the node behind it
stays in front of `current`. -/
def scan (h : Heap Node) (current : Node) : Nat → Nat → Option Nat
  | 0, _ => none
  | fuel + 1, temp =>
      (load h temp).bind fun t =>
        match t.next with
        | none => some temp
        | some nx =>
            (load h nx).bind fun n =>
              if n.val.staysBefore current then scan h current fuel nx else some temp

/-- One turn of the outer loop of `order_queue`: thread the node at `current`
into the list that starts at `sorted`. -/
def insertSorted (h : Heap Node) (sorted : Option Nat) (current : Nat) (cur : Node) :
    Option (Heap Node × Option Nat) :=
  match sorted with
  | none => some (setNext h current none, some current)
  | some s =>
      (load h s).bind fun sn =>
        if cur.lc < sn.val.lc ∨ sn.val.lc = cur.lc ∧ sn.val.pid < cur.pid then
          some (setNext h current (some s), some current)
        else
          (scan h cur h.length s).bind fun temp =>
            (load h temp).bind fun t =>
              some (setNext (setNext h current t.next) temp (some current), some s)

/-- The outer loop of `order_queue`. -/
def orderLoop : Nat → Heap Node → Option Nat → Option Nat → Option (Heap Node × Option Nat)
  | _, h, none, sorted => some (h, sorted)
  | 0, _, some _, _ => none
  | fuel + 1, h, some current, sorted =>
      (load h current).bind fun c =>
        (insertSorted h sorted current c.val).bind fun r => orderLoop fuel r.1 c.next r.2

/-- The loop that moves `tail` to the last node. -/
def lastFrom (h : Heap Node) : Nat → Nat → Option Nat
  | 0, _ => none
  | fuel + 1, a =>
      (load h a).bind fun c =>
        match c.next with
        | none => some a
        | some nx => lastFrom h fuel nx

/-- `order_queue()`. -/
def orderQueue (q : Queue) : Option Queue :=
  match q.head with
  | none => some q
  | some a =>
      (load q.heap a).bind fun c =>
        if c.next = none then some q
        else
          (orderLoop q.heap.length q.heap q.head none).bind fun r =>
            match r.2 with
            | none => some { heap := r.1, head := none, tail := none }
            | some s =>
                (lastFrom r.1 r.1.length s).bind fun t =>
                  some { heap := r.1, head := some s, tail := some t }

/-- The search loop of `dequeue`; `(prev, temp)` when it stops. -/
def searchFrom (h : Heap Node) (uid : UInt32) :
    Nat → Option Nat → Option Nat → Option (Option Nat × Option Nat)
  | _, prev, none => some (prev, none)
  | 0, _, some _ => none
  | fuel + 1, prev, some a =>
      (load h a).bind fun c =>
        if c.val.uid = uid then some (prev, some a) else searchFrom h uid fuel (some a) c.next

/-- `dequeue(uid)`. -/
def dequeue (q : Queue) (uid : UInt32) : Option Queue :=
  match q.head with
  | none => some q
  | some temp =>
      (load q.heap temp).bind fun c =>
        if c.val.uid = uid then
          -- the head: `tail` keeps its value, even when it was this node
          some { q with heap := free q.heap temp, head := c.next }
        else
          (searchFrom q.heap uid q.heap.length none (some temp)).bind fun r =>
            match r.2 with
            | none => some q
            | some a =>
                r.1.bind fun prev =>
                  (load q.heap a).bind fun c =>
                    some { heap := free (setNext q.heap prev c.next) a
                           head := q.head
                           tail := if q.tail = some a then some prev else q.tail }

/-- Overwrite a field of the node at `a`. -/
def store (q : Queue) (a : Nat) (f : Node → Node) : Queue :=
  { q with heap := setVal q.heap a f }

/-- The nodes reachable from `head`, in order. -/
def nodes (q : Queue) : List Node := (walk q.heap q.heap.length q.head).map Prod.snd

/-- `head` is NULL but `tail` is not. -/
def wedged (q : Queue) : Bool := q.head.isNone && q.tail.isSome

end Queue

end DistKv.Tob
