import DistKv.Lib.Linearizable
import DistKv.Lib.WorkQueue
import DistKv.Memcache.Server

/-!
# The hash threads (`hashmap.c`, `server_mt.c`)

The workers of `Server.lean` one critical section at a time. `handle_client`
hangs a node behind the last one of a linked list and signals a condition
variable; `n` threads run `hash_threads`, and what `handle_hash` does to the log
and to the table it does between the lock and the unlock of `hashmap_mutex`.
The steps in between are steps of their own here, so threads overlap wherever
the mutex lets them: a record is written and the node not yet inserted, a node
is found and the reply not yet formatted.

`dequeue_hash` leaves the queue's nodes allocated. A thread's `handle_hash`
reads its node after it was taken off the queue. It gets all the memory it asks
for; a reply that `send_message_format` writes past its buffer is not sent.

`trace` is a history variable. A request is called when it is queued, takes
effect under the mutex, and is answered by `send`.
-/

namespace DistKv.Memcache

open BlockHeap CText Linearizable Transition

variable {n : Nat}

/-! ## The queue of requests -/

/-- `node_hash_t`, without its `next`. -/
structure NodeHash where
  data : KvNode
  sockFd : Nat
deriving DecidableEq

/-- A queued node; `id` counts the requests, and no step reads it. -/
structure Job where
  id : Nat
  block : NodeHash
deriving DecidableEq

/-- The nodes of the queue, `head_hash` and `tail_hash`. -/
structure HashQueue where
  heap : Heap Job
  headHash : Option Nat
  tailHash : Option Nat

namespace HashQueue

def empty : HashQueue := { heap := [], headHash := none, tailHash := none }

/-- `enqueue_hash(tmp, sock_fd)`. -/
def enqueueHash (q : HashQueue) (b : Job) : Option HashQueue :=
  let newNode := q.heap.length
  let heap := malloc q.heap b
  match q.tailHash with
  | none => some { heap, headHash := some newNode, tailHash := some newNode }
  | some t =>
      (load heap t).bind fun _ =>
        some { heap := setNext heap t (some newNode), headHash := q.headHash
               tailHash := some newNode }

/-- `dequeue_hash()`: the node it returns, `none` for NULL. -/
def dequeueHash (q : HashQueue) : Option (Option Job × HashQueue) :=
  match q.headHash with
  | none => some (none, q)
  | some tmp =>
      (load q.heap tmp).bind fun c =>
        some (some c.val,
          { heap := q.heap, headHash := c.next
            tailHash := if c.next = none then none else q.tailHash })

/-- The nodes reachable from `head_hash`, in order. -/
def jobs (q : HashQueue) : List Job := (walk q.heap q.heap.length q.headHash).map Prod.snd

/-- The pointers form a list. -/
def WF (q : HashQueue) : Prop := ∃ l, WorkQueue.Holds q.heap q.headHash q.tailHash l

theorem empty_wf : empty.WF := ⟨[], WorkQueue.holds_nil⟩

/-- `enqueue_hash` appends. -/
theorem WF.enqueueHash {q : HashQueue} (hq : q.WF) (b : Job) :
    ∃ q', q.enqueueHash b = some q' ∧ q'.WF ∧ q'.jobs = q.jobs ++ [b] := by
  obtain ⟨heap, headHash, tailHash⟩ := q
  obtain ⟨l, h⟩ := hq
  have hjobs : (l ++ [(heap.length, b)]).map Prod.snd = jobs ⟨heap, headHash, tailHash⟩ ++ [b] := by
    rw [List.map_append, ← h.walk_eq]
    rfl
  cases tailHash with
  | none =>
      have hheld := h.first b
      exact ⟨_, rfl, ⟨_, hheld⟩, hheld.walk_eq.trans hjobs⟩
  | some t =>
      obtain ⟨⟨c, hload⟩, hheld⟩ := h.behind b
      have henq : HashQueue.enqueueHash ⟨heap, headHash, some t⟩ b = some
          ⟨setNext (malloc heap b) t (some heap.length), headHash, some heap.length⟩ := by
        simp only [HashQueue.enqueueHash, hload, Option.bind_some]
      exact ⟨_, henq, ⟨_, hheld⟩, hheld.walk_eq.trans hjobs⟩

/-- `dequeue_hash` takes the first node, or there is none. -/
theorem WF.dequeueHash {q : HashQueue} (hq : q.WF) :
    (q.jobs = [] ∧ q.dequeueHash = some (none, q)) ∨
      ∃ b q', q.dequeueHash = some (some b, q') ∧ q'.WF ∧ q.jobs = b :: q'.jobs := by
  obtain ⟨heap, headHash, tailHash⟩ := q
  obtain ⟨l, h⟩ := hq
  cases headHash with
  | none =>
      obtain rfl := h.eq_nil
      exact Or.inl ⟨h.walk_eq, rfl⟩
  | some tmp =>
      obtain ⟨c, rest, hload, rfl, -, hrest⟩ := h.pop
      have hdeq : HashQueue.dequeueHash ⟨heap, some tmp, tailHash⟩ = some (some c.val,
          ⟨heap, c.next, if c.next = none then none else tailHash⟩) := by
        simp only [HashQueue.dequeueHash, hload, Option.bind_some]
      exact Or.inr ⟨c.val, _, hdeq, ⟨rest, hrest⟩,
        h.walk_eq.trans (congrArg (c.val :: ·) hrest.walk_eq.symm)⟩

end HashQueue

/-! ## The threads -/

/-- Where a thread stands in the loop of `hash_threads`. -/
inductive HashWorker
  | checking
  | sleeping
  | woken
  /-- in `handle_hash`, in front of the mutex -/
  | handling (b : Job)
  /-- with the mutex -/
  | locked (b : Job)
  /-- a set whose record is in the log -/
  | logged (b : Job)
  /-- with `get_node`'s result, or with the node inserted; still with the mutex -/
  | served (b : Job) (found : Option KvNode)
  /-- the mutex is released -/
  | replying (b : Job) (found : Option KvNode)
  | closing (b : Job)
deriving DecidableEq

/-- The thread is between `pthread_mutex_lock(&hashmap_mutex)` and the unlock. -/
def HashWorker.inside : HashWorker → Bool
  | .locked _ | .logged _ | .served _ _ => true
  | _ => false

/-- What goes out on a socket; `none` where `send_message_format` leaves its buffer. -/
structure Sent where
  sockFd : Nat
  bytes : Option (List UInt8)
deriving DecidableEq

/-- The message `handle_hash` sends. -/
def clientMsg (b : Job) (found : Option KvNode) (heap : List UInt8) : Sent :=
  { sockFd := b.block.sockFd
    bytes :=
      if b.block.data.operFlg = 0 then
        match found with
        | none => some errGet
        | some node => sendMessageFormat node heap
      else some storedText }

/-- `hashHolder` is the thread with `hashmap_mutex`. `calls` counts the requests; only the
history variables depend on it and on `closed`, the requests whose socket was closed. -/
structure HashThreads (n : Nat) where
  queue : HashQueue
  worker : Fin n → HashWorker
  hashHolder : Option (Fin n)
  table : Table
  log : List UInt8
  calls : Nat
  closed : List Job
  trace : List (Event NodeHash Sent)

/-- The steps: `handle_client` queues a request and signals, a thread checks the
queue, a wake-up without a signal, a woken thread that takes the mutex again, and
the steps of `handle_hash`. -/
inductive HashAct (n : Nat)
  | enqueueHash (r : Request) (clientFd : Nat) (wakes : Option (Fin n))
  | check (w : Fin n)
  | spurious (w : Fin n)
  | resume (w : Fin n)
  | lock (w : Fin n)
  | logSet (w : Fin n)
  | insert (w : Fin n)
  | get (w : Fin n)
  | unlock (w : Fin n)
  | send (w : Fin n) (heap : List UInt8)
  | close (w : Fin n)
deriving DecidableEq

namespace HashThreads

/-- With what `init_hash_from_log` put into the table, and the log it read. -/
def init (n : Nat) (table : Table) (log : List UInt8) : HashThreads n :=
  { queue := .empty, worker := fun _ => .checking, hashHolder := none, table, log
    calls := 0, closed := [], trace := [] }

def set (s : HashThreads n) (w : Fin n) (x : HashWorker) : HashThreads n :=
  { s with worker := Function.update s.worker w x }

/-- `pthread_cond_signal(&hash_cond)` may wake this thread. -/
def CanWake (s : HashThreads n) (wakes : Option (Fin n)) : Prop :=
  WorkQueue.CanWake s.worker .sleeping wakes

instance (s : HashThreads n) (wakes : Option (Fin n)) : Decidable (s.CanWake wakes) :=
  inferInstanceAs (Decidable (WorkQueue.CanWake _ _ _))

def wake (s : HashThreads n) (wakes : Option (Fin n)) : HashThreads n :=
  { s with worker := WorkQueue.wake s.worker .woken wakes }

/-- `enqueue_hash(client_node, client_fd); pthread_cond_signal(&hash_cond)`. -/
def enqueueHash (s : HashThreads n) (b : NodeHash) (wakes : Option (Fin n)) :
    Option (HashThreads n) :=
  (s.queue.enqueueHash ⟨s.calls, b⟩).map fun queue =>
    { s with queue, calls := s.calls + 1, trace := s.trace ++ [Event.call s.calls b] }.wake wakes

/-- Thread `w` calls `dequeue_hash`; on NULL it goes on at `empty`. -/
def take (s : HashThreads n) (w : Fin n) (empty : HashWorker) : Option (HashThreads n) :=
  s.queue.dequeueHash.map fun (tmp, queue) =>
    match tmp with
    | none => { s with queue }.set w empty
    | some b => { s with queue }.set w (.handling b)

/-- One step; `none` where it is not enabled, and where it would fault. -/
def step (s : HashThreads n) : HashAct n → Option (HashThreads n)
  | .enqueueHash r clientFd wakes =>
      if s.CanWake wakes then s.enqueueHash ⟨r.node, clientFd⟩ wakes else none
  | .check w => if s.worker w = .checking then s.take w .sleeping else none
  | .spurious w => if s.worker w = .sleeping then some (s.set w .woken) else none
  | .resume w => if s.worker w = .woken then s.take w .checking else none
  | .lock w =>
      match s.worker w with
      | .handling b =>
          if s.hashHolder = none then
            some ({ s with hashHolder := some w }.set w (.locked b))
          else none
      | _ => none
  | .logSet w =>
      match s.worker w with
      | .locked b =>
          if b.block.data.operFlg = 1 then
            some ({ s with log := s.log ++ logRecord b.block.data }.set w (.logged b))
          else none
      | _ => none
  | .insert w =>
      match s.worker w with
      | .logged b =>
          some ({ s with
            table := s.table.insertNode b.block.data
            trace := s.trace ++ [Event.commit b.id b.block] }.set w (.served b none))
      | _ => none
  | .get w =>
      match s.worker w with
      | .locked b =>
          if b.block.data.operFlg = 0 then
            some ({ s with trace := s.trace ++ [Event.commit b.id b.block] }.set w
              (.served b (s.table.getNode b.block.data.key)))
          else none
      | _ => none
  | .unlock w =>
      match s.worker w with
      | .served b found => some ({ s with hashHolder := none }.set w (.replying b found))
      | _ => none
  | .send w heap =>
      match s.worker w with
      | .replying b found =>
          if (clientMsg b found heap).bytes.isSome then
            some ({ s with trace := s.trace ++ [Event.answer b.id (clientMsg b found heap)] }.set w
              (.closing b))
          else none
      | _ => none
  | .close w =>
      match s.worker w with
      | .closing b => some ({ s with closed := s.closed ++ [b] }.set w .checking)
      | _ => none

end HashThreads

/-- The server's hashing side with `n` threads. -/
def hashThreads (n : Nat) (table : Table) (log : List UInt8) :
    System (HashThreads n) (HashAct n) :=
  { init := HashThreads.init n table log, step := HashThreads.step }

namespace HashThreads

variable {table : Table} {log : List UInt8}

/-- Everything a step can do. -/
inductive HashStep (s : HashThreads n) : HashAct n → HashThreads n → Prop
  | enqueueHash (r : Request) (clientFd : Nat) (wakes : Option (Fin n)) (queue : HashQueue) :
      s.CanWake wakes → queue.jobs = s.queue.jobs ++ [⟨s.calls, ⟨r.node, clientFd⟩⟩] →
      HashStep s (.enqueueHash r clientFd wakes)
        ({ s with
          queue, calls := s.calls + 1
          trace := s.trace ++ [Event.call s.calls (NodeHash.mk r.node clientFd)] }.wake wakes)
  | takeJob (a : HashAct n) (w : Fin n) (b : Job) (queue : HashQueue) :
      (a = .check w ∧ s.worker w = .checking ∨ a = .resume w ∧ s.worker w = .woken) →
      s.queue.jobs = b :: queue.jobs → HashStep s a ({ s with queue }.set w (.handling b))
  | findEmpty (a : HashAct n) (w : Fin n) (x : HashWorker) :
      (a = .check w ∧ s.worker w = .checking ∧ x = .sleeping ∨
        a = .resume w ∧ s.worker w = .woken ∧ x = .checking) →
      s.queue.jobs = [] → HashStep s a (s.set w x)
  | spurious (w : Fin n) : s.worker w = .sleeping → HashStep s (.spurious w) (s.set w .woken)
  | lock (w : Fin n) (b : Job) : s.worker w = .handling b → s.hashHolder = none →
      HashStep s (.lock w) ({ s with hashHolder := some w }.set w (.locked b))
  | logSet (w : Fin n) (b : Job) : s.worker w = .locked b → b.block.data.operFlg = 1 →
      HashStep s (.logSet w) ({ s with log := s.log ++ logRecord b.block.data }.set w (.logged b))
  | insert (w : Fin n) (b : Job) : s.worker w = .logged b →
      HashStep s (.insert w)
        ({ s with
          table := s.table.insertNode b.block.data
          trace := s.trace ++ [Event.commit b.id b.block] }.set w (.served b none))
  | get (w : Fin n) (b : Job) : s.worker w = .locked b → b.block.data.operFlg = 0 →
      HashStep s (.get w)
        ({ s with trace := s.trace ++ [Event.commit b.id b.block] }.set w
          (.served b (s.table.getNode b.block.data.key)))
  | unlock (w : Fin n) (b : Job) (found : Option KvNode) : s.worker w = .served b found →
      HashStep s (.unlock w) ({ s with hashHolder := none }.set w (.replying b found))
  | send (w : Fin n) (b : Job) (found : Option KvNode) (heap : List UInt8) :
      s.worker w = .replying b found → (clientMsg b found heap).bytes.isSome = true →
      HashStep s (.send w heap)
        ({ s with trace := s.trace ++ [Event.answer b.id (clientMsg b found heap)] }.set w
          (.closing b))
  | close (w : Fin n) (b : Job) : s.worker w = .closing b →
      HashStep s (.close w) ({ s with closed := s.closed ++ [b] }.set w .checking)

/-- A thread at the queue's door. -/
theorem take_spec {s : HashThreads n} (hs : s.queue.WF) (w : Fin n) (x : HashWorker) :
    (s.queue.jobs = [] ∧ s.take w x = some (s.set w x)) ∨
      ∃ b queue, queue.WF ∧ s.queue.jobs = b :: queue.jobs ∧
        s.take w x = some ({ s with queue }.set w (.handling b)) := by
  unfold take
  rcases hs.dequeueHash with ⟨hjobs, hdeq⟩ | ⟨b, queue, hdeq, hwf, hjobs⟩
  · exact Or.inl ⟨hjobs, by rw [hdeq, Option.map_some]⟩
  · exact Or.inr ⟨b, queue, hwf, hjobs, by rw [hdeq, Option.map_some]⟩

/-- The pointers stay a list, and a step does what `HashStep` says. -/
theorem step_spec {s s' : HashThreads n} {a : HashAct n} (hs : s.queue.WF)
    (h : s.step a = some s') : HashStep s a s' ∧ s'.queue.WF := by
  cases a with
  | enqueueHash r clientFd wakes =>
      rw [step, Option.ite_none_right_eq_some] at h
      obtain ⟨hwake, h⟩ := h
      obtain ⟨queue, henq, hwf, hjobs⟩ := hs.enqueueHash ⟨s.calls, ⟨r.node, clientFd⟩⟩
      rw [enqueueHash, henq] at h
      obtain rfl := Option.some.inj h
      refine ⟨.enqueueHash r clientFd wakes queue hwake hjobs, ?_⟩
      cases wakes <;> exact hwf
  | check w =>
      rw [step, Option.ite_none_right_eq_some] at h
      obtain ⟨hw, h⟩ := h
      rcases take_spec hs w .sleeping with ⟨hjobs, ht⟩ | ⟨b, queue, hwf, hjobs, ht⟩
      · obtain rfl := Option.some.inj (ht.symm.trans h)
        exact ⟨.findEmpty _ w _ (Or.inl ⟨rfl, hw, rfl⟩) hjobs, hs⟩
      · obtain rfl := Option.some.inj (ht.symm.trans h)
        exact ⟨.takeJob _ w b queue (Or.inl ⟨rfl, hw⟩) hjobs, hwf⟩
  | resume w =>
      rw [step, Option.ite_none_right_eq_some] at h
      obtain ⟨hw, h⟩ := h
      rcases take_spec hs w .checking with ⟨hjobs, ht⟩ | ⟨b, queue, hwf, hjobs, ht⟩
      · obtain rfl := Option.some.inj (ht.symm.trans h)
        exact ⟨.findEmpty _ w _ (Or.inr ⟨rfl, hw, rfl⟩) hjobs, hs⟩
      · obtain rfl := Option.some.inj (ht.symm.trans h)
        exact ⟨.takeJob _ w b queue (Or.inr ⟨rfl, hw⟩) hjobs, hwf⟩
  | spurious w =>
      rw [step, Option.ite_none_right_eq_some] at h
      obtain rfl := Option.some.inj h.2
      exact ⟨.spurious w h.1, hs⟩
  | lock w =>
      cases hw : s.worker w with
      | handling b =>
          simp only [step, hw, Option.ite_none_right_eq_some] at h
          obtain rfl := Option.some.inj h.2
          exact ⟨.lock w b hw h.1, hs⟩
      | _ => simp [step, hw] at h
  | logSet w =>
      cases hw : s.worker w with
      | locked b =>
          simp only [step, hw, Option.ite_none_right_eq_some] at h
          obtain rfl := Option.some.inj h.2
          exact ⟨.logSet w b hw h.1, hs⟩
      | _ => simp [step, hw] at h
  | insert w =>
      cases hw : s.worker w with
      | logged b =>
          simp only [step, hw] at h
          obtain rfl := Option.some.inj h
          exact ⟨.insert w b hw, hs⟩
      | _ => simp [step, hw] at h
  | get w =>
      cases hw : s.worker w with
      | locked b =>
          simp only [step, hw, Option.ite_none_right_eq_some] at h
          obtain rfl := Option.some.inj h.2
          exact ⟨.get w b hw h.1, hs⟩
      | _ => simp [step, hw] at h
  | unlock w =>
      cases hw : s.worker w with
      | served b found =>
          simp only [step, hw] at h
          obtain rfl := Option.some.inj h
          exact ⟨.unlock w b found hw, hs⟩
      | _ => simp [step, hw] at h
  | send w heap =>
      cases hw : s.worker w with
      | replying b found =>
          simp only [step, hw, Option.ite_none_right_eq_some] at h
          obtain rfl := Option.some.inj h.2
          exact ⟨.send w b found heap hw h.1, hs⟩
      | _ => simp [step, hw] at h
  | close w =>
      cases hw : s.worker w with
      | closing b =>
          simp only [step, hw] at h
          obtain rfl := Option.some.inj h
          exact ⟨.close w b hw, hs⟩
      | _ => simp [step, hw] at h

theorem reachable_wf {s : HashThreads n} (h : (hashThreads n table log).Reachable s) : s.queue.WF :=
  System.ReachableVia.invariant (P := fun s => s.queue.WF) HashQueue.empty_wf
    (fun _ _ _ _ hs hstep _ => (step_spec hs hstep).2) s h

/-- What every `HashStep` keeps holds in every reachable state. -/
theorem invariant {P : HashThreads n → Prop} (init : P (init n table log))
    (step : ∀ s a s', s.queue.WF → P s → HashStep s a s' → P s') {s : HashThreads n}
    (h : (hashThreads n table log).Reachable s) : P s :=
  System.ReachableVia.invariant init
    (fun _ _ _ hs hP hstep _ =>
      step _ _ _ (reachable_wf hs) hP (step_spec (reachable_wf hs) hstep).1)
    s h

/-- Calls come from requests. -/
theorem call_of_step {s s' : HashThreads n} {a : HashAct n} (h : HashStep s a s') {i : Nat}
    {b : NodeHash} (hb : Event.call i b ∈ s'.trace) : Event.call i b ∈ s.trace ∨
      ∃ r fd wakes, a = .enqueueHash r fd wakes ∧ b = ⟨r.node, fd⟩ := by
  cases h with
  | enqueueHash r clientFd wakes queue hwake hjobs =>
      have hmem : Event.call i b ∈
          s.trace ++ [Event.call s.calls (NodeHash.mk r.node clientFd)] := by
        cases wakes <;> exact hb
      rcases List.mem_append.mp hmem with hmem | hmem
      · exact Or.inl hmem
      · obtain ⟨-, rfl⟩ := Event.call.inj (List.mem_singleton.mp hmem)
        exact Or.inr ⟨r, clientFd, wakes, rfl, rfl⟩
  | insert w c hw =>
      rcases List.mem_append.mp hb with hmem | hmem
      · exact Or.inl hmem
      · cases List.mem_singleton.mp hmem
  | get w c hw hget =>
      rcases List.mem_append.mp hb with hmem | hmem
      · exact Or.inl hmem
      · cases List.mem_singleton.mp hmem
  | send w c found heap hw =>
      rcases List.mem_append.mp hb with hmem | hmem
      · exact Or.inl hmem
      · cases List.mem_singleton.mp hmem
  | _ => exact Or.inl hb

/-! ## The mutex -/

@[simp] theorem worker_set_self (s : HashThreads n) (w : Fin n) (x : HashWorker) :
    (s.set w x).worker w = x :=
  Function.update_self ..

theorem worker_set_ne {s : HashThreads n} {w v : Fin n} {x : HashWorker} (h : v ≠ w) :
    (s.set w x).worker v = s.worker v :=
  Function.update_of_ne h ..

/-- What holds of all threads after one of them moved: it holds of the mover where it is
now, and of the others where they were. -/
theorem forall_worker_set {s : HashThreads n} {w : Fin n} {x : HashWorker}
    {p : Fin n → HashWorker → Prop} (hx : p w x) (h : ∀ v, v ≠ w → p v (s.worker v)) (v : Fin n) :
    p v ((s.set w x).worker v) :=
  (Function.forall_update_iff s.worker p).mpr ⟨hx, h⟩ v

/-- The holder of `hashmap_mutex` is between lock and unlock, and nobody else is. -/
def Exclusive (s : HashThreads n) : Prop :=
  ∀ w, (s.worker w).inside = true ↔ s.hashHolder = some w

/-- A thread moves on its side of the mutex. -/
theorem Exclusive.set {s : HashThreads n} (h : s.Exclusive) {w : Fin n} {x : HashWorker}
    (hx : x.inside = (s.worker w).inside) : (s.set w x).Exclusive := by
  refine forall_worker_set (p := fun v y => y.inside = true ↔ s.hashHolder = some v) ?_ ?_
  · rw [hx]
    exact h w
  · intro v _
    exact h v

theorem Exclusive.step {s s' : HashThreads n} {a : HashAct n} (h : s.Exclusive)
    (hstep : HashStep s a s') : s'.Exclusive := by
  cases hstep with
  | enqueueHash r clientFd wakes queue hwake hjobs =>
      cases wakes with
      | none => exact h
      | some w =>
          have hw : s.worker w = .sleeping := hwake
          exact Exclusive.set (s := { s with queue, calls := _, trace := _ }) h (by rw [hw]; rfl)
  | takeJob _ w b queue hw hjobs =>
      refine Exclusive.set (s := { s with queue }) h ?_
      rcases hw with ⟨-, hw⟩ | ⟨-, hw⟩ <;> rw [hw] <;> rfl
  | findEmpty _ w x hw hjobs =>
      refine h.set ?_
      rcases hw with ⟨-, hw, rfl⟩ | ⟨-, hw, rfl⟩ <;> rw [hw] <;> rfl
  | spurious w hw => exact h.set (by rw [hw]; rfl)
  | lock w b hw hfree =>
      refine forall_worker_set (p := fun v y => y.inside = true ↔ some w = some v) ?_ ?_
      · exact iff_of_true rfl rfl
      · intro v hvw
        have hout : ¬ (s.worker v).inside = true := by
          rw [h v, hfree]
          exact (Option.some_ne_none v).symm
        exact iff_of_false hout fun hv => hvw (Option.some.inj hv).symm
  | logSet w b hw hset => exact Exclusive.set (s := { s with log := _ }) h (by rw [hw]; rfl)
  | insert w b hw =>
      exact Exclusive.set (s := { s with table := _, trace := _ }) h (by rw [hw]; rfl)
  | get w b hw hget => exact Exclusive.set (s := { s with trace := _ }) h (by rw [hw]; rfl)
  | unlock w b found hw =>
      have hholder : s.hashHolder = some w := (h w).mp (by rw [hw]; rfl)
      refine forall_worker_set (p := fun v y => y.inside = true ↔ none = some v) ?_ ?_
      · exact iff_of_false (by simp [HashWorker.inside]) (Option.some_ne_none w).symm
      · intro v hvw
        have hout : ¬ (s.worker v).inside = true := by
          rw [h v, hholder]
          exact fun hv => hvw (Option.some.inj hv).symm
        exact iff_of_false hout (Option.some_ne_none v).symm
  | send w b found heap hw => exact Exclusive.set (s := { s with trace := _ }) h (by rw [hw]; rfl)
  | close w b hw => exact Exclusive.set (s := { s with closed := _ }) h (by rw [hw]; rfl)

theorem reachable_exclusive {s : HashThreads n} (h : (hashThreads n table log).Reachable s) :
    s.Exclusive :=
  invariant (fun w => iff_of_false (by simp [init, HashWorker.inside]) (Option.some_ne_none w).symm)
    (fun _ _ _ _ hs hstep => hs.step hstep) h

/-- Only sets are logged. -/
def Flagged (s : HashThreads n) : Prop :=
  ∀ w b, s.worker w = .logged b → b.block.data.operFlg = 1

theorem Flagged.move {s s' : HashThreads n} (h : s.Flagged) {w : Fin n} {x : HashWorker}
    (hworker : s'.worker = (s.set w x).worker)
    (hx : ∀ b, x = .logged b → b.block.data.operFlg = 1) : s'.Flagged := by
  unfold Flagged
  rw [hworker]
  exact forall_worker_set (p := fun _ y => ∀ b, y = .logged b → b.block.data.operFlg = 1) hx
    fun v _ => h v

theorem Flagged.step {s s' : HashThreads n} {a : HashAct n} (h : s.Flagged)
    (hstep : HashStep s a s') : s'.Flagged := by
  cases hstep with
  | enqueueHash r clientFd wakes queue hwake hjobs =>
      cases wakes with
      | none => exact h
      | some w => exact h.move (w := w) (x := .woken) rfl (by simp)
  | takeJob _ w b queue hw hjobs => exact h.move (w := w) (x := .handling b) rfl (by simp)
  | findEmpty _ w x hw hjobs =>
      refine h.move (w := w) (x := x) rfl ?_
      rcases hw with ⟨-, -, rfl⟩ | ⟨-, -, rfl⟩ <;> simp
  | spurious w hw => exact h.move (w := w) (x := .woken) rfl (by simp)
  | lock w b hw hfree => exact h.move (w := w) (x := .locked b) rfl (by simp)
  | logSet w b hw hset =>
      refine h.move (w := w) (x := .logged b) rfl fun c hc => ?_
      obtain rfl := HashWorker.logged.inj hc
      exact hset
  | insert w b hw => exact h.move (w := w) (x := .served b none) rfl (by simp)
  | get w b hw hget => exact h.move (w := w) (x := .served b _) rfl (by simp)
  | unlock w b found hw => exact h.move (w := w) (x := .replying b found) rfl (by simp)
  | send w b found heap hw => exact h.move (w := w) (x := .closing b) rfl (by simp)
  | close w b hw => exact h.move (w := w) (x := .checking) rfl (by simp)

theorem reachable_flagged {s : HashThreads n} (h : (hashThreads n table log).Reachable s) :
    s.Flagged :=
  invariant (fun w b hw => by cases hw) (fun _ _ _ _ hs hstep => hs.step hstep) h

end HashThreads

end DistKv.Memcache
