import DistKv.Lib.History
import DistKv.Lib.Transition
import DistKv.Memcache.ThreadQueue

/-!
# The accept loop and the connection threads (`server_mt.c`)

The accept loop appends every connection to the thread queue and signals the
condition variable; `n` threads run `client_threads`. A thread is about to lock
the mutex and check the queue, or asleep in `pthread_cond_wait`, or woken and
about to take the mutex again and `dequeue` once, or inside `handle_client`.
Every section under the mutex is one step. A signal wakes a sleeping thread, if
there is one; threads beyond that one, and threads nobody signalled, wake by
`spurious`.

A wake-up can be stolen: a thread that has not slept takes the connection and
the woken one finds the queue empty and starts over. No wake-up is lost all the
same (`Stocked`): while a thread sleeps, every queued connection has a thread
that is awake and has yet to `dequeue`.
-/

namespace DistKv.Memcache

open Transition

variable {n : Nat}

/-- Where a thread stands in the loop of `client_threads`. -/
inductive Worker
  | checking
  | sleeping
  | woken
  | handling (clientSock : Nat)
deriving DecidableEq, Repr

/-- Awake, and its next step calls `dequeue`. -/
def Worker.willCheck (w : Worker) : Prop := w = .checking ∨ w = .woken

instance : DecidablePred Worker.willCheck := fun _ => inferInstanceAs (Decidable (_ ∨ _))

/-- `accepted` are the connections in the order they were enqueued, `handed` those
taken out for `handle_client` in the order they were dequeued; no step reads them. -/
structure Pool (n : Nat) where
  queue : ThreadQueue
  worker : Fin n → Worker
  accepted : List Nat
  handed : List Nat

/-- The steps: the accept loop with the thread its signal wakes, a thread that
checks the queue, a wake-up without a signal, a woken thread that takes the mutex
again, and the return of `handle_client`. -/
inductive PoolAct (n : Nat)
  | accept (clientFd : Nat) (wakes : Option (Fin n))
  | check (w : Fin n)
  | spurious (w : Fin n)
  | resume (w : Fin n)
  | finish (w : Fin n)
deriving DecidableEq

namespace Pool

def init (n : Nat) : Pool n :=
  { queue := .empty, worker := fun _ => .checking, accepted := [], handed := [] }

def set (s : Pool n) (w : Fin n) (x : Worker) : Pool n :=
  { s with worker := Function.update s.worker w x }

/-- `pthread_cond_signal(&client_cond)` may wake this thread. -/
def CanWake (s : Pool n) (wakes : Option (Fin n)) : Prop :=
  WorkQueue.CanWake s.worker .sleeping wakes

instance (s : Pool n) (wakes : Option (Fin n)) : Decidable (s.CanWake wakes) :=
  inferInstanceAs (Decidable (WorkQueue.CanWake _ _ _))

def wake (s : Pool n) (wakes : Option (Fin n)) : Pool n :=
  { s with worker := WorkQueue.wake s.worker .woken wakes }

/-- `enqueue(client_ptr); pthread_cond_signal(&client_cond)`. -/
def accept (s : Pool n) (clientFd : Nat) (wakes : Option (Fin n)) : Option (Pool n) :=
  (s.queue.enqueue clientFd).map fun queue =>
    { s with queue, accepted := s.accepted ++ [clientFd] }.wake wakes

/-- Thread `w` calls `dequeue`; on NULL it goes on at `empty`. -/
def take (s : Pool n) (w : Fin n) (empty : Worker) : Option (Pool n) :=
  s.queue.dequeue.map fun (clientSock, queue) =>
    match clientSock with
    | none => { s with queue }.set w empty
    | some fd => { s with queue, handed := s.handed ++ [fd] }.set w (.handling fd)

/-- One step; `none` where it is not enabled, and where it would fault. -/
def step (s : Pool n) : PoolAct n → Option (Pool n)
  | .accept clientFd wakes => if s.CanWake wakes then s.accept clientFd wakes else none
  | .check w => if s.worker w = .checking then s.take w .sleeping else none
  | .spurious w => if s.worker w = .sleeping then some (s.set w .woken) else none
  | .resume w => if s.worker w = .woken then s.take w .checking else none
  | .finish w =>
      match s.worker w with
      | .handling _ => some (s.set w .checking)
      | _ => none

end Pool

/-- The server's connection side with `n` threads. -/
def connPool (n : Nat) : System (Pool n) (PoolAct n) := { init := Pool.init n, step := Pool.step }

namespace Pool

/-- How many threads are awake and have yet to `dequeue`. -/
def awake (s : Pool n) : Nat := (Finset.univ.filter fun w => (s.worker w).willCheck).card

/-- While a thread sleeps, every queued connection has a thread that will take it. -/
def Stocked (s : Pool n) : Prop :=
  (∃ w, s.worker w = .sleeping) → s.queue.fds.length ≤ s.awake

/-- The invariant: the pointer queue is a list, nothing is lost, nothing stranded. -/
structure Inv (s : Pool n) : Prop where
  queue : ∃ l, s.queue.Holds l
  order : s.handed ++ s.queue.fds = s.accepted
  stocked : s.Stocked

/-- The count when one thread moves. -/
theorem awake_set (s : Pool n) (w : Fin n) (x : Worker) :
    (s.set w x).awake + (if (s.worker w).willCheck then 1 else 0) =
      s.awake + (if x.willCheck then 1 else 0) := by
  unfold awake
  rw [Finset.card_filter, Finset.card_filter]
  exact History.sum_update s.worker (fun y => if y.willCheck then 1 else 0) w x

/-- A thread that sleeps after another one moved slept before. -/
theorem sleeping_of_set {s : Pool n} {w v : Fin n} {x : Worker} (hx : x ≠ .sleeping)
    (h : (s.set w x).worker v = .sleeping) : s.worker v = .sleeping := by
  by_cases hvw : v = w
  · subst hvw
    exact absurd (by simpa [set] using h) hx
  · simpa [set, hvw] using h

/-- A thread moves and the queue stays: enough threads are awake as long as the
mover did not leave the queue's door. -/
theorem Stocked.set {s : Pool n} (h : s.Stocked) {w : Fin n} {x : Worker}
    (hx : x.willCheck) : (s.set w x).Stocked := by
  rintro ⟨v, hv⟩
  have hne : x ≠ .sleeping := by
    rintro rfl
    exact absurd hx (by decide)
  have hqueue := h ⟨v, sleeping_of_set hne hv⟩
  have hcount := awake_set s w x
  rw [if_pos hx] at hcount
  have hle : (if (s.worker w).willCheck then 1 else 0) ≤ 1 := by split <;> omega
  show s.queue.fds.length ≤ _
  omega

theorem Inv.set {s : Pool n} (h : s.Inv) {w : Fin n} {x : Worker} (hx : x.willCheck) :
    (s.set w x).Inv :=
  ⟨h.queue, h.order, h.stocked.set hx⟩

/-- The accept loop adds a connection and an awake thread, or there is no sleeper. -/
theorem Inv.accept {s s' : Pool n} (h : s.Inv) {fd : Nat} {wakes : Option (Fin n)}
    (hwake : s.CanWake wakes) (hs' : s.accept fd wakes = some s') : s'.Inv := by
  obtain ⟨l, hl⟩ := h.queue
  obtain ⟨q', hq', hl'⟩ := hl.enqueue fd
  have hfds : q'.fds = s.queue.fds ++ [fd] := by
    rw [hl'.fds_eq, hl.fds_eq, List.map_append]
    rfl
  have horder : s.handed ++ q'.fds = s.accepted ++ [fd] := by
    rw [hfds, ← List.append_assoc, h.order]
  rw [Pool.accept, hq'] at hs'
  obtain rfl := Option.some.inj hs'
  cases wakes with
  | none =>
      refine ⟨⟨_, hl'⟩, horder, ?_⟩
      rintro ⟨v, hv⟩
      exact absurd hv (hwake v)
  | some w =>
      refine ⟨⟨_, hl'⟩, horder, ?_⟩
      rintro -
      have hqueue := h.stocked ⟨w, hwake⟩
      have hcount := awake_set s w .woken
      rw [if_neg (by rw [hwake]; decide), if_pos (by decide)] at hcount
      show q'.fds.length ≤ (s.set w .woken).awake
      rw [hfds, List.length_append, List.length_singleton]
      omega

/-- A thread at the queue's door takes the first connection, or finds none. -/
theorem Inv.take {s s' : Pool n} (h : s.Inv) {w : Fin n} (hw : (s.worker w).willCheck)
    {x : Worker} (hs' : s.take w x = some s') : s'.Inv := by
  obtain ⟨l, hl⟩ := h.queue
  cases l with
  | nil =>
      rw [Pool.take, hl.dequeue_nil] at hs'
      obtain rfl := Option.some.inj hs'
      refine ⟨h.queue, h.order, ?_⟩
      rintro -
      -- an empty queue needs nobody
      show s.queue.fds.length ≤ _
      rw [hl.fds_eq]
      exact Nat.zero_le _
  | cons b rest =>
      obtain ⟨q', hq', hrest⟩ := hl.dequeue_cons
      have hfds : s.queue.fds = b.2 :: q'.fds := by
        rw [hl.fds_eq, hrest.fds_eq]
        rfl
      rw [Pool.take, hq'] at hs'
      obtain rfl := Option.some.inj hs'
      refine ⟨⟨rest, hrest⟩, ?_, ?_⟩
      · show (s.handed ++ [b.2]) ++ q'.fds = s.accepted
        rw [← h.order, hfds, List.append_assoc]
        rfl
      · rintro ⟨v, hv⟩
        have hqueue := h.stocked ⟨v, sleeping_of_set (s := s) (by simp) hv⟩
        have hcount := awake_set s w (.handling b.2)
        rw [if_pos hw, if_neg (by simp [Worker.willCheck])] at hcount
        show q'.fds.length ≤ (s.set w (.handling b.2)).awake
        rw [hfds, List.length_cons] at hqueue
        omega

theorem init_inv (n : Nat) : (init n).Inv := by
  refine ⟨⟨[], ThreadQueue.empty_holds⟩, rfl, ?_⟩
  rintro ⟨w, hw⟩
  cases hw

/-- Every step keeps the invariant. -/
theorem Inv.step {s s' : Pool n} (h : s.Inv) {a : PoolAct n} (hstep : s.step a = some s') :
    s'.Inv := by
  cases a with
  | accept fd wakes =>
      rw [Pool.step, Option.ite_none_right_eq_some] at hstep
      exact h.accept hstep.1 hstep.2
  | check w =>
      rw [Pool.step, Option.ite_none_right_eq_some] at hstep
      exact h.take (Or.inl hstep.1) hstep.2
  | spurious w =>
      rw [Pool.step, Option.ite_none_right_eq_some] at hstep
      obtain rfl := Option.some.inj hstep.2
      exact h.set (Or.inr rfl)
  | resume w =>
      rw [Pool.step, Option.ite_none_right_eq_some] at hstep
      exact h.take (Or.inr hstep.1) hstep.2
  | finish w =>
      rw [Pool.step] at hstep
      split at hstep
      · obtain rfl := Option.some.inj hstep
        exact h.set (Or.inl rfl)
      · cases hstep

theorem Inv.of_reachable {s : Pool n} (h : (connPool n).Reachable s) : s.Inv :=
  System.ReachableVia.invariant (P := Inv) (init_inv n)
    (fun _ _ _ _ hinv hstep _ => hinv.step hstep) s h

/-- Sleeping threads leave an empty queue behind. -/
theorem fds_of_sleeping {s : Pool n} (hs : s.Inv) (hn : 0 < n)
    (hsleep : ∀ w, s.worker w = .sleeping) : s.queue.fds = [] := by
  have hawake : s.awake = 0 := by
    rw [awake, Finset.card_eq_zero, Finset.filter_eq_empty_iff]
    intro w _
    rw [hsleep w]
    decide
  have hstocked := hs.stocked ⟨⟨0, hn⟩, hsleep _⟩
  rw [hawake] at hstocked
  exact List.eq_nil_of_length_eq_zero (Nat.le_zero.mp hstocked)

/-- Everything a step can do. -/
inductive PoolStep (s : Pool n) : PoolAct n → Pool n → Prop
  | accept (fd : Nat) (wakes : Option (Fin n)) (queue : ThreadQueue) : s.CanWake wakes →
      queue.fds = s.queue.fds ++ [fd] →
      PoolStep s (.accept fd wakes)
        ({ s with queue, accepted := s.accepted ++ [fd] }.wake wakes)
  | takeFd (a : PoolAct n) (w : Fin n) (fd : Nat) (queue : ThreadQueue) :
      (a = .check w ∧ s.worker w = .checking ∨ a = .resume w ∧ s.worker w = .woken) →
      s.queue.fds = fd :: queue.fds →
      PoolStep s a ({ s with queue, handed := s.handed ++ [fd] }.set w (.handling fd))
  | findEmpty (a : PoolAct n) (w : Fin n) (x : Worker) :
      (a = .check w ∧ s.worker w = .checking ∧ x = .sleeping ∨
        a = .resume w ∧ s.worker w = .woken ∧ x = .checking) →
      s.queue.fds = [] → PoolStep s a (s.set w x)
  | spurious (w : Fin n) : s.worker w = .sleeping → PoolStep s (.spurious w) (s.set w .woken)
  | finish (w : Fin n) (fd : Nat) : s.worker w = .handling fd →
      PoolStep s (.finish w) (s.set w .checking)

/-- A thread at the queue's door. -/
theorem take_spec {s : Pool n} (hs : s.Inv) (w : Fin n) (x : Worker) :
    (s.queue.fds = [] ∧ s.take w x = some (s.set w x)) ∨
      ∃ fd queue, s.queue.fds = fd :: queue.fds ∧
        s.take w x = some ({ s with queue, handed := s.handed ++ [fd] }.set w (.handling fd)) := by
  obtain ⟨l, hl⟩ := hs.queue
  unfold take
  cases l with
  | nil => exact Or.inl ⟨hl.fds_eq, by rw [hl.dequeue_nil, Option.map_some]⟩
  | cons b rest =>
      obtain ⟨queue, hdeq, hrest⟩ := hl.dequeue_cons
      refine Or.inr ⟨b.2, queue, ?_, by rw [hdeq, Option.map_some]⟩
      rw [hl.fds_eq, hrest.fds_eq]
      rfl

theorem step_spec {s s' : Pool n} {a : PoolAct n} (hs : s.Inv) (h : s.step a = some s') :
    PoolStep s a s' := by
  cases a with
  | accept fd wakes =>
      rw [step, Option.ite_none_right_eq_some] at h
      obtain ⟨l, hl⟩ := hs.queue
      obtain ⟨queue, henq, hl'⟩ := hl.enqueue fd
      rw [accept, henq] at h
      obtain rfl := Option.some.inj h.2
      refine .accept fd wakes queue h.1 ?_
      rw [hl'.fds_eq, hl.fds_eq, List.map_append]
      rfl
  | check w =>
      rw [step, Option.ite_none_right_eq_some] at h
      rcases take_spec hs w .sleeping with ⟨hfds, ht⟩ | ⟨fd, queue, hfds, ht⟩
      · obtain rfl := Option.some.inj (ht.symm.trans h.2)
        exact .findEmpty _ w _ (Or.inl ⟨rfl, h.1, rfl⟩) hfds
      · obtain rfl := Option.some.inj (ht.symm.trans h.2)
        exact .takeFd _ w fd queue (Or.inl ⟨rfl, h.1⟩) hfds
  | resume w =>
      rw [step, Option.ite_none_right_eq_some] at h
      rcases take_spec hs w .checking with ⟨hfds, ht⟩ | ⟨fd, queue, hfds, ht⟩
      · obtain rfl := Option.some.inj (ht.symm.trans h.2)
        exact .findEmpty _ w _ (Or.inr ⟨rfl, h.1, rfl⟩) hfds
      · obtain rfl := Option.some.inj (ht.symm.trans h.2)
        exact .takeFd _ w fd queue (Or.inr ⟨rfl, h.1⟩) hfds
  | spurious w =>
      rw [step, Option.ite_none_right_eq_some] at h
      obtain rfl := Option.some.inj h.2
      exact .spurious w h.1
  | finish w =>
      cases hw : s.worker w with
      | handling fd =>
          simp only [step, hw] at h
          obtain rfl := Option.some.inj h
          exact .finish w fd hw
      | _ => simp [step, hw] at h

end Pool

/-- **No connection is lost, duplicated or stranded.** What was handed to
`handle_client`, followed by what is queued, is what was enqueued; while a thread
sleeps there are no more connections queued than threads awake to take them; and no
access to the queue faults. -/
theorem handed_then_queued {s : Pool n} (h : (connPool n).Reachable s) :
    s.handed ++ s.queue.fds = s.accepted ∧
      ((∃ w, s.worker w = .sleeping) →
        s.queue.fds.length ≤
          (Finset.univ.filter fun w => s.worker w = .checking ∨ s.worker w = .woken).card) ∧
      s.queue.dequeue.isSome = true ∧ ∀ fd, (s.queue.enqueue fd).isSome = true := by
  have hinv := Pool.Inv.of_reachable h
  obtain ⟨l, hl⟩ := hinv.queue
  refine ⟨hinv.order, hinv.stocked, ?_, fun fd => ?_⟩
  · cases l with
    | nil => rw [hl.dequeue_nil]; rfl
    | cons b rest =>
        obtain ⟨q', hq', -⟩ := hl.dequeue_cons
        rw [hq']
        rfl
  · obtain ⟨q', hq', -⟩ := hl.enqueue fd
    rw [hq']
    rfl

/-- Two threads: the first goes to sleep and is woken for connection 7, which the
second takes before it; 8 and 9 arrive while the first finds the queue empty. -/
def stolenWakeup : List (PoolAct 2) :=
  let first : Fin 2 := ⟨0, by decide⟩
  let second : Fin 2 := ⟨1, by decide⟩
  [.check first, .accept 7 (some first), .check second, .resume first, .check first,
    .accept 8 (some first), .accept 9 none, .finish second, .check second]

theorem stolenWakeup_handed : ((connPool 2).endOf stolenWakeup).handed = [7, 8] ∧
    ((connPool 2).endOf stolenWakeup).queue.fds = [9] ∧
    ((connPool 2).endOf stolenWakeup).accepted = [7, 8, 9] :=
  ⟨by decide, by decide, (handed_then_queued (System.endOf_reachable stolenWakeup)).1.symm.trans
    (by decide)⟩

end DistKv.Memcache
