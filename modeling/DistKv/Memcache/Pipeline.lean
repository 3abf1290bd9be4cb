import DistKv.Memcache.Client
import DistKv.Memcache.HashLedger
import DistKv.Memcache.ParseBody

/-!
# From accept to close (`server_mt.c`)

The two pools of threads as they stand in the server: a thread of the first one
runs `handle_client` on its connection, and what it reads goes to the queue of the
second one. A connection whose request is not read goes no further.

Each pool runs as it does alone (`reachable_parts`), and an accepted connection is
always at exactly one place (`Ledger`): in the first queue, in a thread, returned
from, or with the hash threads. A rank over both pools bounds their runs, and where
nothing is left to do every connection is returned from, or answered and closed, if
sizes have at most thirteen digits (`connections_end`).
-/

namespace DistKv.Memcache

open History Transition

variable {c n : Nat} {table : Table} {log : List UInt8}

/-! ## The connection threads -/

/-- The step of a connection thread when `handle_client` returns. -/
def PoolAct.isFinish : PoolAct n → Bool
  | .finish _ => true
  | _ => false

/-- A step of the connection threads themselves. -/
def PoolAct.Inner : PoolAct n → Prop
  | .accept .. | .spurious _ => False
  | _ => True

/-- What the steps of a thread still cost, with those of the hash threads for it. -/
def Worker.rank : Worker → Nat
  | .sleeping => 0
  | .checking => 1
  | .woken => 2
  | .handling _ => 11

namespace Pool

/-- How many threads are in `handle_client` with the descriptor. -/
def handlers (s : Pool n) (fd : Nat) : Nat := ∑ w, if s.worker w = .handling fd then 1 else 0

theorem handlers_set (s : Pool n) (w : Fin n) (x : Worker) (fd : Nat) :
    (s.set w x).handlers fd + (if s.worker w = .handling fd then 1 else 0) =
      s.handlers fd + (if x = .handling fd then 1 else 0) :=
  sum_update s.worker (fun y => if y = .handling fd then 1 else 0) w x

/-- A thread moves, and neither takes a connection nor is done with one. -/
theorem handlers_move (s : Pool n) {w : Fin n} {x : Worker} (hw : ∀ fd, s.worker w ≠ .handling fd)
    (hx : ∀ fd, x ≠ .handling fd) (fd : Nat) : (s.set w x).handlers fd = s.handlers fd := by
  have hset := handlers_set s w x fd
  rw [if_neg (hw fd), if_neg (hx fd)] at hset
  exact hset

/-- The connections of the pool: those in the queue and those in a thread. -/
def held (s : Pool n) (fd : Nat) : Nat := s.queue.fds.count fd + s.handlers fd

/-- Until `handle_client` returns, a connection is in the pool. -/
theorem held_step {s s' : Pool n} {a : PoolAct n} (h : PoolStep s a s')
    (ha : a.isFinish = false) (fd : Nat) :
    s'.held fd + s.accepted.count fd = s.held fd + s'.accepted.count fd := by
  unfold held
  cases h with
  | accept clientFd wakes queue hwake hfds =>
      have hqueue : queue.fds.count fd = s.queue.fds.count fd + [clientFd].count fd := by
        rw [hfds, List.count_append]
      have hwoken : (s.wake wakes).handlers fd = s.handlers fd :=
        WorkQueue.sum_wake_eq hwake (f := fun y => if y = .handling fd then 1 else 0) rfl
      show queue.fds.count fd + (s.wake wakes).handlers fd + _ =
        _ + (s.accepted ++ [clientFd]).count fd
      rw [hwoken, List.count_append]
      omega
  | takeFd _ w clientFd queue hw hfds =>
      have hqueue : s.queue.fds.count fd = queue.fds.count fd + [clientFd].count fd := by
        rw [hfds, ← List.singleton_append, List.count_append, Nat.add_comm]
      have hset := handlers_set s w (.handling clientFd) fd
      have hnot : s.worker w ≠ .handling fd := by
        rcases hw with ⟨-, hw⟩ | ⟨-, hw⟩ <;> rw [hw] <;> simp
      have hone : [clientFd].count fd =
          if Worker.handling clientFd = .handling fd then 1 else 0 := by
        simp [List.count_singleton]
      rw [if_neg hnot, ← hone] at hset
      show queue.fds.count fd + (s.set w (.handling clientFd)).handlers fd + s.accepted.count fd =
        s.queue.fds.count fd + s.handlers fd + s.accepted.count fd
      omega
  | findEmpty _ w x hw hfds =>
      have hmove := handlers_move s (w := w) (x := x)
        (by rcases hw with ⟨-, hw, -⟩ | ⟨-, hw, -⟩ <;> simp [hw])
        (by rcases hw with ⟨-, -, rfl⟩ | ⟨-, -, rfl⟩ <;> simp) fd
      rw [hmove]
      rfl
  | spurious w hw =>
      have hmove := handlers_move s (w := w) (x := .woken) (by simp [hw]) (by simp) fd
      rw [hmove]
      rfl
  | finish w fd hw => cases ha

/-- What the connections in the pool can still cost. -/
def rank (s : Pool n) : Nat := ∑ w, (s.worker w).rank + 11 * s.queue.fds.length

/-- A thread moves: what counts is the thread and the queue. -/
theorem rank_move {s s' : Pool n} {w : Fin n} {x : Worker} {k : Nat}
    (hworker : s'.worker = (s.set w x).worker)
    (hk : x.rank + 11 * s'.queue.fds.length + 1 ≤
      (s.worker w).rank + 11 * s.queue.fds.length + k) : s'.rank + 1 ≤ s.rank + k := by
  have hsum := sum_update s.worker Worker.rank w x
  change ∑ v, ((s.set w x).worker v).rank + (s.worker w).rank = _ at hsum
  unfold rank
  rw [hworker]
  omega

/-- What a step from outside adds to the rank. -/
def gain : PoolAct n → Nat
  | .accept .. => 14
  | .spurious _ => 3
  | _ => 0

theorem rank_step {s s' : Pool n} {a : PoolAct n} (h : PoolStep s a s')
    (ha : a.isFinish = false) : s'.rank + 1 ≤ s.rank + gain a := by
  cases h with
  | accept fd wakes queue hwake hfds =>
      have hlen : queue.fds.length = s.queue.fds.length + 1 := by
        rw [hfds, List.length_append, List.length_singleton]
      have hwoken : ∑ w, (WorkQueue.wake s.worker .woken wakes w).rank ≤
          ∑ w, (s.worker w).rank + 2 := WorkQueue.sum_wake_le hwake .woken Worker.rank
      show ∑ w, (WorkQueue.wake s.worker .woken wakes w).rank + 11 * queue.fds.length + 1 ≤
        s.rank + 14
      unfold rank
      omega
  | takeFd _ w fd queue hw hfds =>
      have hlen : s.queue.fds.length = queue.fds.length + 1 := by
        rw [hfds, List.length_cons]
      have hdoor : 1 ≤ (s.worker w).rank := by
        rcases hw with ⟨-, hw⟩ | ⟨-, hw⟩ <;> rw [hw] <;> decide
      refine rank_move (w := w) (x := .handling fd) rfl ?_
      show 11 + 11 * queue.fds.length + 1 ≤ _
      omega
  | findEmpty _ w x hw hfds =>
      have hless : x.rank + 1 ≤ (s.worker w).rank := by
        rcases hw with ⟨-, hw, rfl⟩ | ⟨-, hw, rfl⟩ <;> rw [hw] <;> decide
      refine rank_move rfl ?_
      show x.rank + 11 * s.queue.fds.length + 1 ≤ _
      omega
  | spurious w hw =>
      refine rank_move (w := w) (x := .woken) rfl ?_
      show 2 + 11 * s.queue.fds.length + 1 ≤ (s.worker w).rank + 11 * s.queue.fds.length + 3
      omega
  | finish w fd hw => cases ha

/-- `handle_client` has returned: one connection less, and what it can still cost. -/
theorem finish_spec {s s' : Pool n} {w : Fin n} {clientFd : Nat}
    (hw : s.worker w = .handling clientFd) (h : s.step (.finish w) = some s') :
    s'.accepted = s.accepted ∧ s'.rank + 10 = s.rank ∧
      ∀ fd, s'.held fd + [clientFd].count fd = s.held fd := by
  simp only [step, hw] at h
  obtain rfl := Option.some.inj h
  refine ⟨rfl, ?_, fun fd => ?_⟩
  · have hsum := sum_update s.worker Worker.rank w .checking
    rw [hw] at hsum
    change ∑ v, ((s.set w .checking).worker v).rank + 11 = ∑ v, (s.worker v).rank + 1 at hsum
    show ∑ v, ((s.set w .checking).worker v).rank + 11 * s.queue.fds.length + 10 = s.rank
    unfold rank
    omega
  · have hset := handlers_set s w .checking fd
    have hone : [clientFd].count fd = if s.worker w = .handling fd then 1 else 0 := by
      simp [List.count_singleton, hw]
    rw [← hone, if_neg (by simp)] at hset
    show s.queue.fds.count fd + (s.set w .checking).handlers fd + _ =
      s.queue.fds.count fd + s.handlers fd
    omega

end Pool

/-! ## The sockets of the hash threads -/

/-- The request of the thread is on the descriptor. -/
def HashWorker.on (x : HashWorker) (fd : Nat) : Bool :=
  x.job.any fun b => b.block.sockFd = fd

namespace HashThreads

/-- The connections with the hash threads: queued, in a thread, or closed. -/
def sockets (s : HashThreads n) (fd : Nat) : Nat :=
  s.queue.jobs.countP (fun b => b.block.sockFd = fd) +
    (∑ w, if (s.worker w).on fd then 1 else 0) + s.closed.countP fun b => b.block.sockFd = fd

/-- A thread moves, and what it gives up is in the queue or closed afterwards. -/
theorem sockets_move {s s' : HashThreads n} {w : Fin n} {x : HashWorker} {fd k : Nat}
    (hworker : s'.worker = (s.set w x).worker)
    (hk : s'.queue.jobs.countP (fun b => b.block.sockFd = fd) + (if x.on fd then 1 else 0) +
        s'.closed.countP (fun b => b.block.sockFd = fd) =
      s.queue.jobs.countP (fun b => b.block.sockFd = fd) +
        (if (s.worker w).on fd then 1 else 0) +
        s.closed.countP (fun b => b.block.sockFd = fd) + k) :
    s'.sockets fd = s.sockets fd + k := by
  have hsum := sum_update s.worker (fun y => if y.on fd then 1 else 0) w x
  change (∑ v, if ((s.set w x).worker v).on fd then 1 else 0) + _ = _ at hsum
  unfold sockets
  rw [hworker]
  omega

/-- The request stays where it is, or goes from the queue to the thread or from the thread
to the closed ones. -/
theorem sockets_step {s s' : HashThreads n} {a : HashAct n} (h : HashStep s a s')
    (ha : a.isCall = false) (fd : Nat) : s'.sockets fd = s.sockets fd := by
  cases h with
  | enqueueHash r clientFd wakes queue hwake hjobs => cases ha
  | takeJob _ w b queue hw hjobs =>
      refine sockets_move (w := w) (x := .handling b) (k := 0) rfl ?_
      have hout : (s.worker w).on fd = false := by
        rcases hw with ⟨-, hw⟩ | ⟨-, hw⟩ <;> rw [hw] <;> rfl
      rw [hout, hjobs]
      by_cases hfd : b.block.sockFd = fd <;>
        simp [HashWorker.on, HashWorker.job, set, hfd]
  | findEmpty _ w x hw hjobs =>
      refine sockets_move (k := 0) rfl ?_
      rcases hw with ⟨-, hw, rfl⟩ | ⟨-, hw, rfl⟩ <;> rw [hw] <;> rfl
  | spurious w hw => exact sockets_move (k := 0) (w := w) (x := .woken) rfl (by rw [hw]; rfl)
  | lock w b hw hfree =>
      exact sockets_move (k := 0) (w := w) (x := .locked b) rfl (by rw [hw]; rfl)
  | logSet w b hw hset =>
      exact sockets_move (k := 0) (w := w) (x := .logged b) rfl (by rw [hw]; rfl)
  | insert w b hw =>
      exact sockets_move (k := 0) (w := w) (x := .served b none) rfl (by rw [hw]; rfl)
  | get w b hw hget =>
      exact sockets_move (k := 0) (w := w) (x := .served b _) rfl (by rw [hw]; rfl)
  | unlock w b found hw =>
      exact sockets_move (k := 0) (w := w) (x := .replying b found) rfl (by rw [hw]; rfl)
  | send w b found heap hw =>
      exact sockets_move (k := 0) (w := w) (x := .closing b) rfl (by rw [hw]; rfl)
  | close w b hw =>
      refine sockets_move (k := 0) (w := w) (x := .checking) rfl ?_
      rw [hw]
      by_cases hfd : b.block.sockFd = fd
      · simp [HashWorker.on, HashWorker.job, set, hfd]
        omega
      · simp [HashWorker.on, HashWorker.job, set, hfd]

/-- `enqueue_hash`: one more connection. -/
theorem sockets_call {s s' : HashThreads n} (hs : s.queue.WF) {r : Request} {clientFd : Nat}
    {wakes : Option (Fin n)} (h : s.step (.enqueueHash r clientFd wakes) = some s') (fd : Nat) :
    s'.sockets fd = s.sockets fd + [clientFd].count fd := by
  have hone : [clientFd].count fd = if clientFd = fd then 1 else 0 := by
    simp [List.count_singleton]
  cases (step_spec hs h).1 with
  | takeJob _ w b queue hw hjobs => rcases hw with ⟨h, -⟩ | ⟨h, -⟩ <;> cases h
  | findEmpty _ w x hw hjobs => rcases hw with ⟨h, -⟩ | ⟨h, -⟩ <;> cases h
  | enqueueHash _ _ _ queue hwake hjobs =>
      have hcount : queue.jobs.countP (fun b => b.block.sockFd = fd) =
          s.queue.jobs.countP (fun b => b.block.sockFd = fd) + [clientFd].count fd := by
        rw [hjobs, List.countP_append, List.countP_singleton, hone]
        simp
      have hwoken : (∑ w, if (WorkQueue.wake s.worker .woken wakes w).on fd then 1 else 0) =
          ∑ w, if (s.worker w).on fd then 1 else 0 :=
        WorkQueue.sum_wake_eq hwake (f := fun y => if y.on fd then 1 else 0) rfl
      show queue.jobs.countP _ +
        (∑ w, if (WorkQueue.wake s.worker .woken wakes w).on fd then 1 else 0) +
          s.closed.countP _ = _
      rw [hwoken]
      unfold sockets
      omega

end HashThreads

/-! ## The server -/

/-- Both pools. `returned` are the descriptors that `handle_client` returned from without a
node on the queue; no step reads them. -/
structure Pipeline (c n : Nat) where
  conns : Pool c
  hash : HashThreads n
  returned : List Nat

inductive PipelineAct (c n : Nat)
  /-- the accept loop, and the connection threads up to `handle_client` -/
  | conns (a : PoolAct c)
  /-- `handle_client` in thread `w`, on what its connection brings -/
  | handleClient (w : Fin c) (conn : Conn) (wakes : Option (Fin n))
  /-- the hash threads -/
  | hash (a : HashAct n)

namespace Pipeline

def init (c n : Nat) (table : Table) (log : List UInt8) : Pipeline c n :=
  { conns := Pool.init c, hash := HashThreads.init n table log, returned := [] }

/-- One step. There is none where `handle_client` crashes or does not return, nor for a node
without its copies: a hash thread would read NULL. What `handle_hash` asks for it gets. -/
def step (s : Pipeline c n) : PipelineAct c n → Option (Pipeline c n)
  | .conns a =>
      if a.isFinish then none else (s.conns.step a).map fun conns => { s with conns }
  | .handleClient w conn wakes =>
      match s.conns.worker w with
      | .handling fd =>
          (s.conns.step (.finish w)).bind fun conns =>
            match Memcache.handleClient conn with
            | .ok (item, _) =>
                if item.keyCopied ∧ item.valueCopied ∧ s.hash.CanWake wakes then
                  (s.hash.enqueueHash ⟨item.node, fd⟩ wakes).map fun hash =>
                    { s with conns, hash }
                else none
            | .error (.returned _) => some { s with conns, returned := s.returned ++ [fd] }
            | .error .looping | .error .crashed => none
      | _ => none
  | .hash a => if a.isCall then none else (s.hash.step a).map fun hash => { s with hash }

end Pipeline

/-- `c` connection threads and `n` hash threads. -/
def pipeline (c n : Nat) (table : Table) (log : List UInt8) :
    System (Pipeline c n) (PipelineAct c n) :=
  { init := Pipeline.init c n table log, step := Pipeline.step }

namespace Pipeline

/-- Everything a step can do: a step of one pool, or of both. -/
inductive PipelineStep (s : Pipeline c n) : PipelineAct c n → Pipeline c n → Prop
  | conns (a : PoolAct c) (conns : Pool c) : a.isFinish = false → s.conns.step a = some conns →
      PipelineStep s (.conns a) { s with conns }
  | queued (w : Fin c) (conn conn' : Conn) (wakes : Option (Fin n)) (fd : Nat) (r : Request)
      (conns : Pool c) (hash : HashThreads n) :
      Memcache.handleClient conn = .ok (⟨r.node, true, true⟩, conn') →
      s.conns.worker w = .handling fd → s.conns.step (.finish w) = some conns →
      s.hash.step (.enqueueHash r fd wakes) = some hash →
      PipelineStep s (.handleClient w conn wakes) { s with conns, hash }
  | returned (w : Fin c) (conn conn' : Conn) (wakes : Option (Fin n)) (fd : Nat)
      (conns : Pool c) : Memcache.handleClient conn = .error (.returned conn') →
      s.conns.worker w = .handling fd → s.conns.step (.finish w) = some conns →
      PipelineStep s (.handleClient w conn wakes)
        { s with conns, returned := s.returned ++ [fd] }
  | hash (a : HashAct n) (hash : HashThreads n) : a.isCall = false → s.hash.step a = some hash →
      PipelineStep s (.hash a) { s with hash }

theorem step_spec {s s' : Pipeline c n} {a : PipelineAct c n} (h : s.step a = some s') :
    PipelineStep s a s' := by
  cases a with
  | conns a =>
      obtain ⟨hfinish, h⟩ := Option.ite_none_left_eq_some.mp h
      obtain ⟨conns, hstep, rfl⟩ := Option.map_eq_some_iff.mp h
      exact .conns a conns (Bool.eq_false_iff.mpr hfinish) hstep
  | handleClient w conn wakes =>
      cases hw : s.conns.worker w with
      | handling fd =>
          simp only [step, hw] at h
          obtain ⟨conns, hfinish, h⟩ := Option.bind_eq_some_iff.mp h
          cases hrun : Memcache.handleClient conn with
          | ok p =>
              obtain ⟨⟨node, keyCopied, valueCopied⟩, conn'⟩ := p
              obtain ⟨r, rfl⟩ := handleClient_request hrun
              rw [hrun] at h
              obtain ⟨⟨rfl, rfl, hwake⟩, h⟩ := Option.ite_none_right_eq_some.mp h
              obtain ⟨hash, hcall, rfl⟩ := Option.map_eq_some_iff.mp h
              exact .queued w conn conn' wakes fd r conns hash hrun hw hfinish
                (by rw [HashThreads.step, if_pos hwake, hcall])
          | error e =>
              rw [hrun] at h
              cases e with
              | returned conn' =>
                  obtain rfl := Option.some.inj h
                  exact .returned w conn conn' wakes fd conns hrun hw hfinish
              | looping => cases h
              | crashed => cases h
      | _ => simp [step, hw] at h
  | hash a =>
      obtain ⟨hcall, h⟩ := Option.ite_none_left_eq_some.mp h
      obtain ⟨hash, hstep, rfl⟩ := Option.map_eq_some_iff.mp h
      exact .hash a hash (Bool.eq_false_iff.mpr hcall) hstep

/-- **Each pool runs as it does alone.** -/
theorem reachable_parts {s : Pipeline c n} (h : (pipeline c n table log).Reachable s) :
    (connPool c).Reachable s.conns ∧ (hashThreads n table log).Reachable s.hash := by
  refine System.ReachableVia.invariant (P := fun s : Pipeline c n =>
    (connPool c).Reachable s.conns ∧ (hashThreads n table log).Reachable s.hash)
    ⟨.init, .init⟩ ?_ s h
  intro s a s' _ hs hstep _
  obtain ⟨hconns, hhash⟩ := hs
  cases step_spec hstep with
  | conns a conns hfinish hpool => exact ⟨.step hconns hpool trivial, hhash⟩
  | queued w conn conn' wakes fd r conns hash hrun hw hpool hcall =>
      have hfinish : (connPool c).step s.conns (.finish w) = some conns := hpool
      have hqueue : (hashThreads n table log).step s.hash (.enqueueHash r fd wakes) = some hash :=
        hcall
      exact ⟨.step hconns hfinish trivial, .step hhash hqueue trivial⟩
  | returned w conn conn' wakes fd conns hrun hw hpool =>
      have hfinish : (connPool c).step s.conns (.finish w) = some conns := hpool
      exact ⟨.step hconns hfinish trivial, hhash⟩
  | hash a hash hcall hhash' => exact ⟨hconns, .step hhash hhash' trivial⟩

/-! ## Replies that fit -/

end Pipeline

/-- A request that `handle_client` reads has a size of at most thirteen digits. -/
def PipelineAct.Printable : PipelineAct c n → Prop
  | .handleClient _ conn _ =>
      ∀ p ∈ (Memcache.handleClient conn).toOption, p.1.node.userSize.toNat < 10 ^ 13
  | _ => True

instance : DecidablePred (PipelineAct.Printable (c := c) (n := n)) := fun a =>
  match a with
  | .handleClient _ conn _ =>
      inferInstanceAs (Decidable (∀ p ∈ (Memcache.handleClient conn).toOption, _))
  | .conns _ | .hash _ => inferInstanceAs (Decidable True)

namespace Pipeline

theorem reachable_printable (htable : table.Printable) {s : Pipeline c n}
    (h : (pipeline c n table log).ReachableVia (fun _ a _ => a.Printable) s) :
    s.hash.Printable := by
  refine System.ReachableVia.invariant (P := fun s : Pipeline c n => s.hash.Printable) ?_ ?_ s h
  · exact HashThreads.reachable_printable htable (.init (M := hashThreads n table log))
  · intro s a s' hreach hs hstep ha
    obtain ⟨-, hhash⟩ := reachable_parts hreach.reachable
    have hknown := HashThreads.reachable_known hhash
    have hwf := HashThreads.reachable_wf hhash
    cases step_spec hstep with
    | conns a conns hfinish hpool => exact hs
    | queued w conn conn' wakes fd r conns hash hrun hw hpool hcall =>
        have hsize : r.node.userSize.toNat < 10 ^ 13 :=
          ha (⟨r.node, true, true⟩, conn') (by rw [hrun]; rfl)
        exact hs.step hknown (HashThreads.step_spec hwf hcall).1 hsize
    | returned w conn conn' wakes fd conns hrun hw hpool => exact hs
    | hash a hash hcall hhash' =>
        refine hs.step hknown (HashThreads.step_spec hwf hhash').1 ?_
        cases a <;> trivial

/-! ## Where a connection is -/

/-- Every accepted connection is in the first pool, returned from, or with the hash threads. -/
def Ledger (s : Pipeline c n) : Prop :=
  ∀ fd, s.conns.accepted.count fd =
    s.conns.held fd + s.returned.count fd + s.hash.sockets fd

theorem Ledger.step {s s' : Pipeline c n} {a : PipelineAct c n} (h : s.Ledger)
    (hpool : s.conns.Inv) (hwf : s.hash.queue.WF) (hstep : PipelineStep s a s') : s'.Ledger := by
  intro fd
  have hold := h fd
  cases hstep with
  | conns a conns hfinish hconns =>
      have hheld := Pool.held_step (Pool.step_spec hpool hconns) hfinish fd
      show conns.accepted.count fd = conns.held fd + s.returned.count fd + s.hash.sockets fd
      omega
  | queued w conn conn' wakes clientFd r conns hash hrun hw hconns hcall =>
      obtain ⟨haccepted, -, hheld⟩ := Pool.finish_spec hw hconns
      have hheld := hheld fd
      have hsockets := HashThreads.sockets_call hwf hcall fd
      show conns.accepted.count fd = conns.held fd + s.returned.count fd + hash.sockets fd
      rw [haccepted]
      omega
  | returned w conn conn' wakes clientFd conns hrun hw hconns =>
      obtain ⟨haccepted, -, hheld⟩ := Pool.finish_spec hw hconns
      have hheld := hheld fd
      show conns.accepted.count fd =
        conns.held fd + (s.returned ++ [clientFd]).count fd + s.hash.sockets fd
      rw [haccepted, List.count_append]
      omega
  | hash a hash hcall hhash =>
      have hsockets := HashThreads.sockets_step (HashThreads.step_spec hwf hhash).1 hcall fd
      show s.conns.accepted.count fd = s.conns.held fd + s.returned.count fd + hash.sockets fd
      omega

theorem reachable_ledger {s : Pipeline c n} (h : (pipeline c n table log).Reachable s) :
    s.Ledger := by
  refine System.ReachableVia.invariant (P := Ledger) ?_ ?_ s h
  · intro fd
    show 0 = 0 + (∑ w : Fin c, 0) + 0 + (0 + (∑ w : Fin n, 0) + 0)
    simp
  · intro s a s' hreach hs hstep _
    obtain ⟨hconns, hhash⟩ := reachable_parts hreach
    exact hs.step (Pool.Inv.of_reachable hconns) (HashThreads.reachable_wf hhash) (step_spec hstep)

end Pipeline

/-! ## The server comes to rest -/

/-- A step of the threads themselves. -/
def PipelineAct.Inner : PipelineAct c n → Prop
  | .conns a => a.Inner
  | .handleClient .. => True
  | .hash a => a.Inner

def PipelineAct.isAccept : PipelineAct c n → Bool
  | .conns (.accept ..) => true
  | _ => false

def PipelineAct.isSpurious : PipelineAct c n → Bool
  | .conns (.spurious _) => true
  | .hash a => a.isSpurious
  | _ => false

/-- What a step from outside adds to the rank. -/
def PipelineAct.gain (a : PipelineAct c n) : Nat :=
  14 * (if a.isAccept then 1 else 0) + 3 * (if a.isSpurious then 1 else 0)

namespace Pipeline

open HashThreads (setOfA w₀ w₁)

def rank (s : Pipeline c n) : Nat := s.conns.rank + s.hash.rank

/-- A connection that goes from one pool to the other brings less with it than it leaves. -/
theorem rank_step {s s' : Pipeline c n} {a : PipelineAct c n} (hpool : s.conns.Inv)
    (hwf : s.hash.queue.WF) (h : PipelineStep s a s') : s'.rank + 1 ≤ s.rank + a.gain := by
  cases h with
  | conns a conns hfinish hconns =>
      have hrank := Pool.rank_step (Pool.step_spec hpool hconns) hfinish
      have hgain : Pool.gain a = PipelineAct.gain (n := n) (.conns a) := by cases a <;> rfl
      show conns.rank + s.hash.rank + 1 ≤ s.conns.rank + s.hash.rank + _
      omega
  | queued w conn conn' wakes fd r conns hash hrun hw hconns hcall =>
      obtain ⟨-, hrank, -⟩ := Pool.finish_spec hw hconns
      have hhash : hash.rank + 1 ≤ s.hash.rank + 10 :=
        HashThreads.rank_step (HashThreads.step_spec hwf hcall).1
      show conns.rank + hash.rank + 1 ≤ s.conns.rank + s.hash.rank + 0
      omega
  | returned w conn conn' wakes fd conns hrun hw hconns =>
      obtain ⟨-, hrank, -⟩ := Pool.finish_spec hw hconns
      show conns.rank + s.hash.rank + 1 ≤ s.conns.rank + s.hash.rank + 0
      omega
  | hash a hash hcall hhash =>
      have hrank := HashThreads.rank_step (HashThreads.step_spec hwf hhash).1
      have hgain : a.gain = PipelineAct.gain (c := c) (.hash a) := by
        unfold HashAct.gain PipelineAct.gain
        rw [hcall]
        rfl
      show s.conns.rank + hash.rank + 1 ≤ s.conns.rank + s.hash.rank + _
      omega

theorem pipeline_ranks (c n : Nat) (table : Table) (log : List UInt8) :
    (pipeline c n table log).Ranks (fun s => s.conns.Inv ∧ s.hash.queue.WF) 1 PipelineAct.gain
      rank where
  keeps := by
    intro s a s' hs hstep
    obtain ⟨hpool, hwf⟩ := hs
    cases step_spec hstep with
    | conns a conns hfinish hconns => exact ⟨hpool.step hconns, hwf⟩
    | queued w conn conn' wakes fd r conns hash hrun hw hconns hcall =>
        exact ⟨hpool.step hconns, (HashThreads.step_spec hwf hcall).2⟩
    | returned w conn conn' wakes fd conns hrun hw hconns => exact ⟨hpool.step hconns, hwf⟩
    | hash a hash hcall hhash => exact ⟨hpool, (HashThreads.step_spec hwf hhash).2⟩
  pays := fun _ _ _ hs hstep => rank_step hs.1 hs.2 (step_spec hstep)

theorem sum_gain (as : List (PipelineAct c n)) :
    (as.map PipelineAct.gain).sum =
      14 * as.countP PipelineAct.isAccept + 3 * as.countP PipelineAct.isSpurious := by
  induction as with
  | nil => rfl
  | cons a rest ih =>
      rw [List.map_cons, List.sum_cons, ih, List.countP_cons, List.countP_cons, PipelineAct.gain]
      omega

/-- The peer closes at once. -/
def hungUp : Conn := quietConn ⟨[], []⟩

theorem hungUp_printable :
    ∀ p ∈ (Memcache.handleClient hungUp).toOption, p.1.node.userSize.toNat < 10 ^ 13 := by
  decide +kernel

/-- Where nothing is left to do for the threads, all of them sleep. -/
theorem sleeping_of_stuck {s : Pipeline c n} (hs : (pipeline c n table log).Reachable s)
    (hprintable : s.hash.Printable)
    (hstuck : (pipeline c n table log).Stuck (fun a => a.Inner ∧ a.Printable) s) :
    (∀ w, s.conns.worker w = .sleeping) ∧ ∀ w, s.hash.worker w = .sleeping := by
  obtain ⟨hconns, hhash⟩ := reachable_parts hs
  have hno : ∀ a, PipelineAct.Inner a → PipelineAct.Printable a → s.step a = none :=
    fun a hinner hsize => hstuck a ⟨hinner, hsize⟩
  constructor
  · intro w
    -- the queue has an answer, so a thread at its door can go on
    have hdoor : ∀ x, s.conns.take w x ≠ none := by
      intro x htake
      rcases Pool.take_spec (Pool.Inv.of_reachable hconns) w x with ⟨-, ht⟩ |
          ⟨fd, queue, -, ht⟩ <;>
        cases htake.symm.trans ht
    cases hw : s.conns.worker w with
    | sleeping => rfl
    | checking =>
        have hcheck := hno (.conns (.check w)) trivial trivial
        simp [step, PoolAct.isFinish, Pool.step, hw, hdoor] at hcheck
    | woken =>
        have hresume := hno (.conns (.resume w)) trivial trivial
        simp [step, PoolAct.isFinish, Pool.step, hw, hdoor] at hresume
    | handling fd =>
        have hreturn := hno (.handleClient w hungUp none) trivial hungUp_printable
        simp only [step, hw, Pool.step, Option.bind_some] at hreturn
        cases hreturn
  · apply HashThreads.sleeping_of_stuck hhash hprintable
    intro a ha
    have hcall : a.isCall = false := by cases a <;> first | rfl | exact ha.elim
    have hnone := hno (.hash a) ha trivial
    simp only [step, hcall, Bool.false_eq_true, if_false, Option.map_eq_none_iff] at hnone
    exact hnone

/-- Nobody has anything to do. -/
theorem stuck_of_sleeping {s : Pipeline c n} (hconns : ∀ w, s.conns.worker w = .sleeping)
    (hhash : ∀ w, s.hash.worker w = .sleeping) :
    (pipeline c n table log).Stuck PipelineAct.Inner s := by
  intro a ha
  show s.step a = none
  cases a with
  | conns a =>
      cases a with
      | accept fd wakes => exact ha.elim
      | spurious w => exact ha.elim
      | _ => simp [step, PoolAct.isFinish, Pool.step, hconns]
  | handleClient w conn wakes => simp [step, hconns]
  | hash a =>
      have hstuck : (hashThreads n table log).Stuck HashAct.Inner s.hash :=
        HashThreads.stuck_of_sleeping hhash
      have hnone : s.hash.step a = none := hstuck a ha
      simp [step, hnone]

/-- `handle_client` has returned from every connection without a request, or the request on
it has had its one answer and it is closed. -/
def Ended (s : Pipeline c n) : Prop :=
  s.hash.AllAnswered ∧ ∀ fd, s.conns.accepted.count fd =
    s.returned.count fd + s.hash.closed.countP fun b => b.block.sockFd = fd

/-- At rest both queues are empty, and no thread has a connection. -/
theorem ended_of_stuck {s : Pipeline c n} (hs : (pipeline c n table log).Reachable s)
    (hprintable : s.hash.Printable) (hc : 0 < c) (hn : 0 < n)
    (hstuck : (pipeline c n table log).Stuck (fun a => a.Inner ∧ a.Printable) s) : s.Ended := by
  obtain ⟨hconns, hhash⟩ := reachable_parts hs
  obtain ⟨hsleep, hsleepHash⟩ := sleeping_of_stuck hs hprintable hstuck
  have hfds := Pool.fds_of_sleeping (Pool.Inv.of_reachable hconns) hc hsleep
  have hjobs := HashThreads.jobs_of_sleeping hhash hn hsleepHash
  constructor
  · exact (HashThreads.reachable_ledger hhash).allAnswered (fun w => by rw [hsleepHash w]; rfl)
      hjobs
  · intro fd
    have hledger := reachable_ledger hs fd
    rw [Pool.held, Pool.handlers, HashThreads.sockets, hfds, hjobs] at hledger
    simp only [hsleep, hsleepHash] at hledger
    simpa [HashWorker.on, HashWorker.job] using hledger

/-- A get of the key `A`, and a peer that closes at once. -/
def getThenHangUp : List (PipelineAct 2 2) :=
  [.conns (.check w₀), .hash (.check w₀), .conns (.accept 7 (some w₀)), .conns (.resume w₀),
    .conns (.accept 8 none), .handleClient w₀ (quietConn ⟨encodeGet setOfA.key, []⟩) (some w₀),
    .conns (.check w₁), .handleClient w₁ hungUp none, .conns (.check w₀), .conns (.check w₁),
    .hash (.resume w₀), .hash (.lock w₀), .hash (.get w₀), .hash (.unlock w₀),
    .hash (.send w₀ []), .hash (.close w₀), .hash (.check w₀), .hash (.check w₁)]

end Pipeline

end DistKv.Memcache
