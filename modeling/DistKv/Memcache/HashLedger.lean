import DistKv.Lib.Ranking
import DistKv.Memcache.ConnPool
import DistKv.Memcache.HashThreads

/-!
# Every request is answered once

A request is queued, then pending in a thread, then takes effect, then owed its
reply, then its socket is closed: at each moment it is at exactly one of these
places (`Ledger`). With the lock, the log, the table and the reply left out, the
hash threads are a run of `connPool` (`reachable_shadow`), so no wake-up is lost
here either. What remains is that threads do not go on for ever: a rank pays for
their steps, and where no step is left every request was answered once and its
socket closed once, if sizes have at most thirteen digits, so that every reply
fits its buffer (`requests_answered`).
-/

namespace DistKv.Memcache

open CText History Linearizable Transition

variable {n : Nat} {table : Table} {log : List UInt8}

/-! ## Where a request is -/

/-- What a thread has left to do for a request. -/
inductive Place
  | door
  | pending (id : Nat)
  | owed (id : Nat)
  | closing (id : Nat)
deriving DecidableEq

def HashWorker.place : HashWorker → Place
  | .checking | .sleeping | .woken => .door
  | .handling b | .locked b | .logged b => .pending b.id
  | .served b _ | .replying b _ => .owed b.id
  | .closing b => .closing b.id

/-- The request a thread works on. -/
def HashWorker.job : HashWorker → Option Job
  | .checking | .sleeping | .woken => none
  | .handling b | .locked b | .logged b | .served b _ | .replying b _ | .closing b => some b

/-- A thread with its work left out. -/
def HashWorker.shadow : HashWorker → Worker
  | .checking => .checking
  | .sleeping => .sleeping
  | .woken => .woken
  | .handling b | .locked b | .logged b | .served b _ | .replying b _ | .closing b =>
      .handling b.id

def isAnswer (i : Nat) : Event NodeHash Sent → Bool
  | .answer j _ => j = i
  | _ => false

@[simp] theorem isAnswer_answer (i j : Nat) (r : Sent) :
    isAnswer i (.answer j r) = decide (j = i) := rfl

/-- How often request `i` took effect. -/
def commitCount (trace : List (Event NodeHash Sent)) (i : Nat) : Nat :=
  (commits trace).countP fun x => x.1 = i

namespace HashThreads

/-- How many threads have this left to do. -/
def threadsAt (s : HashThreads n) (p : Place) : Nat :=
  ∑ w, if (s.worker w).place = p then 1 else 0

theorem threadsAt_set (s : HashThreads n) (w : Fin n) (x : HashWorker) (p : Place) :
    (s.set w x).threadsAt p + (if (s.worker w).place = p then 1 else 0) =
      s.threadsAt p + (if x.place = p then 1 else 0) :=
  sum_update s.worker (fun y => if y.place = p then 1 else 0) w x

/-- Every request is at one place, and what is done for it is done once. -/
structure Ledger (s : HashThreads n) : Prop where
  called : ∀ i, s.queue.jobs.countP (fun b => b.id = i) + s.threadsAt (.pending i) +
    commitCount s.trace i = if i < s.calls then 1 else 0
  served : ∀ i, commitCount s.trace i = s.threadsAt (.owed i) + s.trace.countP (isAnswer i)
  closed : ∀ i, s.trace.countP (isAnswer i) =
    s.threadsAt (.closing i) + s.closed.countP fun b => b.id = i

/-! One event more. -/

@[simp] theorem commitCount_call (trace : List (Event NodeHash Sent)) (j : Nat) (b : NodeHash)
    (i : Nat) : commitCount (trace ++ [Event.call j b]) i = commitCount trace i := by
  simp [commitCount, commits]

@[simp] theorem commitCount_commit (trace : List (Event NodeHash Sent)) (j : Nat) (b : NodeHash)
    (i : Nat) : commitCount (trace ++ [Event.commit j b]) i =
      commitCount trace i + if j = i then 1 else 0 := by
  simp [commitCount, commits, List.countP_cons]

@[simp] theorem commitCount_answer (trace : List (Event NodeHash Sent)) (j : Nat) (r : Sent)
    (i : Nat) : commitCount (trace ++ [Event.answer j r]) i = commitCount trace i := by
  simp [commitCount, commits]

@[simp] theorem answers_call (trace : List (Event NodeHash Sent)) (j : Nat) (b : NodeHash)
    (i : Nat) : (trace ++ [Event.call j b]).countP (isAnswer i) = trace.countP (isAnswer i) := by
  simp [isAnswer]

@[simp] theorem answers_commit (trace : List (Event NodeHash Sent)) (j : Nat) (b : NodeHash)
    (i : Nat) : (trace ++ [Event.commit j b]).countP (isAnswer i) = trace.countP (isAnswer i) := by
  simp [isAnswer]

@[simp] theorem answers_answer (trace : List (Event NodeHash Sent)) (j : Nat) (r : Sent)
    (i : Nat) : (trace ++ [Event.answer j r]).countP (isAnswer i) =
      trace.countP (isAnswer i) + if j = i then 1 else 0 := by
  simp [isAnswer, List.countP_cons]

/-- **A thread moves.** The ledger is kept if what the request has left behind at one
place has come in at the next one. -/
theorem Ledger.move {s s' : HashThreads n} (h : s.Ledger) {w : Fin n} {x : HashWorker}
    (hworker : s'.worker = (s.set w x).worker) (hcalls : s'.calls = s.calls)
    (hcalled : ∀ i, s'.queue.jobs.countP (fun b => b.id = i) +
        (if x.place = .pending i then 1 else 0) + commitCount s'.trace i =
      s.queue.jobs.countP (fun b => b.id = i) +
        (if (s.worker w).place = .pending i then 1 else 0) + commitCount s.trace i)
    (hserved : ∀ i, commitCount s'.trace i + (if (s.worker w).place = .owed i then 1 else 0) +
        s.trace.countP (isAnswer i) =
      commitCount s.trace i + (if x.place = .owed i then 1 else 0) + s'.trace.countP (isAnswer i))
    (hclosed : ∀ i, s'.trace.countP (isAnswer i) +
        (if (s.worker w).place = .closing i then 1 else 0) + s.closed.countP (fun b => b.id = i) =
      s.trace.countP (isAnswer i) + (if x.place = .closing i then 1 else 0) +
        s'.closed.countP fun b => b.id = i) : s'.Ledger := by
  have hat : ∀ p, s'.threadsAt p + (if (s.worker w).place = p then 1 else 0) =
      s.threadsAt p + (if x.place = p then 1 else 0) := by
    intro p
    rw [threadsAt, hworker]
    exact threadsAt_set s w x p
  refine ⟨fun i => ?_, fun i => ?_, fun i => ?_⟩
  · have hp := hat (.pending i)
    have hold := h.called i
    have hmove := hcalled i
    rw [hcalls]
    omega
  · have ho := hat (.owed i)
    have hold := h.served i
    have hmove := hserved i
    omega
  · have hc := hat (.closing i)
    have hold := h.closed i
    have hmove := hclosed i
    omega

/-- A thread goes on with what it has to do. -/
theorem Ledger.set {s : HashThreads n} (h : s.Ledger) {w : Fin n} {x : HashWorker}
    (hx : x.place = (s.worker w).place) : (s.set w x).Ledger :=
  h.move (w := w) (x := x) rfl rfl (fun i => by rw [hx]; rfl) (fun i => by rw [hx]; rfl)
    (fun i => by rw [hx]; rfl)

/-- A request is called. -/
theorem Ledger.call {s : HashThreads n} (h : s.Ledger) {queue : HashQueue} {b : NodeHash}
    (hjobs : queue.jobs = s.queue.jobs ++ [⟨s.calls, b⟩]) :
    Ledger { s with queue, calls := s.calls + 1, trace := s.trace ++ [Event.call s.calls b] } := by
  refine ⟨fun i => ?_, fun i => ?_, fun i => ?_⟩
  · show queue.jobs.countP _ + s.threadsAt _ + commitCount (s.trace ++ _) i =
      if i < s.calls + 1 then 1 else 0
    have hold := h.called i
    rw [hjobs, commitCount_call, List.countP_append]
    simp only [List.countP_cons, List.countP_nil, decide_eq_true_eq]
    split at hold <;> split <;> split <;> omega
  · show commitCount (s.trace ++ _) i = s.threadsAt _ + List.countP _ (s.trace ++ _)
    rw [commitCount_call, answers_call]
    exact h.served i
  · show List.countP _ (s.trace ++ _) = s.threadsAt _ + _
    rw [answers_call]
    exact h.closed i

/-- A pending request takes effect. -/
theorem Ledger.commit {s s' : HashThreads n} (h : s.Ledger) {w : Fin n} {b : Job}
    {found : Option KvNode} (hw : (s.worker w).place = .pending b.id)
    (hqueue : s'.queue = s.queue) (hworker : s'.worker = (s.set w (.served b found)).worker)
    (hcalls : s'.calls = s.calls) (hclosed : s'.closed = s.closed)
    (htrace : s'.trace = s.trace ++ [Event.commit b.id b.block]) : s'.Ledger := by
  apply h.move hworker hcalls
  · intro i
    rw [hqueue, htrace, commitCount_commit, hw]
    simp only [HashWorker.place, reduceCtorEq, if_false, Place.pending.injEq]
    omega
  · intro i
    rw [htrace, commitCount_commit, answers_commit, hw]
    simp only [HashWorker.place, reduceCtorEq, if_false, Place.owed.injEq]
    omega
  · intro i
    rw [htrace, answers_commit, hclosed, hw]
    simp only [HashWorker.place, reduceCtorEq, if_false]

theorem Ledger.step {s s' : HashThreads n} {a : HashAct n} (h : s.Ledger)
    (hstep : HashStep s a s') : s'.Ledger := by
  cases hstep with
  | enqueueHash r clientFd wakes queue hwake hjobs =>
      cases wakes with
      | none => exact h.call hjobs
      | some w =>
          have hw : s.worker w = .sleeping := hwake
          exact (h.call hjobs).set (show _ = (s.worker w).place by rw [hw]; rfl)
  | takeJob _ w b queue hw hjobs =>
      have hdoor : (s.worker w).place = .door := by
        rcases hw with ⟨-, hw⟩ | ⟨-, hw⟩ <;> rw [hw] <;> rfl
      refine h.move (w := w) (x := .handling b) rfl rfl (fun i => ?_) (fun i => ?_) (fun i => ?_)
      · show queue.jobs.countP _ + _ + commitCount s.trace i = _
        rw [hjobs, List.countP_cons, hdoor]
        simp [HashWorker.place]
      · rw [hdoor]
        rfl
      · rw [hdoor]
        rfl
  | findEmpty _ w x hw hjobs =>
      refine h.set ?_
      rcases hw with ⟨-, hw, rfl⟩ | ⟨-, hw, rfl⟩ <;> rw [hw] <;> rfl
  | spurious w hw => exact h.set (by rw [hw]; rfl)
  | lock w b hw hfree =>
      have hs : Ledger { s with hashHolder := some w } := ⟨h.called, h.served, h.closed⟩
      exact hs.set (show _ = (s.worker w).place by rw [hw]; rfl)
  | logSet w b hw hset =>
      have hs : Ledger { s with log := s.log ++ logRecord b.block.data } :=
        ⟨h.called, h.served, h.closed⟩
      exact hs.set (show _ = (s.worker w).place by rw [hw]; rfl)
  | insert w b hw => exact h.commit (w := w) (by rw [hw]; rfl) rfl rfl rfl rfl rfl
  | get w b hw hget => exact h.commit (w := w) (by rw [hw]; rfl) rfl rfl rfl rfl rfl
  | unlock w b found hw =>
      have hs : Ledger { s with hashHolder := none } := ⟨h.called, h.served, h.closed⟩
      exact hs.set (show _ = (s.worker w).place by rw [hw]; rfl)
  | send w b found heap hw =>
      refine h.move (w := w) (x := .closing b) rfl rfl ?_ ?_ ?_
      · intro i
        simp [hw, HashWorker.place, HashThreads.set]
      · intro i
        simp [hw, HashWorker.place, HashThreads.set]
        omega
      · intro i
        simp [hw, HashWorker.place, HashThreads.set]
  | close w b hw =>
      refine h.move (w := w) (x := .checking) rfl rfl ?_ ?_ ?_
      · intro i
        simp [hw, HashWorker.place, HashThreads.set]
      · intro i
        simp [hw, HashWorker.place, HashThreads.set]
      · intro i
        simp [hw, HashWorker.place, HashThreads.set, List.countP_cons]
        omega

theorem init_ledger (n : Nat) (table : Table) (log : List UInt8) :
    (init n table log).Ledger := by
  refine ⟨fun i => ?_, fun i => ?_, fun i => ?_⟩ <;>
    simp [init, threadsAt, HashWorker.place, HashQueue.jobs, HashQueue.empty, BlockHeap.walk,
      commitCount, commits]

theorem reachable_ledger {s : HashThreads n} (h : (hashThreads n table log).Reachable s) :
    s.Ledger :=
  invariant (init_ledger n table log) (fun _ _ _ _ hs hstep => hs.step hstep) h

/-! ## Requests the threads know -/

/-- The node is one of a request that was called. -/
def Asked (s : HashThreads n) (b : Job) : Prop :=
  (∃ r : Request, b.block.data = r.node) ∧ Event.call b.id b.block ∈ s.trace

/-- What is queued and what threads work on was asked for. -/
structure Known (s : HashThreads n) : Prop where
  queue : ∀ b ∈ s.queue.jobs, s.Asked b
  worker : ∀ w, ∀ b ∈ (s.worker w).job, s.Asked b

theorem Known.move {s s' : HashThreads n} (h : s.Known) {w : Fin n} {x : HashWorker}
    (hworker : s'.worker = (s.set w x).worker) (htrace : s.trace ⊆ s'.trace)
    (hjobs : s'.queue.jobs ⊆ s.queue.jobs) (hx : ∀ b ∈ x.job, s.Asked b) : s'.Known := by
  have hmono : ∀ b, s.Asked b → s'.Asked b := fun b hb => ⟨hb.1, htrace hb.2⟩
  have hworkers : ∀ v, ∀ b ∈ ((s.set w x).worker v).job, s.Asked b :=
    forall_worker_set (p := fun _ y => ∀ b ∈ y.job, s.Asked b) hx fun v _ => h.worker v
  refine ⟨fun b hb => hmono b (h.queue b (hjobs hb)), fun v b hb => hmono b ?_⟩
  rw [hworker] at hb
  exact hworkers v b hb

theorem Known.step {s s' : HashThreads n} {a : HashAct n} (h : s.Known)
    (hstep : HashStep s a s') : s'.Known := by
  cases hstep with
  | enqueueHash r clientFd wakes queue hwake hjobs =>
      have hcall : Known { s with
          queue, calls := s.calls + 1
          trace := s.trace ++ [Event.call s.calls (NodeHash.mk r.node clientFd)] } := by
        refine ⟨fun b hb => ?_, fun v b hb => ?_⟩
        · change b ∈ queue.jobs at hb
          rw [hjobs] at hb
          rcases List.mem_append.mp hb with hb | hb
          · exact ⟨(h.queue b hb).1, List.mem_append_left _ (h.queue b hb).2⟩
          · obtain rfl := List.mem_singleton.mp hb
            exact ⟨⟨r, rfl⟩, List.mem_append_right _ (List.mem_singleton.mpr rfl)⟩
        · exact ⟨(h.worker v b hb).1, List.mem_append_left _ (h.worker v b hb).2⟩
      cases wakes with
      | none => exact hcall
      | some w =>
          refine hcall.move (w := w) (x := .woken) rfl (List.Subset.refl _) (List.Subset.refl _) ?_
          simp [HashWorker.job]
  | takeJob _ w b queue hw hjobs =>
      refine h.move (w := w) (x := .handling b) rfl (List.Subset.refl _) ?_ ?_
      · rw [hjobs]
        exact List.subset_cons_self b _
      · intro c hc
        obtain rfl := Option.some.inj hc
        exact h.queue b (by rw [hjobs]; exact List.mem_cons_self)
  | findEmpty _ w x hw hjobs =>
      refine h.move (w := w) (x := x) rfl (List.Subset.refl _) (List.Subset.refl _) ?_
      rcases hw with ⟨-, -, rfl⟩ | ⟨-, -, rfl⟩ <;> simp [HashWorker.job]
  | spurious w hw =>
      exact h.move (w := w) (x := .woken) rfl (List.Subset.refl _) (List.Subset.refl _)
        (by simp [HashWorker.job])
  | lock w b hw hfree =>
      exact h.move (w := w) (x := .locked b) rfl (List.Subset.refl _) (List.Subset.refl _)
        fun c hc => h.worker w c (by rw [hw]; exact hc)
  | logSet w b hw hset =>
      exact h.move (w := w) (x := .logged b) rfl (List.Subset.refl _) (List.Subset.refl _)
        fun c hc => h.worker w c (by rw [hw]; exact hc)
  | insert w b hw =>
      exact h.move (w := w) (x := .served b none) rfl (List.subset_append_left _ _)
        (List.Subset.refl _) fun c hc => h.worker w c (by rw [hw]; exact hc)
  | get w b hw hget =>
      exact h.move (w := w) (x := .served b (s.table.getNode b.block.data.key)) rfl
        (List.subset_append_left _ _) (List.Subset.refl _)
        fun c hc => h.worker w c (by rw [hw]; exact hc)
  | unlock w b found hw =>
      exact h.move (w := w) (x := .replying b found) rfl (List.Subset.refl _) (List.Subset.refl _)
        fun c hc => h.worker w c (by rw [hw]; exact hc)
  | send w b found heap hw =>
      exact h.move (w := w) (x := .closing b) rfl (List.subset_append_left _ _)
        (List.Subset.refl _) fun c hc => h.worker w c (by rw [hw]; exact hc)
  | close w b hw =>
      exact h.move (w := w) (x := .checking) rfl (List.Subset.refl _) (List.Subset.refl _)
        (by simp [HashWorker.job])

theorem reachable_known {s : HashThreads n} (h : (hashThreads n table log).Reachable s) : s.Known :=
  invariant
    ⟨by simp [init, HashQueue.jobs, HashQueue.empty, BlockHeap.walk],
      by simp [init, HashWorker.job]⟩
    (fun _ _ _ _ hs hstep => hs.step hstep) h

/-! ## The order of the events -/

theorem one_le_threadsAt {s : HashThreads n} {w : Fin n} {p : Place}
    (hw : (s.worker w).place = p) : 1 ≤ s.threadsAt p := by
  have hle := Finset.single_le_sum (f := fun v => if (s.worker v).place = p then 1 else 0)
    (fun _ _ => Nat.zero_le _) (Finset.mem_univ w)
  rw [if_pos hw] at hle
  exact hle

theorem commitCount_pos {trace : List (Event NodeHash Sent)} {i : Nat} :
    0 < commitCount trace i ↔ i ∈ (commits trace).map Prod.fst := by
  rw [commitCount, List.countP_pos_iff, List.mem_map]
  simp

/-- A pending request has not taken effect. -/
theorem Ledger.not_committed {s : HashThreads n} (h : s.Ledger) {w : Fin n} {i : Nat}
    (hw : (s.worker w).place = .pending i) : i ∉ (commits s.trace).map Prod.fst := by
  have hone := one_le_threadsAt hw
  have hcalled := h.called i
  rw [← commitCount_pos]
  split at hcalled <;> omega

/-- A request that is owed its reply has taken effect. -/
theorem Ledger.committed {s : HashThreads n} (h : s.Ledger) {w : Fin n} {i : Nat}
    (hw : (s.worker w).place = .owed i) : i ∈ (commits s.trace).map Prod.fst := by
  have hone := one_le_threadsAt hw
  have hserved := h.served i
  rw [← commitCount_pos]
  omega

/-- A request is called, takes effect and is answered, in this order. -/
structure Timely (s : HashThreads n) : Prop where
  timed : AtEvents Timed s.trace
  fresh : ∀ i b, Event.call i b ∈ s.trace → i < s.calls

/-- One event more, which is not a call. -/
theorem Timely.event {s s' : HashThreads n} (h : s.Timely) {e : Event NodeHash Sent}
    (htrace : s'.trace = s.trace ++ [e]) (hcalls : s'.calls = s.calls)
    (hcall : ∀ i b, e ≠ .call i b) (he : Timed s.trace e) : s'.Timely := by
  refine ⟨?_, fun i b hi => ?_⟩
  · rw [htrace, atEvents_append_singleton]
    exact ⟨h.timed, he⟩
  · rw [htrace] at hi
    rw [hcalls]
    rcases List.mem_append.mp hi with hi | hi
    · exact h.fresh i b hi
    · exact absurd (List.mem_singleton.mp hi).symm (hcall i b)

theorem Timely.step {s s' : HashThreads n} {a : HashAct n} (h : s.Timely) (hledger : s.Ledger)
    (hknown : s.Known) (hstep : HashStep s a s') : s'.Timely := by
  cases hstep with
  | enqueueHash r clientFd wakes queue hwake hjobs =>
      have hcall : Timely { s with
          queue, calls := s.calls + 1
          trace := s.trace ++ [Event.call s.calls (NodeHash.mk r.node clientFd)] } := by
        refine ⟨?_, fun i b hi => ?_⟩
        · rw [atEvents_append_singleton]
          exact ⟨h.timed, fun b hb => absurd (h.fresh _ b hb) (Nat.lt_irrefl _)⟩
        · rcases List.mem_append.mp hi with hi | hi
          · exact Nat.lt_succ_of_lt (h.fresh i b hi)
          · obtain ⟨rfl, -⟩ := Event.call.inj (List.mem_singleton.mp hi)
            exact Nat.lt_succ_self _
      cases wakes with
      | none => exact hcall
      | some w => exact ⟨hcall.timed, hcall.fresh⟩
  | insert w b hw =>
      refine h.event (e := .commit b.id b.block) rfl rfl (by simp) ⟨?_, ?_⟩
      · exact (hknown.worker w b (by rw [hw]; rfl)).2
      · exact hledger.not_committed (w := w) (by rw [hw]; rfl)
  | get w b hw hget =>
      refine h.event (e := .commit b.id b.block) rfl rfl (by simp) ⟨?_, ?_⟩
      · exact (hknown.worker w b (by rw [hw]; rfl)).2
      · exact hledger.not_committed (w := w) (by rw [hw]; rfl)
  | send w b found heap hw =>
      refine h.event (e := .answer b.id (clientMsg b found heap)) rfl rfl (by simp) ?_
      exact hledger.committed (w := w) (by rw [hw]; rfl)
  | _ => exact ⟨h.timed, h.fresh⟩

theorem reachable_timely {s : HashThreads n} (h : (hashThreads n table log).Reachable s) :
    s.Timely := by
  refine System.ReachableVia.invariant (P := Timely) ?_ ?_ s h
  · exact ⟨atEvents_nil _, fun i b hi => absurd hi List.not_mem_nil⟩
  · intro s a s' hs htimely hstep _
    exact htimely.step (reachable_ledger hs) (reachable_known hs)
      (step_spec (reachable_wf hs) hstep).1

/-! ## The threads as a pool -/

/-- `p` is what is left of `s` without the work. -/
structure Shadows (s : HashThreads n) (p : Pool n) : Prop where
  worker : ∀ w, p.worker w = (s.worker w).shadow
  queue : p.queue.fds = s.queue.jobs.map Job.id

theorem shadow_eq_sleeping {x : HashWorker} : x.shadow = .sleeping ↔ x = .sleeping := by
  cases x <;> simp [HashWorker.shadow]

/-- A thread moves in both. -/
theorem Shadows.set {s s' : HashThreads n} {p p' : Pool n} (h : s.Shadows p) {w : Fin n}
    {x : HashWorker} {y : Worker} (hworker : s'.worker = (s.set w x).worker)
    (hpool : p'.worker = (p.set w y).worker) (hxy : y = x.shadow)
    (hqueue : p'.queue.fds = s'.queue.jobs.map Job.id) : s'.Shadows p' := by
  refine ⟨?_, hqueue⟩
  rw [hworker, hpool]
  refine forall_worker_set (p := fun v z => (p.set w y).worker v = z.shadow) ?_ ?_
  · rw [← hxy]
    exact Function.update_self ..
  · intro v hvw
    rw [← h.worker v]
    exact Function.update_of_ne hvw ..

/-- The work itself is nothing the pool sees. -/
theorem Shadows.stutter {s s' : HashThreads n} {p : Pool n} (h : s.Shadows p) {w : Fin n}
    {x : HashWorker} (hworker : s'.worker = (s.set w x).worker) (hqueue : s'.queue = s.queue)
    (hx : x.shadow = (s.worker w).shadow) : s'.Shadows p := by
  refine ⟨?_, by rw [hqueue]; exact h.queue⟩
  rw [hworker]
  refine forall_worker_set (p := fun v z => p.worker v = z.shadow) ?_ fun v _ => h.worker v
  rw [hx]
  exact h.worker w

theorem shadow_step {s s' : HashThreads n} {p : Pool n} (h : s.Shadows p) (hp : p.Inv)
    {a : HashAct n} (hstep : HashStep s a s') :
    ∃ p', (p' = p ∨ ∃ b, p.step b = some p') ∧ s'.Shadows p' := by
  obtain ⟨l, hl⟩ := hp.queue
  have hfds : l.map Prod.snd = s.queue.jobs.map Job.id := hl.fds_eq.symm.trans h.queue
  cases hstep with
  | enqueueHash r clientFd wakes queue hwake hjobs =>
      obtain ⟨q', hq', hl'⟩ := hl.enqueue s.calls
      have hfds' : q'.fds = queue.jobs.map Job.id := by
        rw [hl'.fds_eq, hjobs, List.map_append, List.map_append, hfds]
        rfl
      have hcan : p.CanWake wakes := by
        cases wakes with
        | none =>
            intro w hw
            rw [h.worker w, shadow_eq_sleeping] at hw
            exact hwake w hw
        | some w =>
            show p.worker w = .sleeping
            rw [h.worker w, shadow_eq_sleeping]
            exact hwake
      refine ⟨Pool.wake { p with queue := q', accepted := p.accepted ++ [s.calls] } wakes,
        Or.inr ⟨.accept s.calls wakes, ?_⟩, ?_⟩
      · rw [Pool.step, if_pos hcan, Pool.accept, hq', Option.map_some]
      · cases wakes with
        | none => exact ⟨h.worker, hfds'⟩
        | some w => exact h.set (w := w) (x := .woken) (y := .woken) rfl rfl rfl hfds'
  | takeJob _ w b queue hw hjobs =>
      rw [hjobs] at hfds
      cases l with
      | nil => cases hfds
      | cons c rest =>
          obtain ⟨q', hq', hrest⟩ := hl.dequeue_cons
          obtain ⟨hid, hids⟩ := List.cons.inj hfds
          have hfds' : q'.fds = queue.jobs.map Job.id := hrest.fds_eq.trans hids
          have htake : ∀ x, p.take w x = some
              (Pool.set { p with queue := q', handed := p.handed ++ [c.2] } w (.handling c.2)) :=
            fun x => by rw [Pool.take, hq', Option.map_some]
          refine ⟨Pool.set { p with queue := q', handed := p.handed ++ [c.2] } w (.handling c.2),
            Or.inr ?_, h.set (w := w) (x := .handling b) (y := .handling c.2) rfl rfl
              (congrArg Worker.handling hid) hfds'⟩
          rcases hw with ⟨-, hw⟩ | ⟨-, hw⟩
          · refine ⟨.check w, ?_⟩
            rw [Pool.step, if_pos (by rw [h.worker w, hw]; rfl), htake]
          · refine ⟨.resume w, ?_⟩
            rw [Pool.step, if_pos (by rw [h.worker w, hw]; rfl), htake]
  | findEmpty _ w x hw hjobs =>
      rw [hjobs] at hfds
      obtain rfl : l = [] := List.map_eq_nil_iff.mp hfds
      have htake : ∀ y, p.take w y = some (p.set w y) :=
        fun y => by rw [Pool.take, hl.dequeue_nil, Option.map_some]
      refine ⟨p.set w x.shadow, Or.inr ?_, h.set rfl rfl rfl h.queue⟩
      rcases hw with ⟨-, hw, rfl⟩ | ⟨-, hw, rfl⟩
      · refine ⟨.check w, ?_⟩
        rw [Pool.step, if_pos (by rw [h.worker w, hw]; rfl), htake]
        rfl
      · refine ⟨.resume w, ?_⟩
        rw [Pool.step, if_pos (by rw [h.worker w, hw]; rfl), htake]
        rfl
  | spurious w hw =>
      refine ⟨p.set w .woken, Or.inr ⟨.spurious w, ?_⟩, h.set (x := .woken) rfl rfl rfl h.queue⟩
      rw [Pool.step, if_pos (by rw [h.worker w, hw]; rfl)]
  | lock w b hw hfree =>
      exact ⟨p, Or.inl rfl, h.stutter (w := w) (x := .locked b) rfl rfl (by rw [hw]; rfl)⟩
  | logSet w b hw hset =>
      exact ⟨p, Or.inl rfl, h.stutter (w := w) (x := .logged b) rfl rfl (by rw [hw]; rfl)⟩
  | insert w b hw =>
      exact ⟨p, Or.inl rfl, h.stutter (w := w) (x := .served b none) rfl rfl (by rw [hw]; rfl)⟩
  | get w b hw hget =>
      exact ⟨p, Or.inl rfl, h.stutter (w := w) (x := .served b _) rfl rfl (by rw [hw]; rfl)⟩
  | unlock w b found hw =>
      exact ⟨p, Or.inl rfl, h.stutter (w := w) (x := .replying b found) rfl rfl (by rw [hw]; rfl)⟩
  | send w b found heap hw =>
      exact ⟨p, Or.inl rfl, h.stutter (w := w) (x := .closing b) rfl rfl (by rw [hw]; rfl)⟩
  | close w b hw =>
      refine ⟨p.set w .checking, Or.inr ⟨.finish w, ?_⟩,
        h.set (w := w) (x := .checking) rfl rfl rfl h.queue⟩
      have hpw : p.worker w = .handling b.id := by
        rw [h.worker w, hw]
        rfl
      rw [Pool.step, hpw]

/-- **The hash threads are a thread pool.** Without their work they run as the
connection threads do. -/
theorem reachable_shadow {s : HashThreads n} (h : (hashThreads n table log).Reachable s) :
    ∃ p, (connPool n).Reachable p ∧ s.Shadows p := by
  refine invariant (P := fun s => ∃ p, (connPool n).Reachable p ∧ s.Shadows p) ?_ ?_ h
  · exact ⟨Pool.init n, .init, fun _ => rfl, rfl⟩
  · intro s a s' _ hs hstep
    obtain ⟨p, hp, hshadow⟩ := hs
    obtain ⟨p', rfl | ⟨b, hb⟩, hshadow'⟩ := shadow_step hshadow (Pool.Inv.of_reachable hp) hstep
    · exact ⟨p', hp, hshadow'⟩
    · exact ⟨p', .step hp hb trivial, hshadow'⟩

/-! ## Replies that fit -/

end HashThreads

/-- `send_message_format` stays in its buffer. -/
structure KvNode.Printable (node : KvNode) : Prop where
  size_eq : node.valueSize = node.value.length
  small : node.userSize.toNat < 10 ^ 13

def Table.Printable (t : Table) : Prop := ∀ i, ∀ node ∈ t.chain i, node.Printable

theorem Table.empty_printable : Table.empty.Printable := by simp [Table.Printable, Table.empty]

theorem Table.Printable.insertNode {t : Table} (h : t.Printable) {node : KvNode}
    (hnode : node.Printable) : (t.insertNode node).Printable := by
  intro i x hx
  rw [Table.chain_insertNode] at hx
  by_cases hi : hashString node.key = i
  · rw [if_pos hi] at hx
    rcases List.mem_cons.mp hx with rfl | hx
    · exact hnode
    · exact h i x hx
  · rw [if_neg hi] at hx
    exact h i x hx

/-- A request that is queued has a size of at most thirteen digits. -/
def HashAct.Printable : HashAct n → Prop
  | .enqueueHash r _ _ => r.node.userSize.toNat < 10 ^ 13
  | _ => True

instance : DecidablePred (HashAct.Printable (n := n)) := fun a =>
  match a with
  | .enqueueHash r _ _ => inferInstanceAs (Decidable (r.node.userSize.toNat < 10 ^ 13))
  | .check _ | .spurious _ | .resume _ | .lock _ | .logSet _ | .insert _ | .get _ | .unlock _
  | .send _ _ | .close _ => inferInstanceAs (Decidable True)

theorem isSome_clientMsg {b : Job} {found : Option KvNode}
    (h : ∀ node, found = some node → node.Printable) (heap : List UInt8) :
    (clientMsg b found heap).bytes.isSome = true := by
  show (if b.block.data.operFlg = 0 then _ else _ : Option _).isSome = true
  by_cases hget : b.block.data.operFlg = 0
  · rw [if_pos hget]
    cases found with
    | none => rfl
    | some node =>
        obtain ⟨hsize, hsmall⟩ := h node rfl
        show (sendMessageFormat node heap).isSome = true
        rw [sendMessageFormat_of_lt hsize heap hsmall]
        rfl
  · rw [if_neg hget]
    rfl

namespace HashThreads

/-- Whatever is or will be looked up fits the buffer of its reply. -/
structure Printable (s : HashThreads n) : Prop where
  table : s.table.Printable
  called : ∀ i b, Event.call i b ∈ s.trace → b.data.Printable
  found : ∀ w b node, s.worker w = .served b (some node) ∨ s.worker w = .replying b (some node) →
    node.Printable

/-- A thread moves, and has found nothing new. -/
theorem Printable.move {s s' : HashThreads n} (h : s.Printable) {w : Fin n} {x : HashWorker}
    (hworker : s'.worker = (s.set w x).worker) (htable : s'.table.Printable)
    (hcalled : ∀ i b, Event.call i b ∈ s'.trace → b.data.Printable)
    (hx : ∀ b node, x = .served b (some node) ∨ x = .replying b (some node) → node.Printable) :
    s'.Printable := by
  refine ⟨htable, hcalled, ?_⟩
  rw [hworker]
  exact forall_worker_set (p := fun _ y => ∀ b node,
    y = .served b (some node) ∨ y = .replying b (some node) → node.Printable) hx
    fun v _ => h.found v

theorem Printable.step {s s' : HashThreads n} {a : HashAct n} (h : s.Printable) (hknown : s.Known)
    (hstep : HashStep s a s') (ha : a.Printable) : s'.Printable := by
  have hcalled : ∀ i b, Event.call i b ∈ s'.trace → b.data.Printable := by
    intro i b hb
    rcases call_of_step hstep hb with hold | ⟨r, fd, wakes, rfl, rfl⟩
    · exact h.called i b hold
    · exact ⟨r.valueSize_eq, ha⟩
  cases hstep with
  | enqueueHash r clientFd wakes queue hwake hjobs =>
      cases wakes with
      | none => exact ⟨h.table, hcalled, h.found⟩
      | some w => exact h.move (w := w) (x := .woken) rfl h.table hcalled (by simp)
  | takeJob _ w b queue hw hjobs =>
      exact h.move (w := w) (x := .handling b) rfl h.table hcalled (by simp)
  | findEmpty _ w x hw hjobs =>
      refine h.move (w := w) (x := x) rfl h.table hcalled ?_
      rcases hw with ⟨-, -, rfl⟩ | ⟨-, -, rfl⟩ <;> simp
  | spurious w hw => exact h.move (w := w) (x := .woken) rfl h.table hcalled (by simp)
  | lock w b hw hfree => exact h.move (w := w) (x := .locked b) rfl h.table hcalled (by simp)
  | logSet w b hw hset => exact h.move (w := w) (x := .logged b) rfl h.table hcalled (by simp)
  | insert w b hw =>
      have hnode := h.called _ _ (hknown.worker w b (by rw [hw]; rfl)).2
      exact h.move (w := w) (x := .served b none) rfl (h.table.insertNode hnode) hcalled (by simp)
  | get w b hw hget =>
      refine h.move (w := w) (x := .served b (s.table.getNode b.block.data.key)) rfl h.table hcalled
        fun c node hc => ?_
      -- what was found is in the table
      rcases hc with hc | hc
      · exact h.table _ node (List.mem_of_find?_eq_some (HashWorker.served.inj hc).2)
      · cases hc
  | unlock w b found hw =>
      refine h.move (w := w) (x := .replying b found) rfl h.table hcalled fun c node hc => ?_
      rcases hc with hc | hc
      · cases hc
      · obtain ⟨rfl, rfl⟩ := HashWorker.replying.inj hc
        exact h.found w _ node (Or.inl hw)
  | send w b found heap hw =>
      exact h.move (w := w) (x := .closing b) rfl h.table hcalled (by simp)
  | close w b hw => exact h.move (w := w) (x := .checking) rfl h.table hcalled (by simp)

theorem reachable_printable (htable : table.Printable) {s : HashThreads n}
    (h : (hashThreads n table log).ReachableVia (fun _ a _ => a.Printable) s) : s.Printable := by
  refine System.ReachableVia.invariant (P := Printable) ?_ ?_ s h
  · refine ⟨htable, fun _ _ hb => absurd hb List.not_mem_nil, fun w b node hw => ?_⟩
    rcases hw with hw | hw <;> cases hw
  · intro s a s' hs hprintable hstep ha
    exact hprintable.step (reachable_known hs.reachable)
      (step_spec (reachable_wf hs.reachable) hstep).1 ha

/-! ## Threads come to rest -/

/-- Every request was answered once and its socket closed once. -/
def AllAnswered (s : HashThreads n) : Prop :=
  ∀ i < s.calls, s.trace.countP (isAnswer i) = 1 ∧ (s.closed.countP fun b => b.id = i) = 1

theorem answers_le_one {s : HashThreads n} (h : s.Ledger) (i : Nat) :
    s.trace.countP (isAnswer i) ≤ 1 := by
  have hcalled := h.called i
  have hserved := h.served i
  split at hcalled <;> omega

/-- What no thread works on and no queue holds is done. -/
theorem Ledger.allAnswered {s : HashThreads n} (h : s.Ledger)
    (hdoor : ∀ w, (s.worker w).place = .door) (hjobs : s.queue.jobs = []) : s.AllAnswered := by
  have hzero : ∀ p, p ≠ .door → s.threadsAt p = 0 := by
    intro p hp
    refine Finset.sum_eq_zero fun w _ => ?_
    rw [hdoor w, if_neg (Ne.symm hp)]
  intro i hi
  have hcalled := h.called i
  have hserved := h.served i
  have hclosed := h.closed i
  rw [hjobs, hzero _ (by simp), if_pos hi, List.countP_nil] at hcalled
  rw [hzero _ (by simp)] at hserved hclosed
  omega

end HashThreads

/-- A step of the threads themselves. -/
def HashAct.Inner : HashAct n → Prop
  | .enqueueHash .. | .spurious _ => False
  | _ => True

def HashAct.isCall : HashAct n → Bool
  | .enqueueHash .. => true
  | _ => false

def HashAct.isSpurious : HashAct n → Bool
  | .spurious _ => true
  | _ => false

/-- How many steps the thread can still take. -/
def HashWorker.rank : HashWorker → Nat
  | .sleeping => 0
  | .checking => 1
  | .woken => 2
  | .closing _ => 2
  | .replying _ _ => 3
  | .served _ _ => 4
  | .logged _ => 5
  | .locked _ => 6
  | .handling _ => 7

/-- What a step from outside adds to that. -/
def HashAct.gain (a : HashAct n) : Nat :=
  10 * (if a.isCall then 1 else 0) + 3 * (if a.isSpurious then 1 else 0)

namespace HashThreads

def rank (s : HashThreads n) : Nat := ∑ w, (s.worker w).rank + 7 * s.queue.jobs.length

/-- A thread moves: what counts is the thread and the queue. -/
theorem rank_move {s s' : HashThreads n} {w : Fin n} {x : HashWorker} {k : Nat}
    (hworker : s'.worker = (s.set w x).worker)
    (hk : x.rank + 7 * s'.queue.jobs.length + 1 ≤
      (s.worker w).rank + 7 * s.queue.jobs.length + k) : s'.rank + 1 ≤ s.rank + k := by
  have hsum := sum_update s.worker HashWorker.rank w x
  change ∑ v, ((s.set w x).worker v).rank + (s.worker w).rank = _ at hsum
  unfold rank
  rw [hworker]
  omega

theorem rank_step {s s' : HashThreads n} {a : HashAct n} (h : HashStep s a s') :
    s'.rank + 1 ≤ s.rank + a.gain := by
  cases h with
  | enqueueHash r clientFd wakes queue hwake hjobs =>
      have hlen : queue.jobs.length = s.queue.jobs.length + 1 := by
        rw [hjobs, List.length_append, List.length_singleton]
      have hwoken : ∑ w, (WorkQueue.wake s.worker .woken wakes w).rank ≤
          ∑ w, (s.worker w).rank + 2 := WorkQueue.sum_wake_le hwake .woken HashWorker.rank
      show ∑ w, (WorkQueue.wake s.worker .woken wakes w).rank + 7 * queue.jobs.length + 1 ≤
        s.rank + 10
      unfold rank
      omega
  | takeJob _ w b queue hw hjobs =>
      have hlen : s.queue.jobs.length = queue.jobs.length + 1 := by
        rw [hjobs, List.length_cons]
      have hdoor : 1 ≤ (s.worker w).rank := by
        rcases hw with ⟨-, hw⟩ | ⟨-, hw⟩ <;> rw [hw] <;> decide
      refine rank_move (w := w) (x := .handling b) rfl ?_
      show 7 + 7 * queue.jobs.length + 1 ≤ _
      omega
  | findEmpty _ w x hw hjobs =>
      have hless : x.rank + 1 ≤ (s.worker w).rank := by
        rcases hw with ⟨-, hw, rfl⟩ | ⟨-, hw, rfl⟩ <;> rw [hw] <;> decide
      refine rank_move rfl ?_
      show x.rank + 7 * s.queue.jobs.length + 1 ≤ _
      omega
  | spurious w hw =>
      refine rank_move (w := w) (x := .woken) rfl ?_
      show 2 + 7 * s.queue.jobs.length + 1 ≤ (s.worker w).rank + 7 * s.queue.jobs.length + 3
      omega
  | lock w b hw hfree =>
      refine rank_move (w := w) (x := .locked b) rfl ?_
      rw [hw]
      show 6 + 7 * s.queue.jobs.length + 1 ≤ 7 + 7 * s.queue.jobs.length + 0
      omega
  | logSet w b hw hset =>
      refine rank_move (w := w) (x := .logged b) rfl ?_
      rw [hw]
      show 5 + 7 * s.queue.jobs.length + 1 ≤ 6 + 7 * s.queue.jobs.length + 0
      omega
  | insert w b hw =>
      refine rank_move (w := w) (x := .served b none) rfl ?_
      rw [hw]
      show 4 + 7 * s.queue.jobs.length + 1 ≤ 5 + 7 * s.queue.jobs.length + 0
      omega
  | get w b hw hget =>
      refine rank_move (w := w) (x := .served b _) rfl ?_
      rw [hw]
      show 4 + 7 * s.queue.jobs.length + 1 ≤ 6 + 7 * s.queue.jobs.length + 0
      omega
  | unlock w b found hw =>
      refine rank_move (w := w) (x := .replying b found) rfl ?_
      rw [hw]
      show 3 + 7 * s.queue.jobs.length + 1 ≤ 4 + 7 * s.queue.jobs.length + 0
      omega
  | send w b found heap hw =>
      refine rank_move (w := w) (x := .closing b) rfl ?_
      rw [hw]
      show 2 + 7 * s.queue.jobs.length + 1 ≤ 3 + 7 * s.queue.jobs.length + 0
      omega
  | close w b hw =>
      refine rank_move (w := w) (x := .checking) rfl ?_
      rw [hw]
      show 1 + 7 * s.queue.jobs.length + 1 ≤ 2 + 7 * s.queue.jobs.length + 0
      omega

theorem hashThreads_ranks (n : Nat) (table : Table) (log : List UInt8) :
    (hashThreads n table log).Ranks (fun s => s.queue.WF) 1 HashAct.gain rank :=
  { keeps := fun _ _ _ hs hstep => (step_spec hs hstep).2
    pays := fun _ _ _ hs hstep => rank_step (step_spec hs hstep).1 }

theorem sum_gain (as : List (HashAct n)) :
    (as.map HashAct.gain).sum =
      10 * as.countP HashAct.isCall + 3 * as.countP HashAct.isSpurious := by
  induction as with
  | nil => rfl
  | cons a rest ih =>
      rw [List.map_cons, List.sum_cons, ih, List.countP_cons, List.countP_cons, HashAct.gain]
      omega

/-- Where nothing is left to do for the threads, all of them sleep: one of them could
go on otherwise, with the mutex or to it. -/
theorem sleeping_of_stuck {s : HashThreads n} (hs : (hashThreads n table log).Reachable s)
    (hprintable : s.Printable) (hstuck : (hashThreads n table log).Stuck HashAct.Inner s)
    (w : Fin n) : s.worker w = .sleeping := by
  have hno : ∀ a, a.Inner → s.step a = none := hstuck
  have hwf := reachable_wf hs
  have hflag : ∀ w b, s.worker w = .locked b →
      b.block.data.operFlg = 0 ∨ b.block.data.operFlg = 1 := by
    intro w b hw
    obtain ⟨⟨r, hr⟩, -⟩ := (reachable_known hs).worker w b (by rw [hw]; rfl)
    rw [hr]
    cases r with
    | get key => exact Or.inl rfl
    | set r => exact Or.inr rfl
  -- the mutex is free
  have hfree : s.hashHolder = none := by
    by_contra hne
    obtain ⟨v, hv⟩ := Option.ne_none_iff_exists'.mp hne
    have hinside := (reachable_exclusive hs v).mpr hv
    cases hw : s.worker v with
    | locked b =>
        rcases hflag v b hw with hget | hset
        · have hnone := hno (.get v) trivial
          simp [step, hw, hget] at hnone
        · have hnone := hno (.logSet v) trivial
          simp [step, hw, hset] at hnone
    | logged b =>
        have hnone := hno (.insert v) trivial
        simp [step, hw] at hnone
    | served b found =>
        have hnone := hno (.unlock v) trivial
        simp [step, hw] at hnone
    | _ => simp [hw, HashWorker.inside] at hinside
  cases hw : s.worker w with
  | sleeping => rfl
  | checking =>
      have hnone := hno (.check w) trivial
      rw [step, if_pos hw] at hnone
      rcases take_spec hwf w .sleeping with ⟨-, ht⟩ | ⟨b, queue, -, -, ht⟩ <;>
        simp [hnone] at ht
  | woken =>
      have hnone := hno (.resume w) trivial
      rw [step, if_pos hw] at hnone
      rcases take_spec hwf w .checking with ⟨-, ht⟩ | ⟨b, queue, -, -, ht⟩ <;>
        simp [hnone] at ht
  | handling b =>
      have hnone := hno (.lock w) trivial
      simp [step, hw, hfree] at hnone
  | replying b found =>
      have hsome : (clientMsg b found []).bytes.isSome = true :=
        isSome_clientMsg (fun node hnode => hprintable.found w b node (Or.inr (hnode ▸ hw))) []
      have hnone := hno (.send w []) trivial
      simp only [step, hw, if_pos hsome] at hnone
      cases hnone
  | closing b =>
      have hnone := hno (.close w) trivial
      simp [step, hw] at hnone
  | _ =>
      have hinside := (reachable_exclusive hs w).mp (by rw [hw]; rfl)
      rw [hfree] at hinside
      cases hinside

/-- Sleeping threads leave an empty queue behind. -/
theorem jobs_of_sleeping {s : HashThreads n} (hs : (hashThreads n table log).Reachable s)
    (hn : 0 < n) (hsleep : ∀ w, s.worker w = .sleeping) : s.queue.jobs = [] := by
  obtain ⟨p, hp, hshadow⟩ := reachable_shadow hs
  have hpool : ∀ w, p.worker w = .sleeping := fun w => by
    rw [hshadow.worker w, hsleep w]
    rfl
  have hfds := Pool.fds_of_sleeping (Pool.Inv.of_reachable hp) hn hpool
  rw [hshadow.queue, List.map_eq_nil_iff] at hfds
  exact hfds

/-- The requests are the calls of the run. -/
theorem calls_of_exec {s t : HashThreads n} (hs : s.queue.WF) {as : List (HashAct n)}
    (hrun : (hashThreads n table log).exec s as = some t) :
    t.calls = s.calls + as.countP HashAct.isCall := by
  induction as generalizing s with
  | nil =>
      obtain rfl : s = t := Option.some.inj hrun
      rfl
  | cons a rest ih =>
      obtain ⟨s', hstep, -, hrest⟩ := System.runVia_cons_eq_some.mp hrun
      obtain ⟨hs', hwf⟩ := step_spec hs hstep
      have hcalls : s'.calls = s.calls + if a.isCall then 1 else 0 := by
        cases hs' with
        | enqueueHash r clientFd wakes queue hwake hjobs => cases wakes <;> rfl
        | takeJob _ w b queue hw hjobs => rcases hw with ⟨rfl, -⟩ | ⟨rfl, -⟩ <;> rfl
        | findEmpty _ w x hw hjobs => rcases hw with ⟨rfl, -⟩ | ⟨rfl, -⟩ <;> rfl
        | _ => rfl
      rw [ih hwf hrest, hcalls, List.countP_cons]
      omega

/-- Nobody has anything to do. -/
theorem stuck_of_sleeping {s : HashThreads n} (h : ∀ w, s.worker w = .sleeping) :
    (hashThreads n table log).Stuck HashAct.Inner s := by
  intro a ha
  show s.step a = none
  cases a with
  | enqueueHash r clientFd wakes => exact ha.elim
  | spurious w => exact ha.elim
  | _ => simp [step, h]

/-- The key `A` with a value of three bytes. -/
def setOfA : SetRequest := ⟨Str.ofBytes [65], 1, Str.ofBytes [13, 10, 113], by decide⟩

/-- The threads of a pool of two. -/
def w₀ : Fin 2 := ⟨0, Nat.two_pos⟩

def w₁ : Fin 2 := ⟨1, Nat.one_lt_two⟩

/-- While the first thread writes the record of a set, a get of the same key is queued, and
the second waits for the mutex with it. -/
def setThenGet : List (HashAct 2) :=
  [.check w₀, .check w₁, .enqueueHash (.set setOfA) 7 (some w₀), .resume w₀, .lock w₀, .logSet w₀,
    .enqueueHash (.get setOfA.key) 8 (some w₁), .resume w₁, .insert w₀, .unlock w₀, .lock w₁,
    .send w₀ [], .get w₁, .unlock w₁, .send w₁ [], .close w₁, .close w₀, .check w₀, .check w₁]

/-- Where nothing is left to do, everything is done. -/
theorem answered_of_stuck (hn : 0 < n) {as : List (HashAct n)} {s : HashThreads n}
    (hrun : (hashThreads n table log).exec (init n table log) as = some s)
    (hprintable : s.Printable) (hstuck : (hashThreads n table log).Stuck HashAct.Inner s) :
    ∀ i < as.countP HashAct.isCall,
      s.trace.countP (isAnswer i) = 1 ∧ (s.closed.countP fun b => b.id = i) = 1 := by
  have hs : (hashThreads n table log).Reachable s := System.reachable_of_exec hrun
  have hsleep := sleeping_of_stuck hs hprintable hstuck
  have hall := (reachable_ledger hs).allAnswered (fun w => by rw [hsleep w]; rfl)
    (jobs_of_sleeping hs hn hsleep)
  have hcalls := calls_of_exec HashQueue.empty_wf hrun
  intro i hi
  refine hall i ?_
  rw [hcalls]
  exact Nat.lt_of_lt_of_le hi (Nat.le_add_left _ _)

end HashThreads

end DistKv.Memcache
