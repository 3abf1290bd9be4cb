import DistKv.Memcache.HashAtomic

/-!
# The log of the hash threads, and the workers of `Server.lean`

A set is written to the log before its node is inserted, and both happen under
one mutex. So the log is always the records of the sets that took effect, in
that order, and of at most one more (`reachable_log`). Every set that was
answered is in it (`answered_set_mem`).

`Server.lean` handles a node in one step. Every run of the threads is one of
those workers, with the same table, queue and replies (`reachable_refines`), so
what is proved about them holds of the threads.
-/

namespace DistKv.Memcache

open CText History Linearizable Transition

variable {n : Nat} {table : Table} {log : List UInt8}

/-- The sets among operations. -/
def setsAmong (l : List (Nat × NodeHash)) : List KvNode :=
  (l.map fun x => x.2.data).filter fun node => node.operFlg = 1

theorem setsAmong_append_singleton (l : List (Nat × NodeHash)) (i : Nat) (b : NodeHash) :
    setsAmong (l ++ [(i, b)]) = setsAmong l ++ if b.data.operFlg = 1 then [b.data] else [] := by
  by_cases h : b.data.operFlg = 1 <;> simp [setsAmong, h]

namespace HashThreads

/-! ## The log -/

/-- A set whose record is written and whose node is not inserted yet. -/
def unfinished (s : HashThreads n) : List KvNode :=
  match s.hashHolder with
  | none => []
  | some w =>
      match s.worker w with
      | .logged b => [b.block.data]
      | _ => []

/-- The sets with a record in the log. -/
def written (s : HashThreads n) : List KvNode := setsAmong (commits s.trace) ++ s.unfinished

theorem unfinished_of_ne {s : HashThreads n} {w : Fin n} (hholder : s.hashHolder = some w)
    (h : ∀ b, s.worker w ≠ .logged b) : s.unfinished = [] := by
  unfold unfinished
  rw [hholder]
  dsimp only
  split
  · rename_i b hb
    exact absurd hb (h b)
  · rfl

theorem unfinished_of_logged {s : HashThreads n} {w : Fin n} {b : Job}
    (hholder : s.hashHolder = some w) (hw : s.worker w = .logged b) :
    s.unfinished = [b.block.data] := by
  unfold unfinished
  rw [hholder]
  dsimp only
  rw [hw]

/-- A thread that logs nothing moves. -/
theorem unfinished_set {s s' : HashThreads n} {w : Fin n} {x : HashWorker}
    (hworker : s'.worker = (s.set w x).worker) (hholder : s'.hashHolder = s.hashHolder)
    (hw : ∀ b, s.worker w ≠ .logged b) (hx : ∀ b, x ≠ .logged b) :
    s'.unfinished = s.unfinished := by
  cases hs : s.hashHolder with
  | none => simp only [unfinished, hholder, hs]
  | some v =>
      by_cases hvw : v = w
      · subst hvw
        rw [unfinished_of_ne hs hw, unfinished_of_ne (hholder.trans hs)]
        intro b
        rw [hworker, worker_set_self]
        exact hx b
      · simp only [unfinished, hholder, hs, hworker, worker_set_ne hvw]

/-- The log is the log at the start and the records of what is written since. -/
def Logged (log : List UInt8) (s : HashThreads n) : Prop :=
  s.log = log ++ s.written.flatMap logRecord

theorem Logged.of_eq {s s' : HashThreads n} (h : s.Logged log) (hlog : s'.log = s.log)
    (hcommits : commits s'.trace = commits s.trace) (hunfinished : s'.unfinished = s.unfinished) :
    s'.Logged log := by
  unfold Logged written
  rw [hlog, hcommits, hunfinished]
  exact h

/-- A request takes effect: a set was written before. -/
theorem Logged.commit {s s' : HashThreads n} (h : s.Logged log) {b : Job} (hlog : s'.log = s.log)
    (htrace : s'.trace = s.trace ++ [Event.commit b.id b.block])
    (hold : s.unfinished = if b.block.data.operFlg = 1 then [b.block.data] else [])
    (hnew : s'.unfinished = []) : s'.Logged log := by
  have hcommits : commits s'.trace = commits s.trace ++ [(b.id, b.block)] := by
    rw [htrace, commits_commit]
  unfold Logged written at h ⊢
  rw [hlog, hcommits, setsAmong_append_singleton, hnew, List.append_nil, ← hold]
  exact h

theorem Logged.step {s s' : HashThreads n} {a : HashAct n} (h : s.Logged log) (hmutex : s.Exclusive)
    (hflag : s.Flagged) (hstep : HashStep s a s') : s'.Logged log := by
  cases hstep with
  | enqueueHash r clientFd wakes queue hwake hjobs =>
      have hcommits : commits (s.trace ++ [Event.call s.calls (NodeHash.mk r.node clientFd)]) =
          commits s.trace := commits_call ..
      cases wakes with
      | none => exact h.of_eq rfl hcommits rfl
      | some w =>
          have hw : s.worker w = .sleeping := hwake
          exact h.of_eq rfl hcommits
            (unfinished_set (w := w) (x := .woken) rfl rfl (by simp [hw]) (by simp))
  | takeJob _ w b queue hw hjobs =>
      refine h.of_eq rfl rfl (unfinished_set (w := w) (x := .handling b) rfl rfl ?_ (by simp))
      rcases hw with ⟨-, hw⟩ | ⟨-, hw⟩ <;> simp [hw]
  | findEmpty _ w x hw hjobs =>
      refine h.of_eq rfl rfl (unfinished_set (w := w) (x := x) rfl rfl ?_ ?_) <;>
        rcases hw with ⟨-, hw, rfl⟩ | ⟨-, hw, rfl⟩ <;> simp [hw]
  | spurious w hw =>
      exact h.of_eq rfl rfl (unfinished_set (w := w) (x := .woken) rfl rfl (by simp [hw]) (by simp))
  | lock w b hw hfree =>
      refine h.of_eq rfl rfl ?_
      rw [unfinished_of_ne rfl (by simp [worker_set_self])]
      simp only [unfinished, hfree]
  | logSet w b hw hset =>
      have hholder : s.hashHolder = some w := (hmutex w).mp (by rw [hw]; rfl)
      have hold : s.unfinished = [] := unfinished_of_ne hholder (by simp [hw])
      have hnew : unfinished (({ s with log := s.log ++ logRecord b.block.data } :
          HashThreads n).set w (.logged b)) = [b.block.data] :=
        unfinished_of_logged hholder (worker_set_self ..)
      unfold Logged written at h ⊢
      rw [hold, List.append_nil] at h
      rw [hnew, List.flatMap_append, List.flatMap_singleton, ← List.append_assoc]
      exact congrArg (· ++ logRecord b.block.data) h
  | insert w b hw =>
      have hholder : s.hashHolder = some w := (hmutex w).mp (by rw [hw]; rfl)
      refine h.commit (b := b) rfl rfl ?_ (unfinished_of_ne hholder (by simp))
      rw [if_pos (hflag w b hw)]
      exact unfinished_of_logged hholder hw
  | get w b hw hget =>
      have hholder : s.hashHolder = some w := (hmutex w).mp (by rw [hw]; rfl)
      refine h.commit (b := b) rfl rfl ?_ (unfinished_of_ne hholder (by simp))
      rw [if_neg (by rw [hget]; decide)]
      exact unfinished_of_ne hholder (by simp [hw])
  | unlock w b found hw =>
      have hholder : s.hashHolder = some w := (hmutex w).mp (by rw [hw]; rfl)
      refine h.of_eq rfl rfl ?_
      rw [unfinished_of_ne hholder (by simp [hw])]
      rfl
  | send w b found heap hw =>
      refine h.of_eq rfl ?_
        (unfinished_set (w := w) (x := .closing b) rfl rfl (by simp [hw]) (by simp))
      exact commits_answer ..
  | close w b hw =>
      exact h.of_eq rfl rfl
        (unfinished_set (w := w) (x := .checking) rfl rfl (by simp [hw]) (by simp))

/-- **The log is written ahead**: it is the records of the sets that took effect, in the
order in which they did, and of at most one that has yet to. -/
theorem reachable_log {s : HashThreads n} (h : (hashThreads n table log).Reachable s) :
    s.log = log ++ s.written.flatMap logRecord := by
  refine System.ReachableVia.invariant (P := Logged log) ?_ ?_ s h
  · exact (List.append_nil log).symm
  · intro s a s' hs hlogged hstep _
    exact hlogged.step (reachable_exclusive hs) (reachable_flagged hs)
      (step_spec (reachable_wf hs) hstep).1

/-- What is in the table was put there by the sets that took effect. -/
def Inserted (table : Table) (s : HashThreads n) : Prop :=
  s.table = (setsAmong (commits s.trace)).foldl Table.insertNode table

theorem Inserted.of_eq {s s' : HashThreads n} (h : s.Inserted table) (htable : s'.table = s.table)
    (hcommits : commits s'.trace = commits s.trace) : s'.Inserted table := by
  unfold Inserted
  rw [htable, hcommits]
  exact h

theorem Inserted.step {s s' : HashThreads n} {a : HashAct n} (h : s.Inserted table)
    (hflag : s.Flagged) (hstep : HashStep s a s') : s'.Inserted table := by
  cases hstep with
  | enqueueHash r clientFd wakes queue hwake hjobs =>
      have hcommits := commits_call s.trace s.calls (NodeHash.mk r.node clientFd)
      cases wakes with
      | none => exact h.of_eq rfl hcommits
      | some w => exact h.of_eq rfl hcommits
  | insert w b hw =>
      show s.table.insertNode b.block.data =
        (setsAmong (commits (s.trace ++ _))).foldl Table.insertNode table
      rw [commits_commit, setsAmong_append_singleton, if_pos (hflag w b hw), List.foldl_append, ← h]
      rfl
  | get w b hw hget =>
      show s.table = (setsAmong (commits (s.trace ++ _))).foldl Table.insertNode table
      rw [commits_commit, setsAmong_append_singleton, if_neg (by rw [hget]; decide),
        List.append_nil]
      exact h
  | send w b found heap hw => exact h.of_eq rfl (commits_answer ..)
  | _ => exact h

theorem reachable_inserted {s : HashThreads n} (h : (hashThreads n table log).Reachable s) :
    s.table = (setsAmong (commits s.trace)).foldl Table.insertNode table := by
  refine System.ReachableVia.invariant (P := Inserted table) ?_ ?_ s h
  · show table = _
    rfl
  · intro s a s' hs hinserted hstep _
    exact hinserted.step (reachable_flagged hs) (step_spec (reachable_wf hs) hstep).1

/-- What is written was called. -/
theorem called_of_written {s : HashThreads n} (h : (hashThreads n table log).Reachable s)
    {node : KvNode} (hnode : node ∈ s.written) :
    ∃ i b, Event.call i b ∈ s.trace ∧ b.data = node ∧ b.data.operFlg = 1 := by
  rcases List.mem_append.mp hnode with hnode | hnode
  · obtain ⟨hmem, hset⟩ := List.mem_filter.mp hnode
    obtain ⟨x, hx, rfl⟩ := List.mem_map.mp hmem
    exact ⟨x.1, x.2, called_of_commits (reachable_timely h).timed x hx, rfl, of_decide_eq_true hset⟩
  · unfold unfinished at hnode
    split at hnode
    · cases hnode
    · rename_i w hw
      split at hnode
      · rename_i b hb
        obtain rfl := List.mem_singleton.mp hnode
        exact ⟨b.id, b.block, ((reachable_known h).worker w b (by rw [hb]; rfl)).2, rfl,
          reachable_flagged h w b hb⟩
      · cases hnode

/-- A set that was answered has taken effect. -/
theorem answered_set_mem {s : HashThreads n} (h : (hashThreads n table log).Reachable s) {i : Nat}
    {b : NodeHash} {r : Sent} (hcall : Event.call i b ∈ s.trace) (hans : Event.answer i r ∈ s.trace)
    (hset : b.data.operFlg = 1) : b.data ∈ setsAmong (commits s.trace) := by
  have htimed := (reachable_timely h).timed
  obtain ⟨⟨i', b'⟩, hmem, rfl⟩ := List.mem_map.mp (mem_commits_of_answer htimed hans)
  obtain rfl := call_unique htimed hcall (called_of_commits htimed _ hmem)
  exact List.mem_filter.mpr ⟨List.mem_map.mpr ⟨(i', b), hmem, rfl⟩, decide_eq_true hset⟩

end HashThreads

/-! ## The workers of `Server.lean` -/

/-- The node a thread has yet to handle. -/
def HashWorker.taken : HashWorker → Multiset KvNode
  | .handling b | .locked b | .logged b => {b.block.data}
  | _ => 0

/-- Requests handled one after the other, with their replies. -/
def servedFrom (t : Table) : List (Nat × NodeHash) → List Served
  | [] => []
  | x :: rest =>
      ⟨x.2.data, (handleHash t [] x.2.data []).reply⟩ ::
        servedFrom (handleHash t [] x.2.data []).table rest

theorem servedFrom_append_singleton (t : Table) (l : List (Nat × NodeHash)) (x : Nat × NodeHash) :
    servedFrom t (l ++ [x]) = servedFrom t l ++
      [⟨x.2.data, ((hashSpec t).response ((hashSpec t).after l) x.2).bytes⟩] := by
  induction l generalizing t with
  | nil => rfl
  | cons y rest ih =>
      show _ :: servedFrom _ (rest ++ [x]) = _ :: (servedFrom _ rest ++ _)
      rw [ih]
      rfl

theorem sets_servedFrom (t : Table) (l : List (Nat × NodeHash)) :
    sets (servedFrom t l) = setsAmong l := by
  have hnodes : (servedFrom t l).map Served.node = l.map fun x => x.2.data := by
    induction l generalizing t with
    | nil => rfl
    | cons x rest ih =>
        show _ :: _ = _ :: _
        rw [ih]
  rw [sets, hnodes, setsAmong]

/-- The reply and the table do not depend on the log. -/
theorem handleHash_log (t : Table) (log : List UInt8) (node : KvNode) (heap : List UInt8) :
    (handleHash t log node heap).reply = (handleHash t [] node heap).reply ∧
      (handleHash t log node heap).table = (handleHash t [] node heap).table := by
  unfold handleHash
  split
  · split <;> exact ⟨rfl, rfl⟩
  · split <;> exact ⟨rfl, rfl⟩

namespace HashThreads

/-- The workers of `Server.lean` are where the threads are. -/
structure Refines (s : HashThreads n) (c : State) : Prop where
  table : c.table = s.table
  queue : c.queue = s.queue.jobs.map fun b => b.block.data
  taken : (c.taken : Multiset KvNode) = ∑ w, (s.worker w).taken
  served : c.served = servedFrom Table.empty (commits s.trace)

theorem taken_set (s : HashThreads n) (w : Fin n) (x : HashWorker) :
    ∑ v, ((s.set w x).worker v).taken + (s.worker w).taken =
      ∑ v, (s.worker v).taken + x.taken :=
  sum_update s.worker HashWorker.taken w x

/-- A thread moves and the workers stay. -/
theorem Refines.stutter {s s' : HashThreads n} {c : State} (h : s.Refines c) {w : Fin n}
    {x : HashWorker} (hworker : s'.worker = (s.set w x).worker) (htable : s'.table = s.table)
    (hqueue : s'.queue = s.queue) (hcommits : commits s'.trace = commits s.trace)
    (hx : x.taken = (s.worker w).taken) : s'.Refines c := by
  refine ⟨h.table.trans htable.symm, by rw [hqueue]; exact h.queue, ?_, by
    rw [hcommits]; exact h.served⟩
  have hsum := taken_set s w x
  rw [hx, add_left_inj] at hsum
  rw [h.taken, hworker, hsum]

/-- A thread that has no node leaves room among the workers. -/
theorem Refines.length_lt {s : HashThreads n} {c : State} (h : s.Refines c) {w : Fin n}
    (hw : (s.worker w).taken = 0) : c.taken.length < n := by
  have hone : ∀ v ∈ Finset.univ, Multiset.card (s.worker v).taken ≤ 1 := fun v _ => by
    cases s.worker v <;> simp [HashWorker.taken]
  have hlt : ∑ v, Multiset.card (s.worker v).taken < ∑ _v : Fin n, 1 :=
    Finset.sum_lt_sum hone ⟨w, Finset.mem_univ w, by rw [hw]; exact Nat.one_pos⟩
  rw [← Multiset.coe_card, h.taken, Multiset.card_sum]
  simpa using hlt

/-- A request takes effect: a worker handles its node. -/
theorem Refines.commit {s s' : HashThreads n} {c : State} (h : s.Refines c) {w : Fin n} {b : Job}
    {found : Option KvNode} (hw : (s.worker w).taken = {b.block.data})
    (hworker : s'.worker = (s.set w (.served b found)).worker)
    (hqueue : s'.queue = s.queue)
    (htrace : s'.trace = s.trace ++ [Event.commit b.id b.block])
    (htable : s'.table = (hashSpec Table.empty).next s.table b.block)
    (hafter : s.table = (hashSpec Table.empty).after (commits s.trace)) :
    ∃ i c', Memcache.step c (.handleHash i []) = some c' ∧ s'.Refines c' := by
  have hsum := taken_set s w (.served b found)
  rw [hw] at hsum
  change _ = ∑ v, (s.worker v).taken + 0 at hsum
  rw [add_zero, ← h.taken] at hsum
  have hmem : b.block.data ∈ c.taken := by
    rw [← Multiset.mem_coe, ← hsum]
    exact Multiset.mem_add.mpr (Or.inr (Multiset.mem_singleton_self _))
  obtain ⟨i, hi, hget⟩ := List.mem_iff_getElem.mp hmem
  have hperm := List.getElem_cons_eraseIdx_perm hi
  have hcommits : commits s'.trace = commits s.trace ++ [(b.id, b.block)] := by
    rw [htrace, commits_commit]
  obtain ⟨hreply, htab⟩ := handleHash_log c.table c.log b.block.data []
  let handled := handleHash c.table c.log b.block.data []
  refine ⟨i, { c with
    table := handled.table
    log := handled.log
    taken := c.taken.eraseIdx i
    served := c.served ++ [⟨b.block.data, handled.reply⟩] }, ?_, ?_⟩
  · rw [Memcache.step, List.getElem?_eq_getElem hi, hget, Option.map_some]
  · refine ⟨?_, ?_, ?_, ?_⟩
    · show (handleHash c.table c.log b.block.data []).table = s'.table
      rw [htab, htable, h.table]
      rfl
    · show c.queue = _
      rw [hqueue]
      exact h.queue
    · show ((c.taken.eraseIdx i : List KvNode) : Multiset KvNode) = _
      rw [hworker]
      have hcoe : ((c.taken.eraseIdx i : List KvNode) : Multiset KvNode) + {b.block.data} =
          c.taken := by
        rw [add_comm, Multiset.singleton_add, Multiset.cons_coe, ← hget]
        exact Multiset.coe_eq_coe.mpr hperm
      exact (add_left_injective {b.block.data} (hsum.trans hcoe.symm)).symm
    · show c.served ++ [⟨b.block.data, (handleHash c.table c.log b.block.data []).reply⟩] = _
      rw [hcommits, servedFrom_append_singleton, ← h.served, hreply, h.table, hafter]
      rfl

/-- One step of the threads is one of the workers, or none. -/
theorem refines_step {s s' : HashThreads hashPool} {c : State} (h : s.Refines c)
    (hflag : s.Flagged) (hafter : s.table = (hashSpec Table.empty).after (commits s.trace))
    {a : HashAct hashPool} (hstep : HashStep s a s') :
    ∃ c', s'.Refines c' ∧ (c' = c ∨ (∃ i, Memcache.step c (.handleHash i []) = some c') ∨
      Memcache.step c .dequeueHash = some c' ∨
      ∃ r fd wakes, a = .enqueueHash r fd wakes ∧
        Memcache.step c (.enqueueHash r) = some c') := by
  cases hstep with
  | enqueueHash r clientFd wakes queue hwake hjobs =>
      have hcommits : commits (s.trace ++ [Event.call s.calls (NodeHash.mk r.node clientFd)]) =
          commits s.trace := commits_call ..
      have hcall : Refines { s with
          queue, calls := s.calls + 1
          trace := s.trace ++ [Event.call s.calls (NodeHash.mk r.node clientFd)] }
          { c with queue := c.queue ++ [r.node] } := by
        refine ⟨h.table, ?_, h.taken, ?_⟩
        · show c.queue ++ [r.node] = queue.jobs.map _
          rw [hjobs, List.map_append, h.queue]
          rfl
        · show c.served = servedFrom _ (commits (s.trace ++ _))
          rw [hcommits]
          exact h.served
      refine ⟨_, ?_, Or.inr (Or.inr (Or.inr ⟨r, clientFd, wakes, rfl, rfl⟩))⟩
      cases wakes with
      | none => exact hcall
      | some w =>
          have hw : s.worker w = .sleeping := hwake
          exact hcall.stutter (w := w) (x := .woken) rfl rfl rfl rfl
            (show _ = (s.worker w).taken by rw [hw]; rfl)
  | takeJob _ w b queue hw hjobs =>
      have hdoor : (s.worker w).taken = 0 := by
        rcases hw with ⟨-, hw⟩ | ⟨-, hw⟩ <;> rw [hw] <;> rfl
      have hqueue : c.queue = b.block.data :: queue.jobs.map fun b => b.block.data := by
        rw [h.queue, hjobs, List.map_cons]
      have hsum := taken_set s w (.handling b)
      rw [hdoor, add_zero] at hsum
      refine ⟨{ c with queue := queue.jobs.map fun b => b.block.data
                       taken := c.taken ++ [b.block.data] }, ?_, Or.inr (Or.inr (Or.inl ?_))⟩
      · refine ⟨h.table, rfl, ?_, h.served⟩
        show ((c.taken ++ [b.block.data] : List KvNode) : Multiset KvNode) = _
        rw [← Multiset.coe_add, h.taken]
        exact hsum.symm
      · simp only [Memcache.step, hqueue]
        rw [if_pos (h.length_lt hdoor)]
  | findEmpty _ w x hw hjobs =>
      refine ⟨c, h.stutter (w := w) (x := x) rfl rfl rfl rfl ?_, Or.inl rfl⟩
      rcases hw with ⟨-, hw, rfl⟩ | ⟨-, hw, rfl⟩ <;> rw [hw] <;> rfl
  | spurious w hw =>
      exact ⟨c, h.stutter (w := w) (x := .woken) rfl rfl rfl rfl (by rw [hw]; rfl), Or.inl rfl⟩
  | lock w b hw hfree =>
      exact ⟨c, h.stutter (w := w) (x := .locked b) rfl rfl rfl rfl (by rw [hw]; rfl), Or.inl rfl⟩
  | logSet w b hw hset =>
      exact ⟨c, h.stutter (w := w) (x := .logged b) rfl rfl rfl rfl (by rw [hw]; rfl), Or.inl rfl⟩
  | insert w b hw =>
      obtain ⟨i, c', hc', hr⟩ : ∃ i c', Memcache.step c (.handleHash i []) = some c' ∧
          Refines ({ s with
            table := s.table.insertNode b.block.data
            trace := s.trace ++ [Event.commit b.id b.block] }.set w (.served b none)) c' :=
        h.commit (w := w) (by rw [hw]; rfl) (by rfl) (by rfl) (by rfl)
          (next_of_set (hflag w b hw)).symm hafter
      exact ⟨c', hr, Or.inr (Or.inl ⟨i, hc'⟩)⟩
  | get w b hw hget =>
      obtain ⟨i, c', hc', hr⟩ : ∃ i c', Memcache.step c (.handleHash i []) = some c' ∧
          Refines ({ s with trace := s.trace ++ [Event.commit b.id b.block] }.set w
            (.served b (s.table.getNode b.block.data.key))) c' :=
        h.commit (w := w) (by rw [hw]; rfl) (by rfl) (by rfl) (by rfl)
          (by exact (next_of_get hget).symm) hafter
      exact ⟨c', hr, Or.inr (Or.inl ⟨i, hc'⟩)⟩
  | unlock w b found hw =>
      exact ⟨c, h.stutter (w := w) (x := .replying b found) rfl rfl rfl rfl (by rw [hw]; rfl),
        Or.inl rfl⟩
  | send w b found heap hw =>
      refine ⟨c, h.stutter (w := w) (x := .closing b) rfl rfl rfl ?_ (by rw [hw]; rfl), Or.inl rfl⟩
      exact commits_answer ..
  | close w b hw =>
      exact ⟨c, h.stutter (w := w) (x := .checking) rfl rfl rfl rfl (by rw [hw]; rfl), Or.inl rfl⟩

/-- The requests that are queued are of a kind. -/
def Queues (Q : Request → Prop) (_ : HashThreads n) (a : HashAct n) (_ : HashThreads n) : Prop :=
  ∀ r fd wakes, a = .enqueueHash r fd wakes → Q r

/-- **The threads refine the workers.** Every state of the threads is one of the workers of
`Server.lean`, after the same requests: with the same table and the same nodes queued,
with the nodes taken that the threads have yet to handle, and with the requests served
in the order in which they took effect. The log is theirs, but for a set that is
written and not inserted yet. -/
theorem reachable_refines {Q : Request → Prop} {s : HashThreads hashPool}
    (h : (hashThreads hashPool Table.empty []).ReachableVia (Queues Q) s) :
    ∃ c, server.ReachableVia (fun _ a _ => ∀ r, a = .enqueueHash r → Q r) c ∧ s.Refines c ∧
      s.log = c.log ++ s.unfinished.flatMap logRecord := by
  have hempty : Table.empty.WellFormed := ⟨Table.empty.placed, by simp [Table.empty]⟩
  suffices hc : ∃ c, server.ReachableVia (fun _ a _ => ∀ r, a = .enqueueHash r → Q r) c ∧
      s.Refines c by
    obtain ⟨c, hreach, hrefines⟩ := hc
    refine ⟨c, hreach, hrefines, ?_⟩
    rw [reachable_log h.reachable, (reachable_inv hreach).log, hrefines.served, sets_servedFrom,
      written, List.flatMap_append]
    rfl
  refine System.ReachableVia.invariant
    (P := fun s => ∃ c, server.ReachableVia (fun _ a _ => ∀ r, a = .enqueueHash r → Q r) c ∧
      s.Refines c) ?_ ?_ s h
  · refine ⟨Memcache.init, .init, rfl, rfl, ?_, rfl⟩
    exact (Finset.sum_eq_zero fun w _ => rfl).symm
  · intro s a s' hs hex hstep hQ
    obtain ⟨c, hc, hr⟩ := hex
    obtain ⟨c', hr', hcase⟩ := refines_step hr (reachable_flagged hs.reachable)
      (reachable_follows hempty hs.reachable).table_eq
      (step_spec (reachable_wf hs.reachable) hstep).1
    refine ⟨c', ?_, hr'⟩
    rcases hcase with rfl | ⟨i, hi⟩ | hdeq | ⟨r, fd, wakes, rfl, henq⟩
    · exact hc
    · exact .step (a := Act.handleHash i []) hc hi (by simp)
    · exact .step (a := Act.dequeueHash) hc hdeq (by simp)
    · refine .step (a := Act.enqueueHash r) hc henq fun r' hr' => ?_
      obtain rfl := Act.enqueueHash.inj hr'
      exact hQ r fd wakes rfl

/-- A thread has written the record of a set. -/
def loggedRun : List (HashAct hashPool) :=
  let first : Fin hashPool := ⟨0, by decide⟩
  [.enqueueHash (.set setOfA) 7 none, .check first, .lock first, .logSet first]

theorem loggedRun_refines :
    ((hashThreads hashPool Table.empty []).endOf loggedRun).unfinished.length = 1 ∧
      ∃ c, server.ReachableVia (fun _ a _ => ∀ r, a = .enqueueHash r → True) c ∧
        ((hashThreads hashPool Table.empty []).endOf loggedRun).Refines c ∧
        ((hashThreads hashPool Table.empty []).endOf loggedRun).log =
          c.log ++ ((hashThreads hashPool Table.empty []).endOf loggedRun).unfinished.flatMap
            logRecord :=
  ⟨by decide +kernel, reachable_refines ((System.endOf_reachable loggedRun).mono
    fun _ _ _ _ _ _ _ _ => trivial)⟩

end HashThreads

end DistKv.Memcache
