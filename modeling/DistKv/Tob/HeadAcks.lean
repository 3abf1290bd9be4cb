import DistKv.Tob.Quiescence

/-!
# Is the head acknowledged? (`check_and_ack_head`)

A message is acknowledged when it is at the head of the queue. `handle_broadcast`
looks at the head after it sorted the queue, and `handle_ready` does not: where it
takes the head out, the message behind it moves up, and is acknowledged only if it
was at the head before.
-/

namespace DistKv.Tob

open FirstMatch

variable {n : Nat}

/-- Between two handlers the head of a process is flagged, and its ACK was sent. -/
def HeadsAcked (s : State n) : Prop :=
  ∀ p, (s.procs p).pending = [] → ∀ head ∈ (s.procs p).queue.nodes.head?,
    head.ackFlg = true ∧ ∃ e ∈ s.trace, e.isAcked p head.mid = true

/-- A READY for the head finds a flagged node behind it, or none. -/
def PromotesFlagged (uid : UInt32) (nodes : List Node) : Prop :=
  ∀ head next rest, nodes = head :: next :: rest → head.uid = uid → next.ackFlg = true

/-- No process handles a READY that brings a node to the head that is not flagged. -/
def KeepsHead (s : State n) (a : Act n) (_ : State n) : Prop :=
  match a with
  | .accept p k _ _ => ∀ pk, s.net[k]? = some pk → ∀ uid, pk.msg = .ready uid →
      PromotesFlagged uid (s.procs p).queue.nodes
  | _ => True

theorem bareHead_eq_false_iff {nodes : List Node} :
    bareHead nodes = false ↔ ∀ head ∈ nodes.head?, head.ackFlg = true := by
  cases nodes with
  | nil => simp [bareHead]
  | cons head rest => simp [bareHead]

theorem bareHead_eraseP_iff {uid : UInt32} {nodes : List Node} (hold : bareHead nodes = false) :
    bareHead (nodes.eraseP fun y => y.uid = uid) = false ↔ PromotesFlagged uid nodes := by
  unfold PromotesFlagged
  match nodes with
  | [] => simp [bareHead]
  | [head] =>
      refine iff_of_true ?_ (by simp)
      by_cases hu : head.uid = uid
      · simp [hu, bareHead]
      · simpa [hu] using hold
  | head :: next :: rest =>
      by_cases hu : head.uid = uid
      · simp [hu, bareHead]
      · refine iff_of_true ?_ ?_
        · simpa [hu, bareHead] using hold
        · rintro _ _ _ heq rfl
          exact absurd (List.cons.inj heq).1 (fun h => hu (by rw [h]))

/-- A handler leaves the head flagged, unless it is `handle_ready`. -/
theorem Handles.bareHead_iff {cfg : Cfg n} {p : Fin n} {fresh : Nat} {x x' : ViewProc n}
    {pk : Packet n} {events : List (Event n)} {issued : Option (Issued n)}
    (h : Handles cfg p fresh x pk x' events issued) (hwedged : x.wedged = true → x.queue = [])
    (hold : bareHead x.queue = false) :
    bareHead x'.queue = false ↔ ∀ uid, pk.msg = .ready uid → PromotesFlagged uid x.queue := by
  cases h with
  | ready uid hmsg =>
      rw [bareHead_eraseP_iff hold]
      simp [hmsg]
  | issue message hmsg => exact iff_of_true hold (by simp [hmsg])
  | hang uid pid port stamp len hmsg => exact iff_of_true hold (by simp [hmsg])
  | lose uid pid port stamp len body hmsg hw =>
      exact iff_of_true (by simp [hwedged hw, bareHead]) (by simp [hmsg])
  | enqueueAck uid pid port stamp len body buffer head rest hmsg hw hins hf =>
      exact iff_of_true (by simp [bareHead]) (by simp [hmsg])
  | enqueueQuiet uid pid port stamp len body buffer head rest hmsg hw hins hf =>
      exact iff_of_true (by simp [bareHead, hf]) (by simp [hmsg])
  | ackMiss pid uid hmsg hnone => exact iff_of_true hold (by simp [hmsg])
  | ackCount pid uid y hmsg hsome hcount =>
      exact iff_of_true ((bareHead_updateFirst (by intro; rfl) _).trans hold) (by simp [hmsg])
  | ackReady pid uid y hmsg hsome hcount =>
      exact iff_of_true ((bareHead_updateFirst (by intro; rfl) _).trans hold) (by simp [hmsg])

/-- Between two handlers the ACK of a flagged node was sent. -/
theorem acked_of_flagged {cfg : Cfg n} {s : State n} (hs : (system cfg).Reachable s) {p : Fin n}
    (hidle : (s.procs p).pending = []) {y : Node} (hy : y ∈ (s.procs p).queue.nodes)
    (hflag : y.ackFlg = true) : ∃ e ∈ s.trace, e.isAcked p y.mid = true := by
  obtain ⟨-, hled⟩ := reachable_ledgers hs
  have hqueued : 0 < queued y.mid true (s.procs p).queue.nodes :=
    List.countP_pos_iff.mpr ⟨y, hy, by simp [hflag]⟩
  have hle := (hled.queue p y.mid).queued_le
  change queued y.mid true (s.procs p).queue.nodes ≤ s.trace.countP _ at hle
  have hsent := hled.sent p y.mid
  unfold SentAcks at hsent
  change s.trace.countP _ + (s.procs p).pending.countP _ = s.trace.countP _ at hsent
  rw [hidle, List.countP_nil] at hsent
  exact List.countP_pos_iff.mp (by omega)

/-- No process has a head that is not flagged, also while it runs a handler. -/
def NoBareHead (s : State n) : Prop := ∀ p, bareHead (s.procs p).queue.nodes = false

/-- **What a step does to the heads.** -/
theorem noBareHead_step {cfg : Cfg n} {s s' : State n} {a : Act n}
    (hs : (system cfg).Reachable s) (hold : NoBareHead s) (hstep : step cfg s a = some s') :
    NoBareHead s' ↔ KeepsHead s a s' := by
  obtain ⟨hsound, -⟩ := reachable_ledgers hs
  obtain ⟨hview, -⟩ := step_view hsound hstep
  change (∀ p, bareHead (s'.view.procs p).queue = false) ↔ KeepsHead s a s'
  change ∀ p, bareHead (s.view.procs p).queue = false at hold
  -- a process that only performs an action keeps its queue
  have hperform : ∀ {p : Fin n} {x : ViewProc n}, x.queue = (s.view.procs p).queue →
      ∀ q, bareHead (Function.update s.view.procs p x q).queue = false := by
    intro p x hx q
    by_cases hq : q = p
    · subst hq
      rw [Function.update_self, hx]
      exact hold q
    · rw [Function.update_of_ne hq]
      exact hold q
  generalize s'.view = v' at hview
  cases hview with
  | client p message => exact iff_of_true hold trivial
  | accept p k got stack pk x events issued hidle hk hdst hx =>
      have hhead := hx.bareHead_iff (fun hw => Queue.nodes_of_wedged (hsound p).1 hw) (hold p)
      constructor
      · intro h pk' hk' uid hmsg
        obtain rfl := Option.some.inj (hk.symm.trans hk')
        have hp := h p
        simp only [Function.update_self] at hp
        exact hhead.mp hp uid hmsg
      · intro h q
        by_cases hq : q = p
        · subst hq
          simp only [Function.update_self]
          exact hhead.mpr (h pk hk)
        · simp only [Function.update_of_ne hq]
          exact hold q
  | sendAck p pk rest pid uid hp hmsg => exact iff_of_true (hperform rfl) trivial
  | send p pk rest hp hmsg => exact iff_of_true (hperform rfl) trivial
  | write p mid buffer rest hp => exact iff_of_true (hperform rfl) trivial
  | abort p k pk hidle hk hdst => exact iff_of_true (hperform rfl) trivial
  | drop k pk hk => exact iff_of_true hold trivial

/-- With no bare head the heads are acknowledged. -/
theorem NoBareHead.headsAcked {cfg : Cfg n} {s : State n} (h : NoBareHead s)
    (hs : (system cfg).Reachable s) : HeadsAcked s := by
  intro p hidle head hhead
  have hflag := bareHead_eq_false_iff.mp (h p) head hhead
  exact ⟨hflag, acked_of_flagged hs hidle (List.mem_of_mem_head? hhead) hflag⟩

/-- `handle_ready` has nothing to do but the removal, so what it leaves is left between
two handlers. -/
theorem keepsHead_of_headsAcked {cfg : Cfg n} {s s' : State n} {a : Act n}
    (hs : (system cfg).Reachable s) (hold : NoBareHead s) (hstep : step cfg s a = some s')
    (h : HeadsAcked s') : KeepsHead s a s' := by
  obtain ⟨hsound, -⟩ := reachable_ledgers hs
  obtain ⟨hview, -⟩ := step_view hsound hstep
  have hflagged : ∀ p, (s'.view.procs p).pending = [] →
      bareHead (s'.view.procs p).queue = false := fun p hidle =>
    bareHead_eq_false_iff.mpr fun head hhead => (h p hidle head hhead).1
  generalize s'.view = v' at hview hflagged
  cases hview with
  | accept p k got stack pk x events issued hidle hk hdst hx =>
      intro pk' hk' uid hmsg
      obtain rfl := Option.some.inj (hk.symm.trans hk')
      have hp := hflagged p
      simp only [Function.update_self] at hp
      refine (hx.bareHead_iff (fun hw => Queue.nodes_of_wedged (hsound p).1 hw) (hold p)).mp
        (hp ?_) uid hmsg
      cases hx with
      | ready uid' _ => exact hidle
      | _ => simp_all
  | _ => trivial

/-- **The head is always acknowledged** in exactly the runs in which every READY for a head
finds a node behind it that was flagged before, or none. -/
theorem heads_acknowledged_iff (cfg : Cfg n) (as : List (Act n)) :
    (system cfg).Along HeadsAcked (system cfg).init as ↔
      (system cfg).Meets KeepsHead (system cfg).init as := by
  have hinit : NoBareHead (system cfg).init := fun p => by
    simp [system, init, Queue.nodes_empty, bareHead]
  refine Transition.System.along_iff (I := NoBareHead) ?_ ?_ .init hinit (hinit.headsAcked .init) as
  · intro s a s' hs hold hstep hkeeps
    exact (noBareHead_step hs hold hstep).mpr hkeeps
  · intro s a s' hs hold hstep
    constructor
    · exact keepsHead_of_headsAcked hs hold hstep
    · intro hkeeps
      have hnone : NoBareHead s' := (noBareHead_step hs hold hstep).mpr hkeeps
      exact hnone.headsAcked (.step hs hstep trivial)

theorem ports_one : basePort + 1 ≤ 2 ^ 16 := by decide

/-- One process, which broadcasts to itself. -/
def oneProc : Cfg 1 where
  pid := fun _ => 100
  pid_injective := fun _ _ _ => Subsingleton.elim _ _
  pid_pos := fun _ => Nat.succ_pos 99
  pid_lt := fun _ => by decide
  ports := ports_one
  usable := usableSize
  le_usable := le_usableSize

/-- Two messages are queued when the first is acknowledged, written and removed. -/
def promotedRun : List (Act 1) :=
  [.client 0 [104, 101, 108, 108, 111, 49], .accept 0 0 0 [], .perform 0,
    .client 0 [104, 101, 108, 108, 111, 50], .accept 0 1 0 [], .perform 0,
    .accept 0 0 2 [], .perform 0, .accept 0 0 2 [], .accept 0 0 0 [], .perform 0, .perform 0,
    .accept 0 0 0 []]

/-- Everything has come to rest, and the second message is never acknowledged. -/
theorem promoted_head_unacked :
    (system oneProc).Reachable ((system oneProc).endOf promotedRun) ∧
      Quiescent ((system oneProc).endOf promotedRun) ∧
      ¬ HeadsAcked ((system oneProc).endOf promotedRun) := by
  refine ⟨Transition.System.endOf_reachable promotedRun, by decide +kernel, fun h => ?_⟩
  have hidle : (((system oneProc).endOf promotedRun).procs 0).pending = [] := by decide +kernel
  have hbare : (((system oneProc).endOf promotedRun).procs 0).queue.nodes.head?.map
      Node.ackFlg = some false := by decide +kernel
  obtain ⟨head, hhead, hflag⟩ := Option.map_eq_some_iff.mp hbare
  rw [(h 0 hidle head hhead).1] at hflag
  exact absurd hflag (by decide)

end DistKv.Tob
