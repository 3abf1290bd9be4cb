import DistKv.Tob.Middleware
import DistKv.Tob.QueueSpec

/-!
# The middleware over lists of nodes

The view of a state forgets the heap: a process is its clock, the list of
nodes reachable from `head`, whether the queue is wedged, and its pending
actions. `Handles` says, case by case, everything a handler can do to it, and
`ViewStep` everything a step of the system can do to a view.

`step_view` is the refinement: along every run the queues are well formed and
sorted, and every step of the pointer-level middleware is a `ViewStep` of the
views. The invariants of the protocol are proved about `ViewStep`.
-/

namespace DistKv.Tob

open BlockHeap FirstMatch StableInsert

variable {n : Nat}

/-- A process without its heap. -/
structure ViewProc (n : Nat) where
  lc : UInt32
  queue : List Node
  wedged : Bool
  pending : List (Out n)

/-- A state without its heaps. -/
structure View (n : Nat) where
  procs : Fin n → ViewProc n
  net : List (Packet n)
  issued : List (Issued n)
  trace : List (Event n)

def Proc.view (x : Proc n) : ViewProc n :=
  { lc := x.lc, queue := x.queue.nodes, wedged := x.queue.wedged, pending := x.pending }

def State.view (s : State n) : View n :=
  { procs := fun p => (s.procs p).view, net := s.net, issued := s.issued, trace := s.trace }

/-- The message at the head. -/
def ViewProc.headMid (x : ViewProc n) : Option Nat := x.queue.head?.map Node.mid

@[simp] theorem Proc.view_headMid (x : Proc n) : x.view.headMid = x.queue.headMid := rfl

@[simp] theorem Proc.view_pending (x : Proc n) (rest : List (Out n)) :
    ({ x with pending := rest } : Proc n).view = { x.view with pending := rest } := rfl

@[simp] theorem Proc.lc_view (x : Proc n) : x.view.lc = x.lc := rfl

@[simp] theorem Proc.view_lc (x : Proc n) (lc : UInt32) :
    ({ x with lc := lc } : Proc n).view = { x.view with lc := lc } := rfl

/-- The buffer of the node `handle_issue` builds. -/
def issueBuffer (message : Bytes) : Bytes :=
  if message.getLast? = some 0 then message else message ++ [0]

/-- The message `handle_issue` at `p` issues when its clock is `lc`. -/
def issueRecord (cfg : Cfg n) (p : Fin n) (lc : UInt32) (message : Bytes) : Issued n :=
  ⟨p, lc + 1, generateUid (cfg.pid p) (lc + 1), lcField (lc + 1 + 1),
    (issueBuffer message).length⟩

/-- The node `handle_issue` builds and broadcasts. -/
def issueNode (cfg : Cfg n) (p : Fin n) (mid : Nat) (lc : UInt32) (message : Bytes) : Node :=
  createNode (cfg.pid p) (port p) false 0 (issueBuffer message) (issueBuffer message).length
    (lc + 1) (generateUid (cfg.pid p) (lc + 1)) n mid

/-- The clock after a BROAD with timestamp `stamp` was handled at clock `lc`. -/
def receiveClock (lc stamp : UInt32) : UInt32 := if lc + 1 < stamp then stamp else lc + 1

/-- Everything the handler of `pk` can do at process `p`. -/
inductive Handles (cfg : Cfg n) (p : Fin n) (fresh : Nat) (x : ViewProc n) (pk : Packet n) :
    ViewProc n → List (Event n) → Option (Issued n) → Prop
  | issue (message : Bytes) : pk.msg = .issue message →
      Handles cfg p fresh x pk
        { x with
          lc := x.lc + 1 + 1
          pending := (totalBroadcast cfg p (issueNode cfg p fresh x.lc message) (x.lc + 1)).2 }
        [.issued p fresh (x.lc + 1), .broadcast p fresh (x.lc + 1 + 1)]
        (some (issueRecord cfg p x.lc message))
  | hang (uid : UInt32) (pid port : Nat) (stamp : UInt32) (len : Nat) :
      pk.msg = .broad uid pid port stamp len [] →
      Handles cfg p fresh x pk { x with lc := x.lc + 1, pending := [.hang pk.mid] } [] none
  | lose (uid : UInt32) (pid port : Nat) (stamp : UInt32) (len : Nat) (body : Bytes) :
      pk.msg = .broad uid pid port stamp len body → x.wedged = true →
      Handles cfg p fresh x pk { x with lc := receiveClock x.lc stamp, pending := [] }
        [.received p pk.mid (receiveClock x.lc stamp), .swallowed p pk.mid] none
  | enqueueAck (uid : UInt32) (pid port : Nat) (stamp : UInt32) (len : Nat)
      (body buffer : Bytes) (head : Node) (rest : List Node) :
      pk.msg = .broad uid pid port stamp len body → x.wedged = false →
      insertBehind Node.staysBefore (createNode pid port false 0 buffer len stamp uid n pk.mid)
        x.queue = head :: rest → head.ackFlg = false →
      Handles cfg p fresh x pk
        { x with
          lc := receiveClock x.lc stamp
          queue := { head with ackFlg := true } :: rest
          pending := [sendP2pAck p head] }
        [.received p pk.mid (receiveClock x.lc stamp), .flagged p head.mid] none
  | enqueueQuiet (uid : UInt32) (pid port : Nat) (stamp : UInt32) (len : Nat)
      (body buffer : Bytes) (head : Node) (rest : List Node) :
      pk.msg = .broad uid pid port stamp len body → x.wedged = false →
      insertBehind Node.staysBefore (createNode pid port false 0 buffer len stamp uid n pk.mid)
        x.queue = head :: rest → head.ackFlg = true →
      Handles cfg p fresh x pk
        { x with lc := receiveClock x.lc stamp, queue := head :: rest, pending := [] }
        [.received p pk.mid (receiveClock x.lc stamp)] none
  | ackMiss (pid : Nat) (uid : UInt32) : pk.msg = .ack pid uid →
      x.queue.find? (fun y => y.uid = uid) = none →
      Handles cfg p fresh x pk x [.gotAck p pk.src pk.mid none] none
  | ackCount (pid : Nat) (uid : UInt32) (y : Node) : pk.msg = .ack pid uid →
      x.queue.find? (fun y => y.uid = uid) = some y → y.ackCount + 1 ≠ y.nprocs →
      Handles cfg p fresh x pk
        { x with
          queue := updateFirst (fun y => y.uid = uid)
            (fun y => { y with ackCount := y.ackCount + 1 }) x.queue }
        [.gotAck p pk.src pk.mid (some y.mid)] none
  | ackReady (pid : Nat) (uid : UInt32) (y : Node) : pk.msg = .ack pid uid →
      x.queue.find? (fun y => y.uid = uid) = some y → y.ackCount + 1 = y.nprocs →
      Handles cfg p fresh x pk
        { x with
          lc := x.lc + 1
          queue := updateFirst (fun y => y.uid = uid)
            (fun y => { y with ackCount := y.ackCount + 1 }) x.queue
          pending := sendAll p y (.ready y.uid) ++ [.write y.mid y.buffer] }
        [.gotAck p pk.src pk.mid (some y.mid), .marked p y.mid x.headMid (x.lc + 1)] none
  | ready (uid : UInt32) : pk.msg = .ready uid →
      Handles cfg p fresh x pk
        { x with
          queue := x.queue.eraseP (fun y => y.uid = uid)
          wedged := x.wedged ||
            (!x.queue.isEmpty && (x.queue.eraseP (fun y => y.uid = uid)).isEmpty) }
        [.gotReady p pk.mid ((x.queue.find? (fun y => y.uid = uid)).map Node.mid) x.headMid
          (bareHead (x.queue.eraseP (fun y => y.uid = uid)))] none

/-- Everything a step can do to a view. -/
inductive ViewStep (cfg : Cfg n) (v : View n) : Act n → View n → Prop
  | client (p : Fin n) (message : Bytes) :
      ViewStep cfg v (.client p message)
        { v with net := v.net ++ [⟨none, port p, .issue message, 0⟩] }
  | accept (p : Fin n) (k got : Nat) (stack : Bytes) (pk : Packet n) (x : ViewProc n)
      (events : List (Event n)) (issued : Option (Issued n)) :
      (v.procs p).pending = [] → v.net[k]? = some pk → pk.dst = port p →
      Handles cfg p v.issued.length (v.procs p) pk x events issued →
      ViewStep cfg v (.accept p k got stack)
        { procs := Function.update v.procs p x
          net := v.net.eraseIdx k
          issued := v.issued ++ issued.toList
          trace := v.trace ++ events }
  | sendAck (p : Fin n) (pk : Packet n) (rest : List (Out n)) (pid : Nat) (uid : UInt32) :
      (v.procs p).pending = .send pk :: rest → pk.msg = .ack pid uid →
      ViewStep cfg v (.perform p)
        { v with
          procs := Function.update v.procs p { v.procs p with pending := rest }
          net := v.net ++ [pk]
          trace := v.trace ++ [.acked p pk.mid (v.procs p).headMid] }
  | send (p : Fin n) (pk : Packet n) (rest : List (Out n)) :
      (v.procs p).pending = .send pk :: rest → (∀ pid uid, pk.msg ≠ .ack pid uid) →
      ViewStep cfg v (.perform p)
        { v with
          procs := Function.update v.procs p { v.procs p with pending := rest }
          net := v.net ++ [pk] }
  | write (p : Fin n) (mid : Nat) (buffer : Bytes) (rest : List (Out n)) :
      (v.procs p).pending = .write mid buffer :: rest →
      ViewStep cfg v (.perform p)
        { v with
          procs := Function.update v.procs p { v.procs p with pending := rest }
          trace := v.trace ++ [.wrote p mid buffer] }
  | abort (p : Fin n) (k : Nat) (pk : Packet n) :
      (v.procs p).pending = [] → v.net[k]? = some pk → pk.dst = port p →
      ViewStep cfg v (.abort p k)
        { v with
          procs := Function.update v.procs p
            { v.procs p with lc := abortedClock (v.procs p).lc pk.msg }
          net := v.net.eraseIdx k
          trace := v.trace ++ [.lost pk] }
  | drop (k : Nat) (pk : Packet n) : v.net[k]? = some pk →
      ViewStep cfg v (.drop k)
        { v with net := v.net.eraseIdx k, trace := v.trace ++ [.lost pk] }

/-! ## The refinement -/

/-- The queue of a process is a well-formed list, sorted by `order_queue`. -/
def Proc.Sound (x : Proc n) : Prop :=
  x.queue.WF ∧ x.queue.nodes.Pairwise Node.staysBefore

def State.Sound (s : State n) : Prop := ∀ p, (s.procs p).Sound

theorem init_sound : (init : State n).Sound :=
  fun _ => ⟨Queue.wf_empty, by simp [init, Queue.nodes_empty]⟩

/-- `check_and_ack_head` sorts, then flags and acknowledges an unflagged head. -/
theorem checkAndAckHead_spec {p : Fin n} {q : Queue} (hq : q.WF)
    {r : Queue × List (Out n) × List (Event n)} (h : checkAndAckHead p q = some r) :
    r.1.WF ∧ r.1.wedged = q.wedged ∧
    ((stableSort Node.staysBefore q.nodes = [] ∧ r.1.nodes = [] ∧ r.2 = ([], [])) ∨
    ∃ head rest, stableSort Node.staysBefore q.nodes = head :: rest ∧
      (head.ackFlg = false ∧ r.1.nodes = { head with ackFlg := true } :: rest ∧
          r.2 = ([sendP2pAck p head], [.flagged p head.mid]) ∨
        head.ackFlg = true ∧ r.1.nodes = head :: rest ∧ r.2 = ([], []))) := by
  obtain ⟨q', hq', hwf, hnodes, hwedged⟩ := Queue.orderQueue_spec hq
  simp only [checkAndAckHead, hq', Option.bind_some] at h
  rcases Queue.head_spec hwf with ⟨hnil, hhead⟩ | ⟨a, c, rest, hhead, hl, hcons, hstore⟩
  · rw [hhead] at h
    obtain rfl : (q', [], []) = r := by simpa using h
    exact ⟨hwf, hwedged, Or.inl ⟨by rw [← hnodes, hnil], hnil, rfl⟩⟩
  · simp only [hhead, hl, Option.map_some, Option.some.injEq] at h
    by_cases hf : c.val.ackFlg = false
    · rw [if_pos hf] at h
      obtain ⟨hwf', hw', hn'⟩ := hstore (fun x => { x with ackFlg := true })
      subst h
      exact ⟨hwf', hw'.trans hwedged,
        Or.inr ⟨c.val, rest, by rw [← hnodes, hcons], Or.inl ⟨hf, hn', rfl⟩⟩⟩
    · rw [if_neg hf] at h
      subst h
      exact ⟨hwf, hwedged,
        Or.inr ⟨c.val, rest, by rw [← hnodes, hcons], Or.inr ⟨by simpa using hf, hcons, rfl⟩⟩⟩

/-- `handle_broadcast` on lists. -/
theorem handleBroadcast_spec {cfg : Cfg n} {p : Fin n} {fresh : Nat} {proc : Proc n}
    {pk : Packet n} {uid : UInt32} {pid port : Nat} {stamp : UInt32} {len : Nat} {body : Bytes}
    {got : Nat} {stack : Bytes} {o : Outcome n} (hs : proc.Sound)
    (hmsg : pk.msg = .broad uid pid port stamp len body)
    (h : handleBroadcast p pk.mid proc uid pid port stamp len body got stack = some o) :
    Handles cfg p fresh proc.view pk o.proc.view o.events o.issued ∧ o.proc.Sound := by
  obtain ⟨hwf, hsorted⟩ := hs
  unfold handleBroadcast at h
  by_cases hbody : body = []
  · subst hbody
    obtain rfl := Option.some.inj (by simpa using h)
    exact ⟨.hang uid pid port stamp len hmsg, hwf, hsorted⟩
  · simp only [if_neg hbody] at h
    by_cases hgot : got = 0 ∨ body.length < got
    · simp [hgot] at h
    · simp only [if_neg hgot, Option.map_eq_some_iff] at h
      obtain ⟨r, hr, rfl⟩ := h
      generalize hnew : createNode pid port false 0 (body.take got ++ stack) len stamp uid n pk.mid
        = new at hr
      obtain ⟨hwf', hwedged, hcases⟩ := checkAndAckHead_spec (Queue.wf_enqueue hwf new) hr
      rw [Queue.wedged_enqueue hwf] at hwedged
      cases hw : proc.queue.wedged with
      | true =>
          -- a wedged queue: the new node is not reachable, nothing is acknowledged
          have hnil := Queue.nodes_of_wedged (Queue.wf_enqueue hwf new)
            (by rw [Queue.wedged_enqueue hwf, hw])
          have hnil' := Queue.nodes_of_wedged hwf hw
          rw [hnil] at hcases
          rcases hcases with ⟨_, hn, h2⟩ | ⟨head, rest, hcons, _⟩
          · refine ⟨?_, hwf', by simp [hn]⟩
            have hx : Handles cfg p fresh proc.view pk _ _ _ :=
              .lose uid pid port stamp len body hmsg hw
            simpa [Proc.view, hn, h2, hwedged, hw, hnil', receiveClock] using hx
          · simp at hcons
      | false =>
          rw [Queue.nodes_enqueue hwf hw, stableSort_append_singleton,
            stableSort_of_pairwise hsorted] at hcases
          have hins :=
            pairwise_insertBehind Node.staysBefore_total Node.staysBefore_trans new hsorted
          rcases hcases with ⟨hnil, _⟩ | ⟨head, rest, hcons, hhead⟩
          · have hperm := perm_insertBehind Node.staysBefore new proc.queue.nodes
            exact absurd (hnil ▸ hperm.length_eq) (by simp)
          · rw [hcons] at hins
            rcases hhead with ⟨hf, hn, h2⟩ | ⟨hf, hn, h2⟩
            · refine ⟨?_, hwf', ?_⟩
              · have hx : Handles cfg p fresh proc.view pk _ _ _ :=
                  .enqueueAck uid pid port stamp len body (body.take got ++ stack) head rest hmsg hw
                    (by rw [hnew]; exact hcons) hf
                simpa [Proc.view, hn, h2, hwedged, hw, receiveClock] using hx
              · rw [hn]
                exact pairwise_staysBefore_congr (l := head :: rest) rfl hins
            · refine ⟨?_, hwf', by rw [hn]; exact hins⟩
              have hx : Handles cfg p fresh proc.view pk _ _ _ :=
                .enqueueQuiet uid pid port stamp len body (body.take got ++ stack) head rest hmsg hw
                  (by rw [hnew]; exact hcons) hf
              simpa [Proc.view, hn, h2, hwedged, hw, receiveClock] using hx

/-- `handle_ack` on lists. -/
theorem handleAck_spec {cfg : Cfg n} {p : Fin n} {fresh : Nat} {proc : Proc n}
    {pk : Packet n} {pid : Nat} {uid : UInt32} {o : Outcome n} (hs : proc.Sound)
    (hmsg : pk.msg = .ack pid uid) (h : handleAck p pk.src pk.mid proc uid = some o) :
    Handles cfg p fresh proc.view pk o.proc.view o.events o.issued ∧ o.proc.Sound := by
  obtain ⟨hwf, hsorted⟩ := hs
  unfold handleAck at h
  rcases Queue.findNode_spec hwf uid with ⟨hnone, hfind⟩ | ⟨a, c, hfind, hl, hsome, hstore⟩
  · simp only [hfind, Option.bind_some, Option.some.injEq] at h
    subst h
    exact ⟨.ackMiss pid uid hmsg hnone, hwf, hsorted⟩
  · obtain ⟨hwf', hwedged, hload, hnodes⟩ :=
      hstore (fun x => { x with ackCount := x.ackCount + 1 })
    simp only [hfind, Option.bind_some, hload, Option.map_some, Option.some.injEq] at h
    have hsorted' : (proc.queue.store a
        (fun x => { x with ackCount := x.ackCount + 1 })).nodes.Pairwise Node.staysBefore := by
      rw [hnodes]
      exact pairwise_staysBefore_congr (map_updateFirst (p := fun x => x.uid = uid)
        (f := fun x => { x with ackCount := x.ackCount + 1 })
        (fun x => (x.lc, x.pid)) (fun _ => rfl) proc.queue.nodes).symm hsorted
    have hhead : (proc.queue.store a
        (fun x => { x with ackCount := x.ackCount + 1 })).headMid = proc.queue.headMid := by
      have hmids := map_updateFirst (p := fun x => x.uid = uid)
        (f := fun x => { x with ackCount := x.ackCount + 1 }) Node.mid (fun _ => rfl)
        proc.queue.nodes
      unfold Queue.headMid
      rw [hnodes, ← List.head?_map, hmids, List.head?_map]
    by_cases hcount : c.val.ackCount + 1 = c.val.nprocs
    · rw [if_pos hcount] at h
      subst h
      refine ⟨?_, hwf', hsorted'⟩
      have hx : Handles cfg p fresh proc.view pk _ _ _ :=
        .ackReady pid uid c.val hmsg hsome hcount
      rw [Proc.view_headMid] at hx
      simpa [Proc.view, hnodes, hwedged, hhead, broadcastReadyMessage, sendAll] using hx
    · rw [if_neg hcount] at h
      subst h
      refine ⟨?_, hwf', hsorted'⟩
      have hx : Handles cfg p fresh proc.view pk _ _ _ :=
        .ackCount pid uid c.val hmsg hsome hcount
      simpa [Proc.view, hnodes, hwedged] using hx

/-- `handle_ready` on lists. -/
theorem handleReady_spec {cfg : Cfg n} {p : Fin n} {fresh : Nat} {proc : Proc n}
    {pk : Packet n} {uid : UInt32} {o : Outcome n} (hs : proc.Sound)
    (hmsg : pk.msg = .ready uid) (h : handleReady p pk.mid proc uid = some o) :
    Handles cfg p fresh proc.view pk o.proc.view o.events o.issued ∧ o.proc.Sound := by
  obtain ⟨hwf, hsorted⟩ := hs
  obtain ⟨q', hq', hwf', hnodes, hwedged⟩ := Queue.dequeue_spec hwf uid
  simp only [handleReady, hq', Option.map_some, Option.some.injEq] at h
  subst h
  refine ⟨?_, hwf', by rw [hnodes]; exact hsorted.sublist List.eraseP_sublist⟩
  have hw : q'.wedged = (proc.queue.wedged ||
      (!proc.queue.nodes.isEmpty &&
        (proc.queue.nodes.eraseP (fun y => y.uid = uid)).isEmpty)) := by
    rw [Bool.eq_iff_iff, hwedged, hnodes]
    simp
  have hx : Handles cfg p fresh proc.view pk _ _ _ := .ready uid hmsg
  rw [Proc.view_headMid] at hx
  simpa [Proc.view, hnodes, hw] using hx

/-- Every handler acts on the view as `Handles` says and keeps the queue sound. -/
theorem handleClient_spec {cfg : Cfg n} {p : Fin n} {fresh : Nat} {proc : Proc n}
    {pk : Packet n} {got : Nat} {stack : Bytes} {o : Outcome n} (hs : proc.Sound)
    (h : handleClient cfg p fresh proc pk got stack = some o) :
    Handles cfg p fresh proc.view pk o.proc.view o.events o.issued ∧ o.proc.Sound := by
  unfold handleClient at h
  cases hmsg : pk.msg with
  | issue message =>
      simp only [hmsg, Option.some.injEq] at h
      subst h
      exact ⟨.issue message hmsg, hs⟩
  | broad uid pid port lc len body =>
      simp only [hmsg] at h
      exact handleBroadcast_spec hs hmsg h
  | ack pid uid =>
      simp only [hmsg] at h
      exact handleAck_spec hs hmsg h
  | ready uid =>
      simp only [hmsg] at h
      exact handleReady_spec hs hmsg h

theorem State.offered_eq_some {s : State n} {p : Fin n} {k : Nat} {pk : Packet n} :
    s.offered p k = some pk ↔
      (s.procs p).pending = [] ∧ s.net[k]? = some pk ∧ pk.dst = port p := by
  unfold State.offered
  cases (s.procs p).pending with
  | cons _ _ => simp
  | nil =>
      cases s.net[k]? with
      | none => simp
      | some pk' =>
          by_cases hdst : pk'.dst = port p
          · simp only [if_pos hdst, Option.some.injEq, true_and]
            constructor
            · rintro rfl
              exact ⟨rfl, hdst⟩
            · exact And.left
          · simp only [if_neg hdst, reduceCtorEq, Option.some.injEq, true_and, false_iff]
            rintro ⟨rfl, hd⟩
            exact hdst hd

theorem view_update {s : State n} {p : Fin n} {x : Proc n} :
    (fun q => (Function.update s.procs p x q).view) =
      Function.update s.view.procs p x.view := by
  funext q
  by_cases hq : q = p
  · subst hq
    simp
  · simp [hq, State.view]

theorem sound_update {s : State n} (hs : s.Sound) {p : Fin n} {x : Proc n} (hx : x.Sound) :
    ∀ q, (Function.update s.procs p x q).Sound := by
  intro q
  by_cases hq : q = p
  · subst hq
    simpa using hx
  · simpa [hq] using hs q

/-- **Refinement.** A step of the middleware is a step of its view, and keeps
the queues sound. -/
theorem step_view {cfg : Cfg n} {s s' : State n} {a : Act n} (hs : s.Sound)
    (h : step cfg s a = some s') : ViewStep cfg s.view a s'.view ∧ s'.Sound := by
  cases a with
  | client p message =>
      obtain rfl := Option.some.inj h
      exact ⟨.client p message, hs⟩
  | accept p k got stack =>
      simp only [step, Option.bind_eq_some_iff, Option.map_eq_some_iff] at h
      obtain ⟨pk, hoff, o, ho, rfl⟩ := h
      obtain ⟨hidle, hk, hdst⟩ := State.offered_eq_some.mp hoff
      obtain ⟨hview, hsound⟩ := handleClient_spec (hs p) ho
      refine ⟨?_, sound_update hs hsound⟩
      have hstep : ViewStep cfg s.view _ _ := .accept p k got stack pk _ _ _ hidle hk hdst hview
      simpa [State.handled, State.view, view_update] using hstep
  | perform p =>
      simp only [step] at h
      cases hpend : (s.procs p).pending with
      | nil => simp [hpend] at h
      | cons out rest =>
          simp only [hpend] at h
          cases out with
          | hang mid | overrun mid => simp [State.performed] at h
          | write mid buffer =>
              obtain rfl := Option.some.inj h
              refine ⟨?_, sound_update hs (hs p)⟩
              have hstep : ViewStep cfg s.view _ _ := .write p mid buffer rest hpend
              simpa [State.view, view_update] using hstep
          | send pk =>
              obtain rfl := Option.some.inj h
              refine ⟨?_, sound_update hs (hs p)⟩
              cases hmsg : pk.msg with
              | ack pid uid =>
                  have hstep : ViewStep cfg s.view _ _ := .sendAck p pk rest pid uid hpend hmsg
                  simpa [State.view, view_update, hmsg] using hstep
              | issue message =>
                  have hstep : ViewStep cfg s.view _ _ := .send p pk rest hpend (by simp [hmsg])
                  simpa [State.view, view_update, hmsg] using hstep
              | broad uid pid port lc len body =>
                  have hstep : ViewStep cfg s.view _ _ := .send p pk rest hpend (by simp [hmsg])
                  simpa [State.view, view_update, hmsg] using hstep
              | ready uid =>
                  have hstep : ViewStep cfg s.view _ _ := .send p pk rest hpend (by simp [hmsg])
                  simpa [State.view, view_update, hmsg] using hstep
  | abort p k =>
      simp only [step, Option.map_eq_some_iff] at h
      obtain ⟨pk, hoff, rfl⟩ := h
      obtain ⟨hidle, hk, hdst⟩ := State.offered_eq_some.mp hoff
      refine ⟨?_, sound_update hs (hs p)⟩
      have hstep : ViewStep cfg s.view _ _ := .abort p k pk hidle hk hdst
      simpa [State.handled, State.view, view_update] using hstep
  | drop k =>
      simp only [step] at h
      cases hk : s.net[k]? with
      | none => simp [hk] at h
      | some pk =>
          simp only [hk, Option.some.injEq] at h
          subst h
          exact ⟨.drop k pk hk, hs⟩

end DistKv.Tob
