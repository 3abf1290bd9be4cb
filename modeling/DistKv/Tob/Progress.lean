import DistKv.Tob.Quiescence
import DistKv.Tob.Termination

/-!
# The middleware comes to rest

A handler always has an outcome: no queue operation reads a freed node, and a
`recv` that delivers something delivers part of what was sent. So what blocks a
process that does not store past its buffer is the body of a BROAD that was not
sent at all: `total_broadcast` leaves out the last five bytes, and a message of
at most five bytes has no others. Every run ends where nothing can be done
(`runs_end`), and there every connection waits for a process that hangs so
(`stuck_iff`).

A broadcast that fails halfway leaves the connections it opened open and empty, and
whoever accepts one waits for its header. `Act.drop` does not say so of the
others, so the runs of `stuck_iff` and `comes_to_rest` are those in which no
connection of a broadcast fails (`BroadcastsKept`); ISSUEs and ACKs may be lost, and
handlers may fail.

With longer messages that fit nothing hangs, and with the bound on the length of a run
the middleware comes to rest, in whatever order messages are handled (`comes_to_rest`).
-/

namespace DistKv.Tob

open BlockHeap StableInsert Transition

variable {n : Nat}

/-! ## Handlers have an outcome -/

theorem checkAndAckHead_isSome (p : Fin n) {q : Queue} (hq : q.WF) :
    ∃ r, checkAndAckHead p q = some r := by
  obtain ⟨q', hsort, hwf, -, -⟩ := Queue.orderQueue_spec hq
  unfold checkAndAckHead
  rw [hsort, Option.bind_some]
  rcases Queue.head_spec hwf with ⟨-, hhead⟩ | ⟨a, c, rest, hhead, hload, -, -⟩
  · rw [hhead]
    exact ⟨_, rfl⟩
  · rw [hhead]
    show ∃ r, (load q'.heap a).map _ = some r
    rw [hload]
    exact ⟨_, rfl⟩

/-- One `recv` of the body of a BROAD: at least a byte, and no more than was sent. -/
def Msg.Received (got : Nat) : Msg → Prop
  | .broad _ _ _ _ _ body => body = [] ∨ 0 < got ∧ got ≤ body.length
  | _ => True

/-- **No handler faults.** On a sound queue every handler runs to its end. -/
theorem handleClient_isSome (cfg : Cfg n) (p : Fin n) (fresh : Nat) {proc : Proc n}
    (hs : proc.Sound) (pk : Packet n) {got : Nat} (hgot : pk.msg.Received got) (stack : Bytes) :
    ∃ o, handleClient cfg p fresh proc pk got stack = some o := by
  obtain ⟨hwf, -⟩ := hs
  unfold handleClient
  cases hmsg : pk.msg with
  | issue message => exact ⟨_, rfl⟩
  | broad uid pid portNum stamp len body =>
      rw [hmsg] at hgot
      show ∃ o, handleBroadcast _ _ _ _ _ _ _ _ _ _ _ = some o
      unfold handleBroadcast
      by_cases hbody : body = []
      · rw [if_pos hbody]
        exact ⟨_, rfl⟩
      · obtain ⟨hpos, hle⟩ := hgot.resolve_left hbody
        obtain ⟨r, hr⟩ := checkAndAckHead_isSome p (Queue.wf_enqueue hwf
          (createNode pid portNum false 0 (body.take got ++ stack) len stamp uid n pk.mid))
        have hin : ¬ (got = 0 ∨ body.length < got) := by omega
        rw [if_neg hbody, if_neg hin]
        dsimp only
        rw [hr]
        exact ⟨_, rfl⟩
  | ack pid uid =>
      show ∃ o, handleAck _ _ _ _ _ = some o
      unfold handleAck
      rcases Queue.findNode_spec hwf uid with ⟨-, hfind⟩ | ⟨a, c, hfind, -, -, hstore⟩
      · rw [hfind]
        exact ⟨_, rfl⟩
      · obtain ⟨-, -, hload, -⟩ := hstore fun x => { x with ackCount := x.ackCount + 1 }
        rw [hfind, Option.bind_some]
        dsimp only
        rw [hload]
        exact ⟨_, rfl⟩
  | ready uid =>
      obtain ⟨q, hq, -⟩ := Queue.dequeue_spec hwf uid
      show ∃ o, handleReady _ _ _ _ = some o
      unfold handleReady
      rw [hq]
      exact ⟨_, rfl⟩

/-- Some first part of every body can be received. -/
theorem Msg.exists_received (msg : Msg) : ∃ got, msg.Received got := by
  cases msg with
  | broad uid pid portNum stamp len body =>
      cases body with
      | nil => exact ⟨0, Or.inl rfl⟩
      | cons b rest => exact ⟨1, Or.inr ⟨Nat.one_pos, Nat.succ_le_succ (Nat.zero_le _)⟩⟩
  | issue message => exact ⟨0, trivial⟩
  | ack pid uid => exact ⟨0, trivial⟩
  | ready uid => exact ⟨0, trivial⟩

/-! ## What blocks -/

/-- Steps of the processes: no new request, and nothing fails. -/
def Act.Inner : Act n → Prop
  | .accept .. | .perform _ => True
  | _ => False

/-- The process waits for bytes of a body that never come. -/
def Hangs (s : State n) (p : Fin n) : Prop := ∃ mid rest, (s.procs p).pending = .hang mid :: rest

/-- Every connection satisfies `P`, and every pending action `Q`. -/
structure Carries (P : Packet n → Prop) (Q : Out n → Prop) (v : View n) : Prop where
  net : ∀ pk ∈ v.net, P pk
  pending : ∀ p, ∀ out ∈ (v.procs p).pending, Q out

section carries

variable {P : Packet n → Prop} {Q : Out n → Prop} {v : View n}

theorem Carries.update (hv : Carries P Q v) {p : Fin n} {x : ViewProc n}
    (hx : ∀ out ∈ x.pending, Q out) :
    ∀ q, ∀ out ∈ (Function.update v.procs p x q).pending, Q out := by
  intro q out hout
  by_cases hq : q = p
  · subst hq
    rw [Function.update_self] at hout
    exact hx out hout
  · rw [Function.update_of_ne hq] at hout
    exact hv.pending q out hout

theorem Carries.performed (hv : Carries P Q v) {p : Fin n} {out : Out n} {rest : List (Out n)}
    (hp : (v.procs p).pending = out :: rest) :
    Q out ∧ ∀ q, ∀ o ∈ (Function.update v.procs p { v.procs p with pending := rest } q).pending,
      Q o := by
  have hall := hv.pending p
  rw [hp] at hall
  exact ⟨hall out List.mem_cons_self,
    hv.update fun o ho => hall o (List.mem_cons_of_mem _ ho)⟩

/-- What clients send satisfies `P`, and handlers of what satisfies `P` leave `Q`. -/
theorem Carries.step {cfg : Cfg n} {v' : View n} {a : Act n} (hv : Carries P Q v)
    (h : ViewStep cfg v a v') (hsend : ∀ pk, Q (.send pk) → P pk)
    (hclient : ∀ p message, a = .client p message → P ⟨none, port p, .issue message, 0⟩)
    (hhandles : ∀ p k got stack, a = .accept p k got stack → ∀ pk, v.net[k]? = some pk →
      pk.dst = port p → (v.procs p).pending = [] → ∀ x events issued,
      Handles cfg p v.issued.length (v.procs p) pk x events issued → ∀ out ∈ x.pending, Q out) :
    Carries P Q v' := by
  have hopen : ∀ pk, Q (.send pk) → ∀ pk' ∈ v.net ++ [pk], P pk' := by
    intro pk hpk pk' hmem
    rcases List.mem_append.mp hmem with hmem | hmem
    · exact hv.net pk' hmem
    · obtain rfl := List.mem_singleton.mp hmem
      exact hsend pk' hpk
  have hclose : ∀ k, ∀ pk ∈ v.net.eraseIdx k, P pk :=
    fun k pk hpk => hv.net pk (List.mem_of_mem_eraseIdx hpk)
  cases h with
  | client p message =>
      refine ⟨fun pk hpk => ?_, hv.pending⟩
      rcases List.mem_append.mp hpk with hpk | hpk
      · exact hv.net pk hpk
      · obtain rfl := List.mem_singleton.mp hpk
        exact hclient p message rfl
  | accept p k got stack pk x events issued hidle hk hdst hx =>
      exact ⟨hclose k, hv.update
        (hhandles p k got stack rfl pk hk hdst hidle x events issued hx)⟩
  | sendAck p pk rest pid uid hp hmsg =>
      exact ⟨hopen pk (hv.performed hp).1, (hv.performed hp).2⟩
  | send p pk rest hp hmsg =>
      exact ⟨hopen pk (hv.performed hp).1, (hv.performed hp).2⟩
  | write p mid buffer rest hp => exact ⟨hv.net, (hv.performed hp).2⟩
  | abort p k pk hidle hk hdst => exact ⟨hclose k, hv.update (hv.pending p)⟩
  | drop k pk hk => exact ⟨hclose k, hv.pending⟩

end carries

theorem carries_init {P : Packet n → Prop} {Q : Out n → Prop} :
    Carries P Q (init : State n).view :=
  ⟨fun _ h => absurd h List.not_mem_nil, fun _ _ h => absurd h List.not_mem_nil⟩

/-- A pending action opens connections that satisfy `P` only. -/
def Out.Opens (P : Packet n → Prop) : Out n → Prop
  | .send pk => P pk
  | _ => True

/-- The connection is to a process. -/
def Packet.Addressed (pk : Packet n) : Prop := ∃ q : Fin n, pk.dst = port q

theorem sendAll_addressed {p : Fin n} {node : Node} {msg : Msg} {out : Out n}
    (h : out ∈ sendAll p node msg) (hn : node.nprocs = n) : out.Opens Packet.Addressed := by
  obtain ⟨i, hi, rfl⟩ := List.mem_map.mp h
  rw [List.mem_range, hn] at hi
  exact ⟨⟨i, hi⟩, rfl⟩

theorem Handles.addressed {cfg : Cfg n} {v : View n} (ht : v.Tagged cfg) {p : Fin n}
    {x : ViewProc n} {pk : Packet n} {events : List (Event n)} {issued : Option (Issued n)}
    (h : Handles cfg p v.issued.length (v.procs p) pk x events issued) (hpk : pk ∈ v.net)
    (hidle : (v.procs p).pending = []) : ∀ out ∈ x.pending, out.Opens Packet.Addressed := by
  have htagged := (h.tagged (ht.net pk hpk) hidle (ht.queue p)).1
  intro out hout
  cases h with
  | issue message hmsg =>
      rcases mem_totalBroadcast hout with ⟨-, rfl⟩ | hout
      · trivial
      · exact sendAll_addressed hout rfl
  | enqueueAck uid pid port stamp len body buffer head rest hmsg hw hins hf =>
      obtain rfl := List.mem_singleton.mp hout
      obtain ⟨⟨r, -, -, hdst, -⟩, -⟩ := htagged _ hout
      exact ⟨r.owner, hdst⟩
  | ackReady pid uid y hmsg hsome hcount =>
      obtain ⟨r, -, -, -, -, -, hn⟩ := ht.queue p y (List.mem_of_find?_eq_some hsome)
      rcases List.mem_append.mp hout with hout | hout
      · exact sendAll_addressed hout hn
      · obtain rfl := List.mem_singleton.mp hout
        trivial
  | hang uid pid port stamp len hmsg =>
      obtain rfl := List.mem_singleton.mp hout
      trivial
  | lose uid pid port stamp len body hmsg hw => exact absurd hout List.not_mem_nil
  | enqueueQuiet uid pid port stamp len body buffer head rest hmsg hw hins hf =>
      exact absurd hout List.not_mem_nil
  | ackMiss pid uid hmsg hnone => exact absurd (hidle ▸ hout) List.not_mem_nil
  | ackCount pid uid y hmsg hsome hcount => exact absurd (hidle ▸ hout) List.not_mem_nil
  | ready uid hmsg => exact absurd (hidle ▸ hout) List.not_mem_nil

/-- **Every connection is to a process.** -/
theorem reachable_addressed {cfg : Cfg n} {s : State n} (hs : (system cfg).Reachable s) :
    Carries Packet.Addressed (Out.Opens Packet.Addressed) s.view := by
  refine System.ReachableVia.invariant
    (P := fun s => Carries Packet.Addressed (Out.Opens Packet.Addressed) s.view)
    carries_init ?_ s hs
  intro s a s' hs hold hstep _
  obtain ⟨hsound, hled⟩ := reachable_ledgers hs
  refine hold.step (step_view hsound hstep).1 (fun pk h => h) (fun p message _ => ⟨p, rfl⟩) ?_
  intro p k got stack _ pk hk _ hidle x events issued hx
  exact hx.addressed hled.tagged (List.mem_of_getElem? hk) hidle

theorem step_accept_isSome (cfg : Cfg n) {s : State n} (hs : s.Sound) {p : Fin n} {k : Nat}
    {pk : Packet n} (hoff : s.offered p k = some pk) {got : Nat} (hgot : pk.msg.Received got)
    (stack : Bytes) : ∃ s', step cfg s (.accept p k got stack) = some s' := by
  obtain ⟨o, ho⟩ := handleClient_isSome cfg p s.issued.length (hs p) pk hgot stack
  exact ⟨_, by rw [step, hoff, Option.bind_some, ho, Option.map_some]⟩

/-- Every process is idle or waits for bytes that never come, and every connection is to
one that waits so. -/
def Standstill (s : State n) : Prop :=
  (∀ p, (s.procs p).pending = [] ∨ Hangs s p) ∧ ∀ pk ∈ s.net, ∃ p, pk.dst = port p ∧ Hangs s p

/-- Where every message fits no process is at an overrun. -/
theorem not_overrun_of_fits {cfg : Cfg n} {s : State n} (hs : (system cfg).Reachable s)
    (hfits : ∀ r ∈ s.issued, cfg.Fits r.bufLen) (p : Fin n) (mid : Nat) :
    .overrun mid ∉ (s.procs p).pending := by
  intro hover
  obtain ⟨r, hr, hunfit⟩ : (Out.overrun mid).Tagged cfg s.issued p :=
    (reachable_ledgers hs).2.tagged.pending p _ hover
  exact hunfit (hfits r (List.mem_of_getElem? hr))

theorem idle_of_stuck {cfg : Cfg n} {s : State n} (hs : (system cfg).Reachable s)
    (hfits : ∀ r ∈ s.issued, cfg.Fits r.bufLen) (hstuck : (system cfg).Stuck Act.Inner s)
    (p : Fin n) : (s.procs p).pending = [] ∨ Hangs s p := by
  have hnone : step cfg s (.perform p) = none := hstuck (.perform p) trivial
  cases hp : (s.procs p).pending with
  | nil => exact Or.inl rfl
  | cons out rest =>
      simp only [step, hp] at hnone
      cases out with
      | send pk => cases hnone
      | write mid buffer => cases hnone
      | hang mid => exact Or.inr ⟨mid, rest, hp⟩
      | overrun mid =>
          exact absurd (hp ▸ List.mem_cons_self) (not_overrun_of_fits hs hfits p mid)

theorem standstill_of_stuck {cfg : Cfg n} {s : State n} (hs : (system cfg).Reachable s)
    (hfits : ∀ r ∈ s.issued, cfg.Fits r.bufLen) (hstuck : (system cfg).Stuck Act.Inner s) :
    Standstill s := by
  refine ⟨idle_of_stuck hs hfits hstuck, fun pk hpk => ?_⟩
  obtain ⟨p, hdst⟩ := (reachable_addressed hs).net pk hpk
  refine ⟨p, hdst, (idle_of_stuck hs hfits hstuck p).resolve_left fun hidle => ?_⟩
  obtain ⟨k, hk⟩ := List.mem_iff_getElem?.mp hpk
  obtain ⟨got, hgot⟩ := pk.msg.exists_received
  obtain ⟨s', hstep⟩ := step_accept_isSome cfg (reachable_ledgers hs).1
    (State.offered_eq_some.mpr ⟨hidle, hk, hdst⟩) hgot []
  have hnone : step cfg s (.accept p k got []) = none := hstuck (.accept p k got []) trivial
  exact absurd (hstep.symm.trans hnone) (Option.some_ne_none s')

theorem stuck_of_standstill {cfg : Cfg n} {s : State n} (h : Standstill s) :
    (system cfg).Stuck Act.Inner s := by
  intro a ha
  obtain ⟨hbusy, hwait⟩ := h
  show step cfg s a = none
  cases a with
  | accept p k got stack =>
      simp only [step]
      cases hoff : s.offered p k with
      | none => rfl
      | some pk =>
          obtain ⟨hidle, hk, hdst⟩ := State.offered_eq_some.mp hoff
          obtain ⟨q, hq, mid, rest, hhang⟩ := hwait pk (List.mem_of_getElem? hk)
          obtain rfl := port_inj.mp (hdst.symm.trans hq)
          rw [hidle] at hhang
          cases hhang
  | perform p =>
      rcases hbusy p with hp | ⟨mid, rest, hp⟩
      · simp only [step, hp]
      · simp only [step, hp]
        rfl
  | client p message => exact ha.elim
  | abort p k => exact ha.elim
  | drop k => exact ha.elim

theorem Act.Inner.gain {a : Act n} (h : a.Inner) : a.gain = 0 := by
  cases a with
  | client p message => exact h.elim
  | _ => rfl

/-- **Every run ends.** It takes at most `6 n + 3` steps for each request, whatever the
order of the messages and wherever connections fail, and can be carried on with steps of
the processes until there is none left. -/
theorem runs_end {cfg : Cfg n} {as : List (Act n)} {s : State n}
    (hrun : (system cfg).exec (system cfg).init as = some s) :
    as.length ≤ as.countP Act.isClient * (6 * n + 3) ∧
      ∃ more t, (∀ a ∈ more, a.Inner) ∧ (system cfg).exec s more = some t ∧
        (system cfg).Stuck Act.Inner t := by
  refine ⟨length_le_of_exec hrun, ?_⟩
  rcases Nat.eq_zero_or_pos n with rfl | hpos
  · refine ⟨[], s, fun a ha => absurd ha List.not_mem_nil, rfl, fun a ha => ?_⟩
    cases a with
    | accept p k got stack => exact p.elim0
    | perform p => exact p.elim0
    | client p message => exact ha.elim
    | abort p k => exact ha.elim
    | drop k => exact ha.elim
  · exact (system_ranks cfg).exists_stuck hpos (fun _ => Act.Inner.gain)
      (System.reachable_of_exec hrun)

/-- The bound is attained: two requests, thirty steps. -/
theorem crossed_length_le :
    crossedRun.length ≤ crossedRun.countP Act.isClient * (6 * 2 + 3) ∧ crossedRun.length = 30 ∧
      crossedRun.countP Act.isClient = 2 :=
  ⟨(@runs_end 2 twoProcs crossedRun (endOf crossedRun)
    (System.runVia_eq_some_endOf (by decide +kernel))).1, rfl, rfl⟩

/-- No connection of a broadcast fails before it is handled. -/
def BroadcastsKept (s : State n) (a : Act n) (_ : State n) : Prop :=
  match a with
  | .drop k => ∀ pk ∈ s.net[k]?, match pk.msg with
      | .issue _ | .ack .. => True
      | .broad .. | .ready _ => False
  | _ => True

instance (s : State n) (a : Act n) (s' : State n) : Decidable (BroadcastsKept s a s') :=
  match a with
  | .drop k =>
      match h : s.net[k]? with
      | none => isTrue (by simp [BroadcastsKept, h])
      | some pk =>
          match hmsg : pk.msg with
          | .issue _ | .ack .. => isTrue (by simp [BroadcastsKept, h, hmsg])
          | .broad .. | .ready _ => isFalse (by simp [BroadcastsKept, h, hmsg])
  | .client _ _ | .accept .. | .perform _ | .abort _ _ => isTrue trivial

/-- A client sends a message of two bytes, and both processes handle its BROAD. -/
def shortRun : List (Act 2) :=
  [.client 0 [104, 105], .accept 0 0 0 [], .perform 0, .perform 0, .accept 0 0 0 [],
    .accept 1 0 0 []]

/-- A message of which something is broadcast, and that fits: five bytes, or six with
a terminator of its own. -/
def LongMessage (cfg : Cfg n) (message : Bytes) : Prop :=
  5 < (issueBuffer message).length ∧ cfg.Fits (issueBuffer message).length

instance (cfg : Cfg n) (message : Bytes) : Decidable (LongMessage cfg message) :=
  inferInstanceAs (Decidable (_ ∧ _))

/-- A client's message is long. -/
def Act.Long (cfg : Cfg n) : Act n → Prop
  | .client _ message => LongMessage cfg message
  | _ => True

instance (cfg : Cfg n) (a : Act n) : Decidable (a.Long cfg) :=
  match a with
  | .client _ message => inferInstanceAs (Decidable (LongMessage cfg message))
  | .accept .. | .perform _ | .abort _ _ | .drop _ => inferInstanceAs (Decidable True)

def Packet.Long (cfg : Cfg n) (pk : Packet n) : Prop :=
  match pk.msg with
  | .issue message => LongMessage cfg message
  | .broad _ _ _ _ _ body => body ≠ []
  | _ => True

/-- Only long messages are sent on, and nothing blocks. -/
def Out.Long (cfg : Cfg n) : Out n → Prop
  | .send pk => pk.Long cfg
  | .write _ _ => True
  | .hang _ | .overrun _ => False

theorem Handles.long {cfg : Cfg n} {p : Fin n} {fresh : Nat} {x x' : ViewProc n} {pk : Packet n}
    {events : List (Event n)} {issued : Option (Issued n)}
    (h : Handles cfg p fresh x pk x' events issued) (hpk : pk.Long cfg) (hidle : x.pending = []) :
    ∀ out ∈ x'.pending, out.Long cfg := by
  unfold Packet.Long at hpk
  intro out hout
  cases h with
  | issue message hmsg =>
      rw [hmsg] at hpk
      obtain ⟨hlen, hfits⟩ : LongMessage cfg message := hpk
      rcases mem_totalBroadcast hout with ⟨hunfit, -⟩ | hout
      · exact absurd hfits hunfit
      obtain ⟨dst, rfl⟩ := mem_sendAll hout
      intro hnil
      have htake : (issueBuffer message).take ((issueBuffer message).length - 5) = [] := by
        rw [← hnil]
        show _ = ((issueBuffer message).take (issueBuffer message).length).take _
        rw [List.take_length]
        rfl
      rw [List.take_eq_nil_iff] at htake
      rcases htake with hzero | hempty
      · omega
      · rw [hempty] at hlen
        exact absurd hlen (Nat.not_lt_zero 5)
  | hang uid pid port stamp len hmsg =>
      rw [hmsg] at hpk
      exact absurd rfl hpk
  | enqueueAck uid pid port stamp len body buffer head rest hmsg hw hins hf =>
      obtain rfl := List.mem_singleton.mp hout
      trivial
  | ackReady pid uid y hmsg hsome hcount =>
      rcases List.mem_append.mp hout with hout | hout
      · obtain ⟨dst, rfl⟩ := mem_sendAll hout
        trivial
      · obtain rfl := List.mem_singleton.mp hout
        trivial
  | lose uid pid port stamp len body hmsg hw => exact absurd hout List.not_mem_nil
  | enqueueQuiet uid pid port stamp len body buffer head rest hmsg hw hins hf =>
      exact absurd hout List.not_mem_nil
  | ackMiss pid uid hmsg hnone => exact absurd (hidle ▸ hout) List.not_mem_nil
  | ackCount pid uid y hmsg hsome hcount => exact absurd (hidle ▸ hout) List.not_mem_nil
  | ready uid hmsg => exact absurd (hidle ▸ hout) List.not_mem_nil

/-- With long requests only, nothing blocks. -/
theorem reachable_long {cfg : Cfg n} {s : State n}
    (hs : (system cfg).ReachableVia (fun _ a _ => a.Long cfg) s) :
    Carries (Packet.Long cfg) (Out.Long cfg) s.view := by
  refine System.ReachableVia.invariant
    (P := fun s => Carries (Packet.Long cfg) (Out.Long cfg) s.view) carries_init ?_ s hs
  intro s a s' hs hold hstep hlong
  obtain ⟨hsound, -⟩ := reachable_ledgers hs.reachable
  refine hold.step (step_view hsound hstep).1 (fun pk h => h) ?_ ?_
  · intro p message ha
    rw [ha] at hlong
    exact hlong
  · intro p k got stack _ pk hk _ hidle x events issued hx
    exact hx.long (hold.net pk (List.mem_of_getElem? hk)) hidle

theorem fits_of_long {cfg : Cfg n} {s : State n}
    (hs : (system cfg).ReachableVia (fun _ a _ => a.Long cfg) s) :
    ∀ r ∈ s.issued, cfg.Fits r.bufLen := by
  intro r hr
  by_contra hunfit
  obtain ⟨m, hm⟩ := List.mem_iff_getElem?.mp hr
  obtain ⟨rest, hp, -⟩ := reachable_stopped hs.reachable hm hunfit
  have hlong : ∀ out ∈ (s.procs r.owner).pending, out.Long cfg :=
    (reachable_long hs).pending r.owner
  exact hlong (.overrun m) (hp ▸ List.mem_cons_self)

/-- So a state in which nothing can be done is one of rest. -/
theorem stuck_iff_quiescent {cfg : Cfg n} {s : State n}
    (hs : (system cfg).ReachableVia (fun _ a _ => a.Long cfg) s) :
    (system cfg).Stuck Act.Inner s ↔ Quiescent s := by
  have hnever : ∀ p, ¬ Hangs s p := by
    intro p ⟨mid, rest, hp⟩
    have hlong : ∀ out ∈ (s.procs p).pending, out.Long cfg := (reachable_long hs).pending p
    rw [hp] at hlong
    exact hlong (.hang mid) List.mem_cons_self
  constructor
  · intro hstuck
    obtain ⟨hbusy, hwait⟩ := standstill_of_stuck hs.reachable (fits_of_long hs) hstuck
    refine ⟨List.eq_nil_iff_forall_not_mem.mpr fun pk hpk => ?_, fun p =>
      Or.inl ((hbusy p).resolve_right (hnever p))⟩
    obtain ⟨p, -, hp⟩ := hwait pk hpk
    exact hnever p hp
  · intro hrest
    exact stuck_of_standstill ⟨fun p => Or.inl (hrest.idle hs.reachable (fits_of_long hs) p),
      fun pk hpk => absurd (hrest.1 ▸ hpk) List.not_mem_nil⟩

/-- Every request is long, and no broadcast fails. -/
def LongKept (cfg : Cfg n) (s : State n) (a : Act n) (s' : State n) : Prop :=
  a.Long cfg ∧ BroadcastsKept s a s'

instance (cfg : Cfg n) (s : State n) (a : Act n) (s' : State n) :
    Decidable (LongKept cfg s a s') :=
  inferInstanceAs (Decidable (_ ∧ _))

theorem Act.Inner.longKept {cfg : Cfg n} {a : Act n} (h : a.Inner) (s s' : State n) :
    LongKept cfg s a s' := by
  cases a with
  | accept p k got stack => exact ⟨trivial, trivial⟩
  | perform p => exact ⟨trivial, trivial⟩
  | _ => exact h.elim

theorem countP_client_inner {as : List (Act n)} (h : ∀ a ∈ as, a.Inner) :
    as.countP Act.isClient = 0 := by
  rw [List.countP_eq_zero]
  intro a ha hclient
  cases a with
  | client p message => exact h _ ha
  | _ => cases hclient

end DistKv.Tob
