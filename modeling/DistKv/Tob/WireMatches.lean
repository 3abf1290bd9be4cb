import DistKv.Tob.OnWireReads
import DistKv.Tob.Progress
import Mathlib.Data.List.Forall2

/-!
# Handlers of bytes and handlers of messages

`Matches` relates what `OnWire` and `Middleware` have at one moment: the same clocks,
queues and history, and bytes that encode the messages. A handler that reads the bytes
of a message with intact calls leaves what the handler of the message leaves
(`handleClient_follows`), unless a call failed; and it always leaves something
(`handleClient_total`).
-/

namespace DistKv.Tob.OnWire

open BlockHeap CText Wire Transition
open DistKv.Memcache (Incoming)

variable {n : Nat}

/-! ## The relation -/

/-- The bytes that the encoders of the source make of a message. -/
inductive Encodes : Msg → Bytes → Prop
  | issue {message : Str} {bytes : Bytes} : encoded message = some bytes →
      Encodes (.issue message.bytes) bytes
  | broad {node : Node} (lc : UInt32) : node.buffer.length = node.bufLen →
      Encodes (Tob.encodeBroadcastBuffer node lc) (offered node lc)
  | ack {stack : Bytes} {pid : Nat} {uid : UInt32} {text : Str} : pid < 2 ^ 31 →
      Wire.sendP2pAck stack pid uid = some text → Encodes (.ack pid uid) text.bytes
  | ready {stack : Bytes} {node : Node} {text : Str} : readyMessage stack node = some text →
      Encodes (.ready node.uid) text.bytes

structure Stream.Carries (c : Stream n) (pk : Packet n) : Prop where
  src : c.src = pk.src
  dst : c.dst = pk.dst
  mid : c.mid = pk.mid
  msg : Encodes pk.msg c.bytes

inductive Task.Performs : Task n → Out n → Prop
  | send {c : Stream n} {pk : Packet n} : c.Carries pk → Performs (.send c) (.send pk)
  | write (mid : Nat) (buffer : Bytes) : Performs (.write mid buffer) (.write mid buffer)
  | hang (mid : Nat) : Performs (.hang mid) (.hang mid)
  | overrun (mid : Nat) : Performs (.overrun mid) (.overrun mid)

structure Proc.Matches (x : Proc n) (y : Tob.Proc n) : Prop where
  lc : x.lc = y.lc
  queue : x.queue = y.queue
  pending : List.Forall₂ Task.Performs x.pending y.pending

/-- The event is part of the history of the bytes as well. -/
def kept : Event n → Bool
  | .lost _ => false
  | _ => true

structure State.Matches (w : State n) (s : Tob.State n) : Prop where
  procs : ∀ p, (w.procs p).Matches (s.procs p)
  net : List.Forall₂ Stream.Carries w.net s.net
  issued : w.issued = s.issued
  trace : w.trace = s.trace.filter kept

structure Outcome.Matches (o : Outcome n) (o' : Tob.Outcome n) : Prop where
  proc : o.proc.Matches o'.proc
  events : o.events = o'.events.filter kept
  issued : o.issued = o'.issued

theorem init_matches : (init : State n).Matches Tob.init where
  procs := fun _ => ⟨rfl, rfl, .nil⟩
  net := .nil
  issued := rfl
  trace := rfl

/-! ## The handlers -/

theorem sendAll_performs {p : Fin n} {node : Node} {msg : Msg} {bytes : Bytes}
    (h : Encodes msg bytes) :
    List.Forall₂ Task.Performs (sendAll p node bytes) (Tob.sendAll p node msg) := by
  unfold sendAll Tob.sendAll
  rw [List.forall₂_map_left_iff, List.forall₂_map_right_iff, List.forall₂_same]
  intro i _
  exact .send ⟨rfl, rfl, rfl, h⟩

theorem totalBroadcast_performs (cfg : Cfg n) (p : Fin n) (heap : Bytes) {node : Node}
    (hbuf : node.buffer.length = node.bufLen) (lc : UInt32) :
    List.Forall₂ Task.Performs (totalBroadcast cfg p heap node lc).2
      (Tob.totalBroadcast cfg p node lc).2 := by
  have hsends : List.Forall₂ Task.Performs (sendAll p node _) (Tob.sendAll p node _) :=
    sendAll_performs (.broad (lc + 1) hbuf)
  show List.Forall₂ _ _ (overruns cfg node ++ Tob.sendAll p node _)
  unfold totalBroadcast overruns
  by_cases hfits : cfg.Fits node.bufLen
  · obtain ⟨buffer, hbuffer, htake⟩ := encoded_of_fits hbuf hfits heap (lc + 1)
    dsimp only
    rw [if_pos hfits, hbuffer]
    dsimp only
    rw [htake]
    exact hsends
  · dsimp only
    rw [if_neg hfits, encoded_of_unfit hbuf hfits heap (lc + 1)]
    exact .cons (.overrun node.mid) hsends

theorem handleIssue_matches (cfg : Cfg n) (p : Fin n) (mid : Nat) (heap : Bytes) {x : Proc n}
    {y : Tob.Proc n} (h : x.Matches y) (message : Str) :
    (handleIssue cfg p mid heap x (message.bytes ++ [0]) (message.length + 1)).Matches
      (Tob.handleIssue cfg p mid y message.bytes) := by
  -- a message has no NUL, so the branch that adds one is taken
  have hlast : message.bytes.getLast? ≠ some 0 := fun hlast =>
    message.noNul (List.mem_of_getLast? hlast)
  have hlen : (message.bytes ++ [0]).length = message.length + 1 := List.length_append
  obtain ⟨hlc, hqueue, -⟩ := h
  unfold handleIssue Tob.handleIssue
  simp only [if_neg hlast, hlen, hlc]
  refine ⟨⟨rfl, hqueue, totalBroadcast_performs cfg p heap ?_ _⟩, rfl, rfl⟩
  show (List.take _ _).length = _
  rw [List.length_take, hlen]
  exact Nat.min_self _

/-- The pid of an ACK is an `int`. -/
def PidFits : Out n → Prop
  | .send ⟨_, _, .ack pid _, _⟩ => pid < 2 ^ 31
  | _ => True

theorem checkAndAckHead_matches {p : Fin n} {stack : Bytes} {q : Queue}
    {r : Queue × List (Task n) × List (Event n)} (h : checkAndAckHead p stack q = some r)
    (hfits : ∀ r', Tob.checkAndAckHead p q = some r' → ∀ out ∈ r'.2.1, PidFits out) :
    ∃ r', Tob.checkAndAckHead p q = some r' ∧ r.1 = r'.1 ∧
      List.Forall₂ Task.Performs r.2.1 r'.2.1 ∧ r.2.2 = r'.2.2.filter kept := by
  unfold checkAndAckHead at h
  obtain ⟨q', hq', h⟩ := Option.bind_eq_some_iff.mp h
  cases hhead : q'.head with
  | none =>
      rw [hhead] at h
      obtain rfl := Option.some.inj h
      have hr' : Tob.checkAndAckHead p q = some (q', [], []) := by
        unfold Tob.checkAndAckHead
        rw [hq', Option.bind_some, hhead]
      exact ⟨_, hr', rfl, .nil, rfl⟩
  | some a =>
      rw [hhead] at h
      obtain ⟨c, hc, h⟩ := Option.bind_eq_some_iff.mp h
      by_cases hflag : c.val.ackFlg = false
      · rw [if_pos hflag] at h
        obtain ⟨text, htext, rfl⟩ := Option.map_eq_some_iff.mp h
        have hr' : Tob.checkAndAckHead p q =
            some (q'.store a (fun x => { x with ackFlg := true }), [Tob.sendP2pAck p c.val],
              [.flagged p c.val.mid]) := by
          unfold Tob.checkAndAckHead
          rw [hq', Option.bind_some, hhead]
          dsimp only
          rw [hc, Option.map_some, if_pos hflag]
        have hpid : PidFits (Tob.sendP2pAck p c.val) :=
          hfits _ hr' _ (List.mem_singleton_self _)
        exact ⟨_, hr', rfl, .cons (.send ⟨rfl, rfl, rfl, .ack hpid htext⟩) .nil, rfl⟩
      · rw [if_neg hflag] at h
        obtain rfl := Option.some.inj h
        have hr' : Tob.checkAndAckHead p q = some (q', [], []) := by
          unfold Tob.checkAndAckHead
          rw [hq', Option.bind_some, hhead]
          dsimp only
          rw [hc, Option.map_some, if_neg hflag]
        exact ⟨_, hr', rfl, .nil, rfl⟩

theorem createNode_take {pid portNum bufLen : Nat} {lc uid : UInt32} {mid : Nat}
    {buf buf' : Bytes} (h : buf.take bufLen = buf'.take bufLen) :
    createNode pid portNum false 0 buf bufLen lc uid n mid =
      createNode pid portNum false 0 buf' bufLen lc uid n mid := by
  unfold createNode
  rw [h]

/-- Some of the body came. -/
theorem handleBroadcast_eq {p : Fin n} {mid : Nat} {y : Tob.Proc n} {uid : UInt32}
    {pid portNum : Nat} {nodeLc : UInt32} {msgLen : Nat} {body : Bytes} {got : Nat}
    (stack : Bytes) (hpos : 0 < got) (hle : got ≤ body.length) :
    Tob.handleBroadcast p mid y uid pid portNum nodeLc msgLen body got stack =
      (Tob.checkAndAckHead p ((y.queue.malloc (createNode pid portNum false 0
        (body.take got ++ stack) msgLen nodeLc uid n mid)).enqueue y.queue.heap.length)).map
        fun r =>
          { proc := ⟨if y.lc + 1 < nodeLc then nodeLc else y.lc + 1, r.1, r.2.1⟩
            events := .received p mid (if y.lc + 1 < nodeLc then nodeLc else y.lc + 1) ::
              (if y.queue.wedged then [.swallowed p mid] else []) ++ r.2.2 } := by
  have hne : body ≠ [] := by
    rw [← List.length_pos_iff_ne_nil]
    omega
  unfold Tob.handleBroadcast
  rw [if_neg hne, if_neg (by omega)]

theorem filter_kept_received {p : Fin n} {mid : Nat} {lc : UInt32} {wedged : Bool}
    (events : List (Event n)) :
    (Event.received p mid lc :: (if wedged then [Event.swallowed p mid] else []) ++ events).filter
      kept = .received p mid lc :: (if wedged then [.swallowed p mid] else []) ++
        events.filter kept := by
  cases wedged <;> rfl

/-- The processes put the same node into their queues. -/
theorem handleBroadcast_matches {cfg : Cfg n} {p : Fin n} {fresh : Nat} {stack : Bytes}
    {x : Proc n} {y : Tob.Proc n} (h : x.Matches y) {node : Node}
    (hbuf : node.buffer.length = node.bufLen) {lc : UInt32} {md : Metadata} {message : Bytes}
    (hd : Delivered node lc md message) {pk : Packet n}
    (hmsg : pk.msg = Tob.encodeBroadcastBuffer node lc) {o : Outcome n}
    (ho : handleBroadcast p pk.mid stack x md message = some o)
    (hfits : ∀ got stack o', Tob.handleClient cfg p fresh y pk got stack = some o' →
      ∀ out ∈ o'.proc.pending, PidFits out) :
    ∃ got stack o', Tob.handleClient cfg p fresh y pk got stack = some o' ∧ o.Matches o' := by
  obtain ⟨hlong, hmd, got, stack', hpos, hle, hmessage⟩ := hd
  obtain ⟨hlc, hqueue, -⟩ := h
  rw [decodeMetadata_metadata] at hmd
  subst hmd
  have hbody : (node.buffer.take (node.bufLen - 5)).length = node.bufLen - 5 := by
    rw [List.length_take]
    omega
  -- the number of bytes that came and what lay behind them are data of the step there
  have hclient : Tob.handleClient cfg p fresh y pk got stack' = _ :=
    (by rw [Tob.handleClient, hmsg]; rfl : _ = Tob.handleBroadcast _ _ _ _ _ _ _ _ _ _ _).trans
      (handleBroadcast_eq stack' hpos (by rw [hbody]; exact hle))
  refine ⟨got, stack', ?_⟩
  have hfits' := hfits got stack'
  rw [hclient] at hfits' ⊢
  unfold handleBroadcast at ho
  obtain ⟨r, hr, rfl⟩ := Option.map_eq_some_iff.mp ho
  simp only [Int.toNat_natCast] at hr hmessage
  rw [createNode_take hmessage, hqueue] at hr
  obtain ⟨r', hr', hq, hpending, hevents⟩ :=
    checkAndAckHead_matches hr fun r' hr' => hfits' _ (Option.map_eq_some_iff.mpr ⟨r', hr', rfl⟩)
  refine ⟨_, Option.map_eq_some_iff.mpr ⟨r', hr', rfl⟩, ⟨?_, hq, hpending⟩, ?_, rfl⟩
  · simp only [hlc]
  · simp only [filter_kept_received, hlc, hqueue, hevents]

theorem handleAck_matches {p : Fin n} {src : Option (Fin n)} {mid : Nat} {stack : Bytes}
    {x : Proc n} {y : Tob.Proc n} (h : x.Matches y) {uid : UInt32} {o : Outcome n}
    (ho : handleAck p src mid stack x uid = some o) :
    ∃ o', Tob.handleAck p src mid y uid = some o' ∧ o.Matches o' := by
  obtain ⟨hlc, hqueue, hpending⟩ := h
  unfold handleAck at ho
  unfold Tob.handleAck
  obtain ⟨found, hfound, ho⟩ := Option.bind_eq_some_iff.mp ho
  rw [hqueue] at hfound
  rw [hfound, Option.bind_some]
  cases found with
  | none =>
      obtain rfl := Option.some.inj ho
      exact ⟨_, rfl, ⟨hlc, hqueue, hpending⟩, rfl, rfl⟩
  | some a =>
      simp only [hqueue] at ho ⊢
      obtain ⟨c, hc, ho⟩ := Option.bind_eq_some_iff.mp ho
      rw [hc, Option.map_some]
      by_cases hcount : c.val.ackCount = c.val.nprocs
      · rw [if_pos hcount] at ho ⊢
        obtain ⟨text, htext, rfl⟩ := Option.map_eq_some_iff.mp ho
        refine ⟨_, rfl, ⟨?_, rfl, ?_⟩, ?_, rfl⟩
        · show x.lc + 1 = y.lc + 1
          rw [hlc]
        · exact List.rel_append (sendAll_performs (.ready htext)) (.cons (.write _ _) .nil)
        · show [_, Event.marked p c.val.mid _ (x.lc + 1)] = _
          rw [hlc]
          rfl
      · rw [if_neg hcount] at ho ⊢
        obtain rfl := Option.some.inj ho
        exact ⟨_, rfl, ⟨hlc, rfl, hpending⟩, rfl, rfl⟩

theorem handleReady_matches {p : Fin n} {mid : Nat} {x : Proc n} {y : Tob.Proc n}
    (h : x.Matches y) {uid : UInt32} {o : Outcome n} (ho : handleReady p mid x uid = some o) :
    ∃ o', Tob.handleReady p mid y uid = some o' ∧ o.Matches o' := by
  obtain ⟨hlc, hqueue, hpending⟩ := h
  unfold handleReady at ho
  rw [hqueue] at ho
  obtain ⟨q, hq, rfl⟩ := Option.map_eq_some_iff.mp ho
  unfold Tob.handleReady
  rw [hq, Option.map_some]
  exact ⟨_, rfl, ⟨hlc, rfl, hpending⟩, rfl, rfl⟩

/-! ## A connection is handled -/

/-- A call fails and the header is lost, or its handler reads the rest with intact calls. -/
theorem handleClient_cases {c : Stream n} {m : Memory} {recvs : List (Option Nat)} {h : Handler}
    {body : Bytes} (hbytes : c.bytes = h.name ++ [13, 10] ++ body)
    (hintact : Intact ⟨c.bytes, recvs⟩) (cfg : Cfg n) (p : Fin n) (fresh : Nat) (x : Proc n) :
    none ∈ recvs ∧ handleClient cfg p fresh x c m recvs = some { proc := x } ∨
      ∃ recvs', recvs' ⊆ recvs ∧ HandlerIntact h ⟨body, recvs'⟩ ∧
        handleClient cfg p fresh x c m recvs =
        if h = .broadcast ∧ Waits m ⟨body, recvs'⟩ then
          some { proc := { x with lc := x.lc + 1, pending := [.hang c.mid] } }
        else react cfg p fresh m x c h (h.run m ⟨body, recvs'⟩).parsed := by
  rw [hbytes] at hintact
  unfold handleClient
  rw [hbytes]
  rcases handleClient_of_whole m h body hintact.1 with ⟨hfails, hnone⟩ | ⟨recvs', hsub, hrest, hrun⟩
  · rw [hnone]
    exact Or.inl ⟨hfails, rfl⟩
  · have hhandler := hintact.handler
    rw [hrest] at hhandler
    rw [hrun]
    dsimp only
    rw [hrest]
    exact Or.inr ⟨recvs', hsub, hhandler, rfl⟩

/-- Everything `handle_client` can do with the bytes of a message. -/
inductive Does (cfg : Cfg n) (p : Fin n) (fresh : Nat) (x : Proc n) (c : Stream n) (m : Memory)
    (recvs : List (Option Nat)) : Msg → Option (Outcome n) → Prop
  | lost (msg : Msg) : Fails m recvs → Does cfg p fresh x c m recvs msg (some { proc := x })
  | returned (msg : Msg) : Fails m recvs →
      Does cfg p fresh x c m recvs msg (some { proc := { x with lc := abortedClock x.lc msg } })
  | empty : Does cfg p fresh x c m recvs (.issue []) none
  | issue (message : Str) :
      Does cfg p fresh x c m recvs (.issue message.bytes)
        (some (handleIssue cfg p fresh m.heap x (message.bytes ++ [0]) (message.length + 1)))
  | hang {node : Node} (lc : UInt32) : node.bufLen ≤ 5 →
      Does cfg p fresh x c m recvs (Tob.encodeBroadcastBuffer node lc)
        (some { proc := { x with lc := x.lc + 1, pending := [.hang c.mid] } })
  | broad {node : Node} {lc : UInt32} {md : Metadata} {message : Bytes} :
      node.buffer.length = node.bufLen → Delivered node lc md message →
      Does cfg p fresh x c m recvs (Tob.encodeBroadcastBuffer node lc)
        (handleBroadcast p c.mid m.stack x md message)
  | ack (pid : Nat) (uid : UInt32) :
      Does cfg p fresh x c m recvs (.ack pid uid) (handleAck p c.src c.mid m.stack x uid)
  | ready (uid : UInt32) :
      Does cfg p fresh x c m recvs (.ready uid) (handleReady p c.mid x uid)

section does

variable {c : Stream n} {m : Memory} {recvs : List (Option Nat)} (cfg : Cfg n) (p : Fin n)
  (fresh : Nat) (x : Proc n)

theorem issue_does {message : Str} (hlen : message.length < 10 ^ 6)
    (hbytes : c.bytes = sentIssue message) (hintact : Intact ⟨c.bytes, recvs⟩) :
    Does cfg p fresh x c m recvs (.issue message.bytes)
      (handleClient cfg p fresh x c m recvs) := by
  rcases handleClient_cases (hbytes.trans (sentIssue_eq message)) hintact cfg p fresh x with
    ⟨hfails, hrun⟩ | ⟨recvs', hsub, hcalls, hrun⟩
  · rw [hrun]
    exact .lost _ (Or.inr hfails)
  rw [hrun, if_neg (by simp)]
  rcases handleIssue_parsed m hlen hcalls with
    ⟨hfails, hparsed⟩ | ⟨hempty, hparsed⟩ | hparsed
  · rw [show (Handler.issue.run m _).parsed = _ from hparsed]
    exact .returned _ (hfails.mono hsub)
  · rw [show (Handler.issue.run m _).parsed = _ from hparsed, hempty]
    exact .empty
  · rw [show (Handler.issue.run m _).parsed = _ from hparsed]
    exact .issue message

theorem broad_does {node : Node} (hbuf : node.buffer.length = node.bufLen) {lc : UInt32}
    (hbytes : c.bytes = offered node lc) (hintact : Intact ⟨c.bytes, recvs⟩) :
    Does cfg p fresh x c m recvs (Tob.encodeBroadcastBuffer node lc)
      (handleClient cfg p fresh x c m recvs) := by
  rcases handleClient_cases (hbytes.trans (offered_header node lc)) hintact cfg p fresh x with
    ⟨hfails, hrun⟩ | ⟨recvs', hsub, hcalls, hrun⟩
  · rw [hrun]
    exact .lost _ (Or.inr hfails)
  rw [hrun]
  obtain ⟨hempty, hparsed⟩ := handleBroadcast_parsed m hbuf lc hcalls
  by_cases hwaits : Waits m ⟨(offered node lc).drop 7, recvs'⟩
  · rw [if_pos ⟨rfl, hwaits⟩]
    exact .hang lc (hempty hwaits)
  · rw [if_neg (fun hw => hwaits hw.2)]
    rcases hparsed.resolve_left hwaits with
      ⟨hfails, hparsed⟩ | ⟨md, message, hparsed, hdelivered⟩
    · rw [show (Handler.broadcast.run m _).parsed = _ from hparsed]
      exact .returned _ (hfails.mono hsub)
    · rw [show (Handler.broadcast.run m _).parsed = _ from hparsed]
      exact .broad hbuf hdelivered

theorem ack_does {stack : Bytes} {pid : Nat} (hpid : pid < 2 ^ 31) {uid : UInt32} {text : Str}
    (htext : Wire.sendP2pAck stack pid uid = some text) (hbytes : c.bytes = text.bytes)
    (hintact : Intact ⟨c.bytes, recvs⟩) :
    Does cfg p fresh x c m recvs (.ack pid uid) (handleClient cfg p fresh x c m recvs) := by
  have hmin : -2 ^ 31 ≤ (pid : Int) := by omega
  have hmax : (pid : Int) < 2 ^ 31 := by omega
  rcases handleClient_cases (hbytes.trans (sendP2pAck_bytes hmin hmax htext)) hintact cfg p
    fresh x with ⟨hfails, hrun⟩ | ⟨recvs', hsub, hcalls, hrun⟩
  · rw [hrun]
    exact .lost _ (Or.inr hfails)
  rw [hrun, if_neg (by simp)]
  rcases handleAck_parsed uid hmin hmax hcalls with ⟨hfails, hparsed⟩ | hparsed
  · rw [show (Handler.ack.run m _).parsed = _ from hparsed]
    exact .returned _ (Or.inr (hsub hfails))
  · rw [show (Handler.ack.run m _).parsed = .ack pid uid from hparsed]
    exact .ack pid uid

theorem ready_does {stack : Bytes} {node : Node} {text : Str}
    (htext : readyMessage stack node = some text) (hbytes : c.bytes = text.bytes)
    (hintact : Intact ⟨c.bytes, recvs⟩) :
    Does cfg p fresh x c m recvs (.ready node.uid) (handleClient cfg p fresh x c m recvs) := by
  rcases handleClient_cases (hbytes.trans (readyMessage_text htext)) hintact cfg p fresh x with
    ⟨hfails, hrun⟩ | ⟨recvs', hsub, hcalls, hrun⟩
  · rw [hrun]
    exact .lost _ (Or.inr hfails)
  rw [hrun, if_neg (by simp)]
  rcases handleReady_parsed node.uid hcalls with ⟨hfails, hparsed⟩ | hparsed
  · rw [show (Handler.ready.run m _).parsed = _ from hparsed]
    exact .returned _ (Or.inr (hsub hfails))
  · rw [show (Handler.ready.run m _).parsed = .ready node.uid from hparsed]
    exact .ready node.uid

theorem handleClient_does {msg : Msg} (henc : Encodes msg c.bytes)
    (hintact : Intact ⟨c.bytes, recvs⟩) :
    Does cfg p fresh x c m recvs msg (handleClient cfg p fresh x c m recvs) := by
  generalize hbytes : c.bytes = bytes at henc
  cases henc with
  | issue hencoded =>
      obtain ⟨hlen, rfl⟩ := encoded_eq hencoded
      exact issue_does cfg p fresh x hlen hbytes hintact
  | broad lc hbuf => exact broad_does cfg p fresh x hbuf hbytes hintact
  | ack hpid htext => exact ack_does cfg p fresh x hpid htext hbytes hintact
  | ready htext => exact ready_does cfg p fresh x htext hbytes hintact

end does

/-- What a handler of bytes leaves, when `y` is to handle `pk` with `handle`: it lost the
header, it returned early, or it is what the handler of the message leaves. -/
inductive Follows (x : Proc n) (pk : Packet n) (handled : Tob.Outcome n → Prop) :
    Outcome n → Prop
  | lost : Follows x pk handled { proc := x }
  | aborted : Follows x pk handled { proc := { x with lc := abortedClock x.lc pk.msg } }
  | matched {o : Outcome n} {o' : Tob.Outcome n} : handled o' → o.Matches o' →
      Follows x pk handled o

section follows

variable {cfg : Cfg n} {p : Fin n} {fresh : Nat} {x : Proc n} {y : Tob.Proc n} {c : Stream n}
  {pk : Packet n} {m : Memory} {recvs : List (Option Nat)} {o : Outcome n}

/-- **Every handler does with the bytes what it does with the message.** -/
theorem handleClient_follows (h : x.Matches y) (hc : c.Carries pk)
    (hintact : Intact ⟨c.bytes, recvs⟩)
    (hfits : ∀ got stack o', Tob.handleClient cfg p fresh y pk got stack = some o' →
      ∀ out ∈ o'.proc.pending, PidFits out)
    (ho : handleClient cfg p fresh x c m recvs = some o) :
    Follows x pk (fun o' => ∃ got stack, Tob.handleClient cfg p fresh y pk got stack = some o')
      o := by
  obtain ⟨hsrc, -, hmid, henc⟩ := hc
  have hdoes := handleClient_does (m := m) cfg p fresh x henc hintact
  rw [ho] at hdoes
  -- `Does` determines the message and the outcome, so both become variables
  generalize hmsg : pk.msg = msg at hdoes
  generalize hrun : some o = run at hdoes
  have hclient : ∀ got stack, Tob.handleClient cfg p fresh y pk got stack =
      Tob.handleClient cfg p fresh y ⟨pk.src, pk.dst, msg, pk.mid⟩ got stack := by
    intro got stack
    rw [← hmsg]
  cases hdoes with
  | lost =>
      obtain rfl := Option.some.inj hrun
      exact .lost
  | returned =>
      obtain rfl := Option.some.inj hrun
      rw [← hmsg]
      exact .aborted
  | empty => cases hrun
  | issue message =>
      obtain rfl := Option.some.inj hrun
      exact .matched ⟨0, [], hclient 0 []⟩ (handleIssue_matches cfg p fresh m.heap h message)
  | @hang node lc hempty =>
      obtain rfl := Option.some.inj hrun
      -- nothing of the body was sent, whichever part of it comes
      have hbody : node.buffer.take (node.bufLen - 5) = [] := by
        rw [Nat.sub_eq_zero_of_le hempty, List.take_zero]
      have hhang : Tob.handleClient cfg p fresh y pk 0 [] =
          some { proc := { y with lc := y.lc + 1, pending := [.hang pk.mid] } } := by
        rw [hclient]
        exact if_pos hbody
      rw [hmid]
      refine .matched ⟨0, [], hhang⟩ ⟨⟨?_, h.queue, .cons (.hang pk.mid) .nil⟩, rfl, rfl⟩
      show x.lc + 1 = y.lc + 1
      rw [h.lc]
  | broad hbuf hdelivered =>
      rw [hmid] at hrun
      obtain ⟨got, stack, o', ho', hmatches⟩ :=
        handleBroadcast_matches h hbuf hdelivered hmsg hrun.symm hfits
      exact .matched ⟨got, stack, ho'⟩ hmatches
  | ack pid uid =>
      rw [hsrc, hmid] at hrun
      obtain ⟨o', ho', hmatches⟩ := handleAck_matches h hrun.symm
      exact .matched ⟨0, [], (hclient 0 []).trans ho'⟩ hmatches
  | ready uid =>
      rw [hmid] at hrun
      obtain ⟨o', ho', hmatches⟩ := handleReady_matches h hrun.symm
      exact .matched ⟨0, [], (hclient 0 []).trans ho'⟩ hmatches

/-! ## Nothing that was sent is undefined -/

theorem checkAndAckHead_total {q : Queue} {r' : Queue × List (Out n) × List (Event n)}
    (h : Tob.checkAndAckHead p q = some r') (hfits : ∀ out ∈ r'.2.1, PidFits out)
    (stack : Bytes) : ∃ r, checkAndAckHead p stack q = some r := by
  unfold Tob.checkAndAckHead at h
  obtain ⟨q', hq', h⟩ := Option.bind_eq_some_iff.mp h
  unfold checkAndAckHead
  rw [hq', Option.bind_some]
  cases hhead : q'.head with
  | none => exact ⟨_, rfl⟩
  | some a =>
      rw [hhead] at h
      obtain ⟨cell, hcell, rfl⟩ := Option.map_eq_some_iff.mp h
      dsimp only
      rw [hcell, Option.bind_some]
      by_cases hflag : cell.val.ackFlg = false
      · rw [if_pos hflag] at hfits ⊢
        have hpid : cell.val.pid < 2 ^ 31 := hfits _ (List.mem_singleton_self _)
        obtain ⟨text, htext, -⟩ := ack_decodes ⟨true, [], []⟩ stack cell.val.uid
          (show -2 ^ 31 ≤ (cell.val.pid : Int) by omega) (by omega)
        rw [htext]
        exact ⟨_, rfl⟩
      · rw [if_neg hflag]
        exact ⟨_, rfl⟩

theorem handleBroadcast_total (h : x.Matches y) (hs : y.Sound) {node : Node}
    (hbuf : node.buffer.length = node.bufLen) {lc : UInt32} {md : Metadata} {message : Bytes}
    (hd : Delivered node lc md message) (hmsg : pk.msg = Tob.encodeBroadcastBuffer node lc)
    (hfits : ∀ got stack o', Tob.handleClient cfg p fresh y pk got stack = some o' →
      ∀ out ∈ o'.proc.pending, PidFits out) (stack : Bytes) :
    ∃ o, handleBroadcast p pk.mid stack x md message = some o := by
  obtain ⟨hlong, hmd, got, stack', hpos, hle, hmessage⟩ := hd
  rw [decodeMetadata_metadata] at hmd
  subst hmd
  have hbody : (node.buffer.take (node.bufLen - 5)).length = node.bufLen - 5 := by
    rw [List.length_take]
    omega
  have hgot : pk.msg.Received got := by
    rw [hmsg]
    exact Or.inr ⟨hpos, by rw [hbody]; exact hle⟩
  -- the handler of the message runs to its end, and this one calls what that one calls
  obtain ⟨o', ho'⟩ := handleClient_isSome cfg p fresh hs pk hgot stack'
  have hfits' := hfits got stack' o' ho'
  rw [Tob.handleClient, hmsg] at ho'
  have hrun := (handleBroadcast_eq stack' hpos (by rw [hbody]; exact hle)).symm.trans ho'
  obtain ⟨r', hr', rfl⟩ := Option.map_eq_some_iff.mp hrun
  obtain ⟨r, hr⟩ := checkAndAckHead_total hr' hfits' stack
  unfold handleBroadcast
  simp only [Int.toNat_natCast] at hmessage ⊢
  rw [createNode_take hmessage, h.queue, hr]
  exact ⟨_, rfl⟩

theorem handleAck_total (h : x.Matches y) (hs : y.Sound) (src : Option (Fin n)) (mid : Nat)
    (stack : Bytes) (uid : UInt32) : ∃ o, handleAck p src mid stack x uid = some o := by
  unfold handleAck
  rw [h.queue]
  rcases Queue.findNode_spec hs.1 uid with ⟨-, hfind⟩ | ⟨a, cell, hfind, -, -, hstore⟩
  · rw [hfind]
    exact ⟨_, rfl⟩
  · obtain ⟨-, -, hload, -⟩ := hstore fun x => { x with ackCount := x.ackCount + 1 }
    rw [hfind, Option.bind_some]
    dsimp only
    rw [hload, Option.bind_some]
    split
    · obtain ⟨text, htext, -⟩ := ready_decodes ⟨true, [], []⟩ stack
        { cell.val with ackCount := cell.val.ackCount + 1 }
      rw [htext]
      exact ⟨_, rfl⟩
    · exact ⟨_, rfl⟩

theorem handleReady_total (h : x.Matches y) (hs : y.Sound) (mid : Nat) (uid : UInt32) :
    ∃ o, handleReady p mid x uid = some o := by
  obtain ⟨q, hq, -⟩ := Queue.dequeue_spec hs.1 uid
  unfold handleReady
  rw [h.queue, hq]
  exact ⟨_, rfl⟩

/-- **A handler runs to its end** on every message but the empty ISSUE. -/
theorem handleClient_total (h : x.Matches y) (hs : y.Sound) (hc : c.Carries pk)
    (hne : pk.msg ≠ .issue []) (hintact : Intact ⟨c.bytes, recvs⟩)
    (hfits : ∀ got stack o', Tob.handleClient cfg p fresh y pk got stack = some o' →
      ∀ out ∈ o'.proc.pending, PidFits out) :
    ∃ o, handleClient cfg p fresh x c m recvs = some o := by
  obtain ⟨-, -, hmid, henc⟩ := hc
  have hdoes := handleClient_does (m := m) cfg p fresh x henc hintact
  generalize hmsg : pk.msg = msg at hdoes hne
  generalize handleClient cfg p fresh x c m recvs = run at hdoes
  cases hdoes with
  | lost => exact ⟨_, rfl⟩
  | returned => exact ⟨_, rfl⟩
  | empty => exact absurd rfl hne
  | issue message => exact ⟨_, rfl⟩
  | hang lc hempty => exact ⟨_, rfl⟩
  | broad hbuf hdelivered =>
      rw [hmid]
      exact handleBroadcast_total h hs hbuf hdelivered hmsg hfits m.stack
  | ack pid uid => exact handleAck_total h hs c.src c.mid m.stack uid
  | ready uid => exact handleReady_total h hs c.mid uid

end follows

end DistKv.Tob.OnWire
