import DistKv.Tob.Bounds
import DistKv.Tob.WireRefinement

/-!
# How the handlers end on the wire

A process accepts the bytes of a message that another process or a client sent. If no
call fails, its handler waits for ever where no byte of the body of a BROAD was sent,
stores past the block of its own BROAD where that does not fit, reads in front of its
buffer for the empty ISSUE, and in all other cases runs to its end (`wire_handled`). Of
its arrays it touches nothing from outside but `header[7]`, which every header does.
-/

namespace DistKv.Tob.OnWire

open CText Wire Pieces Transition
open DistKv.Memcache (Incoming)

variable {n : Nat}

/-! ## The bytes that are touched -/

theorem issue_inBounds (m : Memory) {message : Str} (hlen : message.length < 10 ^ 6)
    (hne : message.bytes ≠ []) {recvs : List (Option Nat)}
    (hintact : HandlerIntact .issue
      ⟨Decimal.field 6 message.length ++ [124] ++ (message.bytes ++ [13, 10, 0]), recvs⟩) :
    IssueInBounds m
      ⟨Decimal.field 6 message.length ++ [124] ++ (message.bytes ++ [13, 10, 0]), recvs⟩ := by
  have hseven : (Decimal.field 6 message.length ++ [124]).length = 7 := by
    rw [List.length_append, Decimal.length_field]
    rfl
  have hpos : 0 < message.length := List.length_pos_iff_ne_nil.mpr hne
  intro prefixPayload s' hrecv
  rcases recv_of_whole hintact.1 with ⟨s'', hnone⟩ | ⟨recvs', hsome⟩
  · cases hnone.symm.trans hrecv
  · dsimp only at hsome
    rw [← hseven, List.take_left, List.drop_left, hseven] at hsome
    obtain ⟨hgot, rfl⟩ := Prod.mk.inj (hrecv.symm.trans hsome)
    obtain rfl := Option.some.inj hgot
    rw [atoi_digits hlen, Int.toNat_natCast]
    exact ⟨by simp, Int.natCast_nonneg _, fun _ => Or.inr ⟨hpos, by simp⟩⟩

theorem broadcast_inBounds (m : Memory) {node : Node} (hbuf : node.buffer.length = node.bufLen)
    (lc : UInt32) {recvs : List (Option Nat)}
    (hintact : HandlerIntact .broadcast ⟨(offered node lc).drop 7, recvs⟩)
    (hwaits : ¬ Waits m ⟨(offered node lc).drop 7, recvs⟩) :
    BroadcastInBounds m ⟨(offered node lc).drop 7, recvs⟩ := by
  have hroom : 38 ≤ (malloc 39 m.heap).length := by
    rw [length_malloc]
    omega
  have hinput : ((offered node lc).drop 7).length = 33 + node.bufLen := by
    rw [List.length_drop, offered, totalBufferSize, List.length_take, length_written hbuf]
    omega
  intro hgranted hstop array hfill
  obtain ⟨r, recvs', hrecv, hbuffer, htake, -, hfull, -, -⟩ :=
    recvBufferFrom_of_pieces hroom hintact
  obtain ⟨r', s', hrecv', hfailed, hfill', hlen, -⟩ :=
    recvBufferFrom_eq hroom ⟨(offered node lc).drop 7, recvs⟩
  obtain ⟨rfl, -⟩ := Prod.mk.inj (Option.some.inj (hrecv.symm.trans hrecv'))
  obtain rfl : array = r.buffer := Option.some.inj (hfill.symm.trans hfill')
  rw [hstop] at hfailed
  have hr := hfull hfailed
  rw [hinput] at hr
  -- nobody waits, so all of the metadata has arrived
  have hshort : ¬ r.len < 38 := fun hshort =>
    hwaits ((waits_iff hrecv).mpr ⟨hgranted, hfailed, Or.inl hshort⟩)
  have hthirty : r.len = 38 := by omega
  rw [hthirty] at htake
  have hmd := decodeMetadata_received (show 5 ≤ node.bufLen by omega)
    (show r.buffer.length = 39 by rw [hbuffer, length_malloc]) htake
  rw [← hlen, hthirty]
  show 0 ≤ (decodeMetadata (r.buffer.set 38 0)).msgLen
  rw [hmd, decodeMetadata_metadata]
  exact Int.natCast_nonneg _

theorem text_inBounds {text : Bytes} (htext : text.length ≤ 1000) {recvs : List (Option Nat)}
    (hwhole : Whole ⟨text, recvs⟩ 1024) : TextInBounds ⟨text, recvs⟩ := by
  intro got s' hrecv
  rcases recv_of_whole hwhole with ⟨s'', hnone⟩ | ⟨recvs', hsome⟩
  · cases hnone.symm.trans hrecv
  · obtain ⟨hgot, -⟩ := Prod.mk.inj (hrecv.symm.trans hsome)
    obtain rfl := Option.some.inj hgot
    exact lt_of_le_of_lt (List.length_take_le' 1024 text) (by omega)

/-! ## The messages -/

/-- The handler of a message. -/
def handlerOf : Msg → Handler
  | .issue _ => .issue
  | .broad .. => .broadcast
  | .ack .. => .ack
  | .ready _ => .ready

theorem take_header (h : Handler) (body : Bytes) :
    (h.name ++ [13, 10] ++ body).take 5 = h.name := by
  cases h <;> rfl

theorem name_inj {h h' : Handler} (hname : h.name = h'.name) : h = h' := by
  cases h <;> cases h' <;> first | rfl | cases hname

theorem header_of_encodes {msg : Msg} {bytes : Bytes} (h : Encodes msg bytes) :
    ∃ body, bytes = (handlerOf msg).name ++ [13, 10] ++ body := by
  cases h with
  | issue hencoded =>
      rw [(encoded_eq hencoded).2]
      exact ⟨_, sentIssue_eq _⟩
  | @broad node lc hbuf => exact ⟨_, offered_header node lc⟩
  | ack hpid htext => exact ⟨_, sendP2pAck_bytes (by omega) (by omega) htext⟩
  | ready htext => exact ⟨_, readyMessage_text htext⟩

/-- A BROAD of which no byte of the body was sent. -/
def Bodyless (bytes : Bytes) : Prop :=
  bytes.take 5 = Handler.broadcast.name ∧ bytes.length ≤ 45

/-- An ISSUE of a message whose BROAD does not fit the block that is allocated for it. -/
def Oversized (cfg : Cfg n) (bytes : Bytes) : Prop :=
  ∃ message : Str, bytes = sentIssue message ∧ ¬ cfg.Fits (message.length + 1)

section messages

variable {cfg : Cfg n} {msg : Msg} {bytes : Bytes}

theorem handlerOf_of_bodyless (h : Encodes msg bytes) (hless : Bodyless bytes) :
    handlerOf msg = .broadcast := by
  obtain ⟨body, rfl⟩ := header_of_encodes h
  exact name_inj ((take_header _ body).symm.trans hless.1)

theorem handlerOf_of_oversized (h : Encodes msg bytes) (hover : Oversized cfg bytes) :
    handlerOf msg = .issue := by
  obtain ⟨message, rfl, -⟩ := hover
  obtain ⟨body, hbody⟩ := header_of_encodes h
  apply name_inj
  rw [← take_header _ body, ← hbody, sentIssue_eq, take_header]

theorem bodyless_offered_iff {node : Node} (hbuf : node.buffer.length = node.bufLen) (lc : UInt32) :
    Bodyless (offered node lc) ↔ node.bufLen ≤ 5 := by
  have hlen : (offered node lc).length = 40 + node.bufLen := by
    rw [offered, totalBufferSize, List.length_take, length_written hbuf]
    omega
  have hname : (offered node lc).take 5 = Handler.broadcast.name := by
    rw [offered_header]
    exact take_header _ _
  unfold Bodyless
  rw [hlen, and_iff_right hname]
  omega

/-- No byte of the body is in the message of the protocol. -/
theorem bodyless_iff {uid : UInt32} {pid portNum : Nat} {stamp : UInt32} {len : Nat} {body : Bytes}
    (h : Encodes (.broad uid pid portNum stamp len body) bytes) : Bodyless bytes ↔ body = [] := by
  generalize hmsg : Msg.broad uid pid portNum stamp len body = msg at h
  cases h with
  | issue hencoded => cases hmsg
  | @broad node lc hbuf =>
      obtain ⟨-, -, -, -, -, rfl⟩ := Msg.broad.inj hmsg
      rw [bodyless_offered_iff hbuf, List.take_eq_nil_iff, ← List.length_eq_zero_iff]
      omega
  | ack hpid htext => cases hmsg
  | ready htext => cases hmsg

theorem oversized_sentIssue_iff (message : Str) :
    Oversized cfg (sentIssue message) ↔ ¬ cfg.Fits (message.length + 1) := by
  constructor
  · rintro ⟨message', hsame, hunfit⟩
    have hlen := congrArg List.length hsame
    rw [length_sentIssue, length_sentIssue, issueBufferSize, issueBufferSize] at hlen
    rwa [show message.length = message'.length by omega]
  · exact fun hunfit => ⟨message, rfl, hunfit⟩

end messages

/-! ## What the handlers leave -/

/-- An action that is performed sooner or later. -/
def Task.Runs : Task n → Prop
  | .send _ | .write _ _ => True
  | .hang _ | .overrun _ => False

/-- How process `p` of `w` ends with the bytes of `c`. -/
inductive Ends (cfg : Cfg n) (w : State n) (p : Fin n) (c : Stream n) (m : Memory)
    (recvs : List (Option Nat)) : Outcome n → Prop
  /-- a call failed, and the handler returned -/
  | returned (lc : UInt32) : Fails m recvs →
      Ends cfg w p c m recvs { proc := { w.procs p with lc := lc } }
  /-- it waits for a byte of the body -/
  | hangs {o : Outcome n} : Bodyless c.bytes → o.proc.pending = [.hang c.mid] →
      Ends cfg w p c m recvs o
  /-- it stores past the block of its BROAD -/
  | overruns {o : Outcome n} (rest : List (Task n)) : Oversized cfg c.bytes →
      o.proc.pending = .overrun w.issued.length :: rest → Ends cfg w p c m recvs o
  /-- it is done, but for the connections it opens and the text it writes -/
  | done {o : Outcome n} : ¬ Bodyless c.bytes → ¬ Oversized cfg c.bytes →
      (∀ task ∈ o.proc.pending, task.Runs) → Ends cfg w p c m recvs o

theorem sendAll_runs {p : Fin n} {node : Node} {bytes : Bytes} {task : Task n}
    (h : task ∈ sendAll p node bytes) : task.Runs := by
  obtain ⟨i, -, rfl⟩ := List.mem_map.mp h
  trivial

theorem checkAndAckHead_runs {p : Fin n} {stack : Bytes} {q : Queue}
    {r : Queue × List (Task n) × List (Event n)} (h : checkAndAckHead p stack q = some r) :
    ∀ task ∈ r.2.1, task.Runs := by
  unfold checkAndAckHead at h
  obtain ⟨q', -, h⟩ := Option.bind_eq_some_iff.mp h
  cases hhead : q'.head with
  | none =>
      rw [hhead] at h
      obtain rfl := Option.some.inj h
      exact fun task htask => absurd htask List.not_mem_nil
  | some a =>
      rw [hhead] at h
      obtain ⟨c, -, h⟩ := Option.bind_eq_some_iff.mp h
      split at h
      · obtain ⟨text, -, rfl⟩ := Option.map_eq_some_iff.mp h
        intro task htask
        obtain rfl := List.mem_singleton.mp htask
        trivial
      · obtain rfl := Option.some.inj h
        exact fun task htask => absurd htask List.not_mem_nil

theorem handleBroadcast_runs {p : Fin n} {mid : Nat} {stack : Bytes} {x : Proc n} {md : Metadata}
    {message : Bytes} {o : Outcome n} (h : handleBroadcast p mid stack x md message = some o) :
    ∀ task ∈ o.proc.pending, task.Runs := by
  obtain ⟨r, hr, rfl⟩ := Option.map_eq_some_iff.mp h
  exact checkAndAckHead_runs hr

theorem handleAck_runs {p : Fin n} {src : Option (Fin n)} {mid : Nat} {stack : Bytes} {x : Proc n}
    (hidle : x.pending = []) {uid : UInt32} {o : Outcome n}
    (h : handleAck p src mid stack x uid = some o) : ∀ task ∈ o.proc.pending, task.Runs := by
  unfold handleAck at h
  obtain ⟨found, -, h⟩ := Option.bind_eq_some_iff.mp h
  cases found with
  | none =>
      obtain rfl := Option.some.inj h
      exact fun task htask => absurd (hidle ▸ htask) List.not_mem_nil
  | some a =>
      obtain ⟨c, -, h⟩ := Option.bind_eq_some_iff.mp h
      split at h
      · obtain ⟨text, -, rfl⟩ := Option.map_eq_some_iff.mp h
        intro task htask
        rcases List.mem_append.mp htask with hsend | hwrite
        · exact sendAll_runs hsend
        · obtain rfl := List.mem_singleton.mp hwrite
          trivial
      · obtain rfl := Option.some.inj h
        exact fun task htask => absurd (hidle ▸ htask) List.not_mem_nil

theorem handleReady_runs {p : Fin n} {mid : Nat} {x : Proc n} (hidle : x.pending = [])
    {uid : UInt32} {o : Outcome n} (h : handleReady p mid x uid = some o) :
    ∀ task ∈ o.proc.pending, task.Runs := by
  obtain ⟨q, -, rfl⟩ := Option.map_eq_some_iff.mp h
  exact fun task htask => absurd (hidle ▸ htask) List.not_mem_nil

theorem totalBroadcast_runs {cfg : Cfg n} {node : Node} (hbuf : node.buffer.length = node.bufLen)
    (hfits : cfg.Fits node.bufLen) (p : Fin n) (heap : Bytes) (lc : UInt32) :
    ∀ task ∈ (totalBroadcast cfg p heap node lc).2, task.Runs := by
  obtain ⟨buffer, hbuffer, -⟩ := encoded_of_fits hbuf hfits heap (lc + 1)
  intro task htask
  unfold totalBroadcast at htask
  dsimp only at htask
  rw [hbuffer] at htask
  exact sendAll_runs htask

theorem totalBroadcast_overruns {cfg : Cfg n} {node : Node}
    (hbuf : node.buffer.length = node.bufLen) (hunfit : ¬ cfg.Fits node.bufLen) (p : Fin n)
    (heap : Bytes) (lc : UInt32) :
    ∃ rest, (totalBroadcast cfg p heap node lc).2 = .overrun node.mid :: rest := by
  unfold totalBroadcast
  dsimp only
  rw [encoded_of_unfit hbuf hunfit]
  exact ⟨_, rfl⟩

section ends

variable {cfg : Cfg n} {w : State n} {p : Fin n} {c : Stream n} {m : Memory}
  {recvs : List (Option Nat)}

theorem bytes_of_issue {message : Str} {bytes : Bytes} (h : Encodes (.issue message.bytes) bytes) :
    bytes = sentIssue message := by
  generalize hmsg : Msg.issue message.bytes = msg at h
  cases h with
  | issue hencoded => rw [Str.ext (Msg.issue.inj hmsg), (encoded_eq hencoded).2]
  | broad lc hbuf => cases hmsg
  | ack hpid htext => cases hmsg
  | ready htext => cases hmsg

/-- The BROAD of an ISSUE is encoded if it fits. -/
theorem issue_ends {message : Str} (henc : Encodes (.issue message.bytes) c.bytes) :
    Ends cfg w p c m recvs (handleIssue cfg p w.issued.length m.heap (w.procs p)
      (message.bytes ++ [0]) (message.length + 1)) := by
  have hover : Oversized cfg (sentIssue message) ↔ _ := oversized_sentIssue_iff message
  rw [← bytes_of_issue henc] at hover
  generalize hnode : createNode (cfg.pid p) (port p) false 0 (message.bytes ++ [0])
    (message.length + 1) ((w.procs p).lc + 1) (generateUid (cfg.pid p) ((w.procs p).lc + 1)) n
    w.issued.length = node
  have hpending : (handleIssue cfg p w.issued.length m.heap (w.procs p) (message.bytes ++ [0])
      (message.length + 1)).proc.pending =
        (totalBroadcast cfg p m.heap node ((w.procs p).lc + 1)).2 := by
    rw [← hnode]
    rfl
  have hlen : node.bufLen = message.length + 1 := by
    rw [← hnode]
    rfl
  have hmid : node.mid = w.issued.length := by
    rw [← hnode]
    rfl
  have hbuf : node.buffer.length = node.bufLen := by
    rw [hlen, ← hnode]
    show (List.take _ _).length = _
    rw [List.length_take, List.length_append]
    exact Nat.min_self _
  by_cases hfits : cfg.Fits node.bufLen
  · refine .done (fun hless => ?_) (fun h => hover.mp h (hlen ▸ hfits)) ?_
    · cases handlerOf_of_bodyless henc hless
    · rw [hpending]
      exact totalBroadcast_runs hbuf hfits p m.heap _
  · obtain ⟨rest, hrest⟩ := totalBroadcast_overruns hbuf hfits p m.heap ((w.procs p).lc + 1)
    exact .overruns rest (hover.mpr (hlen ▸ hfits)) (by rw [hpending, hrest, hmid])

/-- Everything that a handler does with the bytes of a message is one of the ends. -/
theorem Does.ends {msg : Msg} {o : Outcome n} (henc : Encodes msg c.bytes)
    (hidle : (w.procs p).pending = [])
    (h : Does cfg p w.issued.length (w.procs p) c m recvs msg (some o)) :
    Ends cfg w p c m recvs o := by
  have hsound : handlerOf msg ≠ .broadcast → handlerOf msg ≠ .issue →
      (∀ task ∈ o.proc.pending, task.Runs) → Ends cfg w p c m recvs o :=
    fun hbroad hissue => .done (fun hless => hbroad (handlerOf_of_bodyless henc hless))
      (fun hover => hissue (handlerOf_of_oversized henc hover))
  generalize hrun : some o = run at h
  cases h with
  | lost msg hfails =>
      obtain rfl := Option.some.inj hrun
      exact .returned (w.procs p).lc hfails
  | returned msg hfails =>
      obtain rfl := Option.some.inj hrun
      exact .returned _ hfails
  | empty => cases hrun
  | issue message =>
      obtain rfl := Option.some.inj hrun
      exact issue_ends henc
  | hang lc hempty =>
      obtain rfl := Option.some.inj hrun
      refine .hangs ((bodyless_iff henc).mpr ?_) rfl
      rw [Nat.sub_eq_zero_of_le hempty, List.take_zero]
  | @broad node lc md message hbuf hdelivered =>
      have hlong := hdelivered.long
      refine .done (fun hless => ?_) (fun hover => ?_) (handleBroadcast_runs hrun.symm)
      · have hnil := (bodyless_iff henc).mp hless
        rw [List.take_eq_nil_iff, ← List.length_eq_zero_iff] at hnil
        omega
      · cases handlerOf_of_oversized henc hover
  | ack pid uid => exact hsound nofun nofun (handleAck_runs hidle hrun.symm)
  | ready uid => exact hsound nofun nofun (handleReady_runs hidle hrun.symm)

/-- What `handle_client` touches of its arrays: the byte behind `header`, unless `recv`
fails, and nothing else outside of them, unless it hangs. -/
theorem handleClient_touches {h : Handler} {body : Bytes}
    (hbytes : c.bytes = h.name ++ [13, 10] ++ body) (hintact : Intact ⟨c.bytes, recvs⟩)
    (fresh : Nat) (hok : ∀ recvs', HandlerIntact h ⟨body, recvs'⟩ →
      ¬ (h = .broadcast ∧ Waits m ⟨body, recvs'⟩) → HandlerInBounds m h ⟨body, recvs'⟩)
    {o : Outcome n} (ho : handleClient cfg p fresh (w.procs p) c m recvs = some o) :
    o.proc.pending = [.hang c.mid] ∨
      ∀ run ∈ (Wire.handleClient m ⟨c.bytes, recvs⟩).2, AllOk run.2.accesses := by
  rw [hbytes] at hintact
  unfold handleClient at ho
  rw [hbytes] at ho ⊢
  rcases handleClient_of_whole m h body hintact.1 with ⟨-, hnone⟩ | ⟨recvs', -, hrest, hrun⟩
  · rw [hnone]
    exact Or.inr fun run hmem => absurd hmem List.not_mem_nil
  · have hhandler := hintact.handler
    rw [hrest] at hhandler
    rw [hrun] at ho ⊢
    dsimp only at ho
    rw [hrest] at ho
    by_cases hwaits : h = .broadcast ∧ Waits m ⟨body, recvs'⟩
    · rw [if_pos hwaits] at ho
      obtain rfl := Option.some.inj ho
      exact Or.inl rfl
    · apply Or.inr
      intro run hmem
      obtain rfl := List.mem_singleton.mp hmem
      exact (run_ok_iff m h _).mpr (hok recvs' hhandler hwaits)

theorem encodes_touches {msg : Msg} (henc : Encodes msg c.bytes) (hne : msg ≠ .issue [])
    (hintact : Intact ⟨c.bytes, recvs⟩) (fresh : Nat) {o : Outcome n}
    (ho : handleClient cfg p fresh (w.procs p) c m recvs = some o) :
    o.proc.pending = [.hang c.mid] ∨
      ∀ run ∈ (Wire.handleClient m ⟨c.bytes, recvs⟩).2, AllOk run.2.accesses := by
  generalize hbytes : c.bytes = bytes at henc
  cases henc with
  | issue hencoded =>
      obtain ⟨hlen, rfl⟩ := encoded_eq hencoded
      rw [← hbytes]
      exact handleClient_touches (hbytes.trans (sentIssue_eq _)) hintact fresh
        (fun _ h _ => issue_inBounds m hlen (fun hnil => hne (congrArg Msg.issue hnil)) h) ho
  | @broad node lc hbuf =>
      rw [← hbytes]
      exact handleClient_touches (hbytes.trans (offered_header node lc)) hintact fresh
        (fun _ h hwaits => broadcast_inBounds m hbuf lc h fun hw => hwaits ⟨rfl, hw⟩) ho
  | ack hpid htext =>
      rw [← hbytes]
      exact handleClient_touches (hbytes.trans (sendP2pAck_bytes (by omega) (by omega) htext))
        hintact fresh (fun _ h _ => text_inBounds (length_ackItems _ (by omega) (by omega)) h) ho
  | ready htext =>
      rw [← hbytes]
      exact handleClient_touches (hbytes.trans (readyMessage_text htext)) hintact fresh
        (fun _ h _ => text_inBounds (length_readyItems _) h) ho

end ends

def noMessage : Str := Str.ofBytes []

theorem bytes_of_empty {msg : Msg} {bytes : Bytes} (hempty : msg = .issue [])
    (h : Encodes msg bytes) : bytes = sentIssue noMessage := by
  subst hempty
  exact bytes_of_issue (show Encodes (.issue noMessage.bytes) bytes from h)

end DistKv.Tob.OnWire
