import DistKv.Tob.Wire
import Mathlib.Data.List.Induction

/-!
# Broadcasts call by call (`total_broadcast`, `broadcast_ready_message`)

A broadcast opens one connection to each process and then sends on all of them.
Every `malloc`, `socket`, `connect` and `send` may fail; `Calls` and `ReadyCalls`
say how the calls of one run end, and a `Link` is what the process at the other
end of an opened connection sees of it.

A call that fails halfway leaves connections open on which nothing is ever sent,
or serves some processes and not the others, and nobody looks at the result:
`handle_issue` drops it and the client gets its ACK, `broadcast_ready_message`
returns nothing and the message is written. So a broadcast is all or nothing, with
its failures unacknowledged, only if no call fails. A third part of a long message
goes wrong without a failure: `send_buffer` advances its pointer by the size of the
last part alone.
-/

namespace DistKv.Tob.Wire

variable {n : Nat}

/-- An opened connection: what the peer receives, and whether it was closed again. -/
structure Link where
  received : Bytes
  closed : Bool
deriving DecidableEq

/-- How the calls of `total_broadcast` end, for recipient `i` where there is one for
each. `sends i` are the results of the calls of `send`: `none` fails, `some k` takes
`k + 1` bytes or what is offered, and the calls after those listed take everything. -/
structure Calls where
  mallocFds : Bool
  socket : Nat → Bool
  connect : Nat → Bool
  mallocBuffer : Bool
  sends : Nat → List (Option Nat)

/-- The calls of `broadcast_ready_message`; its one `send` to `i` fails or takes at most `k`. -/
structure ReadyCalls where
  mallocFds : Bool
  socket : Nat → Bool
  connect : Nat → Bool
  send : Nat → Option Nat

/-- The loop that opens connections to the next `k` processes: whether it runs to its
end, and the connections that are open then. -/
def openAll (socket connect : Nat → Bool) : Nat → List Link → Bool × List Link
  | 0, links => (true, links)
  | k + 1, links =>
      if socket links.length = false then (false, links)
      else if connect links.length = false then (false, links)
      else openAll socket connect k (links ++ [⟨[], false⟩])

/-- What a loop of `send` leaves: whether the last call failed, the bytes put on the
connection, and the length it stores. -/
structure Sent where
  failed : Bool
  put : Bytes
  len : Nat

/-- The loop, with the place from which the next part is taken. -/
def sendLoop (place : Nat → Nat → Nat) (buffer : Bytes) : List (Option Nat) → Nat → Nat → Sent
  | [], total, bsent =>
      if total < buffer.length then
        ⟨false, (buffer.drop (place total bsent)).take (buffer.length - total), buffer.length⟩
      else ⟨false, [], total⟩
  | result :: rest, total, bsent =>
      if total < buffer.length then
        match result with
        | none => ⟨true, [], total⟩
        | some k =>
            let sent := min (k + 1) (buffer.length - total)
            let r := sendLoop place buffer rest (total + sent) sent
            ⟨r.failed, (buffer.drop (place total bsent)).take sent ++ r.put, r.len⟩
      else ⟨false, [], total⟩

/-- `send_buffer`: `send(pid_fd, buffer+bsent, bleft, 0)`, where `bsent` is the size of the
part before. -/
def sendBuffer (buffer : Bytes) (results : List (Option Nat)) : Sent :=
  sendLoop (fun _ bsent => bsent) buffer results 0 0

/-- The loop that sends the buffer on each connection; a failure closes them all. -/
def sendAll (sends : Nat → List (Option Nat)) (buffer : Bytes) :
    List Link → List Link → Bool × List Link
  | served, [] => (true, served)
  | served, link :: rest =>
      let r := sendBuffer buffer (sends served.length)
      let served := served ++ [{ link with received := r.put }]
      if r.failed then (false, (served ++ rest).map fun l => { l with closed := true })
      else sendAll sends buffer served rest

/-- `total_broadcast(node, lc)`: whether it returns 0, and the connections it opened. -/
def totalBroadcast (node : Node) (lc : UInt32) (c : Calls) : Bool × List Link :=
  if c.mallocFds = false then (false, [])
  else
    let opened := openAll c.socket c.connect node.nprocs []
    if opened.1 = false then (false, opened.2)
    else if c.mallocBuffer = false then (false, opened.2)
    else sendAll c.sends (offered node (lc + 1)) [] opened.2

/-- `"READY\r\nUID:%u"` -/
def readyMsg (node : Node) : Bytes :=
  [82, 69, 65, 68, 89, 13, 10, 85, 73, 68, 58] ++ Decimal.digits node.uid.toNat

/-- `broadcast_ready_message(node, lc)`: the connections it opened. -/
def broadcastReadyMessage (node : Node) (c : ReadyCalls) : List Link :=
  if c.mallocFds = false then []
  else
    let opened := openAll c.socket c.connect node.nprocs []
    if opened.1 = false then opened.2
    else opened.2.mapIdx fun i _ =>
      { received := match c.send i with
          | none => []
          | some k => (readyMsg node).take k
        closed := true }

/-- `"ACK\r\n"` -/
def ackText : Bytes := [65, 67, 75, 13, 10]

/-- The end of `handle_issue` and of `handle_client`: what `total_broadcast` did, and the
reply to the issuing client. -/
def issueAndReply (node : Node) (lc : UInt32) (c : Calls) : (Bool × List Link) × Bytes :=
  (totalBroadcast node lc c, ackText)

/-- The end of `handle_ack`, when the last ACK is in: the connections, and what is
written to the shared file. -/
def markAndWrite (node : Node) (c : ReadyCalls) : List Link × Option Bytes :=
  (broadcastReadyMessage node c, some node.buffer)

/-! ## All or nothing -/

/-- Each of the `n` processes receives the whole message. -/
def ReachesAll (n : Nat) (message : Bytes) (links : List Link) : Prop :=
  links.length = n ∧ ∀ l ∈ links, l.received = message

/-- All processes receive the message, or nobody receives any of it and no connection
stays open. -/
def AllOrNothing (n : Nat) (message : Bytes) (links : List Link) : Prop :=
  ReachesAll n message links ∨ ∀ l ∈ links, l.received = [] ∧ l.closed = true

/-- The BROAD is all or nothing, and the client gets no ACK for one that fails. -/
def BroadSound (node : Node) (lc : UInt32) (c : Calls) : Prop :=
  AllOrNothing node.nprocs (offered node (lc + 1)) (issueAndReply node lc c).1.2 ∧
    ((issueAndReply node lc c).1.1 = false → (issueAndReply node lc c).2 ≠ ackText)

/-- The READY is all or nothing, and nothing is written unless all processes receive it. -/
def ReadySound (node : Node) (c : ReadyCalls) : Prop :=
  AllOrNothing node.nprocs (readyMsg node) (markAndWrite node c).1 ∧
    (¬ ReachesAll node.nprocs (readyMsg node) (markAndWrite node c).1 →
      (markAndWrite node c).2 = none)

/-- No call of `send` fails before everything is sent, and the bytes at the place from
which a part is sent are those that are due. -/
def Transfers (buffer : Bytes) : List (Option Nat) → Nat → Nat → Prop
  | [], total, bsent => (buffer.drop bsent).take (buffer.length - total) = buffer.drop total
  | result :: rest, total, bsent =>
      buffer.length ≤ total ∨
        match result with
        | none => False
        | some k =>
            let sent := min (k + 1) (buffer.length - total)
            (buffer.drop bsent).take sent = (buffer.drop total).take sent ∧
              Transfers buffer rest (total + sent) sent

/-- No call of `total_broadcast` fails, and every part of the message is sent from its place. -/
structure Calls.Succeed (c : Calls) (node : Node) (lc : UInt32) : Prop where
  mallocFds : c.mallocFds = true
  opens : ∀ i < node.nprocs, c.socket i = true ∧ c.connect i = true
  mallocBuffer : c.mallocBuffer = true
  sends : ∀ i < node.nprocs, Transfers (offered node (lc + 1)) (c.sends i) 0 0

/-- No call of `broadcast_ready_message` fails, and each `send` takes the whole message. -/
structure ReadyCalls.Succeed (c : ReadyCalls) (node : Node) : Prop where
  mallocFds : c.mallocFds = true
  opens : ∀ i < node.nprocs, c.socket i = true ∧ c.connect i = true
  sends : ∀ i < node.nprocs, ∃ k, c.send i = some k ∧ (readyMsg node).length ≤ k

/-! ## The loops -/

/-- Connections are opened up to the first failure. -/
theorem openAll_spec (socket connect : Nat → Bool) (k : Nat) (links : List Link) :
    ((openAll socket connect k links).1 = true ↔
      ∀ i, links.length ≤ i → i < links.length + k → socket i = true ∧ connect i = true) ∧
    ((openAll socket connect k links).1 = true →
      (openAll socket connect k links).2 = links ++ List.replicate k ⟨[], false⟩) := by
  induction k generalizing links with
  | zero =>
      refine ⟨iff_of_true rfl fun i h1 h2 => by omega, fun _ => ?_⟩
      simp [openAll]
  | succ k ih =>
      have hhere : ∀ {P : Prop}, (socket links.length = true ∧ connect links.length = true → P) →
          (∀ i, links.length ≤ i → i < links.length + (k + 1) →
            socket i = true ∧ connect i = true) → P :=
        fun h hall => h (hall links.length (Nat.le_refl _) (by omega))
      unfold openAll
      by_cases hsocket : socket links.length = false
      · rw [if_pos hsocket]
        refine ⟨iff_of_false (by simp) (hhere fun h => ?_), by simp⟩
        rw [hsocket] at h
        exact absurd h.1 (by decide)
      by_cases hconnect : connect links.length = false
      · rw [if_neg hsocket, if_pos hconnect]
        refine ⟨iff_of_false (by simp) (hhere fun h => ?_), by simp⟩
        rw [hconnect] at h
        exact absurd h.2 (by decide)
      · rw [if_neg hsocket, if_neg hconnect]
        obtain ⟨hiff, hlinks⟩ := ih (links ++ [⟨[], false⟩])
        rw [List.length_append, List.length_singleton] at hiff
        refine ⟨hiff.trans ⟨fun h i h1 h2 => ?_, fun h i h1 h2 => h i (by omega) (by omega)⟩,
          fun h => ?_⟩
        · by_cases hi : i = links.length
          · subst hi
            simp only [Bool.not_eq_false] at hsocket hconnect
            exact ⟨hsocket, hconnect⟩
          · exact h i (by omega) (by omega)
        · rw [hlinks h, List.append_assoc, List.replicate_succ]
          rfl

/-- A connection that was only opened carries nothing. -/
theorem openAll_received (socket connect : Nat → Bool) (k : Nat) (links : List Link)
    (h : ∀ l ∈ links, l.received = []) :
    ∀ l ∈ (openAll socket connect k links).2, l.received = [] := by
  induction k generalizing links with
  | zero => exact h
  | succ k ih =>
      unfold openAll
      by_cases hsocket : socket links.length = false
      · rw [if_pos hsocket]
        exact h
      by_cases hconnect : connect links.length = false
      · rw [if_neg hsocket, if_pos hconnect]
        exact h
      · rw [if_neg hsocket, if_neg hconnect]
        apply ih
        intro l hl
        rcases List.mem_append.mp hl with hl | hl
        · exact h l hl
        · rw [List.mem_singleton.mp hl]

/-- `send_buffer` sends what is left of the buffer exactly if no call fails and the
parts start where they should. -/
theorem sendLoop_whole_iff (buffer : Bytes) (results : List (Option Nat)) {total bsent : Nat}
    (hle : bsent ≤ total) :
    (sendLoop (fun _ bsent => bsent) buffer results total bsent).failed = false ∧
        (sendLoop (fun _ bsent => bsent) buffer results total bsent).put = buffer.drop total ↔
      Transfers buffer results total bsent := by
  induction results generalizing total bsent with
  | nil =>
      unfold sendLoop Transfers
      by_cases hmore : total < buffer.length
      · simp [hmore]
      · simp [hmore, Nat.sub_eq_zero_of_le (Nat.not_lt.mp hmore)]
  | cons result rest ih =>
      unfold sendLoop Transfers
      by_cases hdone : buffer.length ≤ total
      · rw [if_neg (Nat.not_lt.mpr hdone)]
        refine iff_of_true ⟨rfl, ?_⟩ (Or.inl hdone)
        rw [List.drop_eq_nil_of_le hdone]
      · rw [if_pos (Nat.not_le.mp hdone)]
        cases result with
        | none => simp [hdone]
        | some k =>
            have hlen : ((buffer.drop bsent).take (min (k + 1) (buffer.length - total))).length =
                min (k + 1) (buffer.length - total) := by
              rw [List.length_take, List.length_drop]
              omega
            have hsplit : buffer.drop total =
                (buffer.drop total).take (min (k + 1) (buffer.length - total)) ++
                  buffer.drop (total + min (k + 1) (buffer.length - total)) := by
              rw [← List.drop_drop, List.take_append_drop]
            have hle' : min (k + 1) (buffer.length - total) ≤
                total + min (k + 1) (buffer.length - total) := by omega
            rw [or_iff_right hdone]
            show _ ↔ (_ ∧ Transfers buffer rest (total + min (k + 1) (buffer.length - total))
              (min (k + 1) (buffer.length - total)))
            rw [← ih hle']
            constructor
            · rintro ⟨hok, hbytes⟩
              rw [hsplit] at hbytes
              have hparts := List.append_inj hbytes (by
                rw [hlen, List.length_take, List.length_drop]
                omega)
              exact ⟨hparts.1, hok, hparts.2⟩
            · rintro ⟨hpart, hok, hrest⟩
              refine ⟨hok, ?_⟩
              show _ ++ _ = _
              rw [hrest, hpart]
              exact hsplit.symm

/-- The sending loop runs to its end if every `send_buffer` does. -/
theorem sendAll_spec (sends : Nat → List (Option Nat)) (buffer : Bytes)
    (served todo : List Link) :
    ((sendAll sends buffer served todo).1 = true ↔
      ∀ i, i < todo.length →
        (sendBuffer buffer (sends (served.length + i))).failed = false) ∧
    ((sendAll sends buffer served todo).1 = true →
      (sendAll sends buffer served todo).2 = served ++ todo.mapIdx fun i l =>
        { l with received := (sendBuffer buffer (sends (served.length + i))).put }) := by
  induction todo generalizing served with
  | nil => simp [sendAll]
  | cons link rest ih =>
      unfold sendAll
      by_cases hok : (sendBuffer buffer (sends served.length)).failed = false
      · simp only [hok, Bool.false_eq_true, if_false]
        obtain ⟨hiff, hlinks⟩ := ih (served ++
          [{ link with received := (sendBuffer buffer (sends served.length)).put }])
        rw [List.length_append, List.length_singleton] at hiff hlinks
        refine ⟨hiff.trans ⟨fun h i hi => ?_, fun h i hi => ?_⟩, fun h => ?_⟩
        · cases i with
          | zero => exact hok
          | succ i =>
              have hnext := h i (by simpa using hi)
              rwa [show served.length + 1 + i = served.length + (i + 1) by omega] at hnext
        · have hnext := h (i + 1) (by simpa using hi)
          rwa [show served.length + (i + 1) = served.length + 1 + i by omega] at hnext
        · rw [hlinks h, List.append_assoc, List.mapIdx_cons]
          refine congrArg (served ++ ·) (congrArg (_ :: ·) ?_)
          refine congrArg (fun f => List.mapIdx f rest) ?_
          funext i l
          rw [show served.length + 1 + i = served.length + (i + 1) by omega]
      · have hfailed : (sendBuffer buffer (sends served.length)).failed = true :=
          Bool.eq_true_of_not_eq_false hok
        simp only [hfailed, if_true]
        refine ⟨iff_of_false (by simp) fun h => hok (h 0 (by simp)), by simp⟩

/-! ## The two broadcasts -/

/-- `total_broadcast` returns 0 if no call fails; then nothing is closed. -/
theorem totalBroadcast_spec (node : Node) (lc : UInt32) (c : Calls) :
    ((totalBroadcast node lc c).1 = true ↔
      c.mallocFds = true ∧ (∀ i < node.nprocs, c.socket i = true ∧ c.connect i = true) ∧
        c.mallocBuffer = true ∧
        ∀ i < node.nprocs, (sendBuffer (offered node (lc + 1)) (c.sends i)).failed = false) ∧
    ((totalBroadcast node lc c).1 = true →
      (totalBroadcast node lc c).2 = (List.range node.nprocs).map fun i =>
        { received := (sendBuffer (offered node (lc + 1)) (c.sends i)).put
          closed := false }) := by
  obtain ⟨hopen, hlinks⟩ := openAll_spec c.socket c.connect node.nprocs []
  simp only [List.length_nil, Nat.zero_le, Nat.zero_add, true_implies, List.nil_append]
    at hopen hlinks
  unfold totalBroadcast
  by_cases hfds : c.mallocFds = false
  · simp [hfds]
  rw [if_neg hfds]
  by_cases hopened : (openAll c.socket c.connect node.nprocs []).1 = false
  · simp only [hopened, if_true]
    refine ⟨iff_of_false (by simp) fun h => ?_, by simp⟩
    rw [hopen.mpr h.2.1] at hopened
    cases hopened
  simp only [Bool.not_eq_false] at hfds hopened
  by_cases hbuf : c.mallocBuffer = false
  · simp [hopened, hbuf]
  simp only [Bool.not_eq_false] at hbuf
  obtain ⟨hsend, hsent⟩ := sendAll_spec c.sends (offered node (lc + 1)) []
    (List.replicate node.nprocs ⟨[], false⟩)
  simp only [hopened, hbuf, Bool.true_eq_false, if_false, hlinks hopened]
  refine ⟨?_, fun h => ?_⟩
  · rw [hsend, List.length_replicate]
    simp only [List.length_nil, Nat.zero_add, hfds, true_and]
    exact ⟨fun h => ⟨hopen.mp hopened, h⟩, fun h => h.2⟩
  · rw [hsent h]
    apply List.ext_getElem
    · simp
    · intro i h1 h2
      simp

/-- **A BROAD is all or nothing and failures are not acknowledged** exactly if no call
fails and the parts of the message are sent from their places. -/
theorem broadSound_iff {node : Node} (hpos : 0 < node.nprocs) (lc : UInt32) (c : Calls) :
    BroadSound node lc c ↔ c.Succeed node lc := by
  obtain ⟨hok, hlinks⟩ := totalBroadcast_spec node lc c
  have hsound : BroadSound node lc c ↔ (totalBroadcast node lc c).1 = true ∧
      ReachesAll node.nprocs (offered node (lc + 1)) (totalBroadcast node lc c).2 := by
    -- a failure is acknowledged, and a success closes no connection
    constructor
    · rintro ⟨hall, hack⟩
      have htrue : (totalBroadcast node lc c).1 = true := by
        by_contra hfalse
        exact hack ((Bool.not_eq_true _).mp hfalse) rfl
      refine ⟨htrue, hall.resolve_right fun hnone => ?_⟩
      have hmem : (⟨(sendBuffer (offered node (lc + 1)) (c.sends 0)).put, false⟩ : Link) ∈
          (totalBroadcast node lc c).2 := by
        rw [hlinks htrue]
        exact List.mem_map.mpr ⟨0, List.mem_range.mpr hpos, rfl⟩
      exact absurd (hnone _ hmem).2 Bool.false_ne_true
    · rintro ⟨htrue, hall⟩
      refine ⟨Or.inl hall, fun hfalse => ?_⟩
      rw [show (issueAndReply node lc c).1.1 = (totalBroadcast node lc c).1 from rfl, htrue]
        at hfalse
      cases hfalse
  have hwhole : ∀ i, Transfers (offered node (lc + 1)) (c.sends i) 0 0 ↔
      (sendBuffer (offered node (lc + 1)) (c.sends i)).failed = false ∧
        (sendBuffer (offered node (lc + 1)) (c.sends i)).put = offered node (lc + 1) := by
    intro i
    rw [← sendLoop_whole_iff _ _ (Nat.le_refl 0), List.drop_zero]
    rfl
  rw [hsound]
  constructor
  · rintro ⟨htrue, -, hreceived⟩
    obtain ⟨hfds, hopens, hbuf, hsends⟩ := hok.mp htrue
    refine ⟨hfds, hopens, hbuf, fun i hi => (hwhole i).mpr ⟨hsends i hi, ?_⟩⟩
    rw [hlinks htrue] at hreceived
    exact hreceived _ (List.mem_map.mpr ⟨i, List.mem_range.mpr hi, rfl⟩)
  · rintro ⟨hfds, hopens, hbuf, hsends⟩
    have htrue := hok.mpr ⟨hfds, hopens, hbuf, fun i hi => ((hwhole i).mp (hsends i hi)).1⟩
    refine ⟨htrue, ?_⟩
    rw [hlinks htrue]
    refine ⟨by simp, fun l hl => ?_⟩
    obtain ⟨i, hi, rfl⟩ := List.mem_map.mp hl
    exact ((hwhole i).mp (hsends i (List.mem_range.mp hi))).2

theorem broadcastReadyMessage_spec (node : Node) (c : ReadyCalls) :
    (c.mallocFds = true ∧ (∀ i < node.nprocs, c.socket i = true ∧ c.connect i = true) →
      broadcastReadyMessage node c = (List.range node.nprocs).map fun i =>
        { received := match c.send i with
            | none => []
            | some k => (readyMsg node).take k
          closed := true }) ∧
    (¬ (c.mallocFds = true ∧ ∀ i < node.nprocs, c.socket i = true ∧ c.connect i = true) →
      ∀ l ∈ broadcastReadyMessage node c, l.received = []) := by
  obtain ⟨hopen, hlinks⟩ := openAll_spec c.socket c.connect node.nprocs []
  simp only [List.length_nil, Nat.zero_le, Nat.zero_add, true_implies, List.nil_append]
    at hopen hlinks
  refine ⟨fun ⟨hfds, hopens⟩ => ?_, fun hfail => ?_⟩
  · have hopened := hopen.mpr hopens
    unfold broadcastReadyMessage
    simp only [hfds, Bool.true_eq_false, if_false, hopened, hlinks hopened]
    apply List.ext_getElem
    · simp
    · intro i h1 h2
      simp
  · unfold broadcastReadyMessage
    by_cases hfds : c.mallocFds = false
    · simp [hfds]
    · have hopened : (openAll c.socket c.connect node.nprocs []).1 = false := by
        by_contra htrue
        simp only [Bool.not_eq_false] at hfds htrue
        exact hfail ⟨hfds, hopen.mp htrue⟩
      rw [if_neg hfds]
      simp only [hopened, if_true]
      exact openAll_received c.socket c.connect node.nprocs [] (by simp)

/-- **A READY is all or nothing and nothing is written after a failure** exactly if no
call fails and every `send` takes the whole message. -/
theorem readySound_iff {node : Node} (hpos : 0 < node.nprocs) (c : ReadyCalls) :
    ReadySound node c ↔ c.Succeed node := by
  have hsound : ReadySound node c ↔
      ReachesAll node.nprocs (readyMsg node) (broadcastReadyMessage node c) := by
    -- the message is written in any case
    constructor
    · rintro ⟨-, hwrite⟩
      by_contra hnot
      cases hwrite hnot
    · intro hall
      exact ⟨Or.inl hall, fun hnot => absurd hall hnot⟩
  have hmsg : readyMsg node ≠ [] := by simp [readyMsg]
  obtain ⟨hok, hfail⟩ := broadcastReadyMessage_spec node c
  rw [hsound]
  by_cases hopens : c.mallocFds = true ∧ ∀ i < node.nprocs, c.socket i = true ∧ c.connect i = true
  · rw [hok hopens]
    constructor
    · rintro ⟨-, hreceived⟩
      refine ⟨hopens.1, hopens.2, fun i hi => ?_⟩
      have hmem := hreceived _ (List.mem_map.mpr ⟨i, List.mem_range.mpr hi, rfl⟩)
      cases hsend : c.send i with
      | none =>
          rw [hsend] at hmem
          exact absurd hmem.symm hmsg
      | some k =>
          rw [hsend] at hmem
          exact ⟨k, rfl, List.take_eq_self_iff _ |>.mp hmem⟩
    · rintro ⟨-, -, hsends⟩
      refine ⟨by simp, fun l hl => ?_⟩
      obtain ⟨i, hi, rfl⟩ := List.mem_map.mp hl
      obtain ⟨k, hsend, hk⟩ := hsends i (List.mem_range.mp hi)
      rw [hsend]
      exact List.take_of_length_le hk
  · refine iff_of_false ?_ fun hs => hopens ⟨hs.mallocFds, hs.opens⟩
    rintro ⟨hlen, hreceived⟩
    obtain ⟨l, hl⟩ := List.exists_mem_of_length_pos (hlen ▸ hpos)
    exact hmsg ((hreceived l hl).symm.trans (hfail hopens l hl))

/-- **A broadcast is all or nothing, with its failures unacknowledged,** exactly if no
call fails and no part of the message is sent from the wrong place: for the BROAD of
every message `p` issues, and for the READY of every node of `n` processes. -/
theorem all_or_nothing_iff (cfg : Cfg n) (p : Fin n) (mid : Nat) (lc : UInt32) (message : Bytes)
    (c : Calls) (x : Node) (c' : ReadyCalls) :
    (BroadSound (issueNode cfg p mid lc message) (lc + 1) c ↔
      c.Succeed (issueNode cfg p mid lc message) (lc + 1)) ∧
    (ReadySound { x with nprocs := n } c' ↔ c'.Succeed { x with nprocs := n }) :=
  ⟨broadSound_iff p.pos (lc + 1) c, readySound_iff p.pos c'⟩

/-- A message that is sent in at most two parts is sent from its places. -/
theorem transfers_of_two_parts (buffer : Bytes) (k : Nat) :
    Transfers buffer [] 0 0 ∧ Transfers buffer [some k] 0 0 := by
  refine ⟨by simp [Transfers], ?_⟩
  by_cases hnil : buffer.length ≤ 0
  · exact Or.inl hnil
  · refine Or.inr ⟨rfl, ?_⟩
    show List.take _ (List.drop _ buffer) = List.drop _ buffer
    rw [Nat.zero_add, Nat.sub_zero]
    exact List.take_of_length_le (by rw [List.length_drop])

/-- The second of two processes cannot be reached. -/
def refused : Calls :=
  { mallocFds := true, socket := fun _ => true, connect := fun i => i = 0, mallocBuffer := true
    sends := fun _ => [] }

/-- The second `send` of a READY fails. -/
def unready : ReadyCalls :=
  { mallocFds := true, socket := fun _ => true, connect := fun _ => true
    send := fun i => if i = 0 then some 1024 else none }

/-- Process 0 keeps an open connection without data while the client is told ACK, and a
message is written that only one process was told to remove. -/
theorem refused_not_sound :
    issueAndReply helloNode 1 refused = ((false, [⟨[], false⟩]), ackText) ∧
      ¬ BroadSound helloNode 1 refused ∧
    markAndWrite helloNode unready =
      ([⟨readyMsg helloNode, true⟩, ⟨[], true⟩], some helloNode.buffer) ∧
      ¬ ReadySound helloNode unready := by
  refine ⟨by decide, ?_, by decide, ?_⟩
  · rintro ⟨-, hack⟩
    exact hack (by decide) rfl
  · rintro ⟨-, hwrite⟩
    refine absurd (hwrite ?_) (by decide)
    rintro ⟨-, hreceived⟩
    exact absurd (hreceived ⟨[], true⟩ (by decide)) (by decide)

end DistKv.Tob.Wire
