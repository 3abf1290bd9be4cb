import DistKv.Memcache.ParseBody
import DistKv.Tob.HandleClient

/-!
# Which bytes the handlers touch (`client_handle.c`)

The exact condition for every index of a run to lie in its array and every
length from the wire to be no negative number. The arrays that `recv` may fill
to the last byte and that get a NUL behind what arrived are the ones that go
wrong: `header` with seven bytes, and `ack_msg` and `ready_msg` with 1024.
-/

namespace DistKv.Tob.Wire

open CText Pieces
open DistKv.Memcache (Incoming length_le_of_recv)

/-- Everything `handle_client` touches on a connection. -/
def clientAccesses (m : Memory) (s : Incoming) : List Access :=
  (handleClient m s).1 ++ ((handleClient m s).2.map fun run => run.2.accesses).flatten

/-- Nothing `handle_client` does on this connection is out of bounds. -/
def Safe (m : Memory) (s : Incoming) : Prop := AllOk (clientAccesses m s)

theorem allOk_after {accesses : List Access} {run : Run} :
    AllOk (run.after accesses).accesses ↔ AllOk accesses ∧ AllOk run.accesses :=
  allOk_append

/-- What holds of the bytes of a successful `recv`. -/
theorem forall_received {got : Bytes} {s : Incoming} {P : Bytes → Incoming → Prop} :
    (∀ got' s', (some got, s) = (some got', s') → P got' s') ↔ P got s := by
  simp

/-! ## `recv_buffer` -/

/-- **`recv_buffer` stays in every buffer that has room for what it asks for**: a piece
is stored at the size of the last one, which is no more than what arrived before. -/
theorem recvBufferFrom_eq {buffer : Bytes} {bufLen : Nat} (hroom : bufLen ≤ buffer.length)
    (s : Incoming) :
    ∃ r s', recvBufferFrom buffer bufLen s = some (r, s') ∧
      r.failed = stops s.recvs s.input bufLen ∧
      fill buffer 0 (pieces s.recvs s.input bufLen) = some r.buffer ∧
      r.len = (pieces s.recvs s.input bufLen).flatten.length ∧ r.len ≤ bufLen := by
  have hprefix := isPrefix_flatten_pieces s.recvs s.input bufLen
  have hlen : (pieces s.recvs s.input bufLen).flatten.length ≤ bufLen :=
    hprefix.length_le.trans (List.length_take_le _ _)
  have hloop := recvLoop_eq s.recvs s.input buffer 0 (Nat.zero_le bufLen)
  rw [Nat.sub_zero] at hloop
  obtain ⟨filled, hfilled, -⟩ :=
    fill_isSome (show 0 + (pieces s.recvs s.input bufLen).flatten.length ≤ buffer.length by omega)
  rw [hfilled, Option.map_some] at hloop
  have hrun := congrArg
    (Option.map fun r => (r, (⟨r.rest, unread s.recvs s.input bufLen⟩ : Incoming))) hloop
  have hle : 0 + (pieces s.recvs s.input bufLen).flatten.length ≤ bufLen := by omega
  exact ⟨_, _, hrun, rfl, hfilled, Nat.zero_add _, hle⟩

/-- Without a failure, nothing arrives only if nothing is asked for or nothing is there. -/
theorem length_pos_iff_of_not_stops {recvs : List (Option Nat)} {input : Bytes} {bufLen : Nat}
    (h : stops recvs input bufLen = false) :
    (pieces recvs input bufLen).flatten.length ≠ 0 ↔ 0 < bufLen ∧ input ≠ [] := by
  rw [length_pieces_of_not_stops h, ← List.length_pos_iff_ne_nil]
  omega

/-! ## The handlers -/

/-- **The message of an ISSUE**: unless `recv` fails, a byte of it is asked for and there. -/
theorem issueMessage_ok_iff (m : Memory) (msgSize : Nat) (s : Incoming) :
    AllOk (issueMessage m msgSize s).accesses ↔
      stops s.recvs s.input msgSize = true ∨ 0 < msgSize ∧ s.input ≠ [] := by
  have hroom : msgSize ≤ (malloc (msgSize + 1) m.heap).length := by
    rw [length_malloc]
    omega
  obtain ⟨r, s', hrun, hfailed, -, hlen, hle⟩ := recvBufferFrom_eq hroom s
  unfold issueMessage
  rw [hrun, ← hfailed]
  dsimp only
  cases hstop : r.failed with
  | true => simp
  | false =>
    have hpos := length_pos_iff_of_not_stops (hfailed.symm.trans hstop)
    rw [← hlen] at hpos
    rw [if_neg Bool.false_ne_true, allOk_after, ← hpos]
    by_cases hzero : r.len = 0
    · rw [if_pos hzero, hzero]
      simp [Access.Ok]
    · have hlast : (Access.index .buffer (msgSize + 1) (r.len - 1)).Ok := ⟨by omega, by omega⟩
      have hnul : (Access.index .buffer (msgSize + 1) r.len).Ok := ⟨by omega, by omega⟩
      rw [if_neg hzero]
      split <;> simp [hlast, hnul, hzero]

/-- What an ISSUE needs: a byte of the prefix arrives, the number in front of the last one
is not negative, and if there is memory for the message, a byte of it is asked for and
there, or `recv` fails. -/
def IssueInBounds (m : Memory) (s : Incoming) : Prop :=
  ∀ prefixPayload s', s.recv 7 = (some prefixPayload, s') →
    prefixPayload ≠ [] ∧ 0 ≤ atoi prefixPayload.dropLast ∧
      (m.granted = true →
        stops s'.recvs s'.input (atoi prefixPayload.dropLast).toNat = true ∨
          0 < (atoi prefixPayload.dropLast).toNat ∧ s'.input ≠ [])

theorem handleIssue_ok_iff (m : Memory) (s : Incoming) :
    AllOk (handleIssue m s).accesses ↔ IssueInBounds m s := by
  unfold handleIssue IssueInBounds
  rcases hrecv : s.recv 7 with ⟨_ | prefixPayload, s'⟩
  · simp
  have hlen := length_le_of_recv hrecv
  rw [forall_received]
  dsimp only
  rw [allOk_after]
  by_cases hnil : prefixPayload = []
  · subst hnil
    simp [Access.Ok]
  · have hpos := List.length_pos_iff_ne_nil.mpr hnil
    have hindex : AllOk [.index .prefixPayload 7 (prefixPayload.length - 1)] :=
      allOk_cons.mpr ⟨⟨by omega, by omega⟩, allOk_nil⟩
    rw [if_neg hnil, allOk_after, and_iff_right hindex, and_iff_right hnil]
    by_cases hneg : atoi prefixPayload.dropLast < 0
    · rw [if_pos hneg]
      simp [Access.Ok, hneg]
    · have hlength : AllOk [.length .buffer (atoi prefixPayload.dropLast)] :=
        allOk_cons.mpr ⟨not_lt.mp hneg, allOk_nil⟩
      rw [if_neg hneg, and_iff_right hlength, and_iff_right (not_lt.mp hneg)]
      cases m.granted with
      | false => simp
      | true =>
        rw [if_neg (by decide), issueMessage_ok_iff]
        simp

/-- The copies out of the metadata stay inside. -/
theorem fieldAccesses_ok : AllOk fieldAccesses := by
  simp [fieldAccesses, Access.Ok]

/-- The message of a BROAD always fits. -/
theorem broadcastMessage_ok (m : Memory) {md : Metadata} (hlen : 0 ≤ md.msgLen) (s : Incoming) :
    AllOk (broadcastMessage m md s).accesses := by
  unfold broadcastMessage
  rcases s.recv (md.msgLen.toNat + 1) with ⟨_ | got, s'⟩
  · exact allOk_nil
  · exact allOk_cons.mpr ⟨⟨hlen, by omega⟩, allOk_nil⟩

/-- What a BROAD needs: unless `malloc` or `recv` fails, the six bytes at offset 32 do not
spell a negative number, where the pieces lie over what the heap held and a NUL is put
behind as many bytes as arrived. -/
def BroadcastInBounds (m : Memory) (s : Incoming) : Prop :=
  m.granted = true → stops s.recvs s.input 38 = false →
    ∀ metadata, fill (malloc 39 m.heap) 0 (pieces s.recvs s.input 38) = some metadata →
      0 ≤ atoi (((metadata.set (pieces s.recvs s.input 38).flatten.length 0).drop 32).take 6)

theorem handleBroadcast_ok_iff (m : Memory) (s : Incoming) :
    AllOk (handleBroadcast m s).accesses ↔ BroadcastInBounds m s := by
  have hroom : 38 ≤ (malloc 39 m.heap).length := by
    rw [length_malloc]
    omega
  obtain ⟨r, s', hrun, hfailed, hfill, hlen, hle⟩ := recvBufferFrom_eq hroom s
  unfold handleBroadcast BroadcastInBounds
  rw [hrun, hfill, ← hfailed, ← hlen]
  cases m.granted with
  | false => simp
  | true =>
    have hmd : (decodeMetadata (r.buffer.set r.len 0)).msgLen =
        atoi (((r.buffer.set r.len 0).drop 32).take 6) := rfl
    have hsame : ∀ P : Bytes → Prop,
        (∀ metadata, some r.buffer = some metadata → P metadata) ↔ P r.buffer := by simp
    rw [if_neg (by decide), hsame, forall_prop_of_true rfl]
    dsimp only
    cases r.failed with
    | true => simp
    | false =>
      have hnul : (Access.index .metadata 39 r.len).Ok := ⟨by omega, by omega⟩
      rw [if_neg Bool.false_ne_true, allOk_after, hmd, forall_prop_of_true rfl]
      by_cases hneg : atoi (((r.buffer.set r.len 0).drop 32).take 6) < 0
      · refine iff_of_false ?_ (not_le.mpr hneg)
        intro h
        have hlength := (allOk_cons.mp (allOk_append.mp h.1).2).1
        exact absurd hlength (not_le.mpr hneg)
      · have hpos := not_lt.mp hneg
        refine iff_of_true ⟨?_, ?_⟩ hpos
        · rw [allOk_append, allOk_cons, allOk_cons]
          exact ⟨⟨hnul, fieldAccesses_ok⟩, hpos, allOk_nil⟩
        · rw [if_neg hneg]
          exact broadcastMessage_ok m hpos s'

/-- What an ACK and a READY need: fewer than 1024 bytes at once. -/
def TextInBounds (s : Incoming) : Prop :=
  ∀ text s', s.recv 1024 = (some text, s') → text.length < 1024

theorem scanText_ok_iff (array : CArray) (format : List Directive)
    (parse : List Scanned → Parsed) (s : Incoming) :
    AllOk (scanText array format parse s).accesses ↔ TextInBounds s := by
  unfold scanText TextInBounds
  rcases hrecv : s.recv 1024 with ⟨_ | text, s'⟩
  · simp
  · simp [Access.Ok]

/-! ## `handle_client` -/

/-- What the handler needs. -/
def HandlerInBounds (m : Memory) : Handler → Incoming → Prop
  | .issue => IssueInBounds m
  | .broadcast => BroadcastInBounds m
  | .ack => TextInBounds
  | .ready => TextInBounds

theorem run_ok_iff (m : Memory) (h : Handler) (s : Incoming) :
    AllOk (h.run m s).accesses ↔ HandlerInBounds m h s := by
  cases h with
  | issue => exact handleIssue_ok_iff m s
  | broadcast => exact handleBroadcast_ok_iff m s
  | ack => exact scanText_ok_iff _ _ _ s
  | ready => exact scanText_ok_iff _ _ _ s

/-- What `handle_client` needs: `recv` fails, or it gives less than a header, and the
handler named there, if there is one, is in bounds. -/
def ClientInBounds (m : Memory) (s : Incoming) : Prop :=
  ∀ header s', s.recv 7 = (some header, s') →
    header.length < 7 ∧
      ∀ h : Handler, (Str.ofBytes header).bytes.take 5 = h.name → HandlerInBounds m h s'

/-- **A run is safe exactly when its header is incomplete and the rest is in bounds.** -/
theorem middleware_safe_iff (m : Memory) (s : Incoming) : Safe m s ↔ ClientInBounds m s := by
  unfold Safe clientAccesses ClientInBounds handleClient
  rcases hrecv : s.recv 7 with ⟨_ | header, s'⟩
  · simp
  have hindex : (Access.index .header 7 header.length).Ok ↔ header.length < 7 := by
    simp [Access.Ok]
  rw [forall_received]
  dsimp only
  rw [List.singleton_append, allOk_cons, hindex]
  refine and_congr_right fun _ => ?_
  rcases dispatch_eq (Str.ofBytes header) with hnone | ⟨h, hname, hone⟩
  · rw [hnone]
    refine iff_of_true allOk_nil ?_
    intro h hname
    rw [dispatch_of_name hname] at hnone
    cases hnone
  · rw [hone]
    show AllOk ((h.run m s').accesses ++ []) ↔ _
    rw [List.append_nil, run_ok_iff]
    constructor
    · intro hok h' hname'
      rw [dispatch_of_name hname'] at hone
      injection hone with hsame
      rwa [hsame]
    · intro hall
      exact hall h hname

/-- `"READY\r\nUID:1"`: its header arrives whole. -/
theorem whole_header_unsafe :
    ¬ ∀ m : Memory, Safe m ⟨[82, 69, 65, 68, 89, 13, 10, 85, 73, 68, 58, 49], []⟩ := by
  intro h
  have hheader : Access.Ok (.index .header 7 7) := h ⟨true, [], []⟩ _ List.mem_cons_self
  exact absurd hheader.2 (by decide)

end DistKv.Tob.Wire
