import DistKv.Tob.OnWire

/-!
# What the handlers read of a message that was sent

Each message of the middleware is decoded to what its sender encoded, or the handler
returns on a call that failed, or it waits. That needs calls of `recv` that are not cut
short where the code does not go on reading (`Intact`): the header, the length of an
ISSUE and the text of a control message in one call, and in `recv_buffer` at most two
pieces. The body of a BROAD may be cut anywhere.
-/

namespace DistKv.Tob.OnWire

open CText Wire Pieces
open DistKv.Memcache (Incoming)

/-! ## Calls that are not cut short -/

/-- The call fails, or it gets all that it asks for and is there. -/
def Whole (s : Incoming) (len : Nat) : Prop := ∀ bytes ∈ (s.recv len).1, bytes = s.input.take len

instance (s : Incoming) (len : Nat) : Decidable (Whole s len) :=
  inferInstanceAs (Decidable (∀ bytes ∈ (s.recv len).1, bytes = s.input.take len))

/-- The calls of a handler. -/
def HandlerIntact : Handler → Incoming → Prop
  | .issue, s => Whole s 7 ∧ (pieces (s.recv 7).2.recvs (s.recv 7).2.input
      (atoi (s.input.take 7).dropLast).toNat).length ≤ 2
  | .broadcast, s => (pieces s.recvs s.input 38).length ≤ 2
  | .ack, s | .ready, s => Whole s 1024

instance (h : Handler) (s : Incoming) : Decidable (HandlerIntact h s) :=
  match h with
  | .issue => inferInstanceAs (Decidable (Whole s 7 ∧ (pieces (s.recv 7).2.recvs
      (s.recv 7).2.input (atoi (s.input.take 7).dropLast).toNat).length ≤ 2))
  | .broadcast => inferInstanceAs (Decidable ((pieces s.recvs s.input 38).length ≤ 2))
  | .ack | .ready => inferInstanceAs (Decidable (Whole s 1024))

/-- The calls of `handle_client`. -/
def Intact (s : Incoming) : Prop :=
  Whole s 7 ∧ ∀ h ∈ dispatch (Str.ofBytes (s.input.take 7)), HandlerIntact h (s.recv 7).2

instance (s : Incoming) : Decidable (Intact s) :=
  inferInstanceAs (Decidable (Whole s 7 ∧
    ∀ h ∈ dispatch (Str.ofBytes (s.input.take 7)), HandlerIntact h (s.recv 7).2))

/-- `malloc` finds no memory, or a call of `recv` fails. -/
def Fails (m : Memory) (recvs : List (Option Nat)) : Prop := m.granted = false ∨ none ∈ recvs

theorem Fails.mono {m : Memory} {recvs recvs' : List (Option Nat)} (h : Fails m recvs')
    (hsub : recvs' ⊆ recvs) : Fails m recvs :=
  h.imp_right fun hnone => hsub hnone

theorem none_mem_of_recv {s s' : Incoming} {len : Nat} (h : s.recv len = (none, s')) :
    none ∈ s.recvs := by
  obtain ⟨input, recvs⟩ := s
  unfold Incoming.recv at h
  match recvs with
  | [] => cases h
  | none :: rest => exact List.mem_cons_self
  | some k :: rest => cases h

/-- The results that a call leaves. -/
theorem recvs_subset_of_recv {s s' : Incoming} {len : Nat} {r : Option (List UInt8)}
    (h : s.recv len = (r, s')) : s'.recvs ⊆ s.recvs := by
  obtain ⟨input, recvs⟩ := s
  unfold Incoming.recv at h
  match recvs with
  | [] =>
      obtain ⟨-, rfl⟩ := Prod.mk.inj h
      exact List.Subset.refl _
  | none :: rest =>
      obtain ⟨-, rfl⟩ := Prod.mk.inj h
      exact List.subset_cons_self _ _
  | some k :: rest =>
      obtain ⟨-, rfl⟩ := Prod.mk.inj h
      exact List.subset_cons_self _ _

/-- The results that the loop of `recv_buffer` leaves. -/
theorem unread_subset (recvs : List (Option Nat)) (stream : Bytes) (left : Nat) :
    unread recvs stream left ⊆ recvs := by
  induction recvs generalizing stream left with
  | nil => exact List.Subset.refl _
  | cons result rest ih =>
      unfold unread
      split
      · exact List.Subset.refl _
      · cases result with
        | none => exact List.subset_cons_self _ _
        | some k =>
            dsimp only
            split
            · exact List.subset_cons_self _ _
            · exact List.Subset.trans (ih _ _) (List.subset_cons_self _ _)

theorem recv_of_whole {s : Incoming} {len : Nat} (h : Whole s len) :
    (∃ s', s.recv len = (none, s')) ∨
      ∃ recvs, s.recv len = (some (s.input.take len), ⟨s.input.drop len, recvs⟩) := by
  obtain ⟨input, recvs⟩ := s
  unfold Whole at h
  unfold Incoming.recv at *
  match recvs with
  | [] => exact Or.inr ⟨[], rfl⟩
  | none :: rest => exact Or.inl ⟨_, rfl⟩
  | some k :: rest =>
      have htake : input.take (min (k + 1) len) = input.take len := h _ rfl
      have hdrop : input.drop (min (k + 1) len) = input.drop len := by
        have hsplit := List.take_append_drop (min (k + 1) len) input
        rw [htake] at hsplit
        exact List.append_cancel_left (hsplit.trans (List.take_append_drop len input).symm)
      exact Or.inr ⟨rest, by rw [← htake, ← hdrop]⟩

/-- The header is read, and its handler gets the rest; or the call fails. -/
theorem handleClient_of_whole (m : Memory) (h : Handler) (body : Bytes)
    {recvs : List (Option Nat)} (hwhole : Whole ⟨h.name ++ [13, 10] ++ body, recvs⟩ 7) :
    none ∈ recvs ∧ Wire.handleClient m ⟨h.name ++ [13, 10] ++ body, recvs⟩ = ([], []) ∨
      ∃ recvs', recvs' ⊆ recvs ∧
        (Incoming.recv ⟨h.name ++ [13, 10] ++ body, recvs⟩ 7).2 = ⟨body, recvs'⟩ ∧
        Wire.handleClient m ⟨h.name ++ [13, 10] ++ body, recvs⟩ =
          ([.index .header 7 7], [(h, h.run m ⟨body, recvs'⟩)]) := by
  have hlen : (h.name ++ [13, 10]).length = 7 := by cases h <;> rfl
  have hname : (Str.ofBytes (h.name ++ [13, 10])).bytes.take 5 = h.name := by
    cases h <;> decide
  unfold Wire.handleClient
  rcases recv_of_whole hwhole with ⟨s', hnone⟩ | ⟨recvs', hsome⟩
  · apply Or.inl
    rw [hnone]
    exact ⟨none_mem_of_recv hnone, rfl⟩
  · apply Or.inr
    have hsub := recvs_subset_of_recv hsome
    rw [← hlen, List.take_left, List.drop_left] at hsome
    rw [← hlen, hsome]
    refine ⟨recvs', hsub, rfl, ?_⟩
    show ([_], serve m (dispatch _) _) = _
    rw [dispatch_of_name hname, hlen]
    rfl

/-- What is asked of the calls of the handler that runs. -/
theorem Intact.handler {h : Handler} {body : Bytes} {recvs : List (Option Nat)}
    (hintact : Intact ⟨h.name ++ [13, 10] ++ body, recvs⟩) :
    HandlerIntact h (Incoming.recv ⟨h.name ++ [13, 10] ++ body, recvs⟩ 7).2 := by
  have hlen : (h.name ++ [13, 10]).length = 7 := by cases h <;> rfl
  have hname : (Str.ofBytes (h.name ++ [13, 10])).bytes.take 5 = h.name := by
    cases h <;> decide
  apply hintact.2
  rw [← hlen, List.take_left, dispatch_of_name hname]
  exact List.mem_singleton_self h

/-- **`recv_buffer` in at most two pieces.** -/
theorem recvBufferFrom_of_pieces {buffer : Bytes} {bufLen : Nat} (hroom : bufLen ≤ buffer.length)
    {s : Incoming} (htwo : (pieces s.recvs s.input bufLen).length ≤ 2) :
    ∃ r recvs, recvBufferFrom buffer bufLen s = some (r, ⟨s.input.drop r.len, recvs⟩) ∧
      r.buffer.length = buffer.length ∧ r.buffer.take r.len = s.input.take r.len ∧
      r.len ≤ bufLen ∧ (r.failed = false → r.len = min bufLen s.input.length) ∧
      (r.failed = true → none ∈ s.recvs) ∧ recvs ⊆ s.recvs := by
  have hprefix := isPrefix_flatten_pieces s.recvs s.input bufLen
  have hlen : (pieces s.recvs s.input bufLen).flatten.length ≤ bufLen :=
    hprefix.length_le.trans (List.length_take_le _ _)
  have hstream := hprefix.trans (List.take_prefix _ _)
  have hloop := recvLoop_eq s.recvs s.input buffer 0 (Nat.zero_le bufLen)
  simp only [Nat.sub_zero, Nat.zero_add] at hloop
  obtain ⟨filled, hfilled, hsame⟩ := @fill_isSome buffer 0 (pieces s.recvs s.input bufLen)
    (by omega)
  unfold recvBufferFrom
  rw [hloop, hfilled, Option.map_some, Option.map_some]
  refine ⟨_, _, rfl, hsame, ?_, hlen, fun hok => length_pieces_of_not_stops hok,
    none_mem_of_stops, unread_subset _ _ _⟩
  exact (fill_of_length_le_two htwo hfilled).trans (List.prefix_iff_eq_take.mp hstream)

/-! ## ISSUE -/

theorem encoded_eq {message : Str} {bytes : Bytes} (h : encoded message = some bytes) :
    message.length < 10 ^ 6 ∧ bytes = sentIssue message := by
  unfold encoded at h
  by_cases hlen : message.length < 10 ^ 6
  · rw [encodeInto_one_more hlen] at h
    exact ⟨hlen, (Option.some.inj h).symm⟩
  · have hfit : 14 ≤ (malloc (issueBufferSize message + 1) []).length := by
      rw [length_malloc]
      unfold issueBufferSize
      omega
    rw [encodeInto_of_le (not_lt.mp hlen) hfit] at h
    cases h

/-- `handle_issue` returns on a failing call, or has the message and one NUL; of the empty
message it reads the byte in front of its buffer. -/
theorem handleIssue_parsed (m : Memory) {message : Str} (hlen : message.length < 10 ^ 6)
    {recvs : List (Option Nat)}
    (hintact : HandlerIntact .issue
      ⟨Decimal.field 6 message.length ++ [124] ++ (message.bytes ++ [13, 10, 0]), recvs⟩) :
    let run := Wire.handleIssue m
      ⟨Decimal.field 6 message.length ++ [124] ++ (message.bytes ++ [13, 10, 0]), recvs⟩
    Fails m recvs ∧ run.parsed = .returned ∨ message.bytes = [] ∧ run.parsed = .undefined ∨
      run.parsed = .issue (message.bytes ++ [0]) (message.length + 1) := by
  have hseven : (Decimal.field 6 message.length ++ [124]).length = 7 := by
    rw [List.length_append, Decimal.length_field]
    rfl
  have hcount : message.bytes.length = message.length := rfl
  obtain ⟨hwhole, htwo⟩ := hintact
  intro run
  rcases recv_of_whole hwhole with ⟨s', hnone⟩ | ⟨recvs', hsome⟩
  · refine Or.inl ⟨Or.inr (none_mem_of_recv hnone), ?_⟩
    show (Wire.handleIssue _ _).parsed = _
    unfold Wire.handleIssue
    rw [hnone]
  · have hsub := recvs_subset_of_recv hsome
    dsimp only at hsome htwo hsub
    rw [← hseven, List.take_left, List.drop_left, hseven] at hsome
    rw [hsome, ← hseven, List.take_left, atoi_digits hlen, Int.toNat_natCast] at htwo
    dsimp only at htwo
    -- the message and its terminator
    obtain ⟨r, recvs'', hrecv, hbuffer, htake, -, hfull, hstop, -⟩ :=
      @recvBufferFrom_of_pieces (malloc (message.length + 1) m.heap) message.length
        (by rw [length_malloc]; omega) ⟨message.bytes ++ [13, 10, 0], recvs'⟩ htwo
    show _ ∧ (Wire.handleIssue _ _).parsed = _ ∨ _ ∧ (Wire.handleIssue _ _).parsed = _ ∨
      (Wire.handleIssue _ _).parsed = _
    unfold Wire.handleIssue
    rw [hsome]
    dsimp only [Run.after]
    rw [if_neg (by simp), atoi_digits hlen, if_neg (by omega)]
    by_cases hgranted : m.granted = false
    · rw [if_pos hgranted]
      exact Or.inl ⟨Or.inl hgranted, rfl⟩
    rw [if_neg hgranted, Int.toNat_natCast, issueMessage, hrecv]
    dsimp only [Run.after]
    cases hfailed : r.failed with
    | true => exact Or.inl ⟨Or.inr (hsub (hstop hfailed)), rfl⟩
    | false =>
      have hr := hfull hfailed
      rw [List.length_append, hcount, Nat.min_eq_left (by omega)] at hr
      rw [if_neg Bool.false_ne_true]
      by_cases hempty : r.len = 0
      · rw [if_pos hempty]
        exact Or.inr (Or.inl ⟨List.length_eq_zero_iff.mp (by omega), rfl⟩)
      apply Or.inr
      apply Or.inr
      have hne : message.bytes ≠ [] := fun h => hempty (by rw [hr, ← hcount, h]; rfl)
      -- the array is the message and one byte
      rw [hr, ← hcount, List.take_left, hcount] at htake
      obtain ⟨c, hc⟩ : ∃ c, r.buffer = message.bytes ++ [c] := by
        have hone : (r.buffer.drop message.length).length = 1 := by
          rw [List.length_drop, hbuffer, length_malloc]
          omega
        obtain ⟨c, hc⟩ := List.length_eq_one_iff.mp hone
        exact ⟨c, by rw [← hc, ← htake, List.take_append_drop]⟩
      have hlast := last_ne_zero hne message.noNul [c]
      have hset : (message.bytes ++ [c]).set message.length 0 = message.bytes ++ [0] := by
        rw [← hcount, List.set_append_right _ _ (Nat.le_refl _), Nat.sub_self]
        rfl
      rw [if_neg hempty, hc, hr, ← hcount, if_neg hlast, hcount, hset]

/-! ## Control messages -/

/-- A text that was printed is scanned back, or the call fails. -/
theorem scanText_parsed (array : CArray) (parse : List Scanned → Parsed) {items : List Item}
    (hread : Readable (items.map Item.directive) = true)
    (hlen : (printed items).length ≤ 1000) (hzero : (0 : UInt8) ∉ printed items)
    {recvs : List (Option Nat)} (hwhole : Whole ⟨printed items, recvs⟩ 1024) :
    let run := scanText array (items.map Item.directive) parse ⟨printed items, recvs⟩
    none ∈ recvs ∧ run.parsed = .returned ∨
      run.parsed = parse (items.filterMap Item.scanned) := by
  intro run
  show _ ∧ (scanText _ _ _ _).parsed = _ ∨ (scanText _ _ _ _).parsed = _
  unfold scanText
  rcases recv_of_whole hwhole with ⟨s', hnone⟩ | ⟨recvs', hsome⟩
  · apply Or.inl
    rw [hnone]
    exact ⟨none_mem_of_recv hnone, rfl⟩
  · apply Or.inr
    dsimp only at hsome
    rw [hsome, List.take_of_length_le (show (printed items).length ≤ 1024 by omega)]
    show parse (sscanf _ (Str.ofBytes (printed items)).bytes) = _
    rw [Str.ofBytes_bytes_of_not_mem hzero, sscanf_printed hread]

theorem handleAck_parsed {pid : Int} (uid : UInt32) (hmin : -2 ^ 31 ≤ pid) (hmax : pid < 2 ^ 31)
    {recvs : List (Option Nat)}
    (hintact : HandlerIntact .ack ⟨printed (ackItems pid uid), recvs⟩) :
    let run := Wire.handleAck ⟨printed (ackItems pid uid), recvs⟩
    none ∈ recvs ∧ run.parsed = .returned ∨ run.parsed = .ack pid uid :=
  scanText_parsed .ackMsg ackParsed rfl (length_ackItems uid hmin hmax)
    (zero_not_mem_ackItems pid uid) hintact

theorem handleReady_parsed (uid : UInt32) {recvs : List (Option Nat)}
    (hintact : HandlerIntact .ready ⟨printed (readyItems uid), recvs⟩) :
    let run := Wire.handleReady ⟨printed (readyItems uid), recvs⟩
    none ∈ recvs ∧ run.parsed = .returned ∨ run.parsed = .ready uid :=
  scanText_parsed .readyMsg readyParsed rfl (length_readyItems uid) (zero_not_mem_readyItems uid)
    hintact

/-- The bytes of an ACK. -/
theorem sendP2pAck_bytes {stack : Bytes} {pid : Int} {uid : UInt32} {text : Str}
    (hmin : -2 ^ 31 ≤ pid) (hmax : pid < 2 ^ 31)
    (h : Wire.sendP2pAck stack pid uid = some text) :
    text.bytes = Handler.ack.name ++ [13, 10] ++ printed (ackItems pid uid) := by
  obtain ⟨message, hmessage, hbytes⟩ := formatted_header stack .ack
    (show printed ackHeader = _ from rfl) (length_ackItems uid hmin hmax)
    (zero_not_mem_ackItems pid uid)
  obtain rfl : message = text := Option.some.inj (hmessage.symm.trans h)
  exact hbytes

/-- The bytes of a READY. -/
theorem readyMessage_text {stack : Bytes} {node : Node} {text : Str}
    (h : readyMessage stack node = some text) :
    text.bytes = Handler.ready.name ++ [13, 10] ++ printed (readyItems node.uid) := by
  obtain ⟨message, hmessage, hbytes⟩ := formatted_header stack .ready
    (show printed readyHeader = _ from rfl) (length_readyItems node.uid)
    (zero_not_mem_readyItems node.uid)
  obtain rfl : message = text := Option.some.inj (hmessage.symm.trans h)
  exact hbytes

/-! ## BROAD -/

theorem waits_iff {m : Memory} {s s' : Incoming} {r : Received}
    (h : recvBufferFrom (malloc 39 m.heap) 38 s = some (r, s')) :
    Waits m s ↔ m.granted = true ∧ r.failed = false ∧
      (r.len < 38 ∨ s'.input = [] ∧ s'.recvs.head? ≠ some none) := by
  unfold Waits
  rw [h]
  simp only [Option.mem_some_iff, exists_eq_left']

/-- Bytes behind the metadata are not looked at. -/
theorem decodeMetadata_append {metadata : Bytes} (h : metadata.length = 38) (rest : Bytes) :
    decodeMetadata (metadata ++ rest) = decodeMetadata metadata := by
  have hfield : ∀ i w, i + w ≤ 38 →
      ((metadata ++ rest).drop i).take w = (metadata.drop i).take w := by
    intro i w hle
    rw [List.drop_append_of_le_length (by omega),
      List.take_append_of_le_length (by rw [List.length_drop]; omega)]
  have huid : (metadata ++ rest).take 12 = metadata.take 12 := hfield 0 12 (by omega)
  unfold decodeMetadata
  rw [huid, hfield 12 8 (by omega), hfield 20 8 (by omega), hfield 28 4 (by omega),
    hfield 32 6 (by omega)]

/-- A call that fails, or gets a first part of what is there. -/
theorem recv_cases (s : Incoming) (len : Nat) :
    (∃ s', s.recv (len + 1) = (none, s')) ∨
      s.recvs.head? ≠ some none ∧ ∃ k s', 0 < k ∧ k ≤ len + 1 ∧
        s.recv (len + 1) = (some (s.input.take k), s') := by
  obtain ⟨input, recvs⟩ := s
  unfold Incoming.recv
  match recvs with
  | [] =>
      apply Or.inr
      exact ⟨by simp, len + 1, _, Nat.succ_pos len, Nat.le_refl _, rfl⟩
  | none :: rest => exact Or.inl ⟨_, rfl⟩
  | some k :: rest =>
      apply Or.inr
      exact ⟨by simp, min (k + 1) (len + 1), _, by omega, by omega, rfl⟩

/-- The header is always sent. -/
theorem offered_header (node : Node) (lc : UInt32) :
    offered node lc = Handler.broadcast.name ++ [13, 10] ++ (offered node lc).drop 7 := by
  have htake : (offered node lc).take 7 = Handler.broadcast.name ++ [13, 10] := by
    unfold offered totalBufferSize
    rw [List.take_take, Nat.min_eq_left (by omega)]
    rfl
  rw [← htake, List.take_append_drop]

/-- What a node of the recipient holds, as far as its length goes: part of the body, and
what the array held. -/
structure Delivered (node : Node) (lc : UInt32) (md : Metadata) (message : Bytes) : Prop where
  long : 5 < node.bufLen
  metadata : md = decodeMetadata (metadata node lc)
  message : ∃ got stack, 0 < got ∧ got ≤ node.bufLen - 5 ∧
    message.take md.msgLen.toNat =
      ((node.buffer.take (node.bufLen - 5)).take got ++ stack).take md.msgLen.toNat

theorem broadcastMessage_parsed (m : Memory) {node : Node} (hbuf : node.buffer.length = node.bufLen)
    (hlong : 5 < node.bufLen) (lc : UInt32) (recvs : List (Option Nat)) :
    let md := decodeMetadata (metadata node lc)
    let run := broadcastMessage m md ⟨node.buffer.take (node.bufLen - 5), recvs⟩
    none ∈ recvs ∧ run.parsed = .returned ∨
      ∃ message, run.parsed = .broad md message ∧ Delivered node lc md message := by
  intro md run
  have hbody : (node.buffer.take (node.bufLen - 5)).length = node.bufLen - 5 := by
    rw [List.length_take]
    omega
  show _ ∧ (broadcastMessage _ _ _).parsed = _ ∨ ∃ _, (broadcastMessage _ _ _).parsed = _ ∧ _
  unfold broadcastMessage
  rcases recv_cases ⟨node.buffer.take (node.bufLen - 5), recvs⟩ md.msgLen.toNat with
    ⟨s', hnone⟩ | ⟨-, k, s', hpos, hle, hsome⟩
  · apply Or.inl
    rw [hnone]
    exact ⟨none_mem_of_recv hnone, rfl⟩
  · apply Or.inr
    rw [hsome]
    refine ⟨_, rfl, hlong, rfl, min k (node.bufLen - 5),
      (malloc (md.msgLen.toNat + 1) m.stack).drop (min k (node.bufLen - 5)), by omega, by omega, ?_⟩
    have harrived : (node.buffer.take (node.bufLen - 5)).take k =
        (node.buffer.take (node.bufLen - 5)).take (min k (node.bufLen - 5)) := by
      rw [List.take_eq_take_min, hbody]
    have hlength : ((node.buffer.take (node.bufLen - 5)).take (min k (node.bufLen - 5))).length =
        min k (node.bufLen - 5) := by
      rw [List.length_take, hbody]
      omega
    -- the NUL is behind the part that is copied
    rw [List.take_set_of_le (Nat.le_refl _)]
    show List.take _ ((node.buffer.take (node.bufLen - 5)).take k ++ _) = _
    rw [harrived, hlength]

/-- With at least five bytes of body all of the metadata is sent. -/
theorem metadata_sent {node : Node} (hmeta : 5 ≤ node.bufLen) (lc : UInt32) :
    ((offered node lc).drop 7).take 38 = metadata node lc := by
  rw [offered, totalBufferSize, List.drop_take, List.take_take, Nat.min_eq_left (by omega),
    metadata_of_written]

/-- When all of the metadata has arrived, the fields are those of the BROAD. -/
theorem decodeMetadata_received {node : Node} (hmeta : 5 ≤ node.bufLen) {lc : UInt32}
    {buffer : Bytes} (hbuffer : buffer.length = 39)
    (htake : buffer.take 38 = ((offered node lc).drop 7).take 38) :
    decodeMetadata (buffer.set 38 0) = decodeMetadata (metadata node lc) := by
  rw [metadata_sent hmeta] at htake
  -- the array is the metadata and the NUL
  obtain ⟨c, hc⟩ : ∃ c, buffer.drop 38 = [c] :=
    List.length_eq_one_iff.mp (by rw [List.length_drop, hbuffer])
  have hsplit : buffer = metadata node lc ++ [c] := by
    rw [← htake, ← hc, List.take_append_drop]
  have hset : buffer.set 38 0 = metadata node lc ++ [0] := by
    rw [hsplit, ← length_metadata node lc, List.set_append_right _ _ (Nat.le_refl _),
      Nat.sub_self]
    rfl
  rw [hset, decodeMetadata_append (length_metadata node lc)]

/-- Behind the metadata `handle_broadcast` goes on with the body. -/
theorem handleBroadcast_of_metadata {m : Memory} (hgranted : m.granted = true) {node : Node}
    (hbuf : node.buffer.length = node.bufLen) (hmeta : 5 ≤ node.bufLen) {lc : UInt32}
    {s : Incoming} (hs : s.input = (offered node lc).drop 7) {r : Received}
    {recvs : List (Option Nat)}
    (hrecv : recvBufferFrom (malloc 39 m.heap) 38 s = some (r, ⟨s.input.drop r.len, recvs⟩))
    (hbuffer : r.buffer.length = 39) (htake : r.buffer.take r.len = s.input.take r.len)
    (hfailed : r.failed = false) (hlen : r.len = 38) :
    (Wire.handleBroadcast m s).parsed = (broadcastMessage m (decodeMetadata (metadata node lc))
      ⟨node.buffer.take (node.bufLen - 5), recvs⟩).parsed := by
  have hrest : s.input.drop r.len = node.buffer.take (node.bufLen - 5) := by
    rw [hs, hlen, List.drop_drop, drop_offered hbuf]
  rw [hlen, hs] at htake
  have hmd : decodeMetadata (r.buffer.set r.len 0) = decodeMetadata (metadata node lc) := by
    rw [hlen]
    exact decodeMetadata_received hmeta hbuffer htake
  have hpos : ¬ (decodeMetadata (metadata node lc)).msgLen < 0 := by
    rw [decodeMetadata_metadata]
    exact not_lt.mpr (Int.natCast_nonneg _)
  unfold Wire.handleBroadcast
  rw [if_neg (by simp [hgranted]), hrecv]
  dsimp only [Run.after]
  rw [hfailed, if_neg Bool.false_ne_true, hmd, if_neg hpos, hrest]

/-- `handle_broadcast` waits only where nothing of the body was sent. Else it returns on a
failing call, or has the metadata and some of the body. -/
theorem handleBroadcast_parsed (m : Memory) {node : Node}
    (hbuf : node.buffer.length = node.bufLen) (lc : UInt32) {recvs : List (Option Nat)}
    (hintact : HandlerIntact .broadcast ⟨(offered node lc).drop 7, recvs⟩) :
    let s : Incoming := ⟨(offered node lc).drop 7, recvs⟩
    (Waits m s → node.bufLen ≤ 5) ∧
      (Waits m s ∨ Fails m recvs ∧ (Wire.handleBroadcast m s).parsed = .returned ∨
        ∃ md message, (Wire.handleBroadcast m s).parsed = .broad md message ∧
          Delivered node lc md message) := by
  intro s
  have hinput : s.input.length = 33 + node.bufLen := by
    show ((offered node lc).drop 7).length = _
    rw [List.length_drop, offered, totalBufferSize, List.length_take, length_written hbuf]
    omega
  obtain ⟨r, recvs', hrecv, hbuffer, htake, -, hfull, hstop, hsub⟩ :=
    @recvBufferFrom_of_pieces (malloc 39 m.heap) 38 (by rw [length_malloc]; omega) s hintact
  have hwaits := waits_iff hrecv
  by_cases hgranted : m.granted = true
  swap
  · have hrefused : m.granted = false := by simpa using hgranted
    refine ⟨fun h => absurd h.1 hgranted, Or.inr (Or.inl ⟨Or.inl hrefused, ?_⟩)⟩
    unfold Wire.handleBroadcast
    rw [if_pos hrefused]
  by_cases hfailed : r.failed = true
  · refine ⟨fun h => ?_, Or.inr (Or.inl ⟨Or.inr (hstop hfailed), ?_⟩)⟩
    · have hf := (hwaits.mp h).2.1
      rw [hfailed] at hf
      cases hf
    · unfold Wire.handleBroadcast
      rw [if_neg (by simp [hgranted]), hrecv]
      dsimp only
      rw [if_pos hfailed]
  rw [Bool.not_eq_true] at hfailed
  have hr := hfull hfailed
  rw [hinput] at hr
  by_cases hmeta : node.bufLen < 5
  · have hwait : Waits m s := hwaits.mpr ⟨hgranted, hfailed, Or.inl (by omega)⟩
    exact ⟨fun _ => by omega, Or.inl hwait⟩
  have hlen : r.len = 38 := by omega
  have hparsed := handleBroadcast_of_metadata hgranted hbuf (by omega) rfl hrecv
    (by rw [hbuffer, length_malloc]) htake hfailed hlen
  have hrest : s.input.drop r.len = node.buffer.take (node.bufLen - 5) := by
    rw [hlen]
    show ((offered node lc).drop 7).drop 38 = _
    rw [List.drop_drop, drop_offered hbuf]
  rw [hparsed]
  by_cases hlong : 5 < node.bufLen
  · refine ⟨fun h => ?_, Or.inr ?_⟩
    · rcases (hwaits.mp h).2.2 with hshort | ⟨hend, -⟩
      · omega
      · dsimp only at hend
        rw [hrest, List.take_eq_nil_iff, ← List.length_eq_zero_iff] at hend
        omega
    · rcases broadcastMessage_parsed m hbuf hlong lc recvs' with
        ⟨hnone, h⟩ | ⟨message, h, hdelivered⟩
      · exact Or.inl ⟨Or.inr (hsub hnone), h⟩
      · exact Or.inr ⟨_, message, h, hdelivered⟩
  · refine ⟨fun _ => not_lt.mp hlong, ?_⟩
    have hend : node.buffer.take (node.bufLen - 5) = [] := by
      rw [show node.bufLen - 5 = 0 by omega, List.take_zero]
    -- nothing is there: the call fails or waits
    rcases recv_cases ⟨node.buffer.take (node.bufLen - 5), recvs'⟩
      (decodeMetadata (metadata node lc)).msgLen.toNat with ⟨s', hnone⟩ | ⟨hhead, -⟩
    · refine Or.inr (Or.inl ⟨Or.inr (hsub (none_mem_of_recv hnone)), ?_⟩)
      unfold broadcastMessage
      rw [hnone]
    · exact Or.inl (hwaits.mpr ⟨hgranted, hfailed, Or.inr ⟨hrest.trans hend, hhead⟩⟩)

end DistKv.Tob.OnWire
