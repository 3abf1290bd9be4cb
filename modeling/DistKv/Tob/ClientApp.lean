import DistKv.Tob.HandleClient

/-!
# The ISSUE request (`client_app.c`, `handle_issue`)

The client writes a header of seven bytes, the length in six digits, a
delimiter, the message, CR LF and a NUL into an array that has room for all of
it but the NUL. `handle_issue` reads the length and the message, and looks at
the last byte of the message to see if it needs a NUL: for the empty message
that is the byte in front of its buffer.
-/

namespace DistKv.Tob.Wire

open CText Pieces
open DistKv.Memcache (Incoming)

/-! ## The client -/

/-- The message argument without a newline at its end. -/
def trimmed (argument : Str) : Str :=
  if argument.bytes.getLast? = some 10 then
    ⟨argument.bytes.dropLast, fun h => argument.noNul (List.mem_of_mem_dropLast h)⟩
  else argument

/-- What becomes of the encoding. -/
inductive Encoded
  /-- `"Error: Message length exceeds maximum size\n"` -/
  | refused
  /-- a byte is written outside of `msg_buffer` -/
  | outside
  | encoded (msgBuffer : Bytes)
deriving DecidableEq

/-- Go on with what a store leaves. -/
def Encoded.andThen (stored : Option Bytes) (next : Bytes → Encoded) : Encoded :=
  match stored with
  | none => .outside
  | some msgBuffer => next msgBuffer

/-- `"ISSUE\r\n"` -/
def issueHeader : Bytes := [73, 83, 83, 85, 69, 13, 10]

/-- `total_buffer_size`, as it is allocated. -/
def issueBufferSize (message : Str) : Nat := 7 + message.length + 9

/-- The encoding in `main`. -/
def encodeInto (message : Str) (msgBuffer : Bytes) : Encoded :=
  .andThen (store msgBuffer 0 issueHeader) fun msgBuffer =>
  let offset := issueHeader.length
  let payload := Decimal.zeroPad 6 message.length
  .andThen (snprintf msgBuffer offset 7 payload) fun msgBuffer =>
  if 7 ≤ payload.length then .refused
  else
    let offset := offset + 6
    .andThen (store msgBuffer offset [124]) fun msgBuffer =>
    let offset := offset + 1
    .andThen (store msgBuffer offset message.bytes) fun msgBuffer =>
    let offset := offset + message.length
    .andThen (store msgBuffer offset [13]) fun msgBuffer =>
    let offset := offset + 1
    .andThen (store msgBuffer offset [10]) fun msgBuffer =>
    let offset := offset + 1
    .andThen (store msgBuffer offset [0]) .encoded

/-- It is into `msg_buffer`; `stack` is what that held. -/
def encodeIssue (message : Str) (stack : Bytes) : Encoded :=
  encodeInto message (malloc (issueBufferSize message) stack)

/-- The bytes the client writes and sends, in order. -/
def sentIssue (message : Str) : Bytes :=
  issueHeader ++ (Decimal.field 6 message.length ++
    ([124] ++ message.bytes ++ [13] ++ [10] ++ [0]))

/-- They are one more than `msg_buffer` has. -/
theorem length_sentIssue (message : Str) :
    (sentIssue message).length = issueBufferSize message + 1 := by
  simp only [sentIssue, issueHeader, issueBufferSize, List.length_append, Decimal.length_field,
    List.length_cons, List.length_nil, Str.length]
  omega

theorem length_zeroPad_lt_iff (n : Nat) : (Decimal.zeroPad 6 n).length < 7 ↔ n < 10 ^ 6 := by
  rw [← Decimal.length_digits_le_iff (show 0 < 6 by omega), Decimal.length_zeroPad]
  omega

/-- A store of a text that fits. -/
theorem andThen_store {buffer bs : Bytes} {offset : Nat}
    (hfit : offset + bs.length ≤ buffer.length) :
    ∃ buffer' : Bytes, buffer'.length = buffer.length ∧
      ∀ next, Encoded.andThen (store buffer offset bs) next = next buffer' := by
  have hstore : store buffer offset bs = some _ := if_pos hfit
  refine ⟨_, length_of_store hstore, fun next => ?_⟩
  rw [hstore]
  rfl

/-- Two texts stored one behind the other. -/
theorem andThen_store_store (buffer a b : Bytes) {offset offset' : Nat}
    (hoffset : offset' = offset + a.length) (next : Bytes → Encoded) :
    (Encoded.andThen (store buffer offset a) fun buffer =>
        .andThen (store buffer offset' b) next) =
      .andThen (store buffer offset (a ++ b)) next := by
  rw [hoffset, ← store_store]
  cases store buffer offset a <;> rfl

/-- The stores behind the test of the length are one store. -/
theorem andThen_message (msgBuffer : Bytes) (message : Str) (offset : Nat) :
    (Encoded.andThen (store msgBuffer offset [124]) fun msgBuffer =>
      .andThen (store msgBuffer (offset + 1) message.bytes) fun msgBuffer =>
      .andThen (store msgBuffer (offset + 1 + message.length) [13]) fun msgBuffer =>
      .andThen (store msgBuffer (offset + 1 + message.length + 1) [10]) fun msgBuffer =>
      .andThen (store msgBuffer (offset + 1 + message.length + 1 + 1) [0]) .encoded) =
    .andThen (store msgBuffer offset ([124] ++ message.bytes ++ [13] ++ [10] ++ [0])) .encoded := by
  have hdelim : offset + 1 = offset + [(124 : UInt8)].length := rfl
  have hmessage : offset + 1 + message.length = offset + ([124] ++ message.bytes).length := by
    rw [List.length_append, List.length_singleton, Nat.add_assoc]
    rfl
  have hreturn : offset + 1 + message.length + 1 =
      offset + ([124] ++ message.bytes ++ [13]).length := by
    rw [List.length_append, ← Nat.add_assoc, ← hmessage]
    rfl
  have hnewline : offset + 1 + message.length + 1 + 1 =
      offset + ([124] ++ message.bytes ++ [13] ++ [10]).length := by
    rw [List.length_append, ← Nat.add_assoc, ← hreturn]
    rfl
  calc
    _ = Encoded.andThen (store msgBuffer offset ([124] ++ message.bytes)) _ :=
        andThen_store_store _ _ _ hdelim _
    _ = Encoded.andThen (store msgBuffer offset ([124] ++ message.bytes ++ [13])) _ :=
        andThen_store_store _ _ _ hmessage _
    _ = Encoded.andThen (store msgBuffer offset ([124] ++ message.bytes ++ [13] ++ [10])) _ :=
        andThen_store_store _ _ _ hreturn _
    _ = _ := andThen_store_store _ _ _ hnewline _

/-- Six digits and a NUL are printed, whatever the length is. -/
theorem snprintf_zeroPad (buffer : Bytes) (offset n : Nat) :
    snprintf buffer offset 7 (Decimal.zeroPad 6 n) = sprintf buffer offset (Decimal.field 6 n) := by
  unfold snprintf
  rw [if_neg (by decide)]
  rfl

/-- The delimiter takes the place of the NUL behind the digits. -/
theorem andThen_sprintf_store (buffer a : Bytes) {b : Bytes} {offset offset' : Nat}
    (hb : b ≠ []) (hoffset : offset' = offset + a.length) (next : Bytes → Encoded) :
    (Encoded.andThen (sprintf buffer offset a) fun buffer =>
        .andThen (store buffer offset' b) next) =
      .andThen (store buffer offset (a ++ b)) next := by
  rw [hoffset, ← sprintf_store _ _ _ hb]
  cases sprintf buffer offset a <;> rfl

/-- **What the client writes**, into an array of any size: all of the request in one piece. -/
theorem encodeInto_eq {message : Str} (hlen : message.length < 10 ^ 6) (msgBuffer : Bytes) :
    encodeInto message msgBuffer = .andThen (store msgBuffer 0 (sentIssue message)) .encoded := by
  have hshort := (length_zeroPad_lt_iff message.length).mpr hlen
  have hbody : [124] ++ message.bytes ++ [13] ++ [10] ++ [0] ≠ [] := by simp
  have hdigits : issueHeader.length + 6 =
      issueHeader.length + (Decimal.field 6 message.length).length := by
    rw [Decimal.length_field]
  have hpayload := fun buffer =>
    andThen_sprintf_store buffer (Decimal.field 6 message.length) hbody hdigits .encoded
  unfold encodeInto
  dsimp only
  simp only [if_neg (not_le.mpr hshort), andThen_message, snprintf_zeroPad, hpayload]
  exact andThen_store_store _ _ _ (Nat.zero_add _).symm _

/-- A request with seven digits is refused, where the header and six of them fit. -/
theorem encodeInto_of_le {message : Str} (hlen : 10 ^ 6 ≤ message.length) {msgBuffer : Bytes}
    (hfit : 14 ≤ msgBuffer.length) : encodeInto message msgBuffer = .refused := by
  have hlong := (length_zeroPad_lt_iff message.length).not.mpr (not_lt.mpr hlen)
  have hseven : issueHeader.length = 7 := rfl
  obtain ⟨buffer, hbuffer, hheader⟩ :=
    andThen_store (show 0 + issueHeader.length ≤ msgBuffer.length by omega)
  obtain ⟨buffer', -, hpayload⟩ :=
    andThen_store (show issueHeader.length + (Decimal.field 6 message.length ++ [0]).length ≤
      buffer.length by
        rw [List.length_append, Decimal.length_field, List.length_singleton]
        omega)
  unfold encodeInto
  dsimp only
  rw [hheader, snprintf_zeroPad, sprintf, hpayload, if_pos (not_lt.mp hlong)]

/-- **The client never encodes a message in bounds.** It refuses one of a million
bytes and more, and writes the NUL of any other behind `msg_buffer`. -/
theorem encodeIssue_eq (message : Str) (stack : Bytes) :
    encodeIssue message stack = if message.length < 10 ^ 6 then .outside else .refused := by
  have hsize : (malloc (issueBufferSize message) stack).length = issueBufferSize message :=
    length_malloc _ _
  unfold encodeIssue
  by_cases hlen : message.length < 10 ^ 6
  · have hsent := length_sentIssue message
    rw [if_pos hlen, encodeInto_eq hlen, store_eq_none (by omega)]
    rfl
  · have hroom : 14 ≤ issueBufferSize message := by
      unfold issueBufferSize
      omega
    rw [if_neg hlen, encodeInto_of_le (not_lt.mp hlen) (by omega)]

/-- One byte more, and it is the request that is written. -/
theorem encodeInto_one_more {message : Str} (hlen : message.length < 10 ^ 6) (stack : Bytes) :
    encodeInto message (malloc (issueBufferSize message + 1) stack) =
      .encoded (sentIssue message) := by
  have hsize :
      (malloc (issueBufferSize message + 1) stack).length = (sentIssue message).length := by
    rw [length_malloc, length_sentIssue]
  rw [encodeInto_eq hlen, store_zero hsize.ge, ← hsize, List.drop_length, List.append_nil]
  rfl

/-! ## The server -/

/-- What `handle_issue` passes to `create_node` makes a node with this buffer. -/
def CreatesNode (parsed : Parsed) (buffer : Bytes) : Prop :=
  ∃ buf bufLen, parsed = .issue buf bufLen ∧
    ∀ pid portNum lc uid nprocs mid,
      (createNode pid portNum false 0 buf bufLen lc uid nprocs mid).buffer = buffer ∧
      (createNode pid portNum false 0 buf bufLen lc uid nprocs mid).bufLen = buffer.length

/-- The request arrives complete: `handle_issue` runs alone, within its arrays, and makes a
node of the message and one NUL. -/
def Decodes (message : Str) : Prop :=
  ∀ m : Memory, m.granted = true →
    ∃ run, (handleClient m ⟨sentIssue message, []⟩).2 = [(.issue, run)] ∧
      AllOk run.accesses ∧ CreatesNode run.parsed (message.bytes ++ [0])

/-- The request is encoded within `msg_buffer`, and decoded. -/
def RoundTrips (message : Str) : Prop :=
  (∀ stack, ∃ msgBuffer, encodeIssue message stack = .encoded msgBuffer) ∧ Decodes message

/-- What `recv_buffer` makes of a message that is there. -/
theorem recvBufferFrom_complete (heap tail : Bytes) {message : Bytes} (hne : message ≠ []) :
    recvBufferFrom (malloc (message.length + 1) heap) message.length ⟨message ++ tail, []⟩ =
      some (⟨false, message ++ (malloc (message.length + 1) heap).drop message.length,
        message.length, tail⟩, ⟨tail, []⟩) := by
  have hpos : 0 < message.length := List.length_pos_iff_ne_nil.mpr hne
  have hfit : message.length ≤ (malloc (message.length + 1) heap).length := by
    rw [length_malloc]
    omega
  unfold recvBufferFrom recvLoop
  rw [if_pos hpos, Nat.sub_zero]
  dsimp only
  rw [List.take_left, if_neg hne, store_zero hfit, List.drop_left, Nat.zero_add]
  rfl

/-- The six digits in front of the delimiter. -/
theorem recv_digits (len : Nat) (rest : Bytes) :
    Incoming.recv ⟨Decimal.field 6 len ++ [124] ++ rest, []⟩ 7 =
      (some (Decimal.field 6 len ++ [124]), ⟨rest, []⟩) := by
  have hlen : (Decimal.field 6 len ++ [124]).length = 7 := by
    rw [List.length_append, Decimal.length_field]
    rfl
  unfold Incoming.recv
  rw [← hlen, List.take_left, List.drop_left]

theorem atoi_digits {len : Nat} (hlen : len < 10 ^ 6) :
    atoi (Decimal.field 6 len ++ [124]).dropLast = len := by
  rw [List.dropLast_concat, atoi_field (by omega), Decimal.cut_of_lt (by omega) hlen]

/-- The last byte of a message without a zero. -/
theorem last_ne_zero {message : Bytes} (hne : message ≠ []) (hzero : (0 : UInt8) ∉ message)
    (after : Bytes) : (message ++ after)[message.length - 1]? ≠ some 0 := by
  have hlt : message.length - 1 < message.length := by
    have hpos := List.length_pos_iff_ne_nil.mpr hne
    omega
  rw [List.getElem?_append_left hlt]
  intro hlast
  exact hzero (List.mem_of_getElem? hlast)

theorem set_terminator (message heap : Bytes) :
    (message ++ (malloc (message.length + 1) heap).drop message.length).set message.length 0 =
      message ++ [0] := by
  have hone : ((malloc (message.length + 1) heap).drop message.length).length = 1 := by
    rw [List.length_drop, length_malloc]
    omega
  obtain ⟨c, hc⟩ := List.length_eq_one_iff.mp hone
  rw [hc, List.set_append_right _ _ (Nat.le_refl _), Nat.sub_self]
  rfl

/-- **`handle_issue` on a complete request.** -/
theorem handleIssue_complete {m : Memory} (hgranted : m.granted = true) {message : Bytes}
    (hne : message ≠ []) (hzero : (0 : UInt8) ∉ message) (hlen : message.length < 10 ^ 6)
    (tail : Bytes) :
    handleIssue m ⟨Decimal.field 6 message.length ++ [124] ++ (message ++ tail), []⟩ =
      ⟨[.index .prefixPayload 7 6, .length .buffer message.length,
          .index .buffer (message.length + 1) (message.length - 1),
          .index .buffer (message.length + 1) message.length],
        .issue (message ++ [0]) (message.length + 1), ⟨tail, []⟩⟩ := by
  have hdigits : Decimal.field 6 message.length ++ [124] ≠ [] := by simp
  have hsize : ((Decimal.field 6 message.length ++ [124]).length : Int) - 1 = 6 := by
    rw [List.length_append, Decimal.length_field]
    rfl
  have hpos : message.length ≠ 0 := fun h => hne (List.length_eq_zero_iff.mp h)
  have hrun := recvBufferFrom_complete m.heap tail hne
  have hlast := last_ne_zero hne hzero ((malloc (message.length + 1) m.heap).drop message.length)
  unfold handleIssue
  rw [recv_digits]
  dsimp only
  rw [if_neg hdigits, atoi_digits hlen, if_neg (by omega), if_neg (by simp [hgranted]),
    Int.toNat_natCast, hsize, issueMessage, hrun]
  dsimp only
  rw [if_neg Bool.false_ne_true, if_neg hpos, if_neg hlast, set_terminator]
  rfl

/-- For the empty message it reads the byte in front of its buffer. -/
theorem handleIssue_empty {m : Memory} (hgranted : m.granted = true) (tail : Bytes) :
    handleIssue m ⟨Decimal.field 6 0 ++ [124] ++ tail, []⟩ =
      ⟨[.index .prefixPayload 7 6, .length .buffer 0, .index .buffer 1 (-1)], .undefined,
        ⟨tail, []⟩⟩ := by
  unfold handleIssue
  rw [recv_digits]
  dsimp only
  rw [if_neg (by simp), atoi_digits (by omega), if_neg (by omega), if_neg (by simp [hgranted])]
  rfl

/-! ## The round trip -/

theorem sentIssue_eq (message : Str) :
    sentIssue message = Handler.issue.name ++ [13, 10] ++
      (Decimal.field 6 message.length ++ [124] ++ (message.bytes ++ [13, 10, 0])) := by
  simp [sentIssue, issueHeader, Handler.name]

theorem createsNode_issue (buffer : Bytes) : CreatesNode (.issue buffer buffer.length) buffer :=
  ⟨buffer, buffer.length, rfl, fun _ _ _ _ _ _ => ⟨List.take_length, rfl⟩⟩

/-- **The server decodes every message but the empty one.** -/
theorem decodes_iff {message : Str} (hlen : message.length < 10 ^ 6) :
    Decodes message ↔ message.bytes ≠ [] := by
  unfold Decodes
  rw [sentIssue_eq]
  simp only [handleClient_of_header]
  constructor
  · intro h hnil
    obtain ⟨run, hrun, hok, -⟩ := h ⟨true, [], []⟩ rfl
    have hempty : message.length = 0 := List.length_eq_zero_iff.mpr hnil
    obtain rfl : handleIssue ⟨true, [], []⟩ ⟨_, []⟩ = run := by
      injection hrun with hrun
      injection hrun
    rw [hempty, handleIssue_empty rfl] at hok
    have hread : (Access.index .buffer 1 (-1)).Ok := hok _ (by simp)
    exact absurd hread.1 (by decide)
  · intro hne m hgranted
    have hcomplete := handleIssue_complete hgranted hne message.noNul hlen [13, 10, 0]
    have hcount : message.bytes.length = message.length := rfl
    rw [hcount] at hcomplete
    refine ⟨_, rfl, ?_, ?_⟩
    · show AllOk (handleIssue m _).accesses
      have hpos : 0 < message.length := List.length_pos_iff_ne_nil.mpr hne
      rw [hcomplete]
      simp only [allOk_cons, allOk_nil, Access.Ok, and_true]
      omega
    · show CreatesNode (handleIssue m _).parsed _
      rw [hcomplete]
      have hlength : (message.bytes ++ [0]).length = message.length + 1 := List.length_append
      rw [← hlength]
      exact createsNode_issue _

theorem not_roundTrips {message : Str} (hlen : message.length < 10 ^ 6) : ¬ RoundTrips message := by
  intro h
  obtain ⟨msgBuffer, hencoded⟩ := h.1 []
  rw [encodeIssue_eq, if_pos hlen] at hencoded
  cases hencoded

/-- **The ISSUE request never makes the round trip**: no message is encoded within
`msg_buffer`. The server's part alone fails for the empty message and no other. -/
theorem issue_never_round_trips (argument : Str) (hlen : (trimmed argument).length < 10 ^ 6) :
    ¬ RoundTrips (trimmed argument) ∧
      (Decodes (trimmed argument) ↔ (trimmed argument).bytes ≠ []) :=
  ⟨not_roundTrips hlen, decodes_iff hlen⟩

/-- `"hi
"` -/
def hiArgument : Str := ⟨[104, 105, 10], by decide⟩

theorem hi_never_round_trips :
    ¬ RoundTrips (trimmed hiArgument) ∧
      (Decodes (trimmed hiArgument) ↔ (trimmed hiArgument).bytes ≠ []) :=
  issue_never_round_trips hiArgument (by decide)

/-- `"hi"` is written past the end of its array. -/
theorem issue_of_hi :
    ¬ (∀ argument : Str, (trimmed argument).length < 10 ^ 6 → RoundTrips (trimmed argument)) ∧
      ∀ stack, encodeIssue (trimmed hiArgument) stack = .outside := by
  constructor
  · intro h
    have hshort : (trimmed hiArgument).length < 10 ^ 6 := by decide
    exact not_roundTrips hshort (h hiArgument hshort)
  · intro stack
    rw [encodeIssue_eq]
    exact if_pos (by decide)

end DistKv.Tob.Wire
