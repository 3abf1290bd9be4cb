import DistKv.Lib.Format
import DistKv.Memcache.HandleClient
import DistKv.Tob.Transfer

/-!
# Reading a message (`client_handle.c`)

`handle_client` reads the header of seven bytes and runs the handler whose name
it starts with; the handler reads the rest. What a handler does with the
message is in `Middleware`; here is how it gets it from the bytes, and which
bytes of its arrays it touches on the way, in the order of the source.

The stream and the results of the calls to `recv` are an `Incoming`, as in the
store. The byte behind `header` that a complete header overwrites is not used by
anyone else here.
-/

namespace DistKv.Tob.Wire

open CText Pieces
open DistKv.Memcache (Incoming)

/-- The arrays the handlers index. -/
inductive CArray
  | header
  | prefixPayload
  | buffer
  | metadata
  | uidStr
  | pidStr
  | portStr
  | lcStr
  | lenStr
  | message
  | ackMsg
  | readyMsg
deriving DecidableEq

/-- What is to be checked of a run. -/
inductive Access
  /-- byte `i` of an array of `size` bytes is read or stored -/
  | index (array : CArray) (size i : Int)
  /-- a number from the wire says how large the array is -/
  | length (array : CArray) (n : Int)

/-- Inside the array, and not negative. -/
def Access.Ok : Access → Prop
  | .index _ size i => 0 ≤ i ∧ i < size
  | .length _ n => 0 ≤ n

/-- Nothing to object to. -/
def AllOk (accesses : List Access) : Prop := ∀ a ∈ accesses, a.Ok

@[simp] theorem allOk_nil : AllOk [] := by simp [AllOk]

@[simp] theorem allOk_cons {a : Access} {rest : List Access} :
    AllOk (a :: rest) ↔ a.Ok ∧ AllOk rest := by
  simp [AllOk]

@[simp] theorem allOk_append {accesses rest : List Access} :
    AllOk (accesses ++ rest) ↔ AllOk accesses ∧ AllOk rest := by
  unfold AllOk
  rw [List.forall_mem_append]

/-- What a handler has when it is done with reading. -/
inductive Parsed
  /-- it returned before -/
  | returned
  /-- the rest depends on a byte outside of an array -/
  | undefined
  /-- `buffer` and `buf_len`, as `handle_issue` passes them to `create_node` -/
  | issue (buffer : Bytes) (bufLen : Nat)
  /-- the metadata and `message`, as `handle_broadcast` passes them -/
  | broad (metadata : Metadata) (message : Bytes)
  | ack (pid : Int) (uid : UInt32)
  | ready (uid : UInt32)

/-- The run of a handler, and what it leaves on the connection. -/
structure Run where
  accesses : List Access
  parsed : Parsed
  rest : Incoming

/-- A run with accesses in front. -/
def Run.after (accesses : List Access) (run : Run) : Run :=
  { run with accesses := accesses ++ run.accesses }

/-- Whether `malloc` finds memory, and what the heap and the stack held. -/
structure Memory where
  granted : Bool
  heap : Bytes
  stack : Bytes

/-! ## `recv_buffer` -/

/-- The results of `recv` that the loop of `recv_buffer` does not use. -/
def unread : List (Option Nat) → Bytes → Nat → List (Option Nat)
  | [], _, _ => []
  | result :: rest, stream, left =>
      if left = 0 then result :: rest
      else
        match result with
        | none => rest
        | some k =>
            let piece := stream.take (min (k + 1) left)
            if piece = [] then rest
            else unread rest (stream.drop piece.length) (left - piece.length)

/-- `recv_buffer(client_fd_ptr, buffer, &buf_len)`, and the connection behind it. -/
def recvBufferFrom (buffer : Bytes) (bufLen : Nat) (s : Incoming) :
    Option (Received × Incoming) :=
  (recvLoop bufLen s.recvs s.input buffer 0 0).map fun r =>
    (r, ⟨r.rest, unread s.recvs s.input bufLen⟩)

/-! ## The handlers -/

/-- The message of `msgSize` bytes, and the NUL behind it. -/
def issueMessage (m : Memory) (msgSize : Nat) (s : Incoming) : Run :=
  match recvBufferFrom (malloc (msgSize + 1) m.heap) msgSize s with
  | none => ⟨[.index .buffer (msgSize + 1) (msgSize + 1)], .undefined, s⟩
  | some (r, s) =>
      if r.failed then ⟨[], .returned, s⟩
      else
        .after [.index .buffer (msgSize + 1) (r.len - 1)] <|
          if r.len = 0 then ⟨[], .undefined, s⟩
          else if r.buffer[r.len - 1]? = some 0 then ⟨[], .issue r.buffer r.len, s⟩
          else
            ⟨[.index .buffer (msgSize + 1) r.len], .issue (r.buffer.set r.len 0) (r.len + 1), s⟩

/-- `handle_issue`, up to `create_node`. -/
def handleIssue (m : Memory) (s : Incoming) : Run :=
  match s.recv 7 with
  | (none, s) => ⟨[], .returned, s⟩
  | (some prefixPayload, s) =>
      .after [.index .prefixPayload 7 (prefixPayload.length - 1)] <|
        if prefixPayload = [] then ⟨[], .undefined, s⟩
        else
          -- the last byte is overwritten
          let msgSize := atoi prefixPayload.dropLast
          .after [.length .buffer msgSize] <|
            if msgSize < 0 then ⟨[], .undefined, s⟩
            else if m.granted = false then ⟨[], .returned, s⟩
            else issueMessage m msgSize.toNat s

/-- The ends of the five copies out of the metadata, each with the NUL behind it. -/
def fieldAccesses : List Access :=
  [.index .metadata 39 11, .index .uidStr 13 12, .index .metadata 39 19, .index .pidStr 9 8,
    .index .metadata 39 27, .index .portStr 9 8, .index .metadata 39 31, .index .lcStr 5 4,
    .index .metadata 39 37, .index .lenStr 7 6]

/-- The message of `msg_len` bytes, and the NUL behind it. -/
def broadcastMessage (m : Memory) (md : Metadata) (s : Incoming) : Run :=
  match s.recv (md.msgLen.toNat + 1) with
  | (none, s) => ⟨[], .returned, s⟩
  | (some got, s) =>
      let message := got ++ (malloc (md.msgLen.toNat + 1) m.stack).drop got.length
      ⟨[.index .message (md.msgLen + 1) md.msgLen],
        .broad md (message.set md.msgLen.toNat 0), s⟩

/-- `handle_broadcast`, up to `create_node`. -/
def handleBroadcast (m : Memory) (s : Incoming) : Run :=
  if m.granted = false then ⟨[], .returned, s⟩
  else
    match recvBufferFrom (malloc 39 m.heap) 38 s with
    | none => ⟨[.index .metadata 39 39], .undefined, s⟩
    | some (r, s) =>
        if r.failed then ⟨[], .returned, s⟩
        else
          let md := decodeMetadata (r.buffer.set r.len 0)
          .after (.index .metadata 39 r.len :: fieldAccesses ++ [.length .message md.msgLen]) <|
            if md.msgLen < 0 then ⟨[], .undefined, s⟩ else broadcastMessage m md s

/-- `"PID:%d UID:%u"` -/
def ackFormat : List Directive :=
  [.char 80, .char 73, .char 68, .char 58, .int, .blank, .char 85, .char 73, .char 68, .char 58,
    .uint]

/-- `"UID:%u"` -/
def readyFormat : List Directive := [.char 85, .char 73, .char 68, .char 58, .uint]

/-- `sscanf` in `handle_ack` gave two values. -/
def ackParsed : List Scanned → Parsed
  | [.int pid, .uint uid] => .ack pid uid
  | _ => .returned

/-- `sscanf` in `handle_ready` gave one. -/
def readyParsed : List Scanned → Parsed
  | [.uint uid] => .ready uid
  | _ => .returned

/-- A text of at most 1024 bytes, with a NUL behind it, and the values scanned from it. -/
def scanText (array : CArray) (format : List Directive) (parse : List Scanned → Parsed)
    (s : Incoming) : Run :=
  match s.recv 1024 with
  | (none, s) => ⟨[], .returned, s⟩
  | (some text, s) =>
      ⟨[.index array 1024 text.length], parse (sscanf format (Str.ofBytes text).bytes), s⟩

/-- `handle_ack`, up to `find_node`. -/
def handleAck (s : Incoming) : Run := scanText .ackMsg ackFormat ackParsed s

/-- `handle_ready`, up to `dequeue`. -/
def handleReady (s : Incoming) : Run := scanText .readyMsg readyFormat readyParsed s

/-! ## `handle_client` -/

inductive Handler
  | issue
  | broadcast
  | ack
  | ready
deriving DecidableEq

/-- `ISSUE`, `BROAD`, `ACK` and `READY`. -/
def Handler.name : Handler → Bytes
  | issue => [73, 83, 83, 85, 69]
  | broadcast => [66, 82, 79, 65, 68]
  | ack => [65, 67, 75, 48, 48]
  | ready => [82, 69, 65, 68, 89]

def Handler.run (m : Memory) : Handler → Incoming → Run
  | issue => handleIssue m
  | broadcast => handleBroadcast m
  | ack => handleAck
  | ready => handleReady

/-- The four tests, `strncmp(header, name, 5) == 0`. -/
def dispatch (header : Str) : List Handler :=
  [.issue, .broadcast, .ack, .ready].filter fun h => header.bytes.take 5 = h.name

/-- The handlers run one after the other on what is left of the connection. -/
def serve (m : Memory) : List Handler → Incoming → List (Handler × Run)
  | [], _ => []
  | h :: handlers, s => (h, h.run m s) :: serve m handlers (h.run m s).rest

/-- `handle_client`: what it does with `header`, and the handlers it runs. -/
def handleClient (m : Memory) (s : Incoming) : List Access × List (Handler × Run) :=
  match s.recv 7 with
  | (none, _) => ([], [])
  | (some header, s) =>
      ([.index .header 7 header.length], serve m (dispatch (Str.ofBytes header)) s)

/-- **No two handlers run on one connection.** -/
theorem dispatch_of_name {header : Str} {h : Handler} (hname : header.bytes.take 5 = h.name) :
    dispatch header = [h] := by
  have htest : ∀ h' : Handler, decide (header.bytes.take 5 = h'.name) = decide (h = h') := by
    intro h'
    rw [hname]
    cases h <;> cases h' <;> rfl
  unfold dispatch
  simp only [htest]
  cases h <;> rfl

theorem dispatch_eq (header : Str) :
    dispatch header = [] ∨ ∃ h : Handler, header.bytes.take 5 = h.name ∧ dispatch header = [h] := by
  by_cases hsome : ∃ h : Handler, header.bytes.take 5 = h.name
  · obtain ⟨h, hname⟩ := hsome
    exact .inr ⟨h, hname, dispatch_of_name hname⟩
  · apply Or.inl
    unfold dispatch
    rw [List.filter_eq_nil_iff]
    intro h _ hname
    exact hsome ⟨h, of_decide_eq_true hname⟩

/-- A complete header is split off, and its handler gets the rest. -/
theorem handleClient_of_header (m : Memory) (h : Handler) (body : Bytes) :
    (handleClient m ⟨h.name ++ [13, 10] ++ body, []⟩).2 = [(h, h.run m ⟨body, []⟩)] := by
  have hlen : (h.name ++ [13, 10]).length = 7 := by cases h <;> rfl
  have hrecv : Incoming.recv ⟨h.name ++ [13, 10] ++ body, []⟩ 7 =
      (some (h.name ++ [13, 10]), ⟨body, []⟩) := by
    unfold Incoming.recv
    rw [← hlen, List.take_left, List.drop_left]
  have hname : (Str.ofBytes (h.name ++ [13, 10])).bytes.take 5 = h.name := by
    cases h <;> decide
  unfold handleClient
  rw [hrecv]
  show serve m (dispatch _) _ = _
  rw [dispatch_of_name hname]
  rfl

end DistKv.Tob.Wire
