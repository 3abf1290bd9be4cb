import DistKv.Tob.HandleClient

/-!
# Control messages on the wire (`send_p2p_ack`, `broadcast_ready_message`)

The ACK and the READY are printed with `snprintf` and scanned with `sscanf`,
header and text apart: the header goes to `handle_client`, and the text to the
handler it names.
-/

namespace DistKv.Tob.Wire

open CText
open DistKv.Memcache (Incoming)

/-- `"ACK00\r\n"` -/
def ackHeader : List Item := [65, 67, 75, 48, 48, 13, 10].map .char

/-- `"PID:%d UID:%u"` -/
def ackItems (pid : Int) (uid : UInt32) : List Item :=
  [.char 80, .char 73, .char 68, .char 58, .int pid, .blank, .char 85, .char 73, .char 68,
    .char 58, .uint uid]

/-- `"READY\r\n"` -/
def readyHeader : List Item := [82, 69, 65, 68, 89, 13, 10].map .char

/-- `"UID:%u"` -/
def readyItems (uid : UInt32) : List Item :=
  [.char 85, .char 73, .char 68, .char 58, .uint uid]

/-- `snprintf` into an array of 1024 bytes on the stack, and the string that `strlen`
finds there. -/
def formatted (stack : Bytes) (items : List Item) : Option Str :=
  (snprintf (malloc 1024 stack) 0 1024 (printed items)).map Str.ofBytes

/-- The message of `send_p2p_ack(sender_port, base_pid, uid)`. -/
def sendP2pAck (stack : Bytes) (basePid : Int) (uid : UInt32) : Option Str :=
  formatted stack (ackHeader ++ ackItems basePid uid)

/-- The message of `broadcast_ready_message(node, lc)`. -/
def readyMessage (stack : Bytes) (node : Node) : Option Str :=
  formatted stack (readyHeader ++ readyItems node.uid)

/-! ## The bytes -/

theorem printed_append (items items' : List Item) :
    printed (items ++ items') = printed items ++ printed items' := by
  unfold printed
  rw [List.map_append, List.flatten_append]

/-- `"%u"` takes at most ten bytes, and `"%d"` eleven. -/
theorem length_digits_uid (uid : UInt32) : (Decimal.digits uid.toNat).length ≤ 10 :=
  (Decimal.length_digits_le_iff (by omega)).mpr (by have := uid.toNat_lt; omega)

theorem length_printInt {pid : Int} (hmin : -2 ^ 31 ≤ pid) (hmax : pid < 2 ^ 31) :
    (printInt pid).length ≤ 11 := by
  have hdigits : (Decimal.digits pid.natAbs).length ≤ 10 :=
    (Decimal.length_digits_le_iff (by omega)).mpr (by omega)
  unfold printInt
  split
  · exact Nat.succ_le_succ hdigits
  · omega

theorem zero_not_mem_printInt (i : Int) : (0 : UInt8) ∉ printInt i := by
  unfold printInt
  split
  · intro h
    rcases List.mem_cons.mp h with h | h
    · cases h
    · exact Decimal.zero_not_mem_digits _ h
  · exact Decimal.zero_not_mem_digits _

/-- A text without a zero that fits is sent whole. -/
theorem formatted_eq (stack : Bytes) {items : List Item} (hlen : (printed items).length < 1024)
    (hzero : (0 : UInt8) ∉ printed items) :
    formatted stack items = some ⟨printed items, hzero⟩ := by
  have hfit : (printed items).length < (malloc 1024 stack).length := by
    rw [length_malloc]
    exact hlen
  have hprint : snprintf ([] ++ malloc 1024 stack) 0 1024 (printed items) =
      some ([] ++ printed items ++ 0 :: (malloc 1024 stack).drop ((printed items).length + 1)) :=
    snprintf_append rfl hlen hfit
  unfold formatted
  rw [← List.nil_append (malloc 1024 stack), hprint, Option.map_some]
  congr 1
  apply Str.ext
  exact Str.ofBytes_append_zero hzero

/-! ## The round trip -/

/-- `handle_client` runs one handler on the message, which parses it so. -/
def RunsAlone (m : Memory) (message : Str) (h : Handler) (parsed : Parsed) : Prop :=
  ∃ run, (handleClient m ⟨message.bytes, []⟩).2 = [(h, run)] ∧ run.parsed = parsed

/-- **A text that was printed is scanned back.** -/
theorem scanText_printed (array : CArray) (parse : List Scanned → Parsed) {items : List Item}
    (hread : Readable (items.map Item.directive) = true)
    (hlen : (printed items).length ≤ 1024) (hzero : (0 : UInt8) ∉ printed items) :
    (scanText array (items.map Item.directive) parse ⟨printed items, []⟩).parsed =
      parse (items.filterMap Item.scanned) := by
  have hrecv : Incoming.recv ⟨printed items, []⟩ 1024 = (some (printed items), ⟨[], []⟩) := by
    unfold Incoming.recv
    rw [List.take_of_length_le hlen, List.drop_eq_nil_of_le hlen]
  unfold scanText
  rw [hrecv]
  show parse (sscanf _ (Str.ofBytes (printed items)).bytes) = _
  rw [Str.ofBytes_bytes_of_not_mem hzero, sscanf_printed hread]

/-- A message of a name, CR LF and a text is sent whole. -/
theorem formatted_header (stack : Bytes) (h : Handler) {header items : List Item}
    (hheader : printed header = h.name ++ [13, 10]) (hlen : (printed items).length ≤ 1000)
    (hzero : (0 : UInt8) ∉ printed items) :
    ∃ message, formatted stack (header ++ items) = some message ∧
      message.bytes = h.name ++ [13, 10] ++ printed items := by
  have hname : (0 : UInt8) ∉ h.name ++ [13, 10] ∧ (h.name ++ [13, 10]).length = 7 := by
    cases h <;> decide
  have htext : printed (header ++ items) = h.name ++ [13, 10] ++ printed items := by
    rw [printed_append, hheader]
  have hfit : (printed (header ++ items)).length < 1024 := by
    rw [htext, List.length_append, hname.2]
    omega
  have hnul : (0 : UInt8) ∉ printed (header ++ items) := by
    rw [htext, List.mem_append, not_or]
    exact ⟨hname.1, hzero⟩
  exact ⟨_, formatted_eq stack hfit hnul, htext⟩

/-- Its handler runs alone, on the text. -/
theorem runsAlone_of_bytes (m : Memory) {message : Str} {h : Handler} {body : Bytes}
    {parsed : Parsed} (hbytes : message.bytes = h.name ++ [13, 10] ++ body)
    (hparsed : (h.run m ⟨body, []⟩).parsed = parsed) : RunsAlone m message h parsed := by
  refine ⟨h.run m ⟨body, []⟩, ?_, hparsed⟩
  rw [hbytes]
  exact handleClient_of_header m h body

theorem printed_ackItems (pid : Int) (uid : UInt32) : printed (ackItems pid uid) =
    [80, 73, 68, 58] ++ (printInt pid ++ ([32, 85, 73, 68, 58] ++ Decimal.digits uid.toNat)) := by
  simp [printed, ackItems, Item.text]

theorem printed_readyItems (uid : UInt32) :
    printed (readyItems uid) = [85, 73, 68, 58] ++ Decimal.digits uid.toNat := by
  simp [printed, readyItems, Item.text]

theorem length_ackItems {pid : Int} (uid : UInt32) (hmin : -2 ^ 31 ≤ pid) (hmax : pid < 2 ^ 31) :
    (printed (ackItems pid uid)).length ≤ 1000 := by
  have hpid := length_printInt hmin hmax
  have huid := length_digits_uid uid
  rw [printed_ackItems]
  simp only [List.length_append, List.length_cons, List.length_nil]
  omega

theorem length_readyItems (uid : UInt32) : (printed (readyItems uid)).length ≤ 1000 := by
  have huid := length_digits_uid uid
  rw [printed_readyItems]
  simp only [List.length_append, List.length_cons, List.length_nil]
  omega

theorem zero_not_mem_ackItems (pid : Int) (uid : UInt32) :
    (0 : UInt8) ∉ printed (ackItems pid uid) := by
  rw [printed_ackItems]
  simp [zero_not_mem_printInt, Decimal.zero_not_mem_digits]

theorem zero_not_mem_readyItems (uid : UInt32) : (0 : UInt8) ∉ printed (readyItems uid) := by
  rw [printed_readyItems]
  simp [Decimal.zero_not_mem_digits]

theorem ack_decodes (m : Memory) (stack : Bytes) {pid : Int} (uid : UInt32)
    (hmin : -2 ^ 31 ≤ pid) (hmax : pid < 2 ^ 31) :
    ∃ message, sendP2pAck stack pid uid = some message ∧
      RunsAlone m message .ack (.ack pid uid) := by
  have hlen := length_ackItems uid hmin hmax
  have hzero := zero_not_mem_ackItems pid uid
  obtain ⟨message, hmessage, hbytes⟩ :=
    formatted_header stack .ack (show printed ackHeader = _ from rfl) hlen hzero
  have hparsed : (handleAck ⟨printed (ackItems pid uid), []⟩).parsed = .ack pid uid :=
    scanText_printed .ackMsg ackParsed rfl (by omega) hzero
  exact ⟨message, hmessage, runsAlone_of_bytes m hbytes hparsed⟩

theorem ready_decodes (m : Memory) (stack : Bytes) (node : Node) :
    ∃ message, readyMessage stack node = some message ∧
      RunsAlone m message .ready (.ready node.uid) := by
  have hlen := length_readyItems node.uid
  have hzero := zero_not_mem_readyItems node.uid
  obtain ⟨message, hmessage, hbytes⟩ :=
    formatted_header stack .ready (show printed readyHeader = _ from rfl) hlen hzero
  have hparsed : (handleReady ⟨printed (readyItems node.uid), []⟩).parsed = .ready node.uid :=
    scanText_printed .readyMsg readyParsed rfl (by omega) hzero
  exact ⟨message, hmessage, runsAlone_of_bytes m hbytes hparsed⟩

/-! ## The messages of the protocol -/

/-- The message that the handlers of `Middleware` take. -/
def Parsed.controlMsg : Parsed → Option Msg
  | .ack pid uid => some (.ack pid.toNat uid)
  | .ready uid => some (.ready uid)
  | _ => none

/-- The ACK for a node reaches `handle_ack` as the ACK of the protocol. -/
theorem ack_is_control (m : Memory) (stack : Bytes) (node : Node) (hpid : node.pid < 2 ^ 31) :
    ∃ message parsed, sendP2pAck stack node.pid node.uid = some message ∧
      RunsAlone m message .ack parsed ∧ parsed.controlMsg = some (.ack node.pid node.uid) := by
  obtain ⟨message, hmessage, halone⟩ :=
    ack_decodes m stack node.uid (show -2 ^ 31 ≤ (node.pid : Int) by omega) (by omega)
  exact ⟨message, _, hmessage, halone, rfl⟩

/-- What `broadcast_ready_message` sends is the message of `Broadcast`. -/
theorem readyMessage_bytes (stack : Bytes) (node : Node) :
    (readyMessage stack node).map Str.bytes = some (readyMsg node) := by
  obtain ⟨message, hmessage, hbytes⟩ :=
    formatted_header stack .ready (show printed readyHeader = _ from rfl)
      (length_readyItems node.uid) (zero_not_mem_readyItems node.uid)
  unfold readyMessage
  rw [hmessage, Option.map_some, hbytes, printed_readyItems]
  rfl

/-- **Control messages decode to what was sent**, for every `int` as pid and every uid. -/
theorem control_messages_decode (m : Memory) (stack : Bytes) (pid : Int) (uid : UInt32)
    (node : Node) (hmin : -2 ^ 31 ≤ pid) (hmax : pid < 2 ^ 31) :
    (∃ message, sendP2pAck stack pid uid = some message ∧
      RunsAlone m message .ack (.ack pid uid)) ∧
    ∃ message, readyMessage stack node = some message ∧
      RunsAlone m message .ready (.ready node.uid) :=
  ⟨ack_decodes m stack uid hmin hmax, ready_decodes m stack node⟩

/-- The pid 200 and the largest uid. -/
theorem control_messages_decode_last :
    (∃ message, sendP2pAck [] 200 4294967295 = some message ∧
      RunsAlone ⟨true, [], []⟩ message .ack (.ack 200 4294967295)) ∧
    ∃ message, readyMessage [] helloNode = some message ∧
      RunsAlone ⟨true, [], []⟩ message .ready (.ready 819201) :=
  control_messages_decode ⟨true, [], []⟩ [] 200 4294967295 helloNode (by omega) (by omega)

end DistKv.Tob.Wire
