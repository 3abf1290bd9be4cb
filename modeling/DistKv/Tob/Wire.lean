import DistKv.Lib.CStdlib
import DistKv.Tob.Tags

/-!
# The bytes of a BROAD (`client_handle.c`)

`encode_broadcast_buffer` writes a header of seven bytes, five decimal fields of
38 bytes, the body, CR LF and a NUL; `handle_client` and `handle_broadcast` read
them back. Each field goes through a temporary of its own size, so a number that
is too large loses its last digits: the clock after 9999, the length after 999999.

`total_broadcast` allocates and sends `40 + buf_len` bytes, where the header, the
fields and the body alone take `45 + buf_len`. The encoder writes past the end of
every buffer, and the last five bytes of every body stay behind.
-/

namespace DistKv.Tob.Wire

open CText

/-! ## The encoder -/

/-- `"BROAD\r\n"` -/
def broadHeader : Bytes := [66, 82, 79, 65, 68, 13, 10]

/-- What is copied of a temporary of `w + 1` bytes that `snprintf` filled with a text. -/
def copied (w : Nat) (text : Bytes) : Bytes := (text.take w ++ [0]).take w

/-- `"%12u"` -/
def uidStr (uid : UInt32) : Bytes := copied 12 (Decimal.spacePad 12 uid.toNat)

/-- `"%08d"` -/
def pidStr (pid : Nat) : Bytes := copied 8 (Decimal.zeroPad 8 pid)

/-- `"%08d"` -/
def portStr (port : Nat) : Bytes := copied 8 (Decimal.zeroPad 8 port)

/-- `"%04u"` -/
def lcStr (lc : UInt32) : Bytes := copied 4 (Decimal.zeroPad 4 lc.toNat)

/-- `"%06zu"` -/
def lenStr (len : Nat) : Bytes := copied 6 (Decimal.zeroPad 6 len)

/-- `encode_broadcast_buffer(node, buffer, lc)`; `none` if it writes outside of the buffer. -/
def encodeBroadcastBuffer (node : Node) (buffer : Bytes) (lc : UInt32) : Option Bytes :=
  (store buffer 0 broadHeader).bind fun buffer =>
  let offset := broadHeader.length
  (store buffer offset (uidStr node.uid)).bind fun buffer =>
  let offset := offset + 12
  (store buffer offset (pidStr node.pid)).bind fun buffer =>
  let offset := offset + 8
  (store buffer offset (portStr node.portNum)).bind fun buffer =>
  let offset := offset + 8
  (store buffer offset (lcStr lc)).bind fun buffer =>
  let offset := offset + 4
  (store buffer offset (lenStr node.bufLen)).bind fun buffer =>
  let offset := offset + 6
  (store buffer offset (node.buffer.take node.bufLen)).bind fun buffer =>
  let offset := offset + node.bufLen
  (store buffer offset [13, 10]).bind fun buffer =>
  let offset := offset + 2
  store buffer offset [0]

/-- The 38 bytes between the header and the body. -/
def metadata (node : Node) (lc : UInt32) : Bytes :=
  uidStr node.uid ++ pidStr node.pid ++ portStr node.portNum ++ lcStr lc ++ lenStr node.bufLen

/-- Everything the encoder writes. -/
def written (node : Node) (lc : UInt32) : Bytes :=
  broadHeader ++ metadata node lc ++ node.buffer ++ [13, 10, 0]

theorem copied_eq_take {w : Nat} {text : Bytes} (h : w ≤ text.length) :
    copied w text = text.take w := by
  rw [copied, List.take_append_of_le_length (by rw [List.length_take]; omega), List.take_take,
    Nat.min_self]

theorem copied_zeroPad (w n : Nat) : copied w (Decimal.zeroPad w n) = Decimal.field w n :=
  copied_eq_take (by rw [Decimal.length_zeroPad]; omega)

/-- Every uid fits its field. -/
theorem uidStr_eq (uid : UInt32) : uidStr uid = Decimal.spacePad 12 uid.toNat := by
  have hdigits : (Decimal.digits uid.toNat).length ≤ 12 :=
    (Decimal.length_digits_le_iff (by decide)).mpr (by have := uid.toNat_lt; omega)
  have hlen := Decimal.length_spacePad 12 uid.toNat
  rw [uidStr, copied_eq_take (by omega), List.take_of_length_le (by omega)]

theorem length_uidStr (uid : UInt32) : (uidStr uid).length = 12 := by
  have hdigits : (Decimal.digits uid.toNat).length ≤ 12 :=
    (Decimal.length_digits_le_iff (by decide)).mpr (by have := uid.toNat_lt; omega)
  rw [uidStr_eq, Decimal.length_spacePad]
  omega

theorem length_metadata (node : Node) (lc : UInt32) : (metadata node lc).length = 38 := by
  simp [metadata, length_uidStr, pidStr, portStr, lcStr, lenStr, copied_zeroPad]

theorem length_written {node : Node} (hbuf : node.buffer.length = node.bufLen) (lc : UInt32) :
    (written node lc).length = 48 + node.bufLen := by
  simp only [written, List.length_append, length_metadata, hbuf]
  simp only [broadHeader, List.length_cons, List.length_nil]
  omega

/-- The stores of the encoder are one store of everything it writes. -/
theorem encodeBroadcastBuffer_eq {node : Node} (hbuf : node.buffer.length = node.bufLen)
    (buffer : Bytes) (lc : UInt32) :
    encodeBroadcastBuffer node buffer lc = store buffer 0 (written node lc) := by
  have hparts : written node lc = broadHeader ++ (uidStr node.uid ++ (pidStr node.pid ++
      (portStr node.portNum ++ (lcStr lc ++ (lenStr node.bufLen ++ (node.buffer ++
        ([13, 10] ++ [0]))))))) := by
    simp [written, metadata]
  have huid : 12 = (uidStr node.uid).length := (length_uidStr _).symm
  have hpid : 8 = (pidStr node.pid).length := by simp [pidStr, copied_zeroPad]
  have hport : 8 = (portStr node.portNum).length := by simp [portStr, copied_zeroPad]
  have hlc : 4 = (lcStr lc).length := by simp [lcStr, copied_zeroPad]
  have hlen : 6 = (lenStr node.bufLen).length := by simp [lenStr, copied_zeroPad]
  have htake : node.buffer.take node.bufLen = node.buffer :=
    List.take_of_length_le (by omega)
  rw [hparts, ← store_store, Nat.zero_add]
  unfold encodeBroadcastBuffer
  apply Option.bind_congr
  intro b _
  rw [← store_store, ← huid]
  apply Option.bind_congr
  intro b _
  rw [← store_store, ← hpid]
  apply Option.bind_congr
  intro b _
  rw [← store_store, ← hport]
  apply Option.bind_congr
  intro b _
  rw [← store_store, ← hlc]
  apply Option.bind_congr
  intro b _
  rw [← store_store, ← hlen]
  apply Option.bind_congr
  intro b _
  rw [← store_store, hbuf, htake]
  apply Option.bind_congr
  intro b _
  rw [← store_store]
  rfl

/-! ## The fields read back -/

/-- What `handle_broadcast` takes from the metadata. -/
structure Metadata where
  uid : UInt32
  basePid : Int
  basePort : Int
  nodeLc : UInt32
  msgLen : Int
deriving DecidableEq

/-- The fields at their offsets in the 38 bytes. -/
def decodeMetadata (metadata : Bytes) : Metadata :=
  { uid := (strtoul (metadata.take 12)).toUInt32
    basePid := atoi ((metadata.drop 12).take 8)
    basePort := atoi ((metadata.drop 20).take 8)
    nodeLc := (strtoul ((metadata.drop 28).take 4)).toUInt32
    msgLen := atoi ((metadata.drop 32).take 6) }

theorem strtoul_uidStr (uid : UInt32) : (strtoul (uidStr uid)).toUInt32 = uid := by
  have hscan : scanNumber (uidStr uid) = (false, Decimal.digits uid.toNat) := by
    rw [uidStr_eq, Decimal.spacePad]
    have hblank : ∀ c ∈ List.replicate (12 - (Decimal.digits uid.toNat).length) (32 : UInt8),
        isSpace c = true := by
      intro c hc
      rw [List.eq_of_mem_replicate hc]
      decide
    have hscan := scanNumber_printed hblank uid.toNat
      (show ∀ c ∈ ([] : List UInt8).head?, Decimal.isDigit c = false by simp)
    simpa using hscan
  have hlt := uid.toNat_lt
  rw [(strtoul_of_scanNumber hscan (by omega)).1]
  apply UInt32.toNat_inj.mp
  rw [UInt64.toNat_toUInt32, UInt64.toNat_ofNat', Nat.mod_eq_of_lt (b := 2 ^ 64) (by omega)]
  omega

/-- A field between its offset and its width. -/
theorem take_drop_middle {all mid : Bytes} (before after : Bytes) {i w : Nat}
    (hall : all = before ++ mid ++ after) (hi : before.length = i) (hw : mid.length = w) :
    (all.drop i).take w = mid := by
  rw [hall, List.append_assoc, ← hi, List.drop_left, ← hw, List.take_left]

/-- The fields, as far as they fit, come back: this is the BROAD of the protocol. -/
theorem decodeMetadata_metadata (node : Node) (lc : UInt32) :
    decodeMetadata (metadata node lc) =
      { uid := node.uid
        basePid := Decimal.cut 8 node.pid
        basePort := Decimal.cut 8 node.portNum
        nodeLc := lcField lc
        msgLen := Decimal.cut 6 node.bufLen } := by
  have huid := length_uidStr node.uid
  have hpid : pidStr node.pid = Decimal.field 8 node.pid := copied_zeroPad 8 _
  have hport : portStr node.portNum = Decimal.field 8 node.portNum := copied_zeroPad 8 _
  have hlc : lcStr lc = Decimal.field 4 lc.toNat := copied_zeroPad 4 _
  have hlen : lenStr node.bufLen = Decimal.field 6 node.bufLen := copied_zeroPad 6 _
  have hlt : Decimal.cut 4 lc.toNat < 10 ^ 4 := Decimal.cut_lt 4 lc.toNat
  have hclock : (UInt64.ofNat (Decimal.cut 4 lc.toNat)).toUInt32 = lcField lc := by
    apply UInt32.toNat_inj.mp
    rw [UInt64.toNat_toUInt32, UInt64.toNat_ofNat', lcField, UInt32.toNat_ofNat']
    omega
  -- the decoder's offsets are the sums of the encoder's widths
  have h12 : (metadata node lc).take 12 = uidStr node.uid := by
    simp [metadata, huid]
  have h20 : ((metadata node lc).drop 12).take 8 = pidStr node.pid := by
    simp [metadata, hpid, huid]
  have h28 : ((metadata node lc).drop 20).take 8 = portStr node.portNum :=
    take_drop_middle (uidStr node.uid ++ pidStr node.pid) (lcStr lc ++ lenStr node.bufLen)
      (by simp [metadata]) (by simp [huid, hpid]) (by simp [hport])
  have h32 : ((metadata node lc).drop 28).take 4 = lcStr lc :=
    take_drop_middle (uidStr node.uid ++ pidStr node.pid ++ portStr node.portNum)
      (lenStr node.bufLen) (by simp [metadata]) (by simp [huid, hpid, hport])
      (by simp [hlc])
  have h38 : ((metadata node lc).drop 32).take 6 = lenStr node.bufLen :=
    take_drop_middle
      (uidStr node.uid ++ pidStr node.pid ++ portStr node.portNum ++ lcStr lc) []
      (by simp [metadata]) (by simp [huid, hpid, hport, hlc]) (by simp [hlen])
  rw [decodeMetadata, h12, h20, h28, h32, h38, strtoul_uidStr, hpid, hport, hlc, hlen,
    atoi_field (by decide), atoi_field (by decide), atoi_field (by decide),
    strtoul_field (by decide) (by omega), hclock]

theorem lcField_eq_iff {lc : UInt32} : lcField lc = lc ↔ lc.toNat < 10000 := by
  have hlt := Decimal.cut_lt 4 lc.toNat
  rw [← UInt32.toNat_inj, lcField, UInt32.toNat_ofNat', Nat.mod_eq_of_lt (by omega)]
  exact Decimal.cut_eq_iff (by decide)

/-- The metadata stands behind the header. -/
theorem metadata_of_written (node : Node) (lc : UInt32) :
    ((written node lc).drop 7).take 38 = metadata node lc :=
  take_drop_middle broadHeader (node.buffer ++ [13, 10, 0]) (by simp [written]) rfl
    (length_metadata node lc)

/-- **The metadata of a BROAD round-trips** if and only if the clock has four digits
and the length six. -/
theorem metadata_round_trip_iff (node : Node) (lc : UInt32) (hpid : node.pid < 10 ^ 8)
    (hport : node.portNum < 10 ^ 8) :
    decodeMetadata (((written node lc).drop 7).take 38) =
        { uid := node.uid, basePid := node.pid, basePort := node.portNum, nodeLc := lc,
          msgLen := node.bufLen } ↔
      lc.toNat < 10000 ∧ node.bufLen < 10 ^ 6 := by
  rw [metadata_of_written, decodeMetadata_metadata, Metadata.mk.injEq,
    Decimal.cut_of_lt (by decide) hpid, Decimal.cut_of_lt (by decide) hport, lcField_eq_iff]
  simp only [true_and, Int.natCast_inj, Decimal.cut_eq_iff (show 0 < 6 by decide)]

/-- The first message of the process with pid 200 on port 10000, "hello". -/
def helloNode : Node := createNode 200 10000 false 0 [104, 101, 108, 108, 111, 0] 6 1 819201 2 0

theorem hello_round_trip : decodeMetadata (((written helloNode 2).drop 7).take 38) =
    { uid := 819201, basePid := 200, basePort := 10000, nodeLc := 2, msgLen := 6 } :=
  (metadata_round_trip_iff helloNode 2 (by decide) (by decide)).mpr ⟨by decide, by decide⟩

/-- At clock 10000 the message "hello" carries the timestamp 1000; a message of 999999
bytes that gets a NUL carries the length 100000. -/
theorem late_clock_cut :
    (helloNode.pid < 10 ^ 8 ∧ helloNode.portNum < 10 ^ 8 ∧
      (decodeMetadata (((written helloNode 10000).drop 7).take 38)).nodeLc = 1000) ∧
    ∀ (cfg : Cfg 2) (message : Bytes), message.length = 999999 → message.getLast? ≠ some 0 →
      (issueNode cfg 0 0 0 message).bufLen = 1000000 ∧
      (decodeMetadata (((written (issueNode cfg 0 0 0 message) 2).drop 7).take 38)).msgLen =
        100000 := by
  refine ⟨⟨by decide, by decide, ?_⟩, fun cfg message hlen hlast => ?_⟩
  · rw [metadata_of_written, decodeMetadata_metadata]
    decide
  · have hbuf : (issueNode cfg 0 0 0 message).bufLen = 1000000 := by
      show (issueBuffer message).length = _
      rw [issueBuffer, if_neg hlast, List.length_append, hlen, List.length_singleton]
    refine ⟨hbuf, ?_⟩
    rw [metadata_of_written, decodeMetadata_metadata, hbuf]
    show ((Decimal.cut 6 1000000 : Nat) : Int) = 100000
    decide

/-! ## The body -/

/-- `total_buffer_size`, the bytes that are allocated and sent. -/
def totalBufferSize (node : Node) : Nat := 40 + node.bufLen

/-- What `send_buffer` offers, when what lies behind the allocated bytes is written too. -/
def offered (node : Node) (lc : UInt32) : Bytes := (written node lc).take (totalBufferSize node)

/-- The node `handle_broadcast` enqueues for the bytes that arrive on a connection:
`recv_buffer` waits for all of the metadata, and `recv` for the first byte of the
body, of which it takes no more than `sizeof(message)`. `stack` is what the array held. -/
def enqueuedNode (numProcess mid : Nat) (stream stack : Bytes) : Option Node :=
  let metadata := (stream.drop 7).take 38
  if metadata.length < 38 then none
  else
    let md := decodeMetadata metadata
    let msgLen := md.msgLen.toNat
    let arrived := (stream.drop 45).take (msgLen + 1)
    if arrived = [] then none
    else
      let message := arrived ++ (malloc (msgLen + 1) stack).drop arrived.length
      some (createNode md.basePid.toNat md.basePort.toNat false 0
        (message.take msgLen ++ [0]) msgLen md.nodeLc md.uid numProcess mid)

/-- **No BROAD fits the buffer that is allocated for it.** -/
theorem encodeBroadcastBuffer_overflows {node : Node} (hbuf : node.buffer.length = node.bufLen)
    (heap : Bytes) (lc : UInt32) :
    encodeBroadcastBuffer node (malloc (totalBufferSize node) heap) lc = none := by
  rw [encodeBroadcastBuffer_eq hbuf]
  apply store_eq_none
  rw [length_malloc, length_written hbuf, totalBufferSize]
  omega

/-- A BROAD that fits its block is encoded, and sent as far as it is offered. -/
theorem encoded_of_fits {cfg : Cfg n} {node : Node} (hbuf : node.buffer.length = node.bufLen)
    (hfits : cfg.Fits node.bufLen) (heap : Bytes) (lc : UInt32) :
    ∃ buffer, encodeBroadcastBuffer node (malloc (cfg.usable (totalBufferSize node)) heap) lc =
        some buffer ∧ buffer.take (totalBufferSize node) = offered node lc := by
  have hlen := length_written hbuf lc
  have hroom : (written node lc).length ≤
      (malloc (cfg.usable (totalBufferSize node)) heap).length := by
    rw [length_malloc, hlen]
    exact hfits
  refine ⟨_, (encodeBroadcastBuffer_eq hbuf _ lc).trans (store_zero hroom), ?_⟩
  rw [List.take_append_of_le_length (by rw [hlen, totalBufferSize]; omega)]
  rfl

/-- Any other one is not. -/
theorem encoded_of_unfit {cfg : Cfg n} {node : Node} (hbuf : node.buffer.length = node.bufLen)
    (hunfit : ¬ cfg.Fits node.bufLen) (heap : Bytes) (lc : UInt32) :
    encodeBroadcastBuffer node (malloc (cfg.usable (totalBufferSize node)) heap) lc =
      none := by
  rw [encodeBroadcastBuffer_eq hbuf]
  apply store_eq_none
  rw [length_malloc, length_written hbuf, Nat.zero_add]
  exact not_le.mp hunfit

/-- Behind the metadata the recipient finds the body without its last five bytes. -/
theorem drop_offered {node : Node} (hbuf : node.buffer.length = node.bufLen) (lc : UInt32) :
    (offered node lc).drop 45 = node.buffer.take (node.bufLen - 5) := by
  have hfront : (broadHeader ++ metadata node lc).length = 45 := by
    rw [List.length_append, length_metadata]
    rfl
  rw [offered, totalBufferSize, List.drop_take, written, List.append_assoc, ← hfront,
    List.drop_left, hfront, show 40 + node.bufLen - 45 = node.bufLen - 5 by omega,
    List.take_append_of_le_length (by omega)]

/-- With more than five bytes of body the metadata arrives. -/
theorem metadata_of_offered {node : Node} (hlong : 5 < node.bufLen) (lc : UInt32) :
    ((offered node lc).drop 7).take 38 = metadata node lc := by
  rw [offered, totalBufferSize, List.drop_take, List.take_take, Nat.min_eq_left (by omega),
    metadata_of_written]

/-- **The messages of the protocol are what the wire carries**: fields cut to their
widths, and the body without its last five bytes. -/
theorem decode_offered {node : Node} (hbuf : node.buffer.length = node.bufLen)
    (hlong : 5 < node.bufLen) (lc : UInt32) :
    let md := decodeMetadata (((offered node lc).drop 7).take 38)
    Tob.encodeBroadcastBuffer node lc =
      .broad md.uid md.basePid.toNat md.basePort.toNat md.nodeLc md.msgLen.toNat
        ((offered node lc).drop 45) := by
  intro md
  have hmd : md = decodeMetadata (metadata node lc) := by
    show decodeMetadata _ = _
    rw [metadata_of_offered hlong]
  rw [hmd, decodeMetadata_metadata, drop_offered hbuf]
  rfl

theorem enqueuedNode_offered {node : Node} (hbuf : node.buffer.length = node.bufLen)
    (lc : UInt32) (numProcess mid : Nat) (stack : Bytes) :
    enqueuedNode numProcess mid (offered node lc) stack =
      if node.bufLen ≤ 5 then none
      else
        let msgLen := Decimal.cut 6 node.bufLen
        let arrived := (node.buffer.take (node.bufLen - 5)).take (msgLen + 1)
        let message := arrived ++ (malloc (msgLen + 1) stack).drop arrived.length
        some (createNode (Decimal.cut 8 node.pid) (Decimal.cut 8 node.portNum) false 0
          (message.take msgLen ++ [0]) msgLen (lcField lc) node.uid numProcess mid) := by
  by_cases hlong : node.bufLen ≤ 5
  · -- nothing of the body arrives, or not even the metadata
    have hrest : (offered node lc).drop 45 = [] := by
      rw [drop_offered hbuf, show node.bufLen - 5 = 0 by omega, List.take_zero]
    rw [if_pos hlong, enqueuedNode]
    by_cases hmeta : (((offered node lc).drop 7).take 38).length < 38
    · rw [if_pos hmeta]
    · rw [if_neg hmeta, hrest]
      simp
  · have hmeta := metadata_of_offered (show 5 < node.bufLen by omega) lc
    have harrived : ((node.buffer.take (node.bufLen - 5)).take
        (Decimal.cut 6 node.bufLen + 1)) ≠ [] := by
      rw [← List.length_pos_iff_ne_nil, List.length_take, List.length_take]
      omega
    rw [if_neg hlong, enqueuedNode, hmeta, length_metadata, if_neg (by decide),
      decodeMetadata_metadata, drop_offered hbuf]
    simp only [Int.toNat_natCast, if_neg harrived]

/-- The recipient's buffer when the length fits its field: the last five bytes are
whatever the array held. -/
theorem received_buffer {node : Node} (hbuf : node.buffer.length = node.bufLen)
    (hlong : 5 < node.bufLen) (hlen : node.bufLen < 10 ^ 6) (lc : UInt32) (numProcess mid : Nat)
    (stack : Bytes) :
    ∃ node', enqueuedNode numProcess mid (offered node lc) stack = some node' ∧
      node'.buffer = node.buffer.take (node.bufLen - 5) ++
        ((malloc (node.bufLen + 1) stack).drop (node.bufLen - 5)).take 5 := by
  rw [enqueuedNode_offered hbuf, if_neg (by omega), Decimal.cut_of_lt (by decide) hlen]
  refine ⟨_, rfl, ?_⟩
  have hfront : ((node.buffer.take (node.bufLen - 5)).take (node.bufLen + 1)).length =
      node.bufLen - 5 := by
    rw [List.length_take, List.length_take]
    omega
  have hmsg : (((node.buffer.take (node.bufLen - 5)).take (node.bufLen + 1) ++
      (malloc (node.bufLen + 1) stack).drop (node.bufLen - 5)).take node.bufLen).length =
        node.bufLen := by
    simp only [List.length_take, List.length_append, hfront, List.length_drop, length_malloc]
    omega
  show List.take node.bufLen (List.take node.bufLen (_ ++ _) ++ [0]) = _
  rw [hfront, List.take_append_of_le_length (by omega), List.take_take, Nat.min_self,
    List.take_append, hfront, List.take_of_length_le (l := (node.buffer.take _).take _) (by omega),
    List.take_take, Nat.min_eq_right (by omega), show node.bufLen - (node.bufLen - 5) = 5 by omega]

theorem length_issueNode (cfg : Cfg n) (p : Fin n) (mid : Nat) (lc : UInt32) (message : Bytes) :
    (issueNode cfg p mid lc message).buffer.length = (issueNode cfg p mid lc message).bufLen := by
  show ((issueBuffer message).take _).length = _
  rw [List.take_length]
  rfl

theorem succ_ne_self (b : UInt8) : b + 1 ≠ b := by
  intro h
  have hval := congrArg UInt8.toNat h
  rw [UInt8.toNat_add] at hval
  have hlt := b.toNat_lt
  simp only [UInt8.toNat_one] at hval
  omega

/-- **The body of no BROAD is preserved.** Whatever is issued, the encoder writes past
the buffer it is given; and for some contents of the recipient's stack no node with the
issuing node's buffer is enqueued. -/
theorem body_never_preserved (cfg : Cfg n) (p : Fin n) (mid : Nat) (lc : UInt32)
    (message : Bytes) :
    let node := issueNode cfg p mid lc message
    (∀ heap, encodeBroadcastBuffer node (malloc (totalBufferSize node) heap) (lc + 1 + 1) =
      none) ∧
    ∃ stack, ∀ node', enqueuedNode n mid (offered node (lc + 1 + 1)) stack = some node' →
      node'.buffer ≠ node.buffer := by
  intro node
  have hbuf : node.buffer.length = node.bufLen := length_issueNode cfg p mid lc message
  refine ⟨fun heap => encodeBroadcastBuffer_overflows hbuf heap _, ?_⟩
  -- an array that differs from the body everywhere
  refine ⟨node.buffer.map (· + 1), fun node' hnode' heq => ?_⟩
  by_cases hlong : node.bufLen ≤ 5
  · rw [enqueuedNode_offered hbuf, if_pos hlong] at hnode'
    cases hnode'
  by_cases hlen : node.bufLen < 10 ^ 6
  · obtain ⟨node'', hnode'', hbuf''⟩ := received_buffer hbuf (by omega) hlen (lc + 1 + 1) n mid
      (node.buffer.map (· + 1))
    obtain rfl := Option.some.inj (hnode'.symm.trans hnode'')
    have hat : node'.buffer[node.bufLen - 5]? = node.buffer[node.bufLen - 5]? := by rw [heq]
    have hlt : node.bufLen - 5 < node.buffer.length := by omega
    rw [hbuf'', List.getElem?_append_right (by rw [List.length_take]; omega), List.length_take,
      Nat.min_eq_left (by omega), Nat.sub_self, List.getElem?_take, if_pos (by decide),
      List.getElem?_drop, malloc, List.getElem?_take, if_pos (by omega),
      List.getElem?_append_left (by rw [List.length_map]; exact hlt), List.getElem?_map] at hat
    simp only [Nat.add_zero, List.getElem?_eq_getElem hlt, Option.map_some, Option.some.injEq]
      at hat
    exact succ_ne_self _ hat
  · -- a length of seven digits is cut, so the recipient's buffer is shorter
    rw [enqueuedNode_offered hbuf, if_neg hlong] at hnode'
    have hle : node'.buffer.length ≤ Decimal.cut 6 node.bufLen := by
      rw [← Option.some.inj hnode']
      exact List.length_take_le _ _
    have hcut := Decimal.cut_lt 6 node.bufLen
    rw [heq, hbuf] at hle
    omega

/-- The five letters of "hello" and the NUL: one byte arrives, and the rest is what the
stack held. -/
theorem hello_body_lost :
    (∀ heap, encodeBroadcastBuffer helloNode (malloc (totalBufferSize helloNode) heap) 2 = none) ∧
    (enqueuedNode 2 0 (offered helloNode 2) [63, 63, 63, 63, 63, 63, 63]).map Node.buffer =
      some [104, 63, 63, 63, 63, 63] ∧
    helloNode.buffer = [104, 101, 108, 108, 111, 0] := by
  refine ⟨fun heap => encodeBroadcastBuffer_overflows rfl heap 2, ?_, rfl⟩
  rw [enqueuedNode_offered rfl]
  decide

end DistKv.Tob.Wire
