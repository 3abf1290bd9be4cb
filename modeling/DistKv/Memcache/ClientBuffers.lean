import DistKv.Memcache.Client

/-!
# The buffers of the client (`main` in `client.c`)

`main` allocates 13 bytes for a get, and 41 more than the value for a set, and
sends all of them. The encoder writes what the key and the numbers take: behind
the buffer if the key is long, and less than the buffer if it is short. With the
NUL behind it the message fills the buffer for one length of the key only.
-/

namespace DistKv.Memcache

open CText

/-! ## The encoders -/

/-- `encode_get(key, key_size, msg_buffer)`; `none` if it writes outside. -/
def encodeGetInto (msgBuffer : List UInt8) (key : Str) : Option (List UInt8) :=
  let offset := 0
  (sprintf msgBuffer offset getOp).bind fun msgBuffer =>
  let offset := offset + getOp.length
  let text := key.bytes ++ crlf
  (sprintf msgBuffer offset text).bind fun msgBuffer =>
  let offset := offset + text.length
  store msgBuffer offset [0]

/-- `encode_set(key, value, key_size, value_size, actual_size, msg_buffer)`. -/
def encodeSetInto (msgBuffer : List UInt8) (key value : Str)
    (keySize valueSize actualSize : Nat) : Option (List UInt8) :=
  let offset := 0
  (sprintf msgBuffer offset setOp).bind fun msgBuffer =>
  let offset := offset + setOp.length
  let text := Decimal.padRight 8 valueSize ++ crlf
  (sprintf msgBuffer offset text).bind fun msgBuffer =>
  let offset := offset + text.length
  let text := Decimal.padRight 8 actualSize ++ crlf
  (sprintf msgBuffer offset text).bind fun msgBuffer =>
  let offset := offset + text.length
  let text := Decimal.padRight 6 keySize ++ crlf
  (sprintf msgBuffer offset text).bind fun msgBuffer =>
  let offset := offset + text.length
  let text := key.bytes ++ crlf
  (sprintf msgBuffer offset text).bind fun msgBuffer =>
  let offset := offset + text.length
  (store msgBuffer offset (value.bytes.take actualSize)).bind fun msgBuffer =>
  let offset := offset + (value.bytes.take actualSize).length
  (store msgBuffer offset [13]).bind fun msgBuffer =>
  let offset := offset + 1
  (store msgBuffer offset [10]).bind fun msgBuffer =>
  let offset := offset + 1
  store msgBuffer offset [0]

/-- The texts of a get are one text. -/
theorem encodeGetInto_eq (msgBuffer : List UInt8) (key : Str) :
    encodeGetInto msgBuffer key = sprintf msgBuffer 0 (encodeGet key) := by
  unfold encodeGetInto
  simp only [sprintf_nul, sprintf_sprintf]
  rfl

/-- The value, CR LF and the NUL. -/
theorem store_value (msgBuffer value : List UInt8) (offset : Nat) :
    ((store msgBuffer offset value).bind fun msgBuffer =>
      (store msgBuffer (offset + value.length) [13]).bind fun msgBuffer =>
      (store msgBuffer (offset + value.length + 1) [10]).bind fun msgBuffer =>
      store msgBuffer (offset + value.length + 1 + 1) [0]) =
    sprintf msgBuffer offset (value ++ crlf) := by
  have hnewline : ∀ (buffer : List UInt8) (offset : Nat),
      ((store buffer offset [10]).bind fun buffer => store buffer (offset + 1) [0]) =
        store buffer offset [10, 0] := fun buffer offset => store_store buffer [10] [0] offset
  have hreturn : ∀ (buffer : List UInt8) (offset : Nat),
      ((store buffer offset [13]).bind fun buffer => store buffer (offset + 1) [10, 0]) =
        store buffer offset [13, 10, 0] :=
    fun buffer offset => store_store buffer [13] [10, 0] offset
  simp only [hnewline, hreturn, store_store]
  unfold sprintf
  rw [List.append_assoc]
  rfl

/-- The texts of a set are one text. -/
theorem encodeSetInto_eq (msgBuffer : List UInt8) (key value : Str)
    (keySize valueSize actualSize : Nat) :
    encodeSetInto msgBuffer key value keySize valueSize actualSize =
      sprintf msgBuffer 0 (encodeSet key value keySize valueSize actualSize) := by
  unfold encodeSetInto
  simp only [store_value, sprintf_sprintf]
  congr 1
  simp [encodeSet]

/-! ## `main` -/

/-- What `main` does with an encoded message. -/
inductive Handed
  /-- `malloc` is asked for a negative size, and `main` exits -/
  | exits
  /-- the encoder writes outside of `msg_buffer` -/
  | outside
  /-- the bytes `sendFullBuffer` gets -/
  | sends (bytes : List UInt8)
deriving DecidableEq

/-- `buffer_size` zeros for the encoder, and all of them to `sendFullBuffer`. -/
def handOver (bufferSize : Int) (encode : List UInt8 → Option (List UInt8)) : Handed :=
  if bufferSize < 0 then .exits
  else
    match encode (List.replicate bufferSize.toNat 0) with
    | none => .outside
    | some msgBuffer => .sends msgBuffer

/-- The branch for a get. -/
def mainGet (key : Str) : Handed :=
  handOver (5 + 6 + 2) fun msgBuffer => encodeGetInto msgBuffer key

/-- The branch for a set. -/
def mainSet (r : SetArgs) : Handed :=
  handOver (toInt (5 + 8 + 2 + 8 + 2 + 6 + 2 + r.value.length + 8)) fun msgBuffer =>
    encodeSetInto msgBuffer r.key r.value r.key.length r.valueSize.toNat r.value.length

/-- The encoded bytes, all of them and nothing else. -/
def Exact (handed : Handed) (encoded : List UInt8) : Prop := handed = .sends encoded

section

variable {encode : List UInt8 → Option (List UInt8)} {message : List UInt8}

/-- A message that leaves room for its NUL is sent with all the zeros behind it. -/
theorem handOver_of_lt (hencode : ∀ buffer, encode buffer = sprintf buffer 0 message) {size : Nat}
    (hlen : message.length < size) :
    handOver size encode = .sends (message ++ List.replicate (size - message.length) 0) := by
  have hfit : (message ++ [0]).length ≤ (List.replicate size (0 : UInt8)).length := by
    rw [List.length_append, List.length_singleton, List.length_replicate]
    exact hlen
  have hzeros : [0] ++ List.replicate (size - (message.length + 1)) (0 : UInt8) =
      List.replicate (size - message.length) 0 := by
    rw [List.singleton_append, ← List.replicate_succ]
    congr 1
    omega
  unfold handOver
  rw [if_neg (by omega), Int.toNat_natCast, hencode, sprintf, store_zero hfit]
  dsimp only
  rw [List.drop_replicate, List.length_append, List.length_singleton, List.append_assoc, hzeros]

theorem handOver_of_le (hencode : ∀ buffer, encode buffer = sprintf buffer 0 message) {size : Nat}
    (hlen : size ≤ message.length) : handOver size encode = .outside := by
  have hfull : (List.replicate size (0 : UInt8)).length < 0 + (message ++ [0]).length := by
    rw [List.length_append, List.length_singleton, List.length_replicate]
    omega
  unfold handOver
  rw [if_neg (by omega), Int.toNat_natCast, hencode, sprintf, store_eq_none hfull]

/-- **A buffer that has room for the NUL is longer than the message.** -/
theorem not_exact_message (hencode : ∀ buffer, encode buffer = sprintf buffer 0 message)
    (bufferSize : Int) : ¬ Exact (handOver bufferSize encode) message := by
  intro h
  by_cases hneg : bufferSize < 0
  · unfold handOver at h
    rw [if_pos hneg] at h
    cases h
  obtain ⟨size, rfl⟩ := Int.eq_ofNat_of_zero_le (not_lt.mp hneg)
  by_cases hlen : message.length < size
  · rw [handOver_of_lt hencode hlen] at h
    injection h with h
    have hlength := congrArg List.length h
    rw [List.length_append, List.length_replicate] at hlength
    omega
  · rw [handOver_of_le hencode (not_lt.mp hlen)] at h
    cases h

/-- **A buffer is exact when it has one byte of room behind the message.** -/
theorem exact_nul_iff (hencode : ∀ buffer, encode buffer = sprintf buffer 0 message)
    (bufferSize : Int) :
    Exact (handOver bufferSize encode) (message ++ [0]) ↔ bufferSize = message.length + 1 := by
  unfold Exact
  by_cases hneg : bufferSize < 0
  · refine iff_of_false ?_ (by omega)
    unfold handOver
    rw [if_pos hneg]
    exact Handed.noConfusion
  obtain ⟨size, rfl⟩ := Int.eq_ofNat_of_zero_le (not_lt.mp hneg)
  by_cases hlen : message.length < size
  · rw [handOver_of_lt hencode hlen, Handed.sends.injEq]
    constructor
    · intro h
      have hlength := congrArg List.length h
      rw [List.length_append, List.length_append, List.length_replicate, List.length_singleton]
        at hlength
      omega
    · intro h
      have hone : size - message.length = 1 := by omega
      rw [hone]
      rfl
  · rw [handOver_of_le hencode (not_lt.mp hlen)]
    exact iff_of_false Handed.noConfusion (by omega)

end

/-! ## The two messages -/

theorem length_encodeGet (key : Str) : (encodeGet key).length = key.length + 7 := by
  simp only [encodeGet, getOp, crlf, Str.length, List.length_append, List.length_cons,
    List.length_nil]
  omega

/-- **A get** is in bounds for keys of at most five bytes. -/
theorem mainGet_eq (key : Str) :
    mainGet key = if key.length ≤ 5 then
      .sends (encodeGet key ++ List.replicate (6 - key.length) 0) else .outside := by
  have hencode := fun buffer => encodeGetInto_eq buffer key
  have hlength := length_encodeGet key
  show handOver (13 : Nat) _ = _
  by_cases hlen : key.length ≤ 5
  · rw [if_pos hlen, handOver_of_lt hencode (by omega), hlength]
    congr 3
    omega
  · rw [if_neg hlen, handOver_of_le hencode (by omega)]

namespace SetArgs

variable (r : SetArgs)

/-- The digits that do not fit the pads of 8, 8 and 6 characters. -/
def overlong : Nat :=
  ((Decimal.digits r.valueSize.toNat).length - 8) + ((Decimal.digits r.value.length).length - 8) +
    ((Decimal.digits r.key.length).length - 6)

theorem length_message : r.message.length = 37 + r.key.length + r.value.length + r.overlong := by
  have hheader := r.length_header
  have hcontent := r.length_content
  rw [message_eq]
  simp only [keyField, Decimal.length_padRight] at hheader
  simp only [setOp, crlf, overlong, List.length_append, List.length_cons, List.length_nil]
  omega

theorem encode_eq (msgBuffer : List UInt8) :
    encodeSetInto msgBuffer r.key r.value r.key.length r.valueSize.toNat r.value.length =
      sprintf msgBuffer 0 r.message :=
  encodeSetInto_eq _ _ _ _ _ _

end SetArgs

/-- **A set** is in bounds where the key and the digits behind their pads are at most three
bytes, for values whose buffer has an `int` size. -/
theorem mainSet_eq (r : SetArgs) (hint : r.value.length + 41 < 2 ^ 31) :
    mainSet r = if r.key.length + r.overlong ≤ 3 then
      .sends (r.message ++ List.replicate (4 - (r.key.length + r.overlong)) 0) else .outside := by
  have hlength := r.length_message
  have hsize : toInt (5 + 8 + 2 + 8 + 2 + 6 + 2 + r.value.length + 8) =
      ((r.value.length + 41 : Nat) : Int) := by
    rw [toInt_of_lt (by omega)]
    omega
  unfold mainSet
  rw [hsize]
  by_cases hlen : r.key.length + r.overlong ≤ 3
  · have hrest : r.value.length + 41 - r.message.length = 4 - (r.key.length + r.overlong) := by
      omega
    rw [if_pos hlen, handOver_of_lt r.encode_eq (by omega), hrest]
  · rw [if_neg hlen, handOver_of_le r.encode_eq (by omega)]

/-- The size of the buffer of a set is the size of its message and a NUL. -/
theorem bufferSize_eq_iff (r : SetArgs) :
    toInt (5 + 8 + 2 + 8 + 2 + 6 + 2 + r.value.length + 8) = r.message.length + 1 ↔
      r.key.length + r.overlong = 3 ∧ r.value.length + 41 < 2 ^ 31 := by
  have hlength := r.length_message
  unfold toInt
  omega

/-- **When the client's buffers are exact**: for a key of five bytes, and for a key that
makes three bytes with the digits behind the pads. That is with the NUL that the encoders
put behind the message; the message without it is never what `main` sends. -/
theorem client_buffers_exact_iff (key : Str) (r : SetArgs) :
    (Exact (mainGet key) (encodeGet key ++ [0]) ↔ key.length = 5) ∧
      (Exact (mainSet r) (r.message ++ [0]) ↔
        r.key.length + r.overlong = 3 ∧ r.value.length + 41 < 2 ^ 31) ∧
      ¬ Exact (mainGet key) (encodeGet key) ∧ ¬ Exact (mainSet r) r.message := by
  have hget := fun buffer => encodeGetInto_eq buffer key
  refine ⟨?_, ?_, not_exact_message hget _, not_exact_message r.encode_eq _⟩
  · rw [mainGet, exact_nul_iff hget, length_encodeGet]
    omega
  · rw [mainSet, exact_nul_iff r.encode_eq, bufferSize_eq_iff]

/-- A get of `"A"` goes with five zeros behind it, one of `"ABCDEF"` is written past the
end. -/
theorem get_buffers_inexact :
    ¬ (∀ key : Str, Exact (mainGet key) (encodeGet key ++ [0]) ∨
        Exact (mainGet key) (encodeGet key)) ∧
      mainGet ⟨[65, 66, 67, 68, 69, 70], by decide⟩ = .outside := by
  constructor
  · intro h
    have hone := h ⟨[65], by decide⟩
    unfold Exact at hone
    rw [mainGet_eq] at hone
    exact absurd hone (by decide)
  · rw [mainGet_eq]
    rfl

end DistKv.Memcache
