import DistKv.Memcache.ParseBody

/-!
# The messages of the client (`client.c`)

A set message is the operation, three numbers in fields of 8, 8 and 6 characters,
the key and the value, each with CR LF behind it. A field is a minimum: a longer
number moves what is behind it, while the server cuts the stream at the 28th byte
of the header. A get message is the operation and the key.

A message here is all that `encode_set` or `encode_get` writes; `main` has less
room for it where the key is long, and sends no more than that.
-/

namespace DistKv.Memcache

open CText

def crlf : List UInt8 := [13, 10]

/-- `"get\r\n"` -/
def getOp : List UInt8 := [103, 101, 116, 13, 10]

/-- `encode_get`. -/
def encodeGet (key : Str) : List UInt8 := getOp ++ (key.bytes ++ crlf)

/-- `encode_set`. -/
def encodeSet (key value : Str) (keySize valueSize actualSize : Nat) : List UInt8 :=
  setOp ++ (Decimal.padRight 8 valueSize ++ crlf) ++ (Decimal.padRight 8 actualSize ++ crlf) ++
    (Decimal.padRight 6 keySize ++ crlf) ++ (key.bytes ++ crlf) ++
    value.bytes.take actualSize ++ crlf

/-- `MAXRECVBYTES`. -/
abbrev maxRecvBytes : Nat := 40

/-- What the client's one `recv` gets of a reply, at most. -/
def recvReply (reply : List UInt8) : List UInt8 := reply.take (maxRecvBytes - 1)

/-- The arguments of a set that `main` accepts. The key lies in memory. -/
structure SetArgs where
  key : Str
  valueSize : UInt64
  value : Str
  key_lt : key.length < 2 ^ 64
  valueSize_ne : valueSize ≠ 0
  value_le : value.length + 2 ≤ valueSize.toNat

namespace SetArgs

variable (r : SetArgs)

/-- What `main` sends for it. -/
def message : List UInt8 :=
  encodeSet r.key r.value r.key.length r.valueSize.toNat r.value.length

/-- The node it asks the server for. -/
def node : KvNode := createNode r.key r.valueSize (Str.ofBytes (crlf ++ r.value.bytes)) 1

/-- The three numbers and what separates them. -/
def header : List UInt8 :=
  Decimal.padRight 8 r.valueSize.toNat ++ 13 :: 10 :: (Decimal.padRight 8 r.value.length ++
    13 :: 10 :: (Decimal.padRight 6 r.key.length ++ crlf))

/-- The key and the value. -/
def content : List UInt8 := r.key.bytes ++ crlf ++ r.value.bytes

theorem message_eq : r.message = setOp ++ (r.header ++ (r.content ++ crlf)) := by
  have hvalue : r.value.bytes.take r.value.length = r.value.bytes := List.take_length
  simp [message, encodeSet, header, content, crlf, hvalue]

/-- The characters in front of the third number. -/
def keyField : Nat :=
  (Decimal.padRight 8 r.valueSize.toNat).length + (Decimal.padRight 8 r.value.length).length + 4

theorem length_header :
    r.header.length = r.keyField + (Decimal.padRight 6 r.key.length).length + 2 := by
  simp only [header, keyField, crlf, List.length_append, List.length_cons, List.length_nil]
  omega

theorem le_length_header : 28 ≤ r.header.length := by
  rw [length_header, keyField, Decimal.length_padRight, Decimal.length_padRight,
    Decimal.length_padRight]
  omega

theorem length_content : r.content.length = r.key.length + (r.value.length + 2) := by
  simp only [content, crlf, Str.length, List.length_append, List.length_cons, List.length_nil]
  omega

end SetArgs

/-! ## What the server makes of the header -/

theorem headerDelim_of_mem_padRight {w n : Nat} {c : UInt8} (hc : c ∈ Decimal.padRight w n) :
    headerDelim c = false := by
  have hdigit : ∀ c : UInt8, Decimal.isDigit c = true → headerDelim c = false := by
    unfold headerDelim Decimal.isDigit
    intro c hc
    simp only [Bool.and_eq_true, decide_eq_true_eq, UInt8.le_iff_toNat_le] at hc
    simp only [Bool.or_eq_false_iff, decide_eq_false_iff_not]
    refine ⟨?_, ?_⟩
    · rintro rfl
      exact absurd hc.1 (by decide)
    · rintro rfl
      exact absurd hc.1 (by decide)
  rcases Decimal.mem_padRight hc with hc | rfl
  · exact hdigit c hc
  · rfl

theorem headerDelim_cr : headerDelim 13 = true := rfl

theorem headerDelim_lf : headerDelim 10 = true := rfl

/-- A field and CR LF, cut off after `n` characters. -/
theorem strtok_field {w m n : Nat} (hn : 0 < n) (rest : List UInt8) :
    strtok headerDelim ((Decimal.padRight w m ++ 13 :: 10 :: rest).take n) =
      some ((Decimal.padRight w m).take n,
        (10 :: rest).take (n - ((Decimal.padRight w m).length + 1))) :=
  strtok_take_append (Decimal.padRight_ne_nil w m) (fun _ hc => headerDelim_of_mem_padRight hc)
    headerDelim_cr (10 :: rest) hn

/-- A whole number is read back. -/
theorem strtoul_padRight {w m : Nat} (hm : m < 2 ^ 64) {n : Nat}
    (hn : (Decimal.padRight w m).length ≤ n) :
    strtoul ((Decimal.padRight w m).take n) = UInt64.ofNat m ∧
      ¬ OutOfRange ((Decimal.padRight w m).take n) := by
  rw [Decimal.length_padRight] at hn
  have hpos : 0 < (Decimal.digits m).length := List.length_pos_of_ne_nil (Decimal.digits_ne_nil m)
  refine strtoul_of_scanNumber ?_ hm
  rw [scanNumber_take_padRight (by omega), List.take_of_length_le (by omega)]

/-- What is left of a number that is cut off is no larger. -/
theorem value_take_digits_le (m j : Nat) : Decimal.value ((Decimal.digits m).take j) ≤ m := by
  rcases Nat.eq_zero_or_pos j with rfl | hj
  · exact Nat.zero_le m
  by_cases hlong : (Decimal.digits m).length ≤ j
  · rw [List.take_of_length_le hlong, Decimal.value_digits]
  · exact Nat.le_of_lt (Decimal.value_take_digits_lt hj (Nat.lt_of_not_le hlong))

theorem value_scanNumber_take_padRight (w m j : Nat) :
    Decimal.value (scanNumber ((Decimal.padRight w m).take j)).2 =
      Decimal.value ((Decimal.digits m).take j) := by
  rcases Nat.eq_zero_or_pos j with rfl | hj
  · rfl
  · rw [scanNumber_take_padRight hj]

theorem not_outOfRange_take_padRight {w m : Nat} (hm : m < 2 ^ 64) (j : Nat) :
    ¬ OutOfRange ((Decimal.padRight w m).take j) := by
  rw [OutOfRange, value_scanNumber_take_padRight]
  have := value_take_digits_le m j
  omega

theorem zero_not_mem_padRight (w m : Nat) : (0 : UInt8) ∉ Decimal.padRight w m := by
  intro h
  rcases Decimal.mem_padRight h with h | h
  · exact absurd h (by decide)
  · exact absurd h (by decide)

theorem zero_not_mem_crlf : (0 : UInt8) ∉ crlf := by decide

/-- The value that the server stores. -/
theorem bytes_crlf_value (value : Str) :
    (Str.ofBytes (crlf ++ value.bytes)).bytes = crlf ++ value.bytes :=
  Str.ofBytes_bytes_of_not_mem (by simp [zero_not_mem_crlf, value.noNul])

namespace SetArgs

variable (r : SetArgs)

theorem value_lt : r.value.length < 2 ^ 64 := by
  have hle := r.value_le
  have hlt := r.valueSize.toNat_lt
  omega

theorem zero_not_mem_header : (0 : UInt8) ∉ r.header := by
  simp [header, crlf, zero_not_mem_padRight]

/-- **The first `n` bytes of a header name its sizes as soon as they reach the
third number**, and digits that are missing of that are not missed. -/
theorem headerNames_take {n : Nat} {sizes : Sizes} :
    HeaderNames (Str.ofBytes (r.header.take n)) sizes ↔
      r.keyField < n ∧ sizes = ⟨r.valueSize, UInt64.ofNat r.value.length,
        strtoul ((Decimal.padRight 6 r.key.length).take (n - r.keyField))⟩ := by
  have hnul : (Str.ofBytes (r.header.take n)).bytes = r.header.take n :=
    Str.ofBytes_bytes_of_not_mem fun h => r.zero_not_mem_header (List.mem_of_mem_take h)
  unfold HeaderNames
  rw [hnul, header]
  generalize hA : (Decimal.padRight 8 r.valueSize.toNat).length = a
  generalize hB : (Decimal.padRight 8 r.value.length).length = b
  have hfield : r.keyField = a + b + 4 := by rw [keyField, hA, hB]
  -- the first token
  rcases Nat.eq_zero_or_pos n with rfl | hn
  · simp [strtok_nil]
  rw [strtok_field hn, hA]
  simp only [Option.some.injEq, Prod.mk.injEq]
  by_cases hsecond : 0 < n - (a + 1) - 1
  · have hstep₂ := (strtok_take_cons headerDelim_lf _ (n - (a + 1))).trans
      (strtok_field (w := 8) (m := r.value.length) hsecond
        (Decimal.padRight 6 r.key.length ++ crlf))
    rw [hB] at hstep₂
    by_cases hthird : 0 < n - (a + 1) - 1 - (b + 1) - 1
    · have hstep₃ := (strtok_take_cons headerDelim_lf _ (n - (a + 1) - 1 - (b + 1))).trans
        (strtok_field (w := 6) (m := r.key.length) hthird [])
      have hj : n - (a + 1) - 1 - (b + 1) - 1 = n - r.keyField := by omega
      rw [hj, ← crlf] at hstep₃
      have hvalueSize := strtoul_padRight r.valueSize.toNat_lt (hA.trans_le (show a ≤ n by omega))
      have hactual := strtoul_padRight r.value_lt
        (hB.trans_le (show b ≤ n - (a + 1) - 1 by omega))
      have hkey : ¬ OutOfRange ((Decimal.padRight 6 r.key.length).take (n - r.keyField)) :=
        not_outOfRange_take_padRight r.key_lt _
      rw [UInt64.ofNat_toNat] at hvalueSize
      refine ⟨?_, ?_⟩
      · rintro ⟨_, _, _, _, _, _, ⟨rfl, rfl⟩, h₂, h₃, -, -, -, rfl⟩
        rw [hstep₂, Option.some.injEq, Prod.mk.injEq] at h₂
        obtain ⟨rfl, rfl⟩ := h₂
        rw [hstep₃, Option.some.injEq, Prod.mk.injEq] at h₃
        obtain ⟨rfl, -⟩ := h₃
        refine ⟨by omega, ?_⟩
        rw [hvalueSize.1, hactual.1]
      · rintro ⟨-, rfl⟩
        refine ⟨_, _, _, _, _, _, ⟨rfl, rfl⟩, hstep₂, hstep₃, hvalueSize.2, hactual.2, hkey, ?_⟩
        rw [hvalueSize.1, hactual.1]
    · refine ⟨?_, fun h => absurd h.1 (by omega)⟩
      rintro ⟨_, _, _, _, _, _, ⟨rfl, rfl⟩, h₂, h₃, -⟩
      rw [hstep₂, Option.some.injEq, Prod.mk.injEq] at h₂
      obtain ⟨-, rfl⟩ := h₂
      rw [strtok_take_cons headerDelim_lf, Nat.eq_zero_of_not_pos hthird, List.take_zero,
        strtok_nil] at h₃
      exact absurd h₃ (by simp)
  · refine ⟨?_, fun h => absurd h.1 (by omega)⟩
    rintro ⟨_, _, _, _, _, _, ⟨rfl, rfl⟩, h₂, -⟩
    rw [strtok_take_cons headerDelim_lf, Nat.eq_zero_of_not_pos hsecond, List.take_zero,
      strtok_nil] at h₂
    exact absurd h₂ (by simp)

end SetArgs

end DistKv.Memcache
