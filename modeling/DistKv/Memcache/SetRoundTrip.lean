import DistKv.Memcache.Client

/-!
# From the client's set to the server's node

The pieces in which a message arrives are the results of the calls to `recv`.
`Whole` says which pieces let a set through: the operation in one, the header up
to the digits of its third number in one, the key in one, and a body whose pieces
do not end at the last byte of the value or one behind it.
-/

namespace DistKv.Memcache

open CText

/-! ## A stream in pieces -/

/-- A stream whose next pieces have at most `k + 1` bytes, for the `k` listed. -/
def Incoming.cut (input : List UInt8) (pieces : List Nat) : Incoming := ⟨input, pieces.map some⟩

/-- How many bytes a `recv` of `len` bytes gets, as long as there are as many. -/
def share (pieces : List Nat) (len : Nat) : Nat :=
  match pieces with
  | [] => len
  | k :: _ => min (k + 1) len

theorem share_le (pieces : List Nat) (len : Nat) : share pieces len ≤ len := by
  cases pieces with
  | nil => exact Nat.le_refl len
  | cons k pieces => exact Nat.min_le_right _ _

theorem recv_cut (input : List UInt8) (pieces : List Nat) (len : Nat) :
    (Incoming.cut input pieces).recv len =
      (some (input.take (share pieces len)),
        Incoming.cut (input.drop (share pieces len)) pieces.tail) := by
  cases pieces with
  | nil => rfl
  | cons k pieces => rfl

/-- A piece that ends in the front of the stream. -/
theorem recv_cut_front {front : List UInt8} {pieces : List Nat} {len : Nat} (rest : List UInt8)
    (hlen : share pieces len ≤ front.length) :
    (Incoming.cut (front ++ rest) pieces).recv len =
      (some (front.take (share pieces len)),
        Incoming.cut (front.drop (share pieces len) ++ rest) pieces.tail) := by
  rw [recv_cut, List.take_append_of_le_length hlen, List.drop_append_of_le_length hlen]

/-- No piece of a body ends at its value or one byte behind it. -/
def BodyEnds (actualSize : Nat) : Nat → List Nat → Prop
  | _, [] => True
  | got, k :: pieces =>
      if got + (k + 1) < actualSize then BodyEnds actualSize (got + (k + 1)) pieces
      else actualSize + 2 ≤ got + (k + 1)

theorem bodyArrives_of_le {actualSize : Int} {s : Incoming} {got : Nat} (h : actualSize ≤ got) :
    BodyArrives actualSize s got ↔ (got : Int) = actualSize + 2 := by
  refine ⟨?_, .whole⟩
  intro harrives
  cases harrives with
  | whole hgot => exact hgot
  | part hmore _ _ => omega

/-- A piece that does not end the loop. -/
theorem bodyArrives_cut_of_lt {actualSize got : Nat} {input : List UInt8} {pieces : List Nat}
    (hgot : got < actualSize) (hlen : actualSize + 2 ≤ got + input.length) :
    BodyArrives actualSize (.cut input pieces) got ↔
      BodyArrives actualSize
        (.cut (input.drop (share pieces (actualSize + 2 - got))) pieces.tail)
        (got + share pieces (actualSize + 2 - got)) := by
  have hask : ((actualSize : Int) + 2 - got).toNat = actualSize + 2 - got := by omega
  have htake : (input.take (share pieces (actualSize + 2 - got))).length =
      share pieces (actualSize + 2 - got) := by
    have := share_le pieces (actualSize + 2 - got)
    rw [List.length_take]
    omega
  have hrecv := recv_cut input pieces (actualSize + 2 - got)
  refine ⟨?_, ?_⟩
  · intro harrives
    cases harrives with
    | whole hwhole => omega
    | part _ hpart hrest =>
        rw [hask, hrecv, Prod.mk.injEq, Option.some.injEq] at hpart
        obtain ⟨rfl, rfl⟩ := hpart
        rwa [htake] at hrest
  · intro hrest
    refine .part (by omega) ((congrArg _ hask).trans hrecv) ?_
    rwa [htake]

/-- Whether a body arrives is a matter of its pieces. -/
theorem bodyArrives_cut {actualSize got : Nat} {input : List UInt8} {pieces : List Nat}
    (hgot : got < actualSize) (hlen : actualSize + 2 ≤ got + input.length) :
    BodyArrives actualSize (.cut input pieces) got ↔ BodyEnds actualSize got pieces := by
  induction pieces generalizing got input with
  | nil =>
      rw [bodyArrives_cut_of_lt hgot hlen, share, bodyArrives_of_le (by omega)]
      refine iff_of_true ?_ trivial
      omega
  | cons k pieces ih =>
      rw [bodyArrives_cut_of_lt hgot hlen, BodyEnds]
      show BodyArrives _ (.cut (input.drop (min (k + 1) _)) pieces) (got + min (k + 1) _) ↔ _
      by_cases hmore : got + (k + 1) < actualSize
      · rw [if_pos hmore, Nat.min_eq_left (by omega)]
        apply ih hmore
        rw [List.length_drop]
        omega
      · rw [if_neg hmore, bodyArrives_of_le (by omega)]
        omega

/-! ## Which pieces let a set through -/

namespace SetArgs

variable (r : SetArgs)

/-- The numbers and the text of a set are such that its node can be queued when the
header is cut off after `n` bytes: all digits of the key's length are in front of
the cut, what is behind the cut is repeated by the key and the value, and the value
is one that `parse_body` can take. -/
structure FitsAt (n : Nat) : Prop where
  digits : r.keyField + (Decimal.digits r.key.length).length ≤ n
  content : r.content <+: r.header.drop n ++ r.content
  value_ne : r.value.length ≠ 0
  value_lt : r.value.length + 2 < 2 ^ 31

/-- The pieces are right: the operation and the key come whole, and the body ends
with a piece. -/
structure Whole (pieces : List Nat) : Prop where
  op : share pieces 5 = 5
  fits : r.FitsAt (share pieces.tail 28)
  key : share pieces.tail.tail r.key.length = r.key.length
  body : BodyEnds r.value.length 0 pieces.tail.tail.tail

end SetArgs

/-- A key is no longer than its size says. -/
theorem KeyRead.length_le {keySize : UInt64} {s s' : Incoming} {key : Str}
    (h : KeyRead keySize s key s') : key.length ≤ keySize.toNat := by
  obtain ⟨bytes, hrecv, -, rfl⟩ := h
  have hbytes : bytes.length ≤ keySize.toNat := length_le_of_recv hrecv
  have hkey := Str.length_ofBytes_le (bytes.take (toInt bytes.length).toNat)
  rw [List.length_take] at hkey
  omega

/-- A key of the size that was sent comes in one piece. -/
theorem keyRead_cut {keySize : UInt64} {key : Str} (hsize : keySize.toNat = key.length)
    (hlt : key.length < 2 ^ 31) {input : List UInt8} {pieces : List Nat} {s' : Incoming}
    (hlen : key.length ≤ input.length) :
    KeyRead keySize (.cut input pieces) key s' ↔
      share pieces key.length = key.length ∧ input.take key.length = key.bytes ∧
        s' = .cut (input.drop key.length) pieces.tail := by
  unfold KeyRead
  rw [hsize, recv_cut]
  have hshare := share_le pieces key.length
  refine ⟨?_, ?_⟩
  · rintro ⟨bytes, hrecv, hpos, hkey⟩
    rw [Prod.mk.injEq, Option.some.injEq] at hrecv
    obtain ⟨hbytes, rfl⟩ := hrecv
    have hgot : bytes.length = share pieces key.length := by
      rw [← hbytes, List.length_take]
      omega
    have hint := toInt_le bytes.length
    have hlong := Str.length_ofBytes_le (bytes.take (toInt bytes.length).toNat)
    rw [← hkey, List.length_take] at hlong
    have hwhole : share pieces key.length = key.length := by omega
    rw [List.take_of_length_le (by omega)] at hkey
    have hsame : key.bytes = bytes := by
      rw [hkey]
      apply Str.ofBytes_of_le_length
      rw [← hkey]
      omega
    rw [hwhole] at hbytes ⊢
    exact ⟨rfl, hbytes.trans hsame.symm, rfl⟩
  · rintro ⟨hwhole, hkey, rfl⟩
    have hint := toInt_of_lt hlt
    refine ⟨key.bytes, by rw [hwhole, hkey], ?_, ?_⟩
    · show 0 ≤ toInt key.length
      omega
    · show key = Str.ofBytes (key.bytes.take (toInt key.length).toNat)
      rw [hint, Int.toNat_natCast, Str.length, List.take_length, Str.ofBytes_bytes]

/-- A body of the size that was sent. -/
theorem bodyRead_cut {actualSize : Nat} {value : Str} (hvalue : value.length = actualSize + 2)
    {input : List UInt8} {pieces : List Nat} (hlen : actualSize + 2 ≤ input.length) :
    (∃ buffer s', BodyRead (toInt actualSize) (.cut input pieces) buffer s' ∧
        Str.ofBytes buffer = value) ↔
      actualSize ≠ 0 ∧ actualSize + 2 < 2 ^ 31 ∧ BodyEnds actualSize 0 pieces ∧
        input.take (actualSize + 2) = value.bytes := by
  have hle := toInt_le actualSize
  refine ⟨?_, ?_⟩
  · rintro ⟨buffer, s', hread, rfl⟩
    have hlong := Str.length_ofBytes_le buffer
    have hbuffer := hread.2.2
    have hsame : toInt actualSize = actualSize := by omega
    have hbytes : (Str.ofBytes buffer).bytes = buffer := by
      apply Str.ofBytes_of_le_length
      omega
    rw [hsame] at hread
    obtain ⟨hint, harrives⟩ := bodyRead_iff.mp ⟨buffer, s', hread⟩
    have hne : actualSize ≠ 0 := by
      rintro rfl
      rw [bodyArrives_of_le (by omega)] at harrives
      omega
    refine ⟨hne, by omega, ?_, ?_⟩
    · exact (bodyArrives_cut (Nat.pos_of_ne_zero hne) (by omega)).mp harrives
    · rw [hbytes, bodyRead_eq hread]
      rfl
  · rintro ⟨hne, hint, hends, hinput⟩
    have hsame : toInt actualSize = actualSize := toInt_of_lt (by omega)
    have harrives : BodyArrives actualSize (.cut input pieces) 0 :=
      (bodyArrives_cut (Nat.pos_of_ne_zero hne) (by omega)).mpr hends
    obtain ⟨buffer, s', hread⟩ := bodyRead_iff.mpr ⟨by omega, harrives⟩
    refine ⟨buffer, s', hsame ▸ hread, ?_⟩
    have hbuffer : buffer = value.bytes := (bodyRead_eq hread).trans hinput
    rw [hbuffer, Str.ofBytes_bytes]

namespace SetArgs

variable (r : SetArgs)

/-- The key and the value are read where they belong, or where the same bytes stand. -/
theorem take_content_iff (n : Nat) (rest : List UInt8) :
    (r.header.drop n ++ (r.content ++ rest)).take r.key.length = r.key.bytes ∧
        ((r.header.drop n ++ (r.content ++ rest)).drop r.key.length).take (r.value.length + 2) =
          crlf ++ r.value.bytes ↔
      r.content <+: r.header.drop n ++ r.content := by
  have hcut : (r.header.drop n ++ (r.content ++ rest)).take r.content.length =
      (r.header.drop n ++ r.content).take r.content.length := by
    rw [← List.append_assoc, List.take_append_of_le_length]
    rw [List.length_append]
    omega
  have hcontent : r.content = r.key.bytes ++ (crlf ++ r.value.bytes) := by
    rw [content, List.append_assoc]
  have hsplit : ∀ l : List UInt8, l.take (r.key.length + (r.value.length + 2)) =
      l.take r.key.length ++ (l.drop r.key.length).take (r.value.length + 2) :=
    fun _ => List.take_add
  rw [List.prefix_iff_eq_take, ← hcut, length_content, hsplit]
  refine ⟨?_, ?_⟩
  · rintro ⟨hkey, hvalue⟩
    rw [hkey, hvalue, hcontent]
  · intro h
    have hlen : ((r.header.drop n ++ (r.content ++ rest)).take r.key.length).length =
        r.key.bytes.length := by
      have hkey : r.key.bytes.length = r.key.length := rfl
      rw [List.length_take, List.length_append, List.length_append, length_content, hkey]
      omega
    exact List.append_inj (hcontent.symm.trans h).symm hlen

theorem toNat_strtoul_take_padRight {w m : Nat} (hm : m < 2 ^ 64) {j : Nat} (hj : 0 < j) :
    (strtoul ((Decimal.padRight w m).take j)).toNat =
      Decimal.value ((Decimal.digits m).take j) := by
  have hle := value_take_digits_le m j
  rw [strtoul, scanNumber_take_padRight hj]
  show (unsignedValue false (Decimal.value ((Decimal.digits m).take j))).toNat = _
  rw [unsignedValue, if_neg (by omega)]
  show (UInt64.ofNat (Decimal.value ((Decimal.digits m).take j))).toNat = _
  rw [UInt64.toNat_ofNat']
  omega

/-- As many bytes of the size field as it has digits give the size of the key. -/
theorem keySize_of_digits {j : Nat} (h : (Decimal.digits r.key.length).length ≤ j) :
    (strtoul ((Decimal.padRight 6 r.key.length).take j)).toNat = r.key.length := by
  have hpos := List.length_pos_of_ne_nil (Decimal.digits_ne_nil r.key.length)
  rw [toNat_strtoul_take_padRight r.key_lt (by omega), List.take_of_length_le h,
    Decimal.value_digits]

/-- Fewer bytes of the size field give too small a size. -/
theorem digits_le_of_keySize {j : Nat} (hj : 0 < j)
    (h : r.key.length ≤ (strtoul ((Decimal.padRight 6 r.key.length).take j)).toNat) :
    (Decimal.digits r.key.length).length ≤ j := by
  by_contra hcut
  rw [toNat_strtoul_take_padRight r.key_lt hj] at h
  have hless := Decimal.value_take_digits_lt hj (Nat.lt_of_not_le hcut)
  omega

/-- A key whose length is read is short. -/
theorem key_lt_of_digits (h : (Decimal.digits r.key.length).length ≤ 28 - r.keyField) :
    r.key.length < 2 ^ 31 := by
  have hshort : (Decimal.digits r.key.length).length ≤ 8 := by
    have hA := Decimal.length_padRight 8 r.valueSize.toNat
    have hB := Decimal.length_padRight 8 r.value.length
    unfold keyField at h
    omega
  rw [Decimal.length_digits_le_iff (by decide)] at hshort
  omega

/-- **Which pieces of a header, a key and a body make the node of a set.** -/
theorem setRead_cut (pieces : List Nat) (rest : List UInt8) :
    (∃ s', SetRead (.cut (r.header ++ (r.content ++ (crlf ++ rest))) pieces) r.node s') ↔
      r.FitsAt (share pieces 28) ∧ share pieces.tail r.key.length = r.key.length ∧
        BodyEnds r.value.length 0 pieces.tail.tail := by
  have hn := share_le pieces 28
  have hheaderLen := r.le_length_header
  have hvalue_lt := r.value_lt
  have hactual : (UInt64.ofNat r.value.length).toNat = r.value.length := by
    rw [UInt64.toNat_ofNat']
    omega
  have hvalue := bytes_crlf_value r.value
  have hvalueLen : (Str.ofBytes (crlf ++ r.value.bytes)).length = r.value.length + 2 := by
    rw [Str.length, hvalue]
    simp [crlf, Str.length]
  -- the header, and the stream behind it
  have hrecv := recv_cut_front (r.content ++ (crlf ++ rest))
    (show share pieces 28 ≤ r.header.length by omega)
  have hcontent := r.take_content_iff (share pieces 28) (crlf ++ rest)
  generalize hstream : r.header.drop (share pieces 28) ++ (r.content ++ (crlf ++ rest)) = stream
    at hrecv hcontent
  have hlong : r.key.length + (r.value.length + 2) ≤ stream.length := by
    rw [← hstream, List.length_append, List.length_append, length_content]
    omega
  refine ⟨?_, ?_⟩
  · rintro ⟨s', recvHeader, s₁, sizes, key, s₂, buffer, hheader, hnames, -, hkey, hbody, hnode⟩
    rw [hrecv, Prod.mk.injEq, Option.some.injEq] at hheader
    obtain ⟨rfl, rfl⟩ := hheader
    obtain ⟨hfield, hsizes⟩ := r.headerNames_take.mp hnames
    subst hsizes
    simp only [node, createNode, KvNode.mk.injEq] at hnode
    obtain ⟨rfl, hbuffer, -⟩ := hnode
    have hle := hkey.length_le
    simp only at hle
    have hdigits := r.digits_le_of_keySize (Nat.sub_pos_of_lt hfield) hle
    have hsize := r.keySize_of_digits hdigits
    generalize strtoul ((Decimal.padRight 6 r.key.length).take _) = keySize at hkey hsize
    have hkey_lt := r.key_lt_of_digits (show (Decimal.digits r.key.length).length ≤ _ by omega)
    obtain ⟨hwhole, htakeKey, rfl⟩ := (keyRead_cut hsize hkey_lt (by omega)).mp hkey
    simp only [hactual] at hbody
    obtain ⟨hne, hlt, hends, htakeValue⟩ := (bodyRead_cut hvalueLen (by
      rw [List.length_drop]; omega)).mp ⟨buffer, s', hbody, hbuffer.symm⟩
    rw [hvalue] at htakeValue
    exact ⟨⟨by omega, hcontent.mp ⟨htakeKey, htakeValue⟩, hne, hlt⟩, hwhole, hends⟩
  · rintro ⟨⟨hdigits, hprefix, hne, hlt⟩, hwhole, hends⟩
    have hpos := List.length_pos_of_ne_nil (Decimal.digits_ne_nil r.key.length)
    have hfield : r.keyField < share pieces 28 := by omega
    have hnames := r.headerNames_take.mpr ⟨hfield, rfl⟩
    have hsize := r.keySize_of_digits (show _ ≤ share pieces 28 - r.keyField by omega)
    generalize strtoul ((Decimal.padRight 6 r.key.length).take _) = keySize at hnames hsize
    have hkey_lt := r.key_lt_of_digits (show (Decimal.digits r.key.length).length ≤ _ by omega)
    obtain ⟨htakeKey, htakeValue⟩ := hcontent.mpr hprefix
    have hkey := (keyRead_cut hsize hkey_lt (by omega)).mpr ⟨hwhole, htakeKey, rfl⟩
    obtain ⟨buffer, s', hbody, hbuffer⟩ := (bodyRead_cut hvalueLen (by
      rw [List.length_drop]; omega)).mpr ⟨hne, hlt, hends, htakeValue.trans hvalue.symm⟩
    refine ⟨s', _, _, _, _, _, buffer, hrecv, hnames, ?_, hkey, ?_, ?_⟩
    · show keySize.toNat + 2 < 2 ^ 64
      omega
    · show BodyRead (toInt (UInt64.ofNat r.value.length).toNat) _ _ _
      rw [hactual]
      exact hbody
    · rw [hbuffer]
      rfl

/-- **Which pieces of a set message make its node.** -/
theorem nodeRead_set (erange : Bool) (pieces : List Nat) (rest : List UInt8) :
    (∃ s', NodeRead erange (.cut (r.message ++ rest) pieces) r.node s') ↔
      erange = false ∧ r.Whole pieces := by
  have hmessage : r.message ++ rest = setOp ++ (r.header ++ (r.content ++ (crlf ++ rest))) := by
    rw [message_eq, List.append_assoc, List.append_assoc, List.append_assoc]
  have hshare := share_le pieces 5
  have hrecv := recv_cut_front (r.header ++ (r.content ++ (crlf ++ rest)))
    (show share pieces 5 ≤ setOp.length from hshare)
  have hop : ∀ n ≤ 5, Str.ofBytes (setOp.take n) = Str.ofBytes setOp ↔ n = 5 := by decide
  have hread := r.setRead_cut pieces.tail rest
  rw [hmessage]
  refine ⟨?_, ?_⟩
  · rintro ⟨s', hnode⟩
    cases hnode with
    | @set op s₁ hrecvOp hset herrno hsets =>
        rw [hrecv, Prod.mk.injEq, Option.some.injEq] at hrecvOp
        obtain ⟨rfl, rfl⟩ := hrecvOp
        have hwhole := (hop _ hshare).mp hset
        rw [hwhole] at hsets
        obtain ⟨hfits, hkey, hbody⟩ := hread.mp ⟨s', hsets⟩
        exact ⟨herrno, hwhole, hfits, hkey, hbody⟩
    | get _ _ _ hgets =>
        obtain ⟨_, token, -, -, hnode⟩ := hgets
        have hflag : (1 : UInt8) = 0 := congrArg KvNode.operFlg hnode
        exact absurd hflag (by decide)
  · rintro ⟨herrno, hwhole, hfits, hkey, hbody⟩
    obtain ⟨s', hsets⟩ := hread.mpr ⟨hfits, hkey, hbody⟩
    rw [hwhole, List.take_of_length_le (show setOp.length ≤ 5 by decide)] at hrecv
    exact ⟨s', .set hrecv rfl herrno hsets⟩

/-- **The set round trip.** Sent in one piece, a set makes its node if and only if
the third number is read, the key and the value are found, the value is not empty
and an `int` holds its size, and neither memory nor an old `errno` are in the way. -/
theorem set_round_trip_iff (rest : List UInt8) (mallocs : Nat → Bool) (erange : Bool) :
    Queues ⟨.cut (r.message ++ rest) [], mallocs, erange, []⟩ r.node ↔
      r.FitsAt 28 ∧ erange = false ∧ ∀ i < 6, mallocs i = true := by
  rw [queues_iff, nodeRead_set]
  refine ⟨?_, ?_⟩
  · rintro ⟨⟨herrno, hwhole⟩, hm⟩
    exact ⟨hwhole.fits, herrno, hm⟩
  · rintro ⟨hfits, herrno, hm⟩
    exact ⟨⟨herrno, rfl, hfits, rfl, trivial⟩, hm⟩

end SetArgs

/-- `client set A 2 ""` -/
def emptySet : SetArgs where
  key := ⟨[65], by decide⟩
  valueSize := 2
  value := ⟨[], by decide⟩
  key_lt := by decide
  valueSize_ne := by decide
  value_le := by decide

/-- `parse_body` reads nothing of an empty value, not even the CR LF in front of it. -/
theorem emptySet_not_queued :
    ¬ ∀ r : SetArgs, Queues ⟨.cut r.message [], fun _ => true, false, []⟩ r.node := by
  intro h
  have hread := (queues_iff.mp (h emptySet)).1
  have hwhole := (emptySet.nodeRead_set false [] []).mp (by rwa [List.append_nil])
  exact hwhole.2.fits.value_ne rfl

end DistKv.Memcache
