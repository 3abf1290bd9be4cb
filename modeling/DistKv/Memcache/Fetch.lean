import DistKv.Memcache.Replies
import DistKv.Memcache.SetRoundTrip

/-!
# From the client's get to its reply

A get has no length in front of its key: the server looks for the first token in
at most `KEYSIZE` bytes, and the client reads its reply with one `recv` of
`MAXRECVBYTES - 1` bytes. A set has no such limits, so not all that can be stored
can be fetched.
-/

namespace DistKv.Memcache

open CText

/-- A key that is a token: it is not empty and has neither CR nor LF in it. -/
structure PlainKey (key : Str) : Prop where
  ne : key.bytes ≠ []
  word : ∀ c ∈ key.bytes, headerDelim c = false

/-- `"get"` -/
def getWord : List UInt8 := [103, 101, 116]

/-- The pieces of a get message let its key through: the operation ends at one of its
last three bytes, and the key comes whole, with what is left of CR LF in front of
it. Where the operation ends earlier, the rest of it is taken for a key, which may
be the right one. -/
def GetArrives (key : Str) (pieces : List Nat) : Prop :=
  3 ≤ share pieces 5 ∧ key.length + (5 - share pieces 5) ≤ share pieces.tail keySizeMax ∨
    share pieces 5 < 3 ∧
      key.bytes = (getWord.drop (share pieces 5)).take (share pieces.tail keySizeMax)

theorem share_pos (pieces : List Nat) {len : Nat} (h : 0 < len) : 0 < share pieces len := by
  cases pieces with
  | nil => exact h
  | cons k pieces => exact Nat.lt_min.mpr ⟨Nat.succ_pos k, h⟩

/-- The token in the first `m` bytes of a key and CR LF. -/
theorem token_key (key : Str) (m : Nat) :
    (strtok headerDelim ((key.bytes ++ crlf).take m)).map Prod.fst = some key.bytes ↔
      PlainKey key ∧ key.length ≤ m := by
  refine ⟨?_, ?_⟩
  · intro h
    obtain ⟨⟨_, rest⟩, htoken, rfl⟩ := Option.map_eq_some_iff.mp h
    obtain ⟨hne, hword⟩ := strtok_eq_some htoken
    have hplain : ∀ c ∈ key.bytes, headerDelim c = false := fun c hc => (hword c hc).1
    rcases Nat.eq_zero_or_pos m with rfl | hm
    · exact absurd htoken (by simp [strtok_nil])
    rw [crlf, strtok_take_append hne hplain headerDelim_cr _ hm, Option.some.injEq,
      Prod.mk.injEq] at htoken
    have hlen := congrArg List.length htoken.1
    rw [List.length_take] at hlen
    refine ⟨⟨hne, hplain⟩, ?_⟩
    rw [Str.length]
    omega
  · rintro ⟨⟨hne, hword⟩, hm⟩
    have hpos : 0 < key.bytes.length := List.length_pos_of_ne_nil hne
    have hlen : key.bytes.length ≤ m := hm
    rw [crlf, strtok_take_append hne hword headerDelim_cr _ (by omega), Option.map_some,
      List.take_of_length_le hlen]

/-- The token in what is left of a get message behind its first bytes. -/
theorem token_get (key : Str) {n m : Nat} (hn : 0 < n) (hn₅ : n ≤ 5) (hm : 0 < m) :
    (strtok headerDelim (((encodeGet key).drop n).take m)).map Prod.fst = some key.bytes ↔
      PlainKey key ∧
        (3 ≤ n ∧ key.length + (5 - n) ≤ m ∨ n < 3 ∧ key.bytes = (getWord.drop n).take m) := by
  -- an operation that ends early leaves a word in front of the key
  have hword : ∀ word rest, word ≠ [] → (∀ c ∈ word, headerDelim c = false) →
      ((strtok headerDelim ((word ++ 13 :: rest).take m)).map Prod.fst = some key.bytes ↔
        PlainKey key ∧ key.bytes = word.take m) := by
    intro word rest hne hplain
    rw [strtok_take_append hne hplain headerDelim_cr _ hm, Option.map_some, Option.some.injEq]
    refine ⟨?_, fun h => h.2.symm⟩
    intro htake
    refine ⟨⟨?_, ?_⟩, htake.symm⟩
    · rw [← htake, ne_eq, List.take_eq_nil_iff, not_or]
      exact ⟨by omega, hne⟩
    · intro c hc
      rw [← htake] at hc
      exact hplain c (List.mem_of_mem_take hc)
  -- one that ends later leaves CR LF or less
  have hkey : ∀ k, (strtok headerDelim ((key.bytes ++ crlf).take (m - k))).map Prod.fst =
      some key.bytes ↔ PlainKey key ∧ key.length + k ≤ m := by
    intro k
    rw [token_key]
    refine and_congr_right fun hplain => ?_
    have hpos : 0 < key.length := List.length_pos_of_ne_nil hplain.ne
    omega
  interval_cases n
  · have h := hword [101, 116] (10 :: (key.bytes ++ crlf)) (by simp) (by simp [headerDelim])
    simpa [encodeGet, getOp, getWord] using h
  · have h := hword [116] (10 :: (key.bytes ++ crlf)) (by simp) (by simp [headerDelim])
    simpa [encodeGet, getOp, getWord] using h
  · show (strtok headerDelim ((13 :: 10 :: (key.bytes ++ crlf)).take m)).map Prod.fst = _ ↔ _
    rw [strtok_take_cons headerDelim_cr, strtok_take_cons headerDelim_lf, Nat.sub_sub, hkey]
    simp
  · show (strtok headerDelim ((10 :: (key.bytes ++ crlf)).take m)).map Prod.fst = _ ↔ _
    rw [strtok_take_cons headerDelim_lf, hkey]
    simp
  · show (strtok headerDelim ((key.bytes ++ crlf).take (m - 0))).map Prod.fst = _ ↔ _
    rw [hkey]
    simp

theorem zero_not_mem_encodeGet (key : Str) : (0 : UInt8) ∉ encodeGet key := by
  simp [encodeGet, getOp, zero_not_mem_crlf, key.noNul]

/-- **Which pieces of a get message make its node.** -/
theorem nodeRead_get (key : Str) (erange : Bool) (pieces : List Nat) :
    (∃ s', NodeRead erange (.cut (encodeGet key) pieces) (Request.get key).node s') ↔
      PlainKey key ∧ GetArrives key pieces := by
  have hn := share_pos pieces (show 0 < 5 by decide)
  have hn₅ := share_le pieces 5
  have hm := share_pos pieces.tail (show 0 < keySizeMax by decide)
  have htoken := token_get key hn hn₅ hm
  have htake : (encodeGet key).take (share pieces 5) = getOp.take (share pieces 5) :=
    List.take_append_of_le_length hn₅
  have hrecv := recv_cut (encodeGet key) pieces 5
  rw [htake] at hrecv
  have hop : ∀ n < 6, 0 < n →
      getOp.take n ≠ [] ∧ Str.ofBytes (getOp.take n) ≠ Str.ofBytes setOp := by decide
  obtain ⟨hne, hget⟩ := hop _ (by omega) hn
  -- the bytes of the key are all there is to a get
  have hnul : (Str.ofBytes (((encodeGet key).drop (share pieces 5)).take
      (share pieces.tail keySizeMax))).bytes =
      ((encodeGet key).drop (share pieces 5)).take (share pieces.tail keySizeMax) :=
    Str.ofBytes_bytes_of_not_mem fun h =>
      zero_not_mem_encodeGet key (List.mem_of_mem_drop (List.mem_of_mem_take h))
  rw [GetArrives, ← htoken]
  refine ⟨?_, ?_⟩
  · rintro ⟨s', hnode⟩
    cases hnode with
    | set hrecvOp hset _ _ =>
        rw [hrecv, Prod.mk.injEq, Option.some.injEq] at hrecvOp
        exact absurd (hrecvOp.1 ▸ hset) hget
    | get hrecvOp _ _ hread =>
        rw [hrecv, Prod.mk.injEq, Option.some.injEq] at hrecvOp
        obtain ⟨recvHeader, token, hheader, hkey, hnode⟩ := hread
        rw [← hrecvOp.2, recv_cut, Prod.mk.injEq, Option.some.injEq] at hheader
        rw [← hheader.1, headerKey, hnul] at hkey
        have hsame : key = Str.ofBytes token := congrArg KvNode.key hnode
        have htokenNul : (0 : UInt8) ∉ token := by
          obtain ⟨⟨_, rest⟩, hstrtok, rfl⟩ := Option.map_eq_some_iff.mp hkey
          intro h
          have hmem := ((strtok_eq_some hstrtok).2 0 h).2
          exact zero_not_mem_encodeGet key (List.mem_of_mem_drop (List.mem_of_mem_take hmem))
        rw [hsame, Str.ofBytes_bytes_of_not_mem htokenNul, ← hsame]
        exact hkey
  · intro htok
    refine ⟨_, .get hrecv hne hget ⟨_, key.bytes, recv_cut _ _ _, ?_, ?_⟩⟩
    · rw [headerKey, hnul]
      exact htok
    · rw [Str.ofBytes_bytes]
      rfl

/-! ## From the set to the reply -/

/-- `handle_client` and `handle_hash` ask `get_node` for this key. -/
def AsksFor (c : Conn) (key : Str) : Prop :=
  ∃ item c₁ c₂, handleClient c = .ok (item, c₁) ∧ item.node.operFlg = 0 ∧
    item.keyCopied = true ∧ copyKey item (c₁.dropMallocs 1) = .ok (some key, c₂)

/-- A get that is queued asks for the key it has read. -/
theorem NodeRead.get_of_operFlg {erange : Bool} {s s' : Incoming} {node : KvNode}
    (h : NodeRead erange s node s') (hoper : node.operFlg = 0) :
    node = (Request.get node.key).node := by
  cases h with
  | set _ _ _ hread => exact absurd (hread.operFlg.symm.trans hoper) (by decide)
  | get _ _ _ hread =>
      obtain ⟨_, token, -, -, rfl⟩ := hread
      rfl

/-- The node of a set with this key, size and value. -/
def storedNode (key : Str) (userSize : UInt64) (value : Str) : KvNode :=
  createNode key userSize (Str.ofBytes (crlf ++ value.bytes)) 1

/-- The reply to a node is built, and the client's `recv` gets all of it. -/
def ReplyRead (node : KvNode) (heap : List UInt8) : Prop :=
  ∃ text, sendMessageFormat node heap = some text ∧ recvReply text = text

/-- The memory a get needs until it asks for its key. -/
def GetGranted (mallocs : Nat → Bool) : Prop :=
  Granted mallocs ∧ mallocs 3 = true ∧ mallocs 7 = true

theorem asksFor_iff {key : Str} {pieces : List Nat} {mallocs : Nat → Bool} {erange : Bool} :
    AsksFor ⟨.cut (encodeGet key) pieces, mallocs, erange, []⟩ key ↔
      PlainKey key ∧ GetArrives key pieces ∧ GetGranted mallocs := by
  have hnode := nodeRead_get key erange pieces
  refine ⟨?_, ?_⟩
  · rintro ⟨item, c₁, c₂, hhandle, hoper, hcopied, hcopy⟩
    obtain ⟨hread, hm, hitem, hc₁⟩ := handleClient_eq_ok.mp hhandle
    have hm₃ : item.keyCopied = mallocs 3 := congrArg WorkItem.keyCopied hitem
    obtain ⟨hkey, -⟩ := copyKey_eq_ok.mp hcopy
    rw [hc₁] at hkey
    by_cases hm₇ : mallocs 7 = true
    · have hsame : some item.node.key = some key := (if_pos hm₇).symm.trans hkey
      have hget := hread.get_of_operFlg hoper
      rw [Option.some.inj hsame] at hget
      obtain ⟨hplain, hlen⟩ := hnode.mp ⟨_, hget ▸ hread⟩
      exact ⟨hplain, hlen, hm, hm₃ ▸ hcopied, hm₇⟩
    · exact absurd ((if_neg hm₇).symm.trans hkey) (by simp)
  · rintro ⟨hplain, hlen, hm, hm₃, hm₇⟩
    obtain ⟨s', hread⟩ := hnode.mpr ⟨hplain, hlen⟩
    exact ⟨_, _, _, handleClient_of_read hread hm, rfl, hm₃, copyKey_eq_ok.mpr ⟨if_pos hm₇, rfl⟩⟩

theorem replyRead_iff {key : Str} {userSize : UInt64} {value : Str} {heap : List UInt8} :
    ReplyRead (storedNode key userSize value) heap ↔
      userSize.toNat < 10 ^ 13 ∧
        key.length + (Decimal.digits userSize.toNat).length + value.length ≤ 23 := by
  have hformat : sendMessageFormat (storedNode key userSize value) heap =
      if userSize.toNat < 10 ^ 13 then
        some (valueReply key userSize (Str.ofBytes (crlf ++ value.bytes)))
      else none := sendMessageFormat_eq rfl heap
  have hlength : (valueReply key userSize (Str.ofBytes (crlf ++ value.bytes))).length =
      16 + key.length + (Decimal.digits userSize.toNat).length + value.length := by
    rw [valueReply, bytes_crlf_value]
    simp only [valueText, endText, crlf, Str.length, List.length_append, List.length_cons,
      List.length_nil]
    omega
  unfold ReplyRead
  rw [hformat]
  by_cases hsmall : userSize.toNat < 10 ^ 13
  · rw [if_pos hsmall]
    refine ⟨?_, ?_⟩
    · rintro ⟨text, htext, hwhole⟩
      obtain rfl := Option.some.inj htext
      have hlen := congrArg List.length hwhole
      rw [recvReply, List.length_take] at hlen
      have hfits : (valueReply key userSize (Str.ofBytes (crlf ++ value.bytes))).length ≤ 39 :=
        min_eq_right_iff.mp hlen
      exact ⟨hsmall, by omega⟩
    · rintro ⟨-, hfits⟩
      refine ⟨_, rfl, List.take_of_length_le ?_⟩
      show _ ≤ 39
      omega
  · rw [if_neg hsmall]
    refine iff_of_false ?_ fun h => hsmall h.1
    rintro ⟨text, htext, -⟩
    exact absurd htext (by simp)

/-- **What can be fetched.** A get asks for its key and its reply is read whole if and
only if the key is a token that arrives in the `KEYSIZE` bytes, the key, the size and
the value have at most 23 characters between them, and the size at most thirteen
digits. In one piece a key arrives if it has at most `KEYSIZE` bytes. -/
theorem fetch_iff (key : Str) (userSize : UInt64) (value : Str) (pieces : List Nat)
    (mallocs : Nat → Bool) (erange : Bool) (heap : List UInt8) :
    AsksFor ⟨.cut (encodeGet key) pieces, mallocs, erange, []⟩ key ∧
        ReplyRead (storedNode key userSize value) heap ↔
      (PlainKey key ∧ GetArrives key pieces ∧ GetGranted mallocs) ∧
        userSize.toNat < 10 ^ 13 ∧
        key.length + (Decimal.digits userSize.toNat).length + value.length ≤ 23 :=
  and_congr asksFor_iff replyRead_iff

/-- `client set R 40 lsdghkjdsghboijfkngzdough` -/
def longSet : SetArgs where
  key := ⟨[82], by decide⟩
  valueSize := 40
  value := ⟨[108, 115, 100, 103, 104, 107, 106, 100, 115, 103, 104, 98, 111, 105, 106, 102, 107,
    110, 103, 122, 100, 111, 117, 103, 104], by decide⟩
  key_lt := by decide
  valueSize_ne := by decide
  value_le := by decide

theorem longSet_fits : longSet.FitsAt 28 where
  digits := by decide
  content := by
    have hdrop : longSet.header.drop 28 = [] := by decide
    rw [hdrop]
    exact List.prefix_rfl
  value_ne := by decide
  value_lt := by decide

/-- The 44 bytes of its reply do not fit the client's `recv`. -/
theorem longSet_not_fetched :
    ¬ ∀ r : SetArgs, r.FitsAt 28 → ∀ heap,
      AsksFor ⟨.cut (encodeGet r.key) [], fun _ => true, false, []⟩ r.key ∧
        ReplyRead r.node heap := by
  intro h
  have hread := replyRead_iff.mp (h longSet longSet_fits []).2
  exact absurd hread.2 (by decide)

end DistKv.Memcache
