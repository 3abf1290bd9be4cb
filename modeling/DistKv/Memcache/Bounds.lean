import DistKv.Memcache.ParseBody

/-!
# What `handle_client` writes, and where (`server_mt.c`)

The handler of `HandleClient` says what a request leaves behind. Here is what
it does to its four arrays on the way: every store with the size of the array,
every sum and conversion of a size, and the key that goes to `create_node`,
in the order of the source. The stores go on behind one that is out of bounds,
as the code does.

`op_header` has five bytes and `recv` may fill them all, so the terminating
zero of every complete operation is stored behind it: a set is never safe. The
set branch has faults of its own, which `setBranch_safe_iff` lists.
-/

namespace DistKv.Memcache

open CText

/-- The arrays of `handle_client`. -/
inductive CArray
  | opHeader
  | recvHeader
  | key
  | buffer
deriving DecidableEq

/-- What is to be checked of a run. -/
inductive Access
  /-- `count` bytes are stored from index `first` on, in an array of `size` bytes -/
  | store (array : CArray) (first : Int) (count size : Nat)
  /-- `a + b` is computed as a `size_t` -/
  | sizeSum (a b : Nat)
  /-- a `size_t` is passed as an `int` -/
  | asInt (n : Nat)
  /-- `a + b` is computed as an `int` -/
  | intSum (a b : Int)
  /-- `create_node` gets a key; `none` is NULL -/
  | createNode (key : Option Str)

/-- Inside the array, without a wrap or an overflow, and not NULL. -/
def Access.Ok : Access → Prop
  | .store _ first count size => 0 ≤ first ∧ first + count ≤ size
  | .sizeSum a b => a + b < 2 ^ 64
  | .asInt n => n < 2 ^ 31
  | .intSum a b => -2 ^ 31 ≤ a + b ∧ a + b < 2 ^ 31
  | .createNode key => key ≠ none

/-- Nothing to object to. -/
def AllOk (accesses : List Access) : Prop := ∀ a ∈ accesses, a.Ok

@[simp] theorem allOk_nil : AllOk [] := by simp [AllOk]

@[simp] theorem allOk_cons {a : Access} {rest : List Access} :
    AllOk (a :: rest) ↔ a.Ok ∧ AllOk rest := by
  simp [AllOk]

/-! ## The code -/

/-- `HEADERSIZE`. -/
abbrev headerSize : Nat := 40

/-- `parse_body` on a buffer of `size` bytes, for at most `fuel` turns of its loop;
`after` is what follows where it returns 0. -/
def bodyAccesses (size : Nat) (actualSize : Int) (after : List Access) :
    Nat → Incoming → Nat → List Access
  | 0, _, _ => []
  | fuel + 1, s, recvBytes =>
      .intSum actualSize 2 ::
        if (recvBytes : Int) < actualSize then
          match s.recv (actualSize + 2 - recvBytes).toNat with
          | (none, _) => []
          | (some bytes, s) =>
              .store .buffer recvBytes bytes.length size ::
                bodyAccesses size actualSize after fuel s (recvBytes + bytes.length)
        else if (recvBytes : Int) = actualSize + 2 then
          .store .buffer recvBytes 1 size :: after
        else []

/-- The key and the value of a set, once both arrays are there. -/
def valueAccesses (fuel : Nat) (s : Incoming) (sizes : Sizes) : List Access :=
  match s.recv sizes.keySize.toNat with
  | (none, _) => []
  | (some bytes, s) =>
      let keyBytes := toInt bytes.length
      .store .key 0 bytes.length (sizes.keySize + 2).toNat ::
        if keyBytes = -1 then []
        else
          .store .key keyBytes 1 (sizes.keySize + 2).toNat ::
          .asInt sizes.actualSize.toNat ::
          bodyAccesses (sizes.actualSize + 8).toNat (toInt sizes.actualSize.toNat)
            [.createNode (some (Str.ofBytes (bytes.take keyBytes.toNat)))] fuel s 0

/-- A set from its sizes on. -/
def sizesAccesses (fuel : Nat) (c : Conn) (sizes : Sizes) : List Access :=
  .sizeSum sizes.keySize.toNat 2 ::
    if c.mallocs 0 = false then []
    else
      .store .key 0 sizes.keySize.toNat (sizes.keySize + 2).toNat ::
      .sizeSum sizes.actualSize.toNat 8 ::
        if c.mallocs 1 = false then []
        else
          .store .buffer 0 (sizes.actualSize + 8).toNat (sizes.actualSize + 8).toNat ::
            valueAccesses fuel c.incoming sizes

/-- A header that was read into `recv_header`, and the zero behind it. -/
def headerAccesses (recvHeader : List UInt8) (rest : List Access) : List Access :=
  .store .recvHeader 0 recvHeader.length headerSize ::
    .store .recvHeader recvHeader.length 1 headerSize :: rest

/-- The branch for a set. -/
def setAccesses (fuel : Nat) (c : Conn) : List Access :=
  match c.incoming.recv 28 with
  | (none, _) => []
  | (some recvHeader, s) =>
      headerAccesses recvHeader <|
        match (parseHeaderSet c.erange (Str.ofBytes recvHeader)).1 with
        | none => []
        | some sizes => sizesAccesses fuel { c with incoming := s } sizes

/-- `parse_header_get`: the copy of the token, and how many allocations it took. -/
def copiedKey (mallocs : Nat → Bool) (recvHeader : Str) : Option Str × Nat :=
  match headerKey recvHeader with
  | none => (none, 0)
  | some token => (if mallocs 0 then some (Str.ofBytes token) else none, 1)

/-- The branch for every other operation. A buffer that was not granted has no byte. -/
def getAccesses (c : Conn) : List Access :=
  match c.incoming.recv keySizeMax with
  | (none, _) => []
  | (some recvHeader, _) =>
      let copied := copiedKey c.mallocs (Str.ofBytes recvHeader)
      headerAccesses recvHeader
        [.store .buffer 0 1 (if c.mallocs copied.2 then 1 else 0), .createNode copied.1]

/-- The request behind its operation. -/
def requestAccesses (fuel : Nat) (opHeader : List UInt8) (c : Conn) : List Access :=
  if Str.ofBytes opHeader = Str.ofBytes setOp then setAccesses fuel c else getAccesses c

/-- `handle_client`. -/
def clientAccesses (fuel : Nat) (c : Conn) : List Access :=
  match c.incoming.recv 5 with
  | (none, _) => []
  | (some opHeader, s) =>
      .store .opHeader 0 opHeader.length 5 ::
        if opHeader = [] then []
        else
          .store .opHeader opHeader.length 1 5 ::
            requestAccesses fuel opHeader { c with incoming := s }

/-- Nothing `handle_client` does on this connection is out of bounds. -/
def Safe (c : Conn) : Prop := ∀ fuel, AllOk (clientAccesses fuel c)

/-- An array that is filled from its start. -/
theorem store_ok {array : CArray} {count size : Nat} (h : count ≤ size) :
    (Access.store array 0 count size).Ok := ⟨by omega, by omega⟩

/-- A sum of sizes that does not wrap. -/
theorem toNat_add_of_lt {a b : UInt64} (h : a.toNat + b.toNat < 2 ^ 64) :
    (a + b).toNat = a.toNat + b.toNat := by
  rw [UInt64.toNat_add]
  exact Nat.mod_eq_of_lt h

/-! ## The value -/

/-- The loop stores no byte behind the two that follow the value. -/
theorem bodyAccesses_ok {n size : Nat} {after : List Access} (hint : n + 2 < 2 ^ 31)
    (hsize : n + 8 ≤ size) (hafter : AllOk after) (fuel : Nat) :
    ∀ (s : Incoming) (recvBytes : Nat), recvBytes ≤ n + 2 →
      AllOk (bodyAccesses size n after fuel s recvBytes) := by
  induction fuel with
  | zero => exact fun _ _ _ => allOk_nil
  | succ fuel ih =>
      intro s recvBytes hle
      unfold bodyAccesses
      refine allOk_cons.mpr ⟨⟨by omega, by omega⟩, ?_⟩
      by_cases hmore : (recvBytes : Int) < n
      · rw [if_pos hmore]
        rcases hrecv : s.recv ((n : Int) + 2 - recvBytes).toNat with ⟨_ | bytes, s'⟩
        · exact allOk_nil
        · have hlen := length_le_of_recv hrecv
          exact allOk_cons.mpr ⟨⟨by omega, by omega⟩, ih s' _ (by omega)⟩
      · rw [if_neg hmore]
        by_cases hall : (recvBytes : Int) = n + 2
        · rw [if_pos hall]
          exact allOk_cons.mpr ⟨⟨by omega, by omega⟩, hafter⟩
        · rw [if_neg hall]
          exact allOk_nil

/-- `actual_size+2` is computed in any case. -/
theorem lt_of_bodyAccesses {size : Nat} {actualSize : Int} {after : List Access} {s : Incoming}
    {recvBytes : Nat} (h : AllOk (bodyAccesses size actualSize after 1 s recvBytes)) :
    actualSize + 2 < 2 ^ 31 := by
  unfold bodyAccesses at h
  exact (allOk_cons.mp h).1.2

/-- What a set needs once both arrays are there: unless `recv` fails, or returns
a number that is -1 as an `int`, the number of bytes of the key is no negative
`int` and `actual_size+2` is an `int`. -/
def ValueInBounds (s : Incoming) (sizes : Sizes) : Prop :=
  ∀ bytes s', s.recv sizes.keySize.toNat = (some bytes, s') → toInt bytes.length ≠ -1 →
    0 ≤ toInt bytes.length ∧ sizes.actualSize.toNat + 2 < 2 ^ 31

theorem valueAccesses_ok_iff {s : Incoming} {sizes : Sizes}
    (hkey : sizes.keySize.toNat + 2 < 2 ^ 64) (hactual : sizes.actualSize.toNat + 8 < 2 ^ 64) :
    (∀ fuel, AllOk (valueAccesses fuel s sizes)) ↔ ValueInBounds s sizes := by
  have hkeyRoom : (sizes.keySize + 2).toNat = sizes.keySize.toNat + 2 := toNat_add_of_lt hkey
  have hroom : (sizes.actualSize + 8).toNat = sizes.actualSize.toNat + 8 :=
    toNat_add_of_lt hactual
  unfold valueAccesses ValueInBounds
  rcases hrecv : s.recv sizes.keySize.toNat with ⟨_ | bytes, s'⟩
  · simp
  have hlen := length_le_of_recv hrecv
  have htoInt := toInt_le bytes.length
  simp only [hkeyRoom, hroom]
  constructor
  · rintro h bytes' s'' heq hne
    obtain ⟨rfl, rfl⟩ : bytes = bytes' ∧ s' = s'' := by simpa using heq
    have hrest := (allOk_cons.mp (h 1)).2
    rw [if_neg hne] at hrest
    obtain ⟨⟨hpos, -⟩, hrest⟩ := allOk_cons.mp hrest
    obtain ⟨hsmall, hrest⟩ := allOk_cons.mp hrest
    have hint := lt_of_bodyAccesses hrest
    rw [toInt_of_lt hsmall] at hint
    exact ⟨hpos, by omega⟩
  · intro h fuel
    refine allOk_cons.mpr ⟨store_ok (by omega), ?_⟩
    by_cases hne : toInt bytes.length = -1
    · rw [if_pos hne]
      exact allOk_nil
    · obtain ⟨hpos, hint⟩ := h bytes s' rfl hne
      have hsmall : sizes.actualSize.toNat < 2 ^ 31 := by omega
      rw [if_neg hne, toInt_of_lt hsmall]
      refine allOk_cons.mpr ⟨⟨hpos, by omega⟩, allOk_cons.mpr ⟨hsmall, ?_⟩⟩
      refine bodyAccesses_ok hint (Nat.le_refl _) ?_ fuel s' 0 (Nat.zero_le _)
      exact allOk_cons.mpr ⟨Option.some_ne_none _, allOk_nil⟩

/-! ## The two branches -/

/-- The header arrays are large enough. -/
theorem headerAccesses_ok_iff {s s' : Incoming} {len : Nat} {recvHeader : List UInt8}
    {rest : List Access} (hlen : len < headerSize) (hrecv : s.recv len = (some recvHeader, s')) :
    AllOk (headerAccesses recvHeader rest) ↔ AllOk rest := by
  have hle := length_le_of_recv hrecv
  unfold headerAccesses
  rw [allOk_cons, allOk_cons]
  refine ⟨fun h => h.2.2, fun h => ⟨⟨by omega, by omega⟩, ⟨by omega, by omega⟩, h⟩⟩

/-- What the sizes of a header have to be: `key_size+2` does not wrap, nor, where
the key was granted, `actual_size+8`. -/
def SizesInBounds (c : Conn) (sizes : Sizes) : Prop :=
  sizes.keySize.toNat + 2 < 2 ^ 64 ∧
    (c.mallocs 0 = true → sizes.actualSize.toNat + 8 < 2 ^ 64 ∧
      (c.mallocs 1 = true → ValueInBounds c.incoming sizes))

theorem sizesAccesses_ok_iff {c : Conn} {sizes : Sizes} :
    (∀ fuel, AllOk (sizesAccesses fuel c sizes)) ↔ SizesInBounds c sizes := by
  unfold SizesInBounds sizesAccesses
  simp only [allOk_cons, forall_and, forall_const]
  refine and_congr_right fun hkey => ?_
  have hkey : sizes.keySize.toNat + 2 < 2 ^ 64 := hkey
  have hkeyRoom : (sizes.keySize + 2).toNat = sizes.keySize.toNat + 2 := toNat_add_of_lt hkey
  cases c.mallocs 0 with
  | false => simp
  | true =>
      simp only [Bool.true_eq_false, if_false, allOk_cons, forall_and, forall_const]
      rw [and_iff_right (store_ok (by omega))]
      refine and_congr_right fun hactual => ?_
      cases c.mallocs 1 with
      | false => simp
      | true =>
          simp only [Bool.true_eq_false, if_false, allOk_cons, forall_and, forall_const]
          rw [and_iff_right (store_ok (Nat.le_refl _)), valueAccesses_ok_iff hkey hactual]

/-- When the set branch is safe: `recv` fails, the header is refused, or its sizes
are in bounds. -/
def SetInBounds (c : Conn) : Prop :=
  ∀ recvHeader s sizes, c.incoming.recv 28 = (some recvHeader, s) →
    (parseHeaderSet c.erange (Str.ofBytes recvHeader)).1 = some sizes →
    SizesInBounds { c with incoming := s } sizes

/-- **The set branch.** A peer breaks it with a key size from 2^64 - 2 on, which wraps,
a value size from 2^31 - 2 on, with which `parse_body` cannot compute, or a key whose
number of bytes is a negative `int`. -/
theorem setBranch_safe_iff {c : Conn} :
    (∀ fuel, AllOk (setAccesses fuel c)) ↔ SetInBounds c := by
  unfold SetInBounds setAccesses
  rcases hrecv : c.incoming.recv 28 with ⟨_ | recvHeader, s⟩
  · simp
  simp only [headerAccesses_ok_iff (show 28 < headerSize by decide) hrecv, Prod.mk.injEq,
    Option.some.injEq]
  rcases hparse : (parseHeaderSet c.erange (Str.ofBytes recvHeader)).1 with _ | sizes
  · refine iff_of_true (fun _ => allOk_nil) ?_
    rintro _ _ sizes ⟨rfl, -⟩ hsizes
    exact absurd (hparse.symm.trans hsizes) (by simp)
  · rw [sizesAccesses_ok_iff]
    constructor
    · rintro h _ _ sizes' ⟨rfl, rfl⟩ hsizes
      obtain rfl := Option.some.inj (hparse.symm.trans hsizes)
      exact h
    · exact fun h => h recvHeader s sizes ⟨rfl, rfl⟩ hparse

/-- When the other branch is safe: `recv` fails, or the header has a byte of a key
in it and both allocations, which nobody checks, are granted. -/
def GetInBounds (c : Conn) : Prop :=
  ∀ recvHeader s, c.incoming.recv keySizeMax = (some recvHeader, s) →
    (∃ b ∈ (Str.ofBytes recvHeader).bytes, headerDelim b = false) ∧
      c.mallocs 0 = true ∧ c.mallocs 1 = true

theorem copiedKey_ok_iff {mallocs : Nat → Bool} {recvHeader : Str} :
    AllOk [.store .buffer 0 1 (if mallocs (copiedKey mallocs recvHeader).2 then 1 else 0),
        .createNode (copiedKey mallocs recvHeader).1] ↔
      (∃ b ∈ recvHeader.bytes, headerDelim b = false) ∧ mallocs 0 = true ∧ mallocs 1 = true := by
  have hkey : headerKey recvHeader = none ↔ ¬ ∃ b ∈ recvHeader.bytes, headerDelim b = false := by
    rw [headerKey, Option.map_eq_none_iff, strtok_eq_none_iff]
    simp
  unfold copiedKey
  rcases htoken : headerKey recvHeader with _ | token
  · simp [Access.Ok, hkey.mp htoken]
  · have hbyte : ∃ b ∈ recvHeader.bytes, headerDelim b = false := by
      by_contra hno
      rw [hkey.mpr hno] at htoken
      exact absurd htoken (by simp)
    cases mallocs 0 with
    | false => simp [Access.Ok]
    | true =>
        cases mallocs 1 with
        | false => simp [Access.Ok]
        | true => simp [Access.Ok, hbyte]

theorem getBranch_safe_iff {c : Conn} : AllOk (getAccesses c) ↔ GetInBounds c := by
  unfold GetInBounds getAccesses
  rcases hrecv : c.incoming.recv keySizeMax with ⟨_ | recvHeader, s⟩
  · simp
  simp only [headerAccesses_ok_iff (show keySizeMax < headerSize by decide) hrecv,
    copiedKey_ok_iff, Prod.mk.injEq, Option.some.injEq]
  constructor
  · rintro h _ _ ⟨rfl, rfl⟩
    exact h
  · exact fun h => h recvHeader s ⟨rfl, rfl⟩

/-! ## The whole request -/

/-- When a request is safe behind its operation. -/
def RequestInBounds (opHeader : List UInt8) (c : Conn) : Prop :=
  if Str.ofBytes opHeader = Str.ofBytes setOp then SetInBounds c else GetInBounds c

theorem request_safe_iff {opHeader : List UInt8} {c : Conn} :
    (∀ fuel, AllOk (requestAccesses fuel opHeader c)) ↔ RequestInBounds opHeader c := by
  unfold RequestInBounds requestAccesses
  by_cases hset : Str.ofBytes opHeader = Str.ofBytes setOp
  · simp only [if_pos hset]
    exact setBranch_safe_iff
  · simp only [if_neg hset, forall_const]
    exact getBranch_safe_iff

/-- A set has an operation of five bytes. -/
theorem length_of_setOp {opHeader : List UInt8} (h : Str.ofBytes opHeader = Str.ofBytes setOp) :
    5 ≤ opHeader.length := by
  have hle := Str.length_ofBytes_le opHeader
  rw [h] at hle
  exact hle

/-- `op_header` has room for the zero behind four bytes. -/
theorem clientAccesses_ok_iff {c : Conn} :
    Safe c ↔ ∀ opHeader s, c.incoming.recv 5 = (some opHeader, s) → opHeader ≠ [] →
      opHeader.length < 5 ∧ RequestInBounds opHeader { c with incoming := s } := by
  unfold Safe clientAccesses
  rcases hrecv : c.incoming.recv 5 with ⟨_ | opHeader, s⟩
  · simp
  have hlen := length_le_of_recv hrecv
  constructor
  · rintro h _ _ ⟨⟩ hne
    have hrest := fun fuel => (allOk_cons.mp (h fuel)).2
    simp only [if_neg hne, allOk_cons, forall_and, forall_const] at hrest
    exact ⟨by have := hrest.1.2; omega, request_safe_iff.mp hrest.2⟩
  · intro h fuel
    refine allOk_cons.mpr ⟨store_ok hlen, ?_⟩
    by_cases hne : opHeader = []
    · rw [if_pos hne]
      exact allOk_nil
    · rw [if_neg hne]
      obtain ⟨hroom, hrest⟩ := h opHeader s rfl hne
      exact allOk_cons.mpr ⟨⟨by omega, by omega⟩, request_safe_iff.mpr hrest fuel⟩

/-! ## Where the handler crashes -/

section Crashes

variable {c : Conn}

theorem giveUp_ne_crashed {α : Type} : (giveUp : Handler α) c ≠ .error .crashed := by
  simp [giveUp]

theorem recvOrReturn_ne_crashed {len : Nat} : recvOrReturn len c ≠ .error .crashed := by
  unfold recvOrReturn
  rcases c.incoming.recv len with ⟨_ | bytes, s⟩
  · exact giveUp_ne_crashed
  · simp

theorem parseOrReturn_ne_crashed {recvHeader : List UInt8} :
    parseOrReturn recvHeader c ≠ .error .crashed := by
  unfold parseOrReturn
  rcases parseHeaderSet c.erange (Str.ofBytes recvHeader) with ⟨_ | sizes, erange⟩
  · exact giveUp_ne_crashed
  · simp

theorem mallocOrReturn_ne_crashed : mallocOrReturn c ≠ .error .crashed := by
  unfold mallocOrReturn
  rw [ne_eq, bind_eq_error]
  rintro (hm | ⟨b, c', -, h⟩)
  · simp [Conn.malloc] at hm
  · cases b with
    | false => exact giveUp_ne_crashed h
    | true => exact pure_ne_error h

theorem mallocOrCrash_eq_crashed (h : mallocOrCrash c = .error .crashed) : c.mallocs 0 = false := by
  unfold mallocOrCrash at h
  rcases bind_eq_error.mp h with hm | ⟨b, c', hm, h⟩
  · simp [Conn.malloc] at hm
  · cases b with
    | false => exact (malloc_eq_ok.mp hm).1
    | true => exact absurd h pure_ne_error

theorem mallocKey_eq_crashed {keySize : UInt64} (h : mallocKey keySize c = .error .crashed) :
    2 ^ 64 ≤ keySize.toNat + 2 := by
  unfold mallocKey at h
  rcases bind_eq_error.mp h with hm | ⟨_, c', -, h⟩
  · exact absurd hm mallocOrReturn_ne_crashed
  · by_contra hwrap
    rw [if_neg hwrap] at h
    exact pure_ne_error h

theorem recvKey_eq_crashed {keySize : UInt64} (h : recvKey keySize c = .error .crashed) :
    ∃ bytes s, c.incoming.recv keySize.toNat = (some bytes, s) ∧ toInt bytes.length ≠ -1 ∧
      toInt bytes.length < 0 := by
  unfold recvKey at h
  rcases bind_eq_error.mp h with hm | ⟨bytes, c', hrecv, h⟩
  · exact absurd hm recvOrReturn_ne_crashed
  · refine ⟨bytes, c'.incoming, (recvOrReturn_eq_ok.mp hrecv).1, ?_⟩
    by_cases hne : toInt bytes.length = -1
    · exact absurd (by simpa [hne] using h) giveUp_ne_crashed
    · by_contra hpos
      have hnot : ¬ toInt bytes.length < 0 := fun hneg => hpos ⟨hne, hneg⟩
      simp only [hne, hnot, if_false] at h
      exact pure_ne_error h

theorem parseBodyOrReturn_eq_crashed {actualSize : UInt64}
    (h : parseBodyOrReturn actualSize c = .error .crashed) :
    2 ^ 31 ≤ actualSize.toNat + 2 := by
  unfold parseBodyOrReturn at h
  rcases bind_eq_error.mp h with hbody | ⟨body, c', -, h⟩
  · unfold parseBody at hbody
    by_contra hsmall
    have hint := toInt_le actualSize.toNat
    have hnot : ¬ 2 ^ 31 ≤ toInt actualSize.toNat + 2 := by omega
    rw [if_neg hnot] at hbody
    rcases hloop : bodyLoop (toInt actualSize.toNat) (c.incoming.recvs.length + 2) c.incoming []
      with _ | ⟨_ | buffer, s⟩ <;> rw [hloop] at hbody
    · simp at hbody
    · simp at hbody
    · simp only at hbody
      split at hbody
      · simp at hbody
      · simp at hbody
  · cases body with
    | none => exact absurd h giveUp_ne_crashed
    | some buffer => exact absurd h pure_ne_error

theorem enqueueNode_eq_crashed {key value : Str} {userSize : UInt64} {operFlg : UInt8}
    (h : enqueueNode key userSize value operFlg c = .error .crashed) : c.mallocs 0 = false := by
  unfold enqueueNode at h
  rcases bind_eq_error.mp h with hnode | ⟨_, c₁, -, h⟩
  · exact mallocOrCrash_eq_crashed hnode
  rcases bind_eq_error.mp h with hkey | ⟨_, c₂, -, h⟩
  · simp [Conn.malloc] at hkey
  rcases bind_eq_error.mp h with hvalue | ⟨_, c₃, -, h⟩
  · simp [Conn.malloc] at hvalue
  rcases bind_eq_error.mp h with hcell | ⟨cell, c₄, -, h⟩
  · simp [Conn.malloc] at hcell
  · cases cell with
    | false => simp at h
    | true => exact absurd h pure_ne_error

/-- In bounds, only the allocation of the node, which `create_node` checks with an
`exit`, ends the process: for a set ... -/
theorem handleSet_ne_crashed (hb : SetInBounds c) (hnode : c.mallocs 2 = true) :
    handleSet c ≠ .error .crashed := by
  intro h
  unfold handleSet at h
  rcases bind_eq_error.mp h with hheader | ⟨recvHeader, c₁, hheader, h₁⟩
  · exact recvOrReturn_ne_crashed hheader
  obtain ⟨hrecv, hc₁⟩ := recvOrReturn_eq_ok.mp hheader
  rcases bind_eq_error.mp h₁ with hparse | ⟨sizes, c₂, hparse, h₂⟩
  · exact parseOrReturn_ne_crashed hparse
  obtain ⟨herange, hnames, hc₂⟩ := parseOrReturn_eq_ok.mp hparse
  rw [hc₂] at h₂
  have hsizes := congrArg Prod.fst (parseHeaderSet_eq_some.mpr ⟨herange, rfl, hnames⟩)
  rw [hc₁] at hsizes
  obtain ⟨hkeySize, hrest⟩ := hb recvHeader c₁.incoming sizes hrecv hsizes
  rcases bind_eq_error.mp h₂ with hkey | ⟨_, c₃, hkey, h₃⟩
  · exact absurd (mallocKey_eq_crashed hkey) (Nat.not_le.mpr hkeySize)
  obtain ⟨hm₀, -, rfl⟩ := mallocKey_eq_ok.mp hkey
  rcases bind_eq_error.mp h₃ with hbuffer | ⟨_, c₄, hbuffer, h₄⟩
  · exact mallocOrReturn_ne_crashed hbuffer
  obtain ⟨hm₁, rfl⟩ := mallocOrReturn_eq_ok.mp hbuffer
  rw [hc₁] at hm₀ hm₁
  have hvalue := (hrest hm₀).2 hm₁
  rcases bind_eq_error.mp h₄ with hread | ⟨key, c₅, hread, h₅⟩
  · obtain ⟨bytes, s, hbytes, hne, hneg⟩ := recvKey_eq_crashed hread
    have := (hvalue bytes s hbytes hne).1
    omega
  obtain ⟨⟨bytes, hbytes, hpos, -⟩, hc₅⟩ := recvKey_eq_ok.mp hread
  rcases bind_eq_error.mp h₅ with hbody | ⟨value, c₆, hbody, h₆⟩
  · have hint := (hvalue bytes c₅.incoming hbytes (by omega)).2
    exact absurd (parseBodyOrReturn_eq_crashed hbody) (by omega)
  obtain ⟨-, hc₆⟩ := parseBodyOrReturn_eq_ok.mp hbody
  have hm₂ := enqueueNode_eq_crashed h₆
  rw [hc₆, hc₅, hc₁] at hm₂
  exact absurd (hnode.symm.trans hm₂) (by simp)

theorem parseHeaderGet_ne_crashed {recvHeader : List UInt8}
    (hbyte : ∃ b ∈ (Str.ofBytes recvHeader).bytes, headerDelim b = false)
    (hm : c.mallocs 0 = true) : parseHeaderGet recvHeader c ≠ .error .crashed := by
  intro h
  unfold parseHeaderGet at h
  rcases htoken : headerKey (Str.ofBytes recvHeader) with _ | token <;> rw [htoken] at h
  · obtain ⟨b, hmem, hdelim⟩ := hbyte
    rw [headerKey, Option.map_eq_none_iff, strtok_eq_none_iff] at htoken
    exact absurd (htoken b hmem) (by simp [hdelim])
  · rcases bind_eq_error.mp h with hcopy | ⟨_, _, -, hpure⟩
    · exact absurd (hm.symm.trans (mallocOrCrash_eq_crashed hcopy)) (by simp)
    · exact pure_ne_error hpure

/-- ... and for every other operation. -/
theorem handleGet_ne_crashed (hb : GetInBounds c) (hnode : c.mallocs 2 = true) :
    handleGet c ≠ .error .crashed := by
  intro h
  unfold handleGet at h
  rcases bind_eq_error.mp h with hheader | ⟨recvHeader, c₁, hheader, h₁⟩
  · exact recvOrReturn_ne_crashed hheader
  obtain ⟨hrecv, hc₁⟩ := recvOrReturn_eq_ok.mp hheader
  obtain ⟨hbyte, hm₀, hm₁⟩ := hb recvHeader c₁.incoming hrecv
  rcases bind_eq_error.mp h₁ with hkey | ⟨key, c₂, hkey, h₂⟩
  · exact parseHeaderGet_ne_crashed hbyte (by rw [hc₁]; exact hm₀) hkey
  obtain ⟨token, -, -, -, rfl⟩ := parseHeaderGet_eq_ok.mp hkey
  rcases bind_eq_error.mp h₂ with hbuffer | ⟨_, c₃, hbuffer, h₃⟩
  · have hnot := mallocOrCrash_eq_crashed hbuffer
    rw [hc₁] at hnot
    exact absurd (hm₁.symm.trans hnot) (by simp)
  obtain ⟨-, rfl⟩ := mallocOrCrash_eq_ok.mp hbuffer
  have hm₂ := enqueueNode_eq_crashed h₃
  rw [hc₁] at hm₂
  exact absurd (hnode.symm.trans hm₂) (by simp)

/-- **A request that crashes the handler is not safe**, unless it was `create_node`
that found no memory for the node. -/
theorem not_safe_of_crashed (hnode : c.mallocs 2 = true) (h : handleClient c = .error .crashed) :
    ¬ Safe c := by
  intro hsafe
  unfold handleClient at h
  rcases bind_eq_error.mp h with hop | ⟨opHeader, c₁, hop, h₁⟩
  · exact recvOrReturn_ne_crashed hop
  obtain ⟨hrecv, hc₁⟩ := recvOrReturn_eq_ok.mp hop
  by_cases hne : opHeader = []
  · rw [if_pos hne] at h₁
    exact giveUp_ne_crashed h₁
  have hb := (clientAccesses_ok_iff.mp hsafe opHeader c₁.incoming hrecv hne).2
  rw [if_neg hne, hc₁] at h₁
  unfold RequestInBounds at hb
  by_cases hset : Str.ofBytes opHeader = Str.ofBytes setOp
  · rw [if_pos hset] at h₁ hb
    exact handleSet_ne_crashed hb hnode h₁
  · rw [if_neg hset] at h₁ hb
    exact handleGet_ne_crashed hb hnode h₁

end Crashes

/-- **`handle_client` stays in bounds if and only if** the operation fails to arrive,
or arrives in at most four bytes and the header of the get it then is can be
read safely. No set is safe. -/
theorem handle_client_safe_iff (c : Conn) :
    Safe c ↔ ∀ opHeader s, c.incoming.recv 5 = (some opHeader, s) → opHeader ≠ [] →
      opHeader.length < 5 ∧ GetInBounds { c with incoming := s } := by
  rw [clientAccesses_ok_iff]
  refine forall_congr' fun opHeader => forall_congr' fun s => imp_congr_right fun _ =>
    imp_congr_right fun _ => and_congr_right fun hlen => ?_
  unfold RequestInBounds
  rw [if_neg fun hset => by have := length_of_setOp hset; omega]

/-- A get of the key `A` that arrives at once. -/
theorem whole_get_unsafe : ¬ Safe (quietConn ⟨[103, 101, 116, 13, 10, 65, 13, 10], []⟩) := by
  intro h
  have hop := (clientAccesses_ok_iff.mp h [103, 101, 116, 13, 10] _ rfl (by simp)).1
  exact absurd hop (by decide)

end DistKv.Memcache
