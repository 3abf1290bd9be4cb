import DistKv.Lib.CStdlib
import DistKv.Memcache.Server
import Mathlib.Tactic.IntervalCases

/-!
# Reading a request (`server_mt.c`)

`handle_client` reads the operation, the header and the key of a request with one
`recv` each, and the value of a set with the loop of `parse_body`. What it reads
becomes a node on the queue of the hash workers.

A connection carries what is not decided by the code: the bytes of the peer, the
results of the calls to `recv` and `malloc`, and the `errno` the worker starts
with. The byte after `op_header` that a full operation overwrites is not used by
anyone else here.
-/

namespace DistKv.Memcache

open CText

/-! ## The connection -/

/-- What the peer sends before it closes, and the results of the calls to `recv`:
`none` is -1, and `some k` gives at most `k + 1` bytes. After the ones listed each
call gets all it asks for that is there. -/
structure Incoming where
  input : List UInt8
  recvs : List (Option Nat)

/-- `recv(client_fd, buf, len, 0)`: -1, or the bytes it got. At the end there are none. -/
def Incoming.recv (s : Incoming) (len : Nat) : Option (List UInt8) × Incoming :=
  match s.recvs with
  | [] => (some (s.input.take len), ⟨s.input.drop len, []⟩)
  | none :: rest => (none, ⟨s.input, rest⟩)
  | some k :: rest =>
      (some (s.input.take (min (k + 1) len)), ⟨s.input.drop (min (k + 1) len), rest⟩)

/-- What happens to the descriptor. -/
inductive FdEvent
  | sent (text : List UInt8)
  | closed
deriving DecidableEq

/-- `mallocs i` tells if the `i`-th allocation from here on finds memory, and
`erange` if `errno` is `ERANGE`. -/
structure Conn where
  incoming : Incoming
  mallocs : Nat → Bool
  erange : Bool
  events : List FdEvent

namespace Conn

def send (c : Conn) (text : List UInt8) : Conn := { c with events := c.events ++ [.sent text] }

def close (c : Conn) : Conn := { c with events := c.events ++ [.closed] }

/-- The connection after `n` allocations. -/
def dropMallocs (c : Conn) (n : Nat) : Conn := { c with mallocs := fun i => c.mallocs (i + n) }

end Conn

/-- How `handle_client` ends without a node on the queue. -/
inductive Stop
  /-- it returns -/
  | returned (c : Conn)
  /-- it calls `recv` for ever -/
  | looping
  /-- the process ends, or writes where it may not -/
  | crashed

abbrev Handler := StateT Conn (Except Stop)

/-- `"Error\r\n"` -/
def ackN : List UInt8 := [69, 114, 114, 111, 114, 13, 10]

/-- `"set\r\n"` -/
def setOp : List UInt8 := [115, 101, 116, 13, 10]

/-- `send(client_fd, ack_n, strlen(ack_n), 0); return;` -/
def giveUp {α : Type} : Handler α := fun c => .error (.returned (c.send ackN))

def crash {α : Type} : Handler α := fun _ => .error .crashed

/-! ## `parse_header_set` and `parse_header_get` -/

/-- `HEADER_DELIM`. -/
def headerDelim (c : UInt8) : Bool := c = 13 || c = 10

/-- `value_size`, `actual_size` and `key_size`. -/
structure Sizes where
  valueSize : UInt64
  actualSize : UInt64
  keySize : UInt64
deriving DecidableEq

/-- What `parse_header_set` leaves: its status, the three sizes, and whether `errno`
is `ERANGE`. -/
structure HeaderParse where
  status : Int
  sizes : Sizes
  erange : Bool
deriving DecidableEq

/-- What the caller sees of it. -/
def HeaderParse.result (p : HeaderParse) : Int × Sizes := (p.status, p.sizes)

/-- `parse_header_set` with its pointers, for the sizes they point to. The code looks at
`errno` after the first number and after the third. -/
def parseHeaderSetInto (erange : Bool) (sizes : Sizes) (recvHeader : Str) : HeaderParse :=
  match strtok headerDelim recvHeader.bytes with
  | none => ⟨-1, sizes, erange⟩
  | some (first, save) =>
      let sizes := { sizes with valueSize := strtoul first }
      let erange := erange || decide (OutOfRange first)
      if erange then ⟨-1, sizes, erange⟩
      else
        match strtok headerDelim save with
        | none => ⟨-1, sizes, erange⟩
        | some (second, save) =>
            let sizes := { sizes with actualSize := strtoul second }
            let erange := erange || decide (OutOfRange second)
            match strtok headerDelim save with
            | none => ⟨-1, sizes, erange⟩
            | some (third, _) =>
                let sizes := { sizes with keySize := strtoul third }
                let erange := erange || decide (OutOfRange third)
                if erange then ⟨-1, sizes, erange⟩ else ⟨0, sizes, erange⟩

/-- `parse_header_set`: the sizes if its status is 0, and whether `errno` is `ERANGE` now. It
has set all three of them then, whatever they were. -/
def parseHeaderSet (erange : Bool) (recvHeader : Str) : Option Sizes × Bool :=
  let p := parseHeaderSetInto erange ⟨0, 0, 0⟩ recvHeader
  (if p.status = 0 then some p.sizes else none, p.erange)

/-- The token `parse_header_get` copies. -/
def headerKey (recvHeader : Str) : Option (List UInt8) :=
  (strtok headerDelim recvHeader.bytes).map Prod.fst

/-! ## `parse_body` -/

/-- The value of a `size_t` as an `int`. -/
def toInt (n : Nat) : Int := ((n : Int) + 2 ^ 31) % 2 ^ 32 - 2 ^ 31

theorem toInt_of_lt {n : Nat} (h : n < 2 ^ 31) : toInt n = n := by
  unfold toInt
  omega

theorem toInt_le (n : Nat) : toInt n ≤ n := by
  unfold toInt
  omega

/-- The loop of `parse_body`, with the bytes in the buffer; no result after `fuel` calls. -/
def bodyLoop (actualSize : Int) :
    Nat → Incoming → List UInt8 → Option (Option (List UInt8) × Incoming)
  | 0, _, _ => none
  | fuel + 1, s, buffer =>
      if (buffer.length : Int) < actualSize then
        match s.recv (actualSize + 2 - buffer.length).toNat with
        | (none, s) => some (none, s)
        | (some bytes, s) => bodyLoop actualSize fuel s (buffer ++ bytes)
      else some (some buffer, s)

/-- `parse_body`: the buffer, or no buffer for -1. -/
def parseBody (actualSize : Int) : Handler (Option (List UInt8)) := fun c =>
  -- `actual_size+2` is an `int`
  if 2 ^ 31 ≤ actualSize + 2 then .error .crashed
  else
    match bodyLoop actualSize (c.incoming.recvs.length + 2) c.incoming [] with
    | none => .error .looping
    | some (none, s) => .ok (none, { c with incoming := s })
    | some (some buffer, s) =>
        if (buffer.length : Int) = actualSize + 2 then .ok (some buffer, { c with incoming := s })
        else .ok (none, { c with incoming := s }.close)

/-! ## `handle_client` -/

/-- A `recv` that returns -1 ends the request. -/
def recvOrReturn (len : Nat) : Handler (List UInt8) := fun c =>
  match c.incoming.recv len with
  | (none, s) => giveUp { c with incoming := s }
  | (some bytes, s) => .ok (bytes, { c with incoming := s })

/-- The result of an allocation. -/
def Conn.malloc : Handler Bool := fun c => .ok (c.mallocs 0, c.dropMallocs 1)

/-- `if (!p) { send(...); return; }` -/
def mallocOrReturn : Handler Unit := do
  if ← Conn.malloc then pure () else giveUp

/-- An allocation whose result is used without a check, or with an `exit(1)`. -/
def mallocOrCrash : Handler Unit := do
  if ← Conn.malloc then pure () else crash

def parseOrReturn (recvHeader : List UInt8) : Handler Sizes := fun c =>
  match parseHeaderSet c.erange (Str.ofBytes recvHeader) with
  | (none, erange) => giveUp { c with erange := erange }
  | (some sizes, erange) => .ok (sizes, { c with erange := erange })

/-- `key = malloc(key_size+2); memset(key, 0, key_size)`: where `key_size+2` wraps
around, `memset` leaves the allocation. -/
def mallocKey (keySize : UInt64) : Handler Unit := do
  mallocOrReturn
  if 2 ^ 64 ≤ keySize.toNat + 2 then crash else pure ()

/-- `int key_bytes = recv(client_fd, key, key_size, 0); key[key_bytes] = '\0'` -/
def recvKey (keySize : UInt64) : Handler Str := do
  let bytes ← recvOrReturn keySize.toNat
  let keyBytes := toInt bytes.length
  if keyBytes = -1 then giveUp
  else if keyBytes < 0 then crash
  else pure (Str.ofBytes (bytes.take keyBytes.toNat))

def parseBodyOrReturn (actualSize : UInt64) : Handler Str := do
  match ← parseBody (toInt actualSize.toNat) with
  | none => giveUp
  | some buffer => pure (Str.ofBytes buffer)

/-- What `handle_client` queues: a node, and whether `create_node` found memory for
the copies of the key and the value in it. A copy it found none for is NULL. -/
structure WorkItem where
  node : KvNode
  keyCopied : Bool
  valueCopied : Bool
deriving DecidableEq

/-- `create_node` and `enqueue_hash`, which returns if it finds no memory. -/
def enqueueNode (key : Str) (userSize : UInt64) (value : Str) (operFlg : UInt8) :
    Handler WorkItem := do
  mallocOrCrash
  let keyCopied ← Conn.malloc
  let valueCopied ← Conn.malloc
  if ← Conn.malloc then pure ⟨createNode key userSize value operFlg, keyCopied, valueCopied⟩
  else fun c => .error (.returned c)

/-- The branch of `handle_client` for a set. -/
def handleSet : Handler WorkItem := do
  let recvHeader ← recvOrReturn 28
  let sizes ← parseOrReturn recvHeader
  mallocKey sizes.keySize
  mallocOrReturn
  let key ← recvKey sizes.keySize
  let value ← parseBodyOrReturn sizes.actualSize
  enqueueNode key sizes.valueSize value 1

/-- `parse_header_get`; `create_node` copies its key without a look at it. -/
def parseHeaderGet (recvHeader : List UInt8) : Handler Str :=
  match headerKey (Str.ofBytes recvHeader) with
  | none => crash
  | some token => do
      mallocOrCrash
      pure (Str.ofBytes token)

/-- `KEYSIZE`. -/
abbrev keySizeMax : Nat := 12

/-- The branch for every other operation. -/
def handleGet : Handler WorkItem := do
  let recvHeader ← recvOrReturn keySizeMax
  let key ← parseHeaderGet recvHeader
  mallocOrCrash
  enqueueNode key 0 (Str.ofBytes [0]) 0

/-- `handle_client`. -/
def handleClient : Handler WorkItem := do
  let opHeader ← recvOrReturn 5
  if opHeader = [] then giveUp
  else if Str.ofBytes opHeader = Str.ofBytes setOp then handleSet
  else handleGet

/-! ## What a request that is queued has read -/

section Handler

variable {α β : Type} {c c' : Conn}

theorem bind_eq_ok {x : Handler α} {f : α → Handler β} {r : β × Conn} :
    (x >>= f) c = .ok r ↔ ∃ a c', x c = .ok (a, c') ∧ f a c' = .ok r := by
  show Except.bind (x c) (fun p => f p.1 p.2) = .ok r ↔ _
  rcases x c with e | ⟨a, c'⟩ <;> simp [Except.bind]

theorem bind_eq_error {x : Handler α} {f : α → Handler β} {e : Stop} :
    (x >>= f) c = .error e ↔ x c = .error e ∨ ∃ a c', x c = .ok (a, c') ∧ f a c' = .error e := by
  show Except.bind (x c) (fun p => f p.1 p.2) = .error e ↔ _
  rcases x c with e' | ⟨a, c'⟩ <;> simp [Except.bind]

theorem pure_eq_ok {a b : α} : (pure a : Handler α) c = .ok (b, c') ↔ a = b ∧ c = c' := by
  show Except.ok (a, c) = .ok (b, c') ↔ _
  rw [Except.ok.injEq, Prod.mk.injEq]

theorem pure_ne_error {a : α} {e : Stop} : (pure a : Handler α) c ≠ .error e := by
  show Except.ok (a, c) ≠ .error e
  simp

theorem giveUp_ne_ok {r : α × Conn} : (giveUp : Handler α) c ≠ .ok r := by simp [giveUp]

theorem crash_ne_ok {r : α × Conn} : (crash : Handler α) c ≠ .ok r := by simp [crash]

end Handler

/-- The sizes a header names: three tokens, each a number that a `size_t` holds. -/
def HeaderNames (recvHeader : Str) (sizes : Sizes) : Prop :=
  ∃ first save second save' third save'',
    strtok headerDelim recvHeader.bytes = some (first, save) ∧
    strtok headerDelim save = some (second, save') ∧
    strtok headerDelim save' = some (third, save'') ∧
    ¬ OutOfRange first ∧ ¬ OutOfRange second ∧ ¬ OutOfRange third ∧
    sizes = ⟨strtoul first, strtoul second, strtoul third⟩

/-- What a `recv` of `key_size` bytes leaves in `key`. -/
def KeyRead (keySize : UInt64) (s : Incoming) (key : Str) (s' : Incoming) : Prop :=
  ∃ bytes, s.recv keySize.toNat = (some bytes, s') ∧ 0 ≤ toInt bytes.length ∧
    key = Str.ofBytes (bytes.take (toInt bytes.length).toNat)

/-- What `parse_body` leaves in the buffer where it returns 0. -/
def BodyRead (actualSize : Int) (s : Incoming) (buffer : List UInt8) (s' : Incoming) : Prop :=
  actualSize + 2 < 2 ^ 31 ∧
    bodyLoop actualSize (s.recvs.length + 2) s [] = some (some buffer, s') ∧
    (buffer.length : Int) = actualSize + 2

section Calls

variable {c c' : Conn}

theorem malloc_eq_ok {b : Bool} :
    Conn.malloc c = .ok (b, c') ↔ c.mallocs 0 = b ∧ c.dropMallocs 1 = c' := by
  rw [Conn.malloc, Except.ok.injEq, Prod.mk.injEq]

theorem mallocOrReturn_eq_ok {u : Unit} :
    mallocOrReturn c = .ok (u, c') ↔ c.mallocs 0 = true ∧ c.dropMallocs 1 = c' := by
  unfold mallocOrReturn
  simp only [bind_eq_ok, malloc_eq_ok]
  cases hm : c.mallocs 0 with
  | false => simp [giveUp_ne_ok]
  | true => simp [pure_eq_ok]

theorem mallocOrCrash_eq_ok {u : Unit} :
    mallocOrCrash c = .ok (u, c') ↔ c.mallocs 0 = true ∧ c.dropMallocs 1 = c' := by
  unfold mallocOrCrash
  simp only [bind_eq_ok, malloc_eq_ok]
  cases hm : c.mallocs 0 with
  | false => simp [crash_ne_ok]
  | true => simp [pure_eq_ok]

theorem recvOrReturn_eq_ok {len : Nat} {bytes : List UInt8} :
    recvOrReturn len c = .ok (bytes, c') ↔
      c.incoming.recv len = (some bytes, c'.incoming) ∧
        c' = { c with incoming := c'.incoming } := by
  unfold recvOrReturn
  rcases c.incoming.recv len with ⟨_ | got, s⟩
  · simp [giveUp_ne_ok]
  · simp only [Except.ok.injEq, Prod.mk.injEq, Option.some.injEq]
    refine ⟨?_, ?_⟩
    · rintro ⟨rfl, rfl⟩
      exact ⟨⟨rfl, rfl⟩, rfl⟩
    · rintro ⟨⟨rfl, rfl⟩, hc⟩
      exact ⟨rfl, hc.symm⟩

/-- `parse_header_set` succeeds on a header of three numbers in range, and only
where `errno` was not `ERANGE` before. -/
theorem parseHeaderSet_eq_some {erange after : Bool} {recvHeader : Str} {sizes : Sizes} :
    parseHeaderSet erange recvHeader = (some sizes, after) ↔
      erange = false ∧ after = false ∧ HeaderNames recvHeader sizes := by
  unfold parseHeaderSet parseHeaderSetInto HeaderNames
  rcases h₁ : strtok headerDelim recvHeader.bytes with _ | ⟨first, save⟩
  · simp
  by_cases hfirst : erange = true ∨ OutOfRange first
  · have hflag : (erange || decide (OutOfRange first)) = true := by simpa using hfirst
    simp only [hflag, if_true]
    refine ⟨by simp, ?_⟩
    rintro ⟨rfl, -, _, _, _, _, _, _, heq, -, -, hin, -⟩
    simp only [Option.some.injEq, Prod.mk.injEq] at heq
    rw [heq.1] at hfirst
    rcases hfirst with hfirst | hfirst
    · exact absurd hfirst (by simp)
    · exact absurd hfirst hin
  obtain ⟨herange, hin⟩ := not_or.mp hfirst
  obtain rfl := Bool.eq_false_of_not_eq_true herange
  rcases h₂ : strtok headerDelim save with _ | ⟨second, save'⟩
  · simp [hin, h₂]
  rcases h₃ : strtok headerDelim save' with _ | ⟨third, save''⟩
  · simp [hin, h₂, h₃]
  by_cases hrest : OutOfRange second ∨ OutOfRange third
  · have hflag : (decide (OutOfRange second) || decide (OutOfRange third)) = true := by
      simpa using hrest
    simp [hin, h₂, h₃, hflag]
    grind
  · obtain ⟨hsecond, hthird⟩ := not_or.mp hrest
    simp [hin, h₂, h₃, hsecond, hthird]
    grind

theorem parseOrReturn_eq_ok {recvHeader : List UInt8} {sizes : Sizes} :
    parseOrReturn recvHeader c = .ok (sizes, c') ↔
      c.erange = false ∧ HeaderNames (Str.ofBytes recvHeader) sizes ∧ c' = c := by
  have hsome : ∀ sizes after, parseHeaderSet c.erange (Str.ofBytes recvHeader) =
      (some sizes, after) ↔ _ := fun sizes after => parseHeaderSet_eq_some
  unfold parseOrReturn
  rcases hp : parseHeaderSet c.erange (Str.ofBytes recvHeader) with ⟨_ | got, after⟩
  · have hnot := hsome sizes false
    rw [hp] at hnot
    simp only [giveUp_ne_ok, false_iff]
    rintro ⟨herange, hnames, -⟩
    exact absurd (hnot.mpr ⟨herange, rfl, hnames⟩) (by simp)
  · obtain ⟨herange, rfl, hgot⟩ := (hsome got after).mp hp
    have hsame : ({ c with erange := false } : Conn) = c := by rw [← herange]
    simp only [Except.ok.injEq, Prod.mk.injEq, hsame]
    refine ⟨?_, ?_⟩
    · rintro ⟨rfl, rfl⟩
      exact ⟨herange, hgot, rfl⟩
    · rintro ⟨-, hnames, rfl⟩
      have hread := (hsome sizes false).mpr ⟨herange, rfl, hnames⟩
      rw [hp, Prod.mk.injEq, Option.some.injEq] at hread
      exact ⟨hread.1, rfl⟩

theorem mallocKey_eq_ok {keySize : UInt64} {u : Unit} :
    mallocKey keySize c = .ok (u, c') ↔
      c.mallocs 0 = true ∧ keySize.toNat + 2 < 2 ^ 64 ∧ c.dropMallocs 1 = c' := by
  unfold mallocKey
  simp only [bind_eq_ok, mallocOrReturn_eq_ok]
  refine ⟨?_, ?_⟩
  · rintro ⟨_, c₁, ⟨hm, rfl⟩, h⟩
    by_cases hwrap : 2 ^ 64 ≤ keySize.toNat + 2
    · rw [if_pos hwrap] at h
      exact absurd h crash_ne_ok
    · rw [if_neg hwrap] at h
      exact ⟨hm, Nat.lt_of_not_le hwrap, (pure_eq_ok.mp h).2⟩
  · rintro ⟨hm, hwrap, rfl⟩
    refine ⟨(), _, ⟨hm, rfl⟩, ?_⟩
    rw [if_neg (Nat.not_le.mpr hwrap)]
    exact pure_eq_ok.mpr ⟨rfl, rfl⟩

theorem recvKey_eq_ok {keySize : UInt64} {key : Str} :
    recvKey keySize c = .ok (key, c') ↔
      KeyRead keySize c.incoming key c'.incoming ∧ c' = { c with incoming := c'.incoming } := by
  unfold recvKey KeyRead
  simp only [bind_eq_ok, recvOrReturn_eq_ok]
  refine ⟨?_, ?_⟩
  · rintro ⟨bytes, c₁, ⟨hrecv, hc₁⟩, h⟩
    by_cases herr : toInt bytes.length = -1
    · exact absurd (by simpa [herr] using h) giveUp_ne_ok
    by_cases hneg : toInt bytes.length < 0
    · exact absurd (by simpa [herr, hneg] using h) crash_ne_ok
    simp only [herr, hneg, if_false, pure_eq_ok] at h
    obtain ⟨hkey, rfl⟩ := h
    exact ⟨⟨bytes, hrecv, Int.not_lt.mp hneg, hkey.symm⟩, hc₁⟩
  · rintro ⟨⟨bytes, hrecv, hpos, hkey⟩, hc⟩
    refine ⟨bytes, c', ⟨hrecv, hc⟩, ?_⟩
    have herr : toInt bytes.length ≠ -1 := by omega
    simp only [herr, Int.not_lt.mpr hpos, if_false]
    exact pure_eq_ok.mpr ⟨hkey.symm, rfl⟩

theorem parseBody_eq_ok {actualSize : Int} {buffer : List UInt8} :
    parseBody actualSize c = .ok (some buffer, c') ↔
      BodyRead actualSize c.incoming buffer c'.incoming ∧
        c' = { c with incoming := c'.incoming } := by
  unfold parseBody BodyRead
  by_cases hint : 2 ^ 31 ≤ actualSize + 2
  · rw [if_pos hint]
    refine ⟨by simp, ?_⟩
    exact fun h => absurd h.1.1 (Int.not_lt.mpr hint)
  rw [if_neg hint]
  rcases hloop : bodyLoop actualSize (c.incoming.recvs.length + 2) c.incoming [] with
    _ | ⟨_ | got, s⟩
  · simp
  · simp
  · by_cases hlen : (got.length : Int) = actualSize + 2
    · simp only [hlen, if_true, Except.ok.injEq, Prod.mk.injEq, Option.some.injEq]
      refine ⟨?_, ?_⟩
      · rintro ⟨rfl, rfl⟩
        exact ⟨⟨Int.not_le.mp hint, ⟨rfl, rfl⟩, hlen⟩, rfl⟩
      · rintro ⟨⟨-, ⟨rfl, rfl⟩, -⟩, hc⟩
        exact ⟨rfl, hc.symm⟩
    · simp only [hlen, if_false, Except.ok.injEq, Prod.mk.injEq, Option.some.injEq]
      refine ⟨by simp, ?_⟩
      rintro ⟨⟨-, ⟨rfl, -⟩, hlen'⟩, -⟩
      exact absurd hlen' hlen

theorem parseBodyOrReturn_eq_ok {actualSize : UInt64} {value : Str} :
    parseBodyOrReturn actualSize c = .ok (value, c') ↔
      (∃ buffer, BodyRead (toInt actualSize.toNat) c.incoming buffer c'.incoming ∧
        value = Str.ofBytes buffer) ∧ c' = { c with incoming := c'.incoming } := by
  unfold parseBodyOrReturn
  simp only [bind_eq_ok]
  refine ⟨?_, ?_⟩
  · rintro ⟨body, c₁, hbody, h⟩
    cases body with
    | none => exact absurd h giveUp_ne_ok
    | some buffer =>
        obtain ⟨rfl, rfl⟩ := pure_eq_ok.mp h
        obtain ⟨hread, hc⟩ := parseBody_eq_ok.mp hbody
        exact ⟨⟨buffer, hread, rfl⟩, hc⟩
  · rintro ⟨⟨buffer, hread, rfl⟩, hc⟩
    exact ⟨some buffer, c', parseBody_eq_ok.mpr ⟨hread, hc⟩, pure_eq_ok.mpr ⟨rfl, rfl⟩⟩

theorem enqueueNode_eq_ok {key value : Str} {userSize : UInt64} {operFlg : UInt8}
    {item : WorkItem} :
    enqueueNode key userSize value operFlg c = .ok (item, c') ↔
      c.mallocs 0 = true ∧ c.mallocs 3 = true ∧
        item = ⟨createNode key userSize value operFlg, c.mallocs 1, c.mallocs 2⟩ ∧
        c' = c.dropMallocs 4 := by
  unfold enqueueNode
  simp only [bind_eq_ok, mallocOrCrash_eq_ok, malloc_eq_ok]
  refine ⟨?_, ?_⟩
  · rintro ⟨-, c₁, ⟨hnode, rfl⟩, _, c₂, ⟨rfl, rfl⟩, _, c₃, ⟨rfl, rfl⟩, cell, c₄, ⟨hcell, rfl⟩, h⟩
    cases cell with
    | false => simp at h
    | true =>
        obtain ⟨rfl, rfl⟩ := pure_eq_ok.mp h
        exact ⟨hnode, hcell, rfl, rfl⟩
  · rintro ⟨hnode, hcell, rfl, rfl⟩
    exact ⟨(), _, ⟨hnode, rfl⟩, _, _, ⟨rfl, rfl⟩, _, _, ⟨rfl, rfl⟩, true, _, ⟨hcell, rfl⟩,
      pure_eq_ok.mpr ⟨rfl, rfl⟩⟩

theorem parseHeaderGet_eq_ok {recvHeader : List UInt8} {key : Str} :
    parseHeaderGet recvHeader c = .ok (key, c') ↔
      ∃ token, headerKey (Str.ofBytes recvHeader) = some token ∧ key = Str.ofBytes token ∧
        c.mallocs 0 = true ∧ c.dropMallocs 1 = c' := by
  unfold parseHeaderGet
  rcases headerKey (Str.ofBytes recvHeader) with _ | token
  · simp [crash_ne_ok]
  · simp only [bind_eq_ok, mallocOrCrash_eq_ok, Option.some.injEq]
    refine ⟨?_, ?_⟩
    · rintro ⟨-, _, ⟨hm, rfl⟩, h⟩
      obtain ⟨rfl, rfl⟩ := pure_eq_ok.mp h
      exact ⟨token, rfl, rfl, hm, rfl⟩
    · rintro ⟨_, rfl, rfl, hm, rfl⟩
      exact ⟨(), _, ⟨hm, rfl⟩, pure_eq_ok.mpr ⟨rfl, rfl⟩⟩

end Calls

/-- What a set reads: the sizes, then the key, then the value. -/
def SetRead (s : Incoming) (node : KvNode) (s' : Incoming) : Prop :=
  ∃ recvHeader s₁ sizes key s₂ buffer,
    s.recv 28 = (some recvHeader, s₁) ∧ HeaderNames (Str.ofBytes recvHeader) sizes ∧
    sizes.keySize.toNat + 2 < 2 ^ 64 ∧ KeyRead sizes.keySize s₁ key s₂ ∧
    BodyRead (toInt sizes.actualSize.toNat) s₂ buffer s' ∧
    node = createNode key sizes.valueSize (Str.ofBytes buffer) 1

/-- What a get reads: one token. -/
def GetRead (s : Incoming) (node : KvNode) (s' : Incoming) : Prop :=
  ∃ recvHeader token,
    s.recv keySizeMax = (some recvHeader, s') ∧
    headerKey (Str.ofBytes recvHeader) = some token ∧
    node = createNode (Str.ofBytes token) 0 (Str.ofBytes [0]) 0

/-- What a request reads that is queued as `node`. A set asks for an `errno` that
is not `ERANGE`. -/
inductive NodeRead (erange : Bool) (s : Incoming) (node : KvNode) (s' : Incoming) : Prop
  | set {op : List UInt8} {s₁ : Incoming} (hop : s.recv 5 = (some op, s₁))
      (hset : Str.ofBytes op = Str.ofBytes setOp) (herrno : erange = false)
      (hread : SetRead s₁ node s')
  | get {op : List UInt8} {s₁ : Incoming} (hop : s.recv 5 = (some op, s₁)) (hne : op ≠ [])
      (hget : Str.ofBytes op ≠ Str.ofBytes setOp) (hread : GetRead s₁ node s')

/-- The allocations a request cannot do without, for a set and for a get: both
make six, and the fourth and the fifth are the copies in the node. -/
def Granted (mallocs : Nat → Bool) : Prop :=
  mallocs 0 = true ∧ mallocs 1 = true ∧ mallocs 2 = true ∧ mallocs 5 = true

section Requests

variable {c c' : Conn} {item : WorkItem}

theorem handleSet_eq_ok :
    handleSet c = .ok (item, c') ↔
      c.erange = false ∧ SetRead c.incoming item.node c'.incoming ∧ Granted c.mallocs ∧
        item = ⟨item.node, c.mallocs 3, c.mallocs 4⟩ ∧
        c' = { c.dropMallocs 6 with incoming := c'.incoming } := by
  unfold handleSet SetRead Granted
  simp only [bind_eq_ok, recvOrReturn_eq_ok, parseOrReturn_eq_ok, mallocKey_eq_ok,
    mallocOrReturn_eq_ok, recvKey_eq_ok, parseBodyOrReturn_eq_ok, enqueueNode_eq_ok]
  refine ⟨?_, ?_⟩
  · rintro ⟨recvHeader, _, ⟨hheader, hc₁⟩, sizes, c₁, ⟨herrno, hnames, rfl⟩, -, _,
      ⟨hm₀, hwrap, rfl⟩, -, _, ⟨hm₁, rfl⟩, key, c₂, ⟨hkey, hc₂⟩, value, c₃,
      ⟨⟨buffer, hbody, rfl⟩, hc₃⟩, hm₂, hm₅, hitem, hc'⟩
    rw [hc₁] at hm₀ hm₁ herrno
    rw [hc₃, hc₂, hc₁] at hm₂ hm₅ hitem hc'
    have hnode : item.node = createNode key sizes.valueSize (Str.ofBytes buffer) 1 := by rw [hitem]
    have hstream : c'.incoming = c₃.incoming := by rw [hc']; rfl
    refine ⟨herrno, ?_, ⟨hm₀, hm₁, hm₂, hm₅⟩, ?_, ?_⟩
    · exact ⟨recvHeader, c₁.incoming, sizes, key, c₂.incoming, buffer, hheader, hnames, hwrap, hkey,
        hstream ▸ hbody, hnode⟩
    · rw [hnode]
      exact hitem
    · rw [hc']
      rfl
  · rintro ⟨herrno, ⟨recvHeader, s₁, sizes, key, s₂, buffer, hheader, hnames, hwrap, hkey, hbody,
      hnode⟩, ⟨hm₀, hm₁, hm₂, hm₅⟩, hitem, hc'⟩
    refine ⟨recvHeader, { c with incoming := s₁ }, ⟨hheader, rfl⟩, sizes, _,
      ⟨herrno, hnames, rfl⟩, (), _, ⟨hm₀, hwrap, rfl⟩, (), _, ⟨hm₁, rfl⟩, key,
      { c.dropMallocs 2 with incoming := s₂ }, ⟨hkey, rfl⟩, _,
      { c.dropMallocs 2 with incoming := c'.incoming }, ⟨⟨buffer, hbody, rfl⟩, rfl⟩, hm₂, hm₅, ?_,
      hc'⟩
    rw [← hnode]
    exact hitem

theorem handleGet_eq_ok :
    handleGet c = .ok (item, c') ↔
      GetRead c.incoming item.node c'.incoming ∧ Granted c.mallocs ∧
        item = ⟨item.node, c.mallocs 3, c.mallocs 4⟩ ∧
        c' = { c.dropMallocs 6 with incoming := c'.incoming } := by
  unfold handleGet GetRead Granted
  simp only [bind_eq_ok, recvOrReturn_eq_ok, parseHeaderGet_eq_ok, mallocOrCrash_eq_ok,
    enqueueNode_eq_ok]
  refine ⟨?_, ?_⟩
  · rintro ⟨recvHeader, c₁, ⟨hheader, hc₁⟩, key, _, ⟨token, htoken, rfl, hm₀, rfl⟩, -, _,
      ⟨hm₁, rfl⟩, hm₂, hm₅, hitem, hc'⟩
    rw [hc₁] at hm₀ hm₁ hm₂ hm₅ hitem hc'
    have hnode : item.node = createNode (Str.ofBytes token) 0 (Str.ofBytes [0]) 0 := by rw [hitem]
    have hstream : c'.incoming = c₁.incoming := by rw [hc']; rfl
    refine ⟨⟨recvHeader, token, hstream ▸ hheader, htoken, hnode⟩, ⟨hm₀, hm₁, hm₂, hm₅⟩, ?_, ?_⟩
    · rw [hnode]
      exact hitem
    · rw [hc']
      rfl
  · rintro ⟨⟨recvHeader, token, hheader, htoken, hnode⟩, ⟨hm₀, hm₁, hm₂, hm₅⟩, hitem, hc'⟩
    refine ⟨recvHeader, { c with incoming := c'.incoming }, ⟨hheader, rfl⟩, _, _,
      ⟨token, htoken, rfl, hm₀, rfl⟩, (), _, ⟨hm₁, rfl⟩, hm₂, hm₅, ?_, hc'⟩
    rw [← hnode]
    exact hitem

/-- **A node is queued if and only if it was read and memory was granted.** -/
theorem handleClient_eq_ok :
    handleClient c = .ok (item, c') ↔
      NodeRead c.erange c.incoming item.node c'.incoming ∧ Granted c.mallocs ∧
        item = ⟨item.node, c.mallocs 3, c.mallocs 4⟩ ∧
        c' = { c.dropMallocs 6 with incoming := c'.incoming } := by
  unfold handleClient
  simp only [bind_eq_ok, recvOrReturn_eq_ok]
  refine ⟨?_, ?_⟩
  · rintro ⟨op, c₁, ⟨hop, hc₁⟩, h⟩
    by_cases hne : op = []
    · rw [if_pos hne] at h
      exact absurd h giveUp_ne_ok
    rw [if_neg hne] at h
    by_cases hset : Str.ofBytes op = Str.ofBytes setOp
    · rw [if_pos hset, handleSet_eq_ok] at h
      obtain ⟨herrno, hread, hm, hitem, hc'⟩ := h
      rw [hc₁] at herrno hm hitem hc'
      exact ⟨.set hop hset herrno hread, hm, hitem, hc'⟩
    · rw [if_neg hset, handleGet_eq_ok] at h
      obtain ⟨hread, hm, hitem, hc'⟩ := h
      rw [hc₁] at hm hitem hc'
      exact ⟨.get hop hne hset hread, hm, hitem, hc'⟩
  · rintro ⟨hread, hm, hitem, hc'⟩
    cases hread with
    | @set op s₁ hop hset herrno hread =>
        have hne : op ≠ [] := by
          rintro rfl
          exact absurd hset (by decide)
        refine ⟨op, { c with incoming := s₁ }, ⟨hop, rfl⟩, ?_⟩
        rw [if_neg hne, if_pos hset, handleSet_eq_ok]
        exact ⟨herrno, hread, hm, hitem, hc'⟩
    | @get op s₁ hop hne hget hread =>
        refine ⟨op, { c with incoming := s₁ }, ⟨hop, rfl⟩, ?_⟩
        rw [if_neg hne, if_neg hget, handleGet_eq_ok]
        exact ⟨hread, hm, hitem, hc'⟩

theorem handleClient_of_read {node : KvNode} {s' : Incoming}
    (hread : NodeRead c.erange c.incoming node s') (hm : Granted c.mallocs) :
    handleClient c =
      .ok (⟨node, c.mallocs 3, c.mallocs 4⟩, { c.dropMallocs 6 with incoming := s' }) :=
  handleClient_eq_ok.mpr ⟨hread, hm, rfl, rfl⟩

/-- `handle_client` queues one node, and the node is complete. -/
def Queues (c : Conn) (node : KvNode) : Prop :=
  ∃ c', handleClient c = .ok (⟨node, true, true⟩, c')

theorem queues_iff {node : KvNode} :
    Queues c node ↔
      (∃ s', NodeRead c.erange c.incoming node s') ∧ ∀ i < 6, c.mallocs i = true := by
  unfold Queues
  simp only [handleClient_eq_ok, Granted, WorkItem.mk.injEq]
  refine ⟨?_, ?_⟩
  · rintro ⟨c', hread, ⟨hm₀, hm₁, hm₂, hm₅⟩, ⟨-, hm₃, hm₄⟩, -⟩
    refine ⟨⟨_, hread⟩, ?_⟩
    intro i hi
    interval_cases i
    · exact hm₀
    · exact hm₁
    · exact hm₂
    · exact hm₃.symm
    · exact hm₄.symm
    · exact hm₅
  · rintro ⟨⟨s', hread⟩, hm⟩
    refine ⟨{ c.dropMallocs 6 with incoming := s' }, hread, ?_, ?_, rfl⟩
    · exact ⟨hm 0 (by omega), hm 1 (by omega), hm 2 (by omega), hm 5 (by omega)⟩
    · exact ⟨trivial, (hm 3 (by omega)).symm, (hm 4 (by omega)).symm⟩

end Requests

end DistKv.Memcache
