import DistKv.Lib.CStdio
import DistKv.Lib.History
import DistKv.Lib.Transition
import DistKv.Memcache.HashMap

/-!
# The hash workers (`server_mt.c`)

`handle_client` turns a request into a node and queues it; `HASHPOOL` workers
take nodes off the queue and handle them. The table is only touched under
`hashmap_mutex`, and the nodes in it do not change, so `handle_hash` is one
step, and its reply depends on the table at that step alone. Workers reach
the mutex in any order.

`served` is a history variable: the nodes in the order in which the workers
handled them, each with its reply. A reply is `none` where `handle_hash`
writes outside of the memory it allocated.
-/

namespace DistKv.Memcache

open CText FirstMatch History

/-! ## Replies -/

/-- `"VALUE "` -/
def valueText : List UInt8 := [86, 65, 76, 85, 69, 32]

/-- `"\r\nEND\r\n"` -/
def endText : List UInt8 := [13, 10, 69, 78, 68, 13, 10]

/-- `"Error: key not found\n"` -/
def errGet : List UInt8 :=
  [69, 114, 114, 111, 114, 58, 32, 107, 101, 121, 32, 110, 111, 116, 32, 102, 111, 117, 110, 100,
    10]

/-- `"STORED\r\n"` -/
def storedText : List UInt8 := [83, 84, 79, 82, 69, 68, 13, 10]

/-- `send_message_format`: ten bytes are set aside for `user_size`, and the last
byte is written without regard to the size of the buffer. -/
def sendMessageFormat (node : KvNode) (heap : List UInt8) : Option (List UInt8) :=
  let bufferSize := valueText.length + node.key.length + 1 + 10 + 1 + 2 + node.value.length + 2 +
    5 + 1
  let text := valueText ++ node.key.bytes ++ 32 :: Decimal.digits node.userSize.toNat
  if node.value.length + 1 < node.valueSize then none
  else
    (snprintf (malloc bufferSize heap) 0 (bufferSize + 1) text).bind fun buf =>
      (store buf text.length ((node.value.bytes ++ [0]).take node.valueSize)).bind fun buf =>
        let offset := text.length + node.valueSize
        (snprintf buf offset (bufferSize - offset) endText).bind fun buf =>
          (store buf (offset + endText.length) [0]).map fun buf => (Str.ofBytes buf).bytes

/-- The record `handle_hash` writes to the log: `"SET %s %zu %zu %s\n"`. -/
def logRecord (node : KvNode) : List UInt8 :=
  [83, 69, 84, 32] ++ node.key.bytes ++ 32 :: Decimal.digits node.userSize.toNat ++
    32 :: Decimal.digits node.valueSize ++ 32 :: node.value.bytes ++ [10]

/-- What `handle_hash` leaves: the table, the log, and the reply. -/
structure Handled where
  table : Table
  log : List UInt8
  reply : Option (List UInt8)

/-- `handle_hash`. -/
def handleHash (table : Table) (log : List UInt8) (node : KvNode) (heap : List UInt8) : Handled :=
  if node.operFlg = 0 then
    match table.getNode node.key with
    | none => ⟨table, log, some errGet⟩
    | some found => ⟨table, log, sendMessageFormat found heap⟩
  else if node.operFlg = 1 then
    ⟨table.insertNode node, log ++ logRecord node, some storedText⟩
  else ⟨table, log, some []⟩

/-! ## Runs -/

/-- `HASHPOOL`. -/
def hashPool : Nat := 20

/-- A set as `handle_client` reads it. The value lies in memory, so its length is a `size_t`. -/
structure SetRequest where
  key : Str
  userSize : UInt64
  value : Str
  value_lt : value.length < 2 ^ 64
deriving DecidableEq

/-- What `handle_client` reads off a connection. -/
inductive Request
  | get (key : Str)
  | set (r : SetRequest)
deriving DecidableEq

/-- The node `handle_client` queues for a set. -/
def SetRequest.node (r : SetRequest) : KvNode := createNode r.key r.userSize r.value 1

/-- The node it queues for a request. -/
def Request.node : Request → KvNode
  | .get key => createNode key 0 (Str.ofBytes [0]) 0
  | .set r => r.node

theorem Request.valueSize_eq (r : Request) : r.node.valueSize = r.node.value.length := by
  cases r <;> rfl

/-- A node that was handled, and the reply to it. -/
structure Served where
  node : KvNode
  reply : Option (List UInt8)
deriving DecidableEq

structure State where
  table : Table
  log : List UInt8
  queue : List KvNode
  taken : List KvNode
  served : List Served

inductive Act
  /-- `handle_client` queues the node of a request -/
  | enqueueHash (r : Request)
  /-- an idle worker takes the first node of the queue -/
  | dequeueHash
  /-- the worker with the node at position `i` handles it -/
  | handleHash (i : Nat) (heap : List UInt8)
deriving DecidableEq

def step (s : State) : Act → Option State
  | .enqueueHash r => some { s with queue := s.queue ++ [r.node] }
  | .dequeueHash =>
      match s.queue with
      | [] => none
      | node :: rest =>
          if s.taken.length < hashPool then
            some { s with queue := rest, taken := s.taken ++ [node] }
          else none
  | .handleHash i heap =>
      s.taken[i]?.map fun node =>
        let h := handleHash s.table s.log node heap
        { s with
          table := h.table
          log := h.log
          taken := s.taken.eraseIdx i
          served := s.served ++ [⟨node, h.reply⟩] }

/-- The server as `main` starts it with an empty log. -/
def init : State := { table := Table.empty, log := [], queue := [], taken := [], served := [] }

def server : Transition.System State Act := { init := init, step := step }

/-- The nodes on their way through the server. -/
def State.nodes (s : State) : List KvNode := s.queue ++ s.taken ++ s.served.map Served.node

/-- Nodes come from requests and from nowhere else. -/
theorem nodes_of_step {s s' : State} {a : Act} (h : step s a = some s') {node : KvNode}
    (hnode : node ∈ s'.nodes) : node ∈ s.nodes ∨ ∃ r, a = .enqueueHash r ∧ node = r.node := by
  unfold State.nodes at *
  simp only [List.mem_append] at *
  cases a with
  | enqueueHash r =>
      obtain rfl := Option.some.inj h
      simp only [List.mem_append, List.mem_singleton] at hnode
      rcases hnode with ((hnode | rfl) | hnode) | hnode
      · exact Or.inl (Or.inl (Or.inl hnode))
      · exact Or.inr ⟨r, rfl, rfl⟩
      · exact Or.inl (Or.inl (Or.inr hnode))
      · exact Or.inl (Or.inr hnode)
  | dequeueHash =>
      simp only [step] at h
      cases hq : s.queue with
      | nil => simp [hq] at h
      | cons first rest =>
          simp only [hq] at h
          by_cases hidle : s.taken.length < hashPool
          · rw [if_pos hidle, Option.some.injEq] at h
            subst h
            simp only [List.mem_append, List.mem_cons, List.not_mem_nil, or_false] at hnode ⊢
            rcases hnode with (hnode | hnode | rfl) | hnode
            · exact Or.inl (Or.inl (Or.inl (Or.inr hnode)))
            · exact Or.inl (Or.inl (Or.inr hnode))
            · exact Or.inl (Or.inl (Or.inl (Or.inl rfl)))
            · exact Or.inl (Or.inr hnode)
          · simp [hidle] at h
  | handleHash i heap =>
      simp only [step, Option.map_eq_some_iff] at h
      obtain ⟨handled, hi, rfl⟩ := h
      simp only [List.map_append, List.map_cons, List.map_nil, List.mem_append,
        List.mem_singleton] at hnode
      rcases hnode with (hnode | hnode) | hnode | rfl
      · exact Or.inl (Or.inl (Or.inl hnode))
      · exact Or.inl (Or.inl (Or.inr (List.mem_of_mem_eraseIdx hnode)))
      · exact Or.inl (Or.inr hnode)
      · exact Or.inl (Or.inl (Or.inr (List.mem_of_getElem? hi)))

/-- In a run whose requests satisfy `Q` every node is the node of such a request. -/
theorem reachable_nodes {G : State → Act → State → Prop} {Q : Request → Prop}
    (hG : ∀ s r s', G s (.enqueueHash r) s' → Q r) {s : State} (hs : server.ReachableVia G s) :
    ∀ node ∈ s.nodes, ∃ r, Q r ∧ node = r.node := by
  refine Transition.System.ReachableVia.invariant
    (P := fun s => ∀ node ∈ s.nodes, ∃ r, Q r ∧ node = r.node)
    (by simp [server, init, State.nodes]) ?_ s hs
  intro s a s' _ hold hstep hg node hnode
  rcases nodes_of_step hstep hnode with hnode | ⟨r, rfl, rfl⟩
  · exact hold node hnode
  · exact ⟨r, hG s r s' hg, rfl⟩

/-- The sets that were handled, in order. -/
def sets (served : List Served) : List KvNode :=
  (served.map Served.node).filter fun node => node.operFlg = 1

theorem sets_append (a b : List Served) : sets (a ++ b) = sets a ++ sets b := by
  simp [sets]

/-! ## The reply to a get -/

/-- `'VALUE ' k ' ' u v CRLF 'END' CRLF`. -/
def valueReply (key : Str) (userSize : UInt64) (value : Str) : List UInt8 :=
  valueText ++ key.bytes ++ 32 :: Decimal.digits userSize.toNat ++ value.bytes ++ endText

theorem zero_not_mem_valueReply (key : Str) (userSize : UInt64) (value : Str) :
    (0 : UInt8) ∉ valueReply key userSize value := by
  have htext : (0 : UInt8) ∉ valueText := by decide
  have hend : (0 : UInt8) ∉ endText := by decide
  simp only [valueReply, List.mem_append, List.mem_cons, not_or]
  exact ⟨⟨⟨⟨htext, key.noNul⟩, by decide, Decimal.zero_not_mem_digits _⟩, value.noNul⟩, hend⟩

/-- `snprintf` of the name and the size gives them as one text. -/
theorem length_nameText (node : KvNode) :
    (valueText ++ node.key.bytes ++ 32 :: Decimal.digits node.userSize.toNat).length =
      7 + node.key.length + (Decimal.digits node.userSize.toNat).length := by
  have hlen : valueText.length = 6 := rfl
  simp only [List.length_append, List.length_cons, hlen, Str.length]
  omega

theorem take_valueSize {node : KvNode} (hsize : node.valueSize = node.value.length) :
    (node.value.bytes ++ [0]).take node.valueSize = node.value.bytes := by
  rw [hsize, Str.length, List.take_left]

/-- With at most thirteen digits everything fits. -/
theorem sendMessageFormat_of_lt {node : KvNode} (hsize : node.valueSize = node.value.length)
    (heap : List UInt8) (hsmall : node.userSize.toNat < 10 ^ 13) :
    sendMessageFormat node heap = some (valueReply node.key node.userSize node.value) := by
  have hdigits := (Decimal.length_digits_le_iff (by decide)).mpr hsmall
  have htextlen := length_nameText node
  have hvalue : node.value.bytes.length = node.value.length := rfl
  have hlen : valueText.length = 6 := rfl
  have hend : endText.length = 7 := rfl
  unfold sendMessageFormat
  simp only [take_valueSize hsize]
  generalize hbufferSize : valueText.length + node.key.length + 1 + 10 + 1 + 2 +
    node.value.length + 2 + 5 + 1 = bufferSize
  generalize htext : valueText ++ node.key.bytes ++ 32 :: Decimal.digits node.userSize.toNat = text
    at htextlen ⊢
  rw [if_neg (by omega)]
  -- the name and the size, the value, and the end marker, each behind the last
  have hfirst : snprintf (malloc bufferSize heap) 0 (bufferSize + 1) text =
      some (text ++ 0 :: (malloc bufferSize heap).drop (text.length + 1)) := by
    have hroom : text.length < (malloc bufferSize heap).length := by
      rw [length_malloc]
      omega
    exact snprintf_append (List.length_nil).symm (by omega) hroom
  have hoffset : text.length + node.valueSize = (text ++ node.value.bytes).length := by
    rw [List.length_append, hsize, hvalue]
  rw [hfirst, Option.bind_some, store_append rfl, if_pos (by
    simp only [List.length_cons, List.length_drop, length_malloc]; omega), Option.bind_some,
    snprintf_append hoffset (by omega) (by
      simp only [List.length_cons, List.length_drop, length_malloc]; omega), Option.bind_some,
    store_append (by rw [List.length_append, hoffset]), if_pos (by simp), Option.map_some]
  -- the string ends at the NUL behind the end marker
  have hstring : text ++ node.value.bytes ++ endText =
      valueReply node.key node.userSize node.value := by rw [← htext, valueReply]
  rw [hstring, List.append_assoc]
  congr 1
  exact Str.ofBytes_append_zero (zero_not_mem_valueReply _ _ _)

/-- With fourteen or more the last byte is out of bounds, whatever the writes before it
did. -/
theorem sendMessageFormat_of_le {node : KvNode} (hsize : node.valueSize = node.value.length)
    (heap : List UInt8) (hlarge : 10 ^ 13 ≤ node.userSize.toNat) :
    sendMessageFormat node heap = none := by
  have hdigits : ¬ (Decimal.digits node.userSize.toNat).length ≤ 13 := fun h =>
    absurd ((Decimal.length_digits_le_iff (by decide)).mp h) (not_lt.mpr hlarge)
  have htextlen := length_nameText node
  have hlen : valueText.length = 6 := rfl
  have hend : endText.length = 7 := rfl
  unfold sendMessageFormat
  dsimp only
  rw [if_neg (by omega)]
  simp only [Option.bind_eq_none_iff, Option.map_eq_none_iff]
  intro buf hbuf buf' hbuf' buf'' hbuf''
  have hsame := length_of_snprintf hbuf
  have hsame' := length_of_store hbuf'
  have hsame'' := length_of_snprintf hbuf''
  rw [length_malloc] at hsame
  exact store_eq_none (by rw [List.length_singleton]; omega)

/-- **The reply is complete, or its last byte falls outside of the buffer**: it
does so where `user_size` has fourteen digits or more. -/
theorem sendMessageFormat_eq {node : KvNode} (hsize : node.valueSize = node.value.length)
    (heap : List UInt8) :
    sendMessageFormat node heap =
      if node.userSize.toNat < 10 ^ 13 then
        some (valueReply node.key node.userSize node.value)
      else none := by
  by_cases hsmall : node.userSize.toNat < 10 ^ 13
  · rw [if_pos hsmall, sendMessageFormat_of_lt hsize heap hsmall]
  · rw [if_neg hsmall, sendMessageFormat_of_le hsize heap (not_lt.mp hsmall)]

/-! ### The offset is an `int` -/

/-- The last value of `offset` in `send_message_format`. It only grows, so an `int`
that holds this value holds the ones before it. -/
def lastOffset (node : KvNode) : Nat :=
  valueText.length + node.key.length + 1 + (Decimal.digits node.userSize.toNat).length +
    node.valueSize + endText.length

/-- `send_message_format` with its `int offset`, which has no value for a reply that
is too long for it. -/
def sendMessageFormatInt (node : KvNode) (heap : List UInt8) : Option (List UInt8) :=
  if 2 ^ 31 ≤ lastOffset node then none else sendMessageFormat node heap

/-- **The get reply is complete** and within its buffer if and only if `user_size`
has at most thirteen digits and the length of the reply is an `int`. -/
theorem get_reply_complete_iff (r : SetRequest) (heap : List UInt8) :
    sendMessageFormatInt r.node heap = some (valueReply r.key r.userSize r.value) ↔
      r.userSize.toNat < 10 ^ 13 ∧
        r.key.length + (Decimal.digits r.userSize.toNat).length + r.value.length + 14 < 2 ^ 31 := by
  have hlast : lastOffset r.node =
      r.key.length + (Decimal.digits r.userSize.toNat).length + r.value.length + 14 := by
    show 6 + r.key.length + 1 + (Decimal.digits r.userSize.toNat).length + r.value.length + 7 = _
    omega
  have hformat : sendMessageFormat r.node heap =
      if r.userSize.toNat < 10 ^ 13 then some (valueReply r.key r.userSize r.value) else none :=
    sendMessageFormat_eq rfl heap
  rw [sendMessageFormatInt, hlast, hformat]
  by_cases hint : r.key.length + (Decimal.digits r.userSize.toNat).length + r.value.length + 14 <
      2 ^ 31
  · rw [if_neg (Nat.not_le.mpr hint)]
    by_cases hsmall : r.userSize.toNat < 10 ^ 13
    · rw [if_pos hsmall]
      exact iff_of_true rfl ⟨hsmall, hint⟩
    · rw [if_neg hsmall]
      exact iff_of_false (by simp) fun h => hsmall h.1
  · rw [if_pos (Nat.not_lt.mp hint)]
    exact iff_of_false (by simp) fun h => hint h.2

/-- A `user_size` of fourteen digits, for the key `A` and the value `x`. -/
theorem get_reply_incomplete :
    sendMessageFormatInt (SetRequest.mk (Str.ofBytes [65]) 10000000000000
        (Str.ofBytes [13, 10, 120]) (by decide)).node [] ≠
      some (valueReply (Str.ofBytes [65]) 10000000000000 (Str.ofBytes [13, 10, 120])) := by
  decide +kernel

end DistKv.Memcache
