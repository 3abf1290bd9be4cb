import DistKv.Memcache.ParseBody

/-!
# One reply and one close (`server_mt.c`)

`handle_hash` is where a connection is answered and closed. `handle_client` sends
an error and returns wherever it gives up, and leaves the descriptor open there;
`parse_body` closes it where a body ends at the wrong byte, and the error is sent
after that.
-/

namespace DistKv.Memcache

open CText

/-! ## `handle_hash` on a connection -/

/-- `send(client_fd, ...); close(client_fd);` -/
def reply (text : List UInt8) : Handler Unit := fun c => .ok ((), (c.send text).close)

/-- `strdup(tmp->key)`, the key `get_node` is asked for; without memory it is NULL. -/
def copyKey (item : WorkItem) : Handler (Option Str) := do
  if ← Conn.malloc then pure (some item.node.key) else pure none

/-- `send_message_format`, with three allocations. -/
def formatReply (found : KvNode) (heap : List UInt8) : Handler (List UInt8) := do
  mallocOrCrash
  mallocOrCrash
  mallocOrCrash
  match sendMessageFormat found heap with
  | none => crash
  | some text => pure text

/-- The reply to a get, by what `get_node` found. -/
def replyFound (heap : List UInt8) : Option KvNode → Handler Unit
  | none => reply errGet
  | some found => do
      let text ← formatReply found heap
      reply text

/-- The branch of `handle_hash` for a get; `get_node` finds nothing for NULL. -/
def answerGet (table : Table) (heap : List UInt8) (item : WorkItem) : Handler Unit := do
  let getKey ← copyKey item
  let _ ← Conn.malloc
  replyFound heap (getKey.bind table.getNode)

/-- The branch for a set. `fprintf` prints the copy of the key and the value, and
`insert_node` makes one more copy of the key. -/
def answerSet (keyCopy : Bool) (item : WorkItem) : Handler Unit := do
  mallocOrCrash
  if keyCopy = true ∧ item.valueCopied = true then do
    mallocOrCrash
    reply storedText
  else crash

/-- `handle_hash`, as the connection sees it. -/
def answer (table : Table) (heap : List UInt8) (item : WorkItem) : Handler Unit := do
  if item.keyCopied then do
    let keyCopy ← Conn.malloc
    if item.node.operFlg = 0 then answerGet table heap item
    else if item.node.operFlg = 1 then answerSet keyCopy item
    else pure ()
  else crash

/-- A connection from `accept` to `close`. -/
def serve (table : Table) (heap : List UInt8) : Handler Unit := do
  let item ← handleClient
  answer table heap item

/-- What happened to the descriptor is one reply, and one close after it. -/
def OneReply (result : Except Stop (Unit × Conn)) : Prop :=
  ∃ c text, (result = .ok ((), c) ∨ result = .error (.returned c)) ∧
    c.events = [.sent text, .closed]

/-! ## The calls of `handle_hash` -/

section Calls

variable {c c' : Conn} {item : WorkItem} {table : Table} {heap : List UInt8} {u : Unit}

theorem reply_eq_ok {text : List UInt8} :
    reply text c = .ok (u, c') ↔ (c.send text).close = c' := by
  rw [reply, Except.ok.injEq, Prod.mk.injEq, and_iff_right rfl]

theorem copyKey_eq_ok {key : Option Str} :
    copyKey item c = .ok (key, c') ↔
      (if c.mallocs 0 then some item.node.key else none) = key ∧ c.dropMallocs 1 = c' := by
  unfold copyKey
  simp only [bind_eq_ok, malloc_eq_ok]
  cases hm : c.mallocs 0 with
  | false => simp [pure_eq_ok]
  | true => simp [pure_eq_ok]

theorem formatReply_eq_ok {found : KvNode} {text : List UInt8} :
    formatReply found heap c = .ok (text, c') ↔
      (∀ i < 3, c.mallocs i = true) ∧ sendMessageFormat found heap = some text ∧
        c.dropMallocs 3 = c' := by
  unfold formatReply
  simp only [bind_eq_ok, mallocOrCrash_eq_ok]
  rcases sendMessageFormat found heap with _ | text'
  · simp [crash_ne_ok]
  · simp only [pure_eq_ok, Option.some.injEq]
    refine ⟨?_, ?_⟩
    · rintro ⟨-, _, ⟨hm₀, rfl⟩, -, _, ⟨hm₁, rfl⟩, -, _, ⟨hm₂, rfl⟩, rfl, rfl⟩
      refine ⟨?_, rfl, rfl⟩
      intro i hi
      interval_cases i
      · exact hm₀
      · exact hm₁
      · exact hm₂
    · rintro ⟨hm, rfl, rfl⟩
      exact ⟨(), _, ⟨hm 0 (by omega), rfl⟩, (), _, ⟨hm 1 (by omega), rfl⟩, (), _,
        ⟨hm 2 (by omega), rfl⟩, rfl, rfl⟩

theorem replyFound_ok_iff {found : Option KvNode} :
    (∃ c', replyFound heap found c = .ok ((), c')) ↔ ∀ node, found = some node →
      (∃ text, sendMessageFormat node heap = some text) ∧ ∀ i < 3, c.mallocs i = true := by
  cases found with
  | none => exact iff_of_true ⟨_, rfl⟩ (by simp)
  | some found =>
      unfold replyFound
      simp only [bind_eq_ok, formatReply_eq_ok, reply_eq_ok]
      refine ⟨?_, ?_⟩
      · rintro ⟨-, text, _, ⟨hmem, hformat, -⟩, -⟩ node hnode
        obtain rfl := Option.some.inj hnode
        exact ⟨⟨text, hformat⟩, hmem⟩
      · intro h
        obtain ⟨⟨text, hformat⟩, hmem⟩ := h found rfl
        exact ⟨_, text, _, ⟨hmem, hformat, rfl⟩, rfl⟩

theorem answerGet_ok_iff :
    (∃ c', answerGet table heap item c = .ok ((), c')) ↔
      ∀ found, c.mallocs 0 = true → table.getNode item.node.key = some found →
        (∃ text, sendMessageFormat found heap = some text) ∧ ∀ i < 3, c.mallocs (i + 2) = true := by
  have hreply : (∃ c', answerGet table heap item c = .ok ((), c')) ↔
      ∃ c', replyFound heap ((if c.mallocs 0 then some item.node.key else none).bind table.getNode)
        (c.dropMallocs 2) = .ok ((), c') := by
    unfold answerGet
    simp only [bind_eq_ok, copyKey_eq_ok, malloc_eq_ok]
    refine ⟨?_, ?_⟩
    · rintro ⟨c', _, _, ⟨rfl, rfl⟩, _, _, ⟨rfl, rfl⟩, h⟩
      exact ⟨c', h⟩
    · rintro ⟨c', h⟩
      exact ⟨c', _, _, ⟨rfl, rfl⟩, _, _, ⟨rfl, rfl⟩, h⟩
  rw [hreply, replyFound_ok_iff]
  cases c.mallocs 0 with
  | false => simp
  | true => simp [Conn.dropMallocs]

theorem answerSet_ok_iff {keyCopy : Bool} :
    (∃ c', answerSet keyCopy item c = .ok ((), c')) ↔
      keyCopy = true ∧ item.valueCopied = true ∧ ∀ i < 2, c.mallocs i = true := by
  unfold answerSet
  simp only [bind_eq_ok, mallocOrCrash_eq_ok]
  refine ⟨?_, ?_⟩
  · rintro ⟨c', -, _, ⟨hm₀, rfl⟩, h⟩
    by_cases hcopies : keyCopy = true ∧ item.valueCopied = true
    · rw [if_pos hcopies] at h
      obtain ⟨_, _, hmalloc, -⟩ := bind_eq_ok.mp h
      have hm₁ := (mallocOrCrash_eq_ok.mp hmalloc).1
      refine ⟨hcopies.1, hcopies.2, ?_⟩
      intro i hi
      interval_cases i
      · exact hm₀
      · exact hm₁
    · rw [if_neg hcopies] at h
      exact absurd h crash_ne_ok
  · rintro ⟨hkey, hvalue, hm⟩
    refine ⟨((c.dropMallocs 2).send storedText).close, (), _, ⟨hm 0 (by omega), rfl⟩, ?_⟩
    rw [if_pos ⟨hkey, hvalue⟩]
    exact bind_eq_ok.mpr ⟨(), _, mallocOrCrash_eq_ok.mpr ⟨hm 1 (by omega), rfl⟩, rfl⟩

end Calls

/-! ## What happens to the descriptor -/

/-- `x` adds events as in `go` where it goes on, and as in `ret` where it returns. -/
structure Emits {α : Type} (x : Handler α) (go ret : List FdEvent → Prop) : Prop where
  ok : ∀ {c a c'}, x c = .ok (a, c') → ∃ es, go es ∧ c'.events = c.events ++ es
  returned : ∀ {c c'}, x c = .error (.returned c') → ∃ es, ret es ∧ c'.events = c.events ++ es

/-- Nothing is sent, and nothing closed. -/
def Silent (es : List FdEvent) : Prop := es = []

/-- What an early return leaves behind. -/
def Early (es : List FdEvent) : Prop :=
  es = [] ∨ es = [.sent ackN] ∨ es = [.closed, .sent ackN]

/-- A reply, and then the close. -/
def Replied (es : List FdEvent) : Prop := ∃ text, es = [.sent text, .closed]

section Emits

variable {α β : Type} {go ret : List FdEvent → Prop}

/-- **A silent call in front changes nothing.** -/
theorem Emits.bind {x : Handler α} {f : α → Handler β} (hx : Emits x Silent ret)
    (hf : ∀ a, Emits (f a) go ret) : Emits (x >>= f) go ret where
  ok := by
    intro c b c' h
    obtain ⟨a, c₁, hfirst, hrest⟩ := bind_eq_ok.mp h
    obtain ⟨_, rfl, hsame⟩ := hx.ok hfirst
    rw [List.append_nil] at hsame
    rw [← hsame]
    exact (hf a).ok hrest
  returned := by
    intro c c' h
    rcases bind_eq_error.mp h with h | ⟨a, c₁, hfirst, hrest⟩
    · exact hx.returned h
    · obtain ⟨_, rfl, hsame⟩ := hx.ok hfirst
      rw [List.append_nil] at hsame
      rw [← hsame]
      exact (hf a).returned hrest

theorem Emits.ite {p : Prop} [Decidable p] {x y : Handler α} (hx : Emits x go ret)
    (hy : Emits y go ret) : Emits (if p then x else y) go ret := by
  by_cases hp : p
  · rwa [if_pos hp]
  · rwa [if_neg hp]

theorem emits_pure (a : α) : Emits (pure a) Silent ret where
  ok := by
    intro c b c' h
    rw [← (pure_eq_ok.mp h).2]
    exact ⟨[], rfl, (List.append_nil _).symm⟩
  returned := by
    intro c c' h
    exact absurd h pure_ne_error

theorem emits_crash : Emits (crash : Handler α) go ret where
  ok := fun h => absurd h crash_ne_ok
  returned := fun h => absurd h (by simp [crash])

theorem events_of_giveUp {c c₁ c' : Conn} (hsame : c₁.events = c.events)
    (h : (giveUp : Handler α) c₁ = .error (.returned c')) :
    ∃ es, Early es ∧ c'.events = c.events ++ es := by
  rw [giveUp, Except.error.injEq, Stop.returned.injEq] at h
  exact ⟨_, Or.inr (Or.inl rfl), by rw [← h, ← hsame]; rfl⟩

theorem emits_giveUp : Emits (giveUp : Handler α) go Early where
  ok := fun h => absurd h giveUp_ne_ok
  returned := fun h => events_of_giveUp rfl h

theorem emits_malloc : Emits Conn.malloc Silent ret where
  ok := by
    intro c a c' h
    rw [← (malloc_eq_ok.mp h).2]
    exact ⟨[], rfl, (List.append_nil _).symm⟩
  returned := fun h => absurd h (by simp [Conn.malloc])

theorem emits_reply (text : List UInt8) : Emits (reply text) Replied ret where
  ok := by
    intro c a c' h
    rw [← reply_eq_ok.mp h]
    refine ⟨_, ⟨text, rfl⟩, ?_⟩
    simp [Conn.send, Conn.close]
  returned := fun h => absurd h (by simp [reply])

theorem emits_mallocOrReturn : Emits mallocOrReturn Silent Early :=
  emits_malloc.bind fun _ => .ite (emits_pure ()) emits_giveUp

theorem emits_mallocOrCrash : Emits mallocOrCrash Silent ret :=
  emits_malloc.bind fun _ => .ite (emits_pure ()) emits_crash

theorem emits_recvOrReturn (len : Nat) : Emits (recvOrReturn len) Silent Early where
  ok := by
    intro c bytes c' h
    rw [(recvOrReturn_eq_ok.mp h).2]
    exact ⟨[], rfl, (List.append_nil _).symm⟩
  returned := by
    intro c c' h
    unfold recvOrReturn at h
    rcases hrecv : c.incoming.recv len with ⟨_ | bytes, s⟩
    · rw [hrecv] at h
      exact events_of_giveUp (by rfl) h
    · rw [hrecv] at h
      exact absurd h (by simp)

theorem emits_parseOrReturn (recvHeader : List UInt8) :
    Emits (parseOrReturn recvHeader) Silent Early where
  ok := by
    intro c sizes c' h
    rw [(parseOrReturn_eq_ok.mp h).2.2]
    exact ⟨[], rfl, (List.append_nil _).symm⟩
  returned := by
    intro c c' h
    unfold parseOrReturn at h
    rcases hparse : parseHeaderSet c.erange (Str.ofBytes recvHeader) with ⟨_ | sizes, erange⟩
    · rw [hparse] at h
      exact events_of_giveUp (by rfl) h
    · rw [hparse] at h
      exact absurd h (by simp)

theorem emits_recvKey (keySize : UInt64) : Emits (recvKey keySize) Silent Early :=
  (emits_recvOrReturn _).bind fun _ => .ite emits_giveUp (.ite emits_crash (emits_pure _))

/-- `parse_body` closes the descriptor of a body that ends at the wrong byte. -/
theorem events_of_parseBody {actualSize : Int} {c c' : Conn}
    (h : parseBody actualSize c = .ok (none, c')) :
    c'.events = c.events ∨ c'.events = c.events ++ [.closed] := by
  unfold parseBody at h
  by_cases hint : 2 ^ 31 ≤ actualSize + 2
  · rw [if_pos hint] at h
    exact absurd h (by simp)
  rw [if_neg hint] at h
  rcases hloop : bodyLoop actualSize (c.incoming.recvs.length + 2) c.incoming [] with
    _ | ⟨_ | got, s⟩ <;> simp only [hloop] at h
  · exact absurd h (by simp)
  · rw [Except.ok.injEq, Prod.mk.injEq] at h
    exact Or.inl (by rw [← h.2])
  · by_cases hlen : (got.length : Int) = actualSize + 2
    · exact absurd h (by simp [hlen])
    · rw [if_neg hlen, Except.ok.injEq, Prod.mk.injEq] at h
      exact Or.inr (by rw [← h.2]; rfl)

theorem parseBody_ne_returned {actualSize : Int} {c c' : Conn} :
    parseBody actualSize c ≠ .error (.returned c') := by
  unfold parseBody
  by_cases hint : 2 ^ 31 ≤ actualSize + 2
  · rw [if_pos hint]
    simp
  rw [if_neg hint]
  rcases bodyLoop actualSize (c.incoming.recvs.length + 2) c.incoming [] with _ | ⟨_ | got, s⟩
  · simp
  · simp
  · by_cases hlen : (got.length : Int) = actualSize + 2
    · simp [hlen]
    · simp [hlen]

/-- The error that follows a body of the wrong length is sent on a closed descriptor. -/
theorem emits_parseBodyOrReturn (actualSize : UInt64) :
    Emits (parseBodyOrReturn actualSize) Silent Early where
  ok := by
    intro c value c' h
    rw [(parseBodyOrReturn_eq_ok.mp h).2]
    exact ⟨[], rfl, (List.append_nil _).symm⟩
  returned := by
    intro c c' h
    rcases bind_eq_error.mp h with h | ⟨_ | buffer, c₁, hbody, hrest⟩
    · exact absurd h parseBody_ne_returned
    · have hsent : c₁.send ackN = c' := by simpa [giveUp] using hrest
      rw [← hsent]
      rcases events_of_parseBody hbody with hevents | hevents
      · exact ⟨_, Or.inr (Or.inl rfl), by rw [Conn.send, hevents]⟩
      · refine ⟨_, Or.inr (Or.inr rfl), ?_⟩
        rw [Conn.send, hevents, List.append_assoc]
        rfl
    · exact absurd hrest pure_ne_error

theorem emits_return {α : Type} : Emits (fun c => .error (.returned c) : Handler α) go Early where
  ok := fun h => absurd h (by simp)
  returned := by
    intro c c' h
    simp only [Except.error.injEq, Stop.returned.injEq] at h
    exact ⟨[], Or.inl rfl, by rw [← h, List.append_nil]⟩

theorem emits_enqueueNode (key value : Str) (userSize : UInt64) (operFlg : UInt8) :
    Emits (enqueueNode key userSize value operFlg) Silent Early :=
  emits_mallocOrCrash.bind fun _ => emits_malloc.bind fun _ => emits_malloc.bind fun _ =>
    emits_malloc.bind fun _ => .ite (emits_pure _) emits_return

theorem emits_handleSet : Emits handleSet Silent Early :=
  (emits_recvOrReturn 28).bind fun _ => (emits_parseOrReturn _).bind fun _ =>
    (emits_mallocOrReturn.bind fun _ => .ite emits_crash (emits_pure ())).bind fun _ =>
    emits_mallocOrReturn.bind fun _ => (emits_recvKey _).bind fun _ =>
    (emits_parseBodyOrReturn _).bind fun _ => emits_enqueueNode _ _ _ _

theorem emits_parseHeaderGet (recvHeader : List UInt8) :
    Emits (parseHeaderGet recvHeader) Silent Early := by
  unfold parseHeaderGet
  rcases headerKey (Str.ofBytes recvHeader) with _ | token
  · exact emits_crash
  · exact emits_mallocOrCrash.bind fun _ => emits_pure _

theorem emits_handleGet : Emits handleGet Silent Early :=
  (emits_recvOrReturn _).bind fun _ => (emits_parseHeaderGet _).bind fun _ =>
    emits_mallocOrCrash.bind fun _ => emits_enqueueNode _ _ _ _

/-- **`handle_client` never closes a connection it queues, and never closes one it
has answered.** -/
theorem emits_handleClient : Emits handleClient Silent Early :=
  (emits_recvOrReturn 5).bind fun _ => .ite emits_giveUp (.ite emits_handleSet emits_handleGet)

theorem emits_formatReply (found : KvNode) (heap : List UInt8) :
    Emits (formatReply found heap) Silent ret :=
  emits_mallocOrCrash.bind fun _ => emits_mallocOrCrash.bind fun _ =>
    emits_mallocOrCrash.bind fun _ => by
      rcases sendMessageFormat found heap with _ | text
      · exact emits_crash
      · exact emits_pure text

theorem emits_answerGet (table : Table) (heap : List UInt8) (item : WorkItem) :
    Emits (answerGet table heap item) Replied ret :=
  (emits_malloc.bind fun _ => .ite (emits_pure _) (emits_pure _)).bind fun getKey =>
    emits_malloc.bind fun _ => by
      rcases getKey.bind table.getNode with _ | found
      · exact emits_reply errGet
      · exact (emits_formatReply found heap).bind fun text => emits_reply text

theorem emits_answerSet (keyCopy : Bool) (item : WorkItem) :
    Emits (answerSet keyCopy item) Replied ret :=
  emits_mallocOrCrash.bind fun _ =>
    .ite (emits_mallocOrCrash.bind fun _ => emits_reply storedText) emits_crash

theorem emits_answer {table : Table} {heap : List UInt8} {item : WorkItem}
    (hoper : item.node.operFlg = 0 ∨ item.node.operFlg = 1) :
    Emits (answer table heap item) Replied ret := by
  refine .ite (emits_malloc.bind fun keyCopy => ?_) emits_crash
  rcases hoper with hget | hset
  · rw [if_pos hget]
    exact emits_answerGet table heap item
  · rw [if_neg (by rw [hset]; decide), if_pos hset]
    exact emits_answerSet keyCopy item

end Emits

/-! ## Which connections are served -/

/-- The calls to `recv` bring a whole set: three sizes, a key and a body. -/
def SetArrives (s : Incoming) : Prop :=
  ∃ recvHeader s₁ sizes key s₂,
    s.recv 28 = (some recvHeader, s₁) ∧ HeaderNames (Str.ofBytes recvHeader) sizes ∧
    sizes.keySize.toNat + 2 < 2 ^ 64 ∧ KeyRead sizes.keySize s₁ key s₂ ∧
    toInt sizes.actualSize.toNat + 2 < 2 ^ 31 ∧ BodyArrives (toInt sizes.actualSize.toNat) s₂ 0

theorem setArrives_iff {s : Incoming} : SetArrives s ↔ ∃ node s', SetRead s node s' := by
  refine ⟨?_, ?_⟩
  · rintro ⟨recvHeader, s₁, sizes, key, s₂, hheader, hnames, hwrap, hkey, hbody⟩
    obtain ⟨buffer, s', hread⟩ := bodyRead_iff.mpr hbody
    exact ⟨_, s', recvHeader, s₁, sizes, key, s₂, buffer, hheader, hnames, hwrap, hkey, hread, rfl⟩
  · rintro ⟨_, s', recvHeader, s₁, sizes, key, s₂, buffer, hheader, hnames, hwrap, hkey, hread, -⟩
    exact ⟨recvHeader, s₁, sizes, key, s₂, hheader, hnames, hwrap, hkey,
      bodyRead_iff.mp ⟨buffer, s', hread⟩⟩

/-- What a connection needs to be answered and closed: an operation, then a whole
set, or a get with a token; and memory for all that is used. The allocations are
counted from the first one of `handle_client`; a get does without its value's copy,
and what it finds has to fit the reply. -/
inductive Answerable (table : Table) (heap : List UInt8) (c : Conn) : Prop
  | set {op : List UInt8} {s : Incoming} (hop : c.incoming.recv 5 = (some op, s))
      (hset : Str.ofBytes op = Str.ofBytes setOp) (herrno : c.erange = false)
      (harrives : SetArrives s) (hmem : ∀ i < 9, c.mallocs i = true)
  | get {op : List UInt8} {s : Incoming} {node : KvNode} {s' : Incoming}
      (hop : c.incoming.recv 5 = (some op, s)) (hne : op ≠ [])
      (hget : Str.ofBytes op ≠ Str.ofBytes setOp) (hread : GetRead s node s')
      (hmem : Granted c.mallocs ∧ c.mallocs 3 = true)
      (hfound : ∀ found, c.mallocs 7 = true → table.getNode node.key = some found →
        (∃ text, sendMessageFormat found heap = some text) ∧ ∀ i < 3, c.mallocs (i + 9) = true)

section Serve

variable {c : Conn} {item : WorkItem} {table : Table} {heap : List UInt8}

theorem answer_get_ok_iff (hget : item.node.operFlg = 0) :
    (∃ c', answer table heap item c = .ok ((), c')) ↔
      item.keyCopied = true ∧ ∃ c', answerGet table heap item (c.dropMallocs 1) = .ok ((), c') := by
  unfold answer
  cases item.keyCopied with
  | false => simp [crash_ne_ok]
  | true => simp [bind_eq_ok, malloc_eq_ok, hget]

theorem answer_set_ok_iff (hset : item.node.operFlg = 1) :
    (∃ c', answer table heap item c = .ok ((), c')) ↔
      item.keyCopied = true ∧
        ∃ c', answerSet (c.mallocs 0) item (c.dropMallocs 1) = .ok ((), c') := by
  unfold answer
  cases item.keyCopied with
  | false => simp [crash_ne_ok]
  | true => simp [bind_eq_ok, malloc_eq_ok, hset]

theorem SetRead.operFlg {s s' : Incoming} {node : KvNode} (h : SetRead s node s') :
    node.operFlg = 1 := by
  obtain ⟨_, _, _, _, _, _, -, -, -, -, -, rfl⟩ := h
  rfl

theorem GetRead.operFlg {s s' : Incoming} {node : KvNode} (h : GetRead s node s') :
    node.operFlg = 0 := by
  obtain ⟨_, _, -, -, rfl⟩ := h
  rfl

theorem NodeRead.operFlg {erange : Bool} {s s' : Incoming} {node : KvNode}
    (h : NodeRead erange s node s') : node.operFlg = 0 ∨ node.operFlg = 1 := by
  cases h with
  | set _ _ _ hread => exact Or.inr hread.operFlg
  | get _ _ _ hread => exact Or.inl hread.operFlg

/-- **The reply is the one of `handle_hash` on the table**, wherever its key could be
copied. -/
theorem answer_refines {c' : Conn} {u : Unit} (h : answer table heap item c = .ok (u, c'))
    (hoper : item.node.operFlg = 0 ∨ item.node.operFlg = 1) (hkey : c.mallocs 1 = true)
    (log : List UInt8) :
    ∃ text, (handleHash table log item.node heap).reply = some text ∧
      c'.events = c.events ++ [.sent text, .closed] := by
  unfold answer at h
  by_cases hcopied : item.keyCopied = true
  · rw [if_pos hcopied] at h
    obtain ⟨keyCopy, _, hmalloc, h⟩ := bind_eq_ok.mp h
    obtain ⟨-, rfl⟩ := malloc_eq_ok.mp hmalloc
    rcases hoper with hget | hset
    · rw [if_pos hget] at h
      obtain ⟨key, _, hcopy, h⟩ := bind_eq_ok.mp h
      obtain ⟨rfl, rfl⟩ := copyKey_eq_ok.mp hcopy
      obtain ⟨_, _, hmalloc, h⟩ := bind_eq_ok.mp h
      obtain ⟨-, rfl⟩ := malloc_eq_ok.mp hmalloc
      have hcopied : (c.dropMallocs 1).mallocs 0 = true := hkey
      rw [if_pos hcopied, Option.bind_some] at h
      unfold handleHash
      rw [if_pos hget]
      cases hfind : table.getNode item.node.key with
      | none =>
          rw [hfind] at h
          refine ⟨errGet, rfl, ?_⟩
          rw [← reply_eq_ok.mp h]
          simp [Conn.send, Conn.close, Conn.dropMallocs]
      | some found =>
          rw [hfind] at h
          obtain ⟨text, _, htext, h⟩ := bind_eq_ok.mp h
          obtain ⟨-, hformat, rfl⟩ := formatReply_eq_ok.mp htext
          refine ⟨text, hformat, ?_⟩
          rw [← reply_eq_ok.mp h]
          simp [Conn.send, Conn.close, Conn.dropMallocs]
    · rw [if_neg (by rw [hset]; decide), if_pos hset] at h
      obtain ⟨_, _, hmalloc, h⟩ := bind_eq_ok.mp h
      obtain ⟨-, rfl⟩ := mallocOrCrash_eq_ok.mp hmalloc
      unfold handleHash
      rw [if_neg (by rw [hset]; decide), if_pos hset]
      by_cases hcopies : keyCopy = true ∧ item.valueCopied = true
      · rw [if_pos hcopies] at h
        obtain ⟨_, _, hmalloc, h⟩ := bind_eq_ok.mp h
        obtain ⟨-, rfl⟩ := mallocOrCrash_eq_ok.mp hmalloc
        refine ⟨storedText, rfl, ?_⟩
        rw [← reply_eq_ok.mp h]
        simp [Conn.send, Conn.close, Conn.dropMallocs]
      · rw [if_neg hcopies] at h
        exact absurd h crash_ne_ok
  · rw [if_neg hcopied] at h
    exact absurd h crash_ne_ok

/-- A connection is served to its end if and only if it can be answered. -/
theorem serve_ok_iff : (∃ c', serve table heap c = .ok ((), c')) ↔ Answerable table heap c := by
  unfold serve
  simp only [bind_eq_ok]
  refine ⟨?_, ?_⟩
  · rintro ⟨c', item, c₁, hhandle, hanswer⟩
    obtain ⟨hread, hm, hitem, hc₁⟩ := handleClient_eq_ok.mp hhandle
    have hkeyCopied : item.keyCopied = c.mallocs 3 := congrArg WorkItem.keyCopied hitem
    have hvalueCopied : item.valueCopied = c.mallocs 4 := congrArg WorkItem.valueCopied hitem
    cases hread with
    | set hop hset herrno hread =>
        obtain ⟨hm₃, c₂, hset'⟩ := (answer_set_ok_iff hread.operFlg).mp ⟨c', hanswer⟩
        obtain ⟨hm₆, hm₄, hrest⟩ := answerSet_ok_iff.mp ⟨c₂, hset'⟩
        rw [hc₁] at hm₆ hrest
        obtain ⟨hm₀, hm₁, hm₂, hm₅⟩ := hm
        refine .set hop hset herrno (setArrives_iff.mpr ⟨_, _, hread⟩) ?_
        intro i hi
        interval_cases i
        · exact hm₀
        · exact hm₁
        · exact hm₂
        · exact hkeyCopied ▸ hm₃
        · exact hvalueCopied ▸ hm₄
        · exact hm₅
        · exact hm₆
        · exact hrest 0 (by omega)
        · exact hrest 1 (by omega)
    | get hop hne hget hread =>
        obtain ⟨hm₃, c₂, hget'⟩ := (answer_get_ok_iff hread.operFlg).mp ⟨c', hanswer⟩
        have hfound := answerGet_ok_iff.mp ⟨c₂, hget'⟩
        rw [hc₁] at hfound
        exact .get hop hne hget hread ⟨hm, hkeyCopied ▸ hm₃⟩ hfound
  · intro h
    cases h with
    | set hop hset herrno harrives hmem =>
        obtain ⟨node, s', hread⟩ := setArrives_iff.mp harrives
        have hm : Granted c.mallocs :=
          ⟨hmem 0 (by omega), hmem 1 (by omega), hmem 2 (by omega), hmem 5 (by omega)⟩
        have hrest : ∀ i < 2, c.mallocs (i + 1 + 6) = true := fun i hi => hmem _ (by omega)
        obtain ⟨c', hanswer⟩ : ∃ c', answer table heap ⟨node, c.mallocs 3, c.mallocs 4⟩
            { c.dropMallocs 6 with incoming := s' } = .ok ((), c') :=
          (answer_set_ok_iff hread.operFlg).mpr ⟨hmem 3 (by omega),
            answerSet_ok_iff.mpr ⟨hmem 6 (by omega), hmem 4 (by omega), hrest⟩⟩
        exact ⟨c', _, _, handleClient_of_read (.set hop hset herrno hread) hm, hanswer⟩
    | @get op s node s' hop hne hget hread hmem hfound =>
        obtain ⟨c', hanswer⟩ : ∃ c', answer table heap ⟨node, c.mallocs 3, c.mallocs 4⟩
            { c.dropMallocs 6 with incoming := s' } = .ok ((), c') :=
          (answer_get_ok_iff hread.operFlg).mpr ⟨hmem.2, answerGet_ok_iff.mpr hfound⟩
        exact ⟨c', _, _, handleClient_of_read (.get hop hne hget hread) hmem.1, hanswer⟩

/-- **One reply and one close**: exactly the connections that can be answered get
them. No other path closes a descriptor it has answered. -/
theorem one_reply_iff (table : Table) (heap : List UInt8) (incoming : Incoming)
    (mallocs : Nat → Bool) (erange : Bool) :
    OneReply (serve table heap ⟨incoming, mallocs, erange, []⟩) ↔
      Answerable table heap ⟨incoming, mallocs, erange, []⟩ := by
  rw [← serve_ok_iff]
  refine ⟨?_, ?_⟩
  · rintro ⟨c', text, hresult | hresult, hevents⟩
    · exact ⟨c', hresult⟩
    · -- a path that returns has not answered and then closed
      rcases bind_eq_error.mp hresult with hreturned | ⟨item, c₁, hhandle, hanswer⟩
      · obtain ⟨es, hearly, hsame⟩ := emits_handleClient.returned hreturned
        rw [hevents, List.nil_append] at hsame
        rcases hearly with rfl | rfl | rfl
        · exact absurd hsame (by simp)
        · exact absurd hsame (by simp)
        · exact absurd hsame (by simp)
      · have hoper := (handleClient_eq_ok.mp hhandle).1.operFlg
        have hnever : Emits (answer table heap item) Replied fun _ => False := emits_answer hoper
        obtain ⟨_, hfalse, -⟩ := hnever.returned hanswer
        exact hfalse.elim
  · rintro ⟨c', hserve⟩
    obtain ⟨item, c₁, hhandle, hanswer⟩ := bind_eq_ok.mp hserve
    obtain ⟨_, rfl, hquiet⟩ := emits_handleClient.ok hhandle
    have hoper := (handleClient_eq_ok.mp hhandle).1.operFlg
    have hreplied : Emits (answer table heap item) Replied fun _ => False := emits_answer hoper
    obtain ⟨_, ⟨text, rfl⟩, hevents⟩ := hreplied.ok hanswer
    rw [hquiet] at hevents
    exact ⟨c', text, Or.inl hserve, hevents⟩

end Serve

/-- A client that connects and closes gets the error, and its descriptor stays open. -/
theorem silent_client_not_closed :
    ¬ ∀ table heap incoming mallocs erange,
      OneReply (serve table heap ⟨incoming, mallocs, erange, []⟩) := by
  intro h
  obtain ⟨c, text, hresult, hevents⟩ := h .empty [] ⟨[], []⟩ (fun _ => true) false
  have hsent : serve .empty [] ⟨⟨[], []⟩, fun _ => true, false, []⟩ =
      .error (.returned ⟨⟨[], []⟩, fun _ => true, false, [.sent ackN]⟩) := rfl
  rw [hsent] at hresult
  rcases hresult with hresult | hresult
  · exact absurd hresult (by simp)
  · rw [Except.error.injEq, Stop.returned.injEq] at hresult
    rw [← hresult] at hevents
    exact absurd hevents (by simp)

end DistKv.Memcache
