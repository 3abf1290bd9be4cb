import DistKv.Memcache.HashLedger
import DistKv.Memcache.LastWrite
import DistKv.Memcache.NodeSizes
import Mathlib.Data.List.Find

/-!
# The server is an atomic map

A request takes effect when its thread inserts its node or finds one, under
`hashmap_mutex`; its reply is formatted and sent later, after other sets may have
changed the table. Since the nodes of the table do not change, it is the reply of
that moment all the same, and every history of the server is linearizable, for
the object that runs `handle_hash` on one request after the other
(`hash_threads_linearizable`).

That object is the hash table, which answers a get with the newest node whose key
begins with the asked key. For keys none of which begins another one in its chain,
and sizes of at most thirteen digits, it is simulated by a map from keys to values
(`atomic_map`). What a client can count on is then a matter of the order of the
calls and answers alone (`get_after_set`).
-/

namespace DistKv.Memcache

open CText History Linearizable Transition

variable {n : Nat} {table : Table} {log : List UInt8}

/-! ## The sequential server -/

/-- `handle_hash` on one request after the other. -/
def hashSpec (table : Table) : Spec Table NodeHash Sent where
  init := table
  next t b := (handleHash t [] b.data []).table
  response t b := ⟨b.sockFd, (handleHash t [] b.data []).reply⟩

theorem next_of_get {t : Table} {b : NodeHash} (h : b.data.operFlg = 0) :
    (hashSpec table).next t b = t := by
  show (handleHash t [] b.data []).table = t
  rw [handleHash, if_pos h]
  cases t.getNode b.data.key <;> rfl

theorem next_of_set {t : Table} {b : NodeHash} (h : b.data.operFlg = 1) :
    (hashSpec table).next t b = t.insertNode b.data := by
  show (handleHash t [] b.data []).table = _
  rw [handleHash, if_neg (by rw [h]; decide), if_pos h]

theorem getNode_mem {t : Table} {key : Str} {node : KvNode} (h : t.getNode key = some node) :
    node ∈ t.chain (hashString key) :=
  List.mem_of_find?_eq_some h

/-- The reply to a get does not depend on when it is formatted. -/
theorem clientMsg_of_get {t : Table} (ht : t.WellFormed) {b : Job} (hb : b.block.data.operFlg = 0)
    (heap : List UInt8) :
    clientMsg b (t.getNode b.block.data.key) heap = (hashSpec table).response t b.block := by
  show Sent.mk _ _ = Sent.mk _ (handleHash t [] b.block.data []).reply
  rw [handleHash, if_pos hb, if_pos hb]
  cases hfound : t.getNode b.block.data.key with
  | none => rfl
  | some node =>
      have hsize := ht.sized _ node (getNode_mem hfound)
      show Sent.mk _ (sendMessageFormat node heap) = Sent.mk _ (sendMessageFormat node [])
      rw [sendMessageFormat_eq hsize, sendMessageFormat_eq hsize]

theorem clientMsg_of_set {t : Table} {b : Job} (hb : b.block.data.operFlg = 1)
    (heap : List UInt8) : clientMsg b none heap = (hashSpec table).response t b.block := by
  have hne : b.block.data.operFlg ≠ 0 := by
    rw [hb]
    decide
  show Sent.mk _ _ = Sent.mk _ (handleHash t [] b.block.data []).reply
  rw [handleHash, if_neg hne, if_neg hne, if_pos hb]

namespace HashThreads

/-! ## The threads follow it -/

/-- The thread owes its request this result. -/
def Owes (s : HashThreads n) (w : Fin n) (b : Job) (found : Option KvNode) : Prop :=
  s.worker w = .served b found ∨ s.worker w = .replying b found

/-- Where the threads stand against the sequential server. -/
structure Follows (table : Table) (s : HashThreads n) : Prop where
  table_eq : s.table = (hashSpec table).after (commits s.trace)
  sized : s.table.WellFormed
  answered : ∀ i r, Event.answer i r ∈ s.trace → (hashSpec table).Answers (commits s.trace) i r
  owed : ∀ w b found, s.Owes w b found → ∀ heap,
    (hashSpec table).Answers (commits s.trace) b.id (clientMsg b found heap)

/-- A thread moves, and no request takes effect. -/
theorem Follows.move {s s' : HashThreads n} (h : s.Follows table) {w : Fin n} {x : HashWorker}
    (hworker : s'.worker = (s.set w x).worker) (htable : s'.table = s.table)
    (hcommits : commits s'.trace = commits s.trace)
    (hans : ∀ i r, Event.answer i r ∈ s'.trace → Event.answer i r ∈ s.trace ∨
      (hashSpec table).Answers (commits s.trace) i r)
    (hx : ∀ b found, x = .served b found ∨ x = .replying b found → s.Owes w b found) :
    s'.Follows table := by
  refine ⟨?_, by rw [htable]; exact h.sized, fun i r hi => ?_, fun v b found hv heap => ?_⟩
  · rw [htable, hcommits]
    exact h.table_eq
  · rw [hcommits]
    exact (hans i r hi).elim (h.answered i r) id
  · rw [hcommits]
    unfold Owes at hv
    rw [hworker] at hv
    by_cases hvw : v = w
    · subst hvw
      rw [worker_set_self] at hv
      exact h.owed v b found (hx b found hv) heap
    · rw [worker_set_ne hvw] at hv
      exact h.owed v b found hv heap

/-- A request takes effect on the table. -/
theorem Follows.commit {s s' : HashThreads n} (h : s.Follows table) {w : Fin n} {b : Job}
    {found : Option KvNode} (hworker : s'.worker = (s.set w (.served b found)).worker)
    (htrace : s'.trace = s.trace ++ [Event.commit b.id b.block])
    (htable : s'.table = (hashSpec table).next s.table b.block) (hsized : s'.table.WellFormed)
    (hfound : ∀ heap, clientMsg b found heap = (hashSpec table).response s.table b.block) :
    s'.Follows table := by
  have hcommits : commits s'.trace = commits s.trace ++ [(b.id, b.block)] := by
    rw [htrace, commits_commit]
  refine ⟨?_, hsized, fun i r hi => ?_, fun v c found' hv heap => ?_⟩
  · rw [hcommits, Spec.after_append_singleton, ← h.table_eq]
    exact htable
  · rw [htrace] at hi
    simp only [List.mem_append, List.mem_singleton, reduceCtorEq, or_false] at hi
    rw [hcommits]
    exact (h.answered i r hi).append _
  · rw [hcommits]
    unfold Owes at hv
    rw [hworker] at hv
    by_cases hvw : v = w
    · -- the reply is that of this moment
      subst hvw
      rw [worker_set_self] at hv
      have hsame : b = c ∧ found = found' := by
        rcases hv with hv | hv
        · exact HashWorker.served.inj hv
        · cases hv
      obtain ⟨rfl, rfl⟩ := hsame
      refine ⟨commits s.trace, b.block, [], rfl, ?_⟩
      rw [hfound heap, h.table_eq]
    · rw [worker_set_ne hvw] at hv
      exact (h.owed v c found' hv heap).append _

theorem Follows.step {s s' : HashThreads n} {a : HashAct n} (h : s.Follows table)
    (hknown : s.Known) (hflag : s.Flagged) (hstep : HashStep s a s') : s'.Follows table := by
  cases hstep with
  | enqueueHash r clientFd wakes queue hwake hjobs =>
      have hcommits := commits_call s.trace s.calls (NodeHash.mk r.node clientFd)
      have hans : ∀ i x, Event.answer i x ∈ s.trace ++
          [Event.call s.calls (NodeHash.mk r.node clientFd)] → Event.answer i x ∈ s.trace := by
        simp
      cases wakes with
      | none =>
          refine ⟨?_, h.sized, fun i x hi => ?_, fun w b found hw heap => ?_⟩
          · show s.table = (hashSpec table).after (commits (s.trace ++ _))
            rw [hcommits]
            exact h.table_eq
          · show (hashSpec table).Answers (commits (s.trace ++ _)) i x
            rw [hcommits]
            exact h.answered i x (hans i x hi)
          · show (hashSpec table).Answers (commits (s.trace ++ _)) _ _
            rw [hcommits]
            exact h.owed w b found hw heap
      | some w =>
          exact h.move (w := w) (x := .woken) rfl rfl hcommits (fun i x hi => Or.inl (hans i x hi))
            (by simp)
  | takeJob _ w b queue hw hjobs =>
      exact h.move (w := w) (x := .handling b) rfl rfl rfl (fun _ _ => Or.inl) (by simp)
  | findEmpty _ w x hw hjobs =>
      refine h.move (w := w) (x := x) rfl rfl rfl (fun _ _ => Or.inl) ?_
      rcases hw with ⟨-, -, rfl⟩ | ⟨-, -, rfl⟩ <;> simp
  | spurious w hw =>
      exact h.move (w := w) (x := .woken) rfl rfl rfl (fun _ _ => Or.inl) (by simp)
  | lock w b hw hfree =>
      exact h.move (w := w) (x := .locked b) rfl rfl rfl (fun _ _ => Or.inl) (by simp)
  | logSet w b hw hset =>
      exact h.move (w := w) (x := .logged b) rfl rfl rfl (fun _ _ => Or.inl) (by simp)
  | insert w b hw =>
      obtain ⟨r, hr⟩ := (hknown.worker w b (by rw [hw]; rfl)).1
      have hset := hflag w b hw
      refine h.commit (w := w) rfl rfl (next_of_set hset).symm ?_ (clientMsg_of_set hset)
      exact h.sized.insertNode (by rw [hr]; exact r.valueSize_eq)
  | get w b hw hget =>
      exact h.commit (w := w) rfl rfl (next_of_get hget).symm h.sized
        (clientMsg_of_get h.sized hget)
  | unlock w b found hw =>
      refine h.move (w := w) (x := .replying b found) rfl rfl rfl (fun _ _ => Or.inl) ?_
      intro c found' hc
      simp only [reduceCtorEq, HashWorker.replying.injEq, false_or] at hc
      obtain ⟨rfl, rfl⟩ := hc
      exact Or.inl hw
  | send w b found heap hw =>
      refine h.move (w := w) (x := .closing b) rfl rfl (commits_answer ..) ?_ (by simp)
      intro i r hi
      rcases List.mem_append.mp hi with hi | hi
      · exact Or.inl hi
      · obtain ⟨rfl, rfl⟩ := Event.answer.inj (List.mem_singleton.mp hi)
        exact Or.inr (h.owed w b found (Or.inr hw) heap)
  | close w b hw =>
      exact h.move (w := w) (x := .checking) rfl rfl rfl (fun _ _ => Or.inl) (by simp)

theorem reachable_follows (htable : table.WellFormed) {s : HashThreads n}
    (h : (hashThreads n table log).Reachable s) : s.Follows table := by
  refine System.ReachableVia.invariant (P := Follows table) ?_ ?_ s h
  · refine ⟨rfl, htable, fun i r hi => absurd hi List.not_mem_nil, fun w b found hw => ?_⟩
    rcases hw with hw | hw <;> cases hw
  · intro s a s' hs hfollows hstep _
    exact hfollows.step (reachable_known hs) (reachable_flagged hs)
      (step_spec (reachable_wf hs) hstep).1

/-- The order in which the requests took effect is a sequence of their history. -/
theorem linearizes_of_reachable (htable : table.WellFormed) {s : HashThreads n}
    (h : (hashThreads n table log).Reachable s) :
    Linearizes (hashSpec table) s.trace (commits s.trace) :=
  linearizes_commits (reachable_timely h).timed (reachable_follows htable h).answered

/-- **Linearizability.** From a well-formed table, as a first start leaves it, the order
in which the requests took effect is a sequence of their history: every answer that was
sent is the one `handle_hash` gives on the requests before it one after the other, and
what was answered before a request was queued stands in front of it. The table is the one
this sequence leaves. -/
theorem hash_threads_linearizable (htable : table.WellFormed) {s : HashThreads n}
    (h : (hashThreads n table log).Reachable s) :
    Linearizes (hashSpec table) s.trace (commits s.trace) ∧
      s.table = (hashSpec table).after (commits s.trace) :=
  ⟨linearizes_of_reachable htable h, (reachable_follows htable h).table_eq⟩

/-- The get is queued while the set holds the mutex, and finds its node. -/
theorem setThenGet_linearizes :
    Linearizes (hashSpec Table.empty) ((hashThreads 2 Table.empty []).endOf setThenGet).trace
        (commits ((hashThreads 2 Table.empty []).endOf setThenGet).trace) ∧
      Event.answer 1 ⟨8, some [86, 65, 76, 85, 69, 32, 65, 32, 49, 13, 10, 113, 13, 10, 69, 78, 68,
        13, 10]⟩ ∈ ((hashThreads 2 Table.empty []).endOf setThenGet).trace :=
  ⟨(hash_threads_linearizable ⟨Table.empty.placed, by simp [Table.empty]⟩
    (System.endOf_reachable setThenGet)).1, by decide +kernel⟩

end HashThreads

/-! ## The map -/

/-- What a client thinks of: a map from keys to what was stored under them. -/
def mapSpec (m : Str → Option Entry) : Spec (Str → Option Entry) NodeHash Sent where
  init := m
  next m b :=
    if b.data.operFlg = 1 then Function.update m b.data.key (some b.data.entry) else m
  response m b :=
    { sockFd := b.sockFd
      bytes := some <|
        if b.data.operFlg = 1 then storedText
        else match m b.data.key with
          | none => errGet
          | some e => valueReply b.data.key e.userSize e.value }

theorem mapSpec_next (m now : Str → Option Entry) (b : NodeHash) (key : Str) :
    (mapSpec m).next now b key =
      if b.data.operFlg = 1 ∧ b.data.key = key then some b.data.entry else now key := by
  show (if b.data.operFlg = 1 then Function.update now b.data.key (some b.data.entry) else now) key
    = _
  by_cases hset : b.data.operFlg = 1
  · by_cases hkey : b.data.key = key
    · rw [if_pos hset, if_pos ⟨hset, hkey⟩, hkey, Function.update_self]
    · rw [if_pos hset, if_neg fun h => hkey h.2, Function.update_of_ne (Ne.symm hkey)]
  · rw [if_neg hset, if_neg fun h => hset h.1]

/-- No key of the family begins another one of its chain. -/
def Apart (keys : Str → Prop) : Prop :=
  ∀ k k', keys k → keys k' → hashString k = hashString k' → k.bytes <+: k'.bytes → k = k'

/-- A request about a key of the family, with a size of at most thirteen digits. -/
def Plain (keys : Str → Prop) (node : KvNode) : Prop :=
  keys node.key ∧ node.valueSize = node.value.length ∧ node.userSize.toNat < 10 ^ 13 ∧
    (node.operFlg = 0 ∨ node.operFlg = 1)

instance {keys : Str → Prop} [DecidablePred keys] : DecidablePred (Plain keys) := fun node =>
  inferInstanceAs (Decidable (keys node.key ∧ _ ∧ _ ∧ _))

/-- The table stores the map, under keys of the family. -/
structure Stored (keys : Str → Prop) (t : Table) (m : Str → Option Entry) : Prop where
  entry : t.entry = m
  sized : t.WellFormed
  keys : ∀ i, ∀ node ∈ t.chain i, keys node.key ∧ node.userSize.toNat < 10 ^ 13

variable {keys : Str → Prop}

theorem Stored.printable {t : Table} {m : Str → Option Entry} (h : Stored keys t m) :
    t.Printable :=
  fun i node hnode => ⟨h.sized.sized i node hnode, (h.keys i node hnode).2⟩

/-- The first node that begins with the key is the newest of the key. -/
theorem Apart.getNode_eq (hkeys : Apart keys) {t : Table}
    (ht : ∀ i, ∀ node ∈ t.chain i, keys node.key) {key : Str} (hkey : keys key) :
    t.getNode key = t.find key := by
  unfold Table.getNode Table.find
  refine List.find?_congr fun node hnode => ?_
  rw [Bool.eq_iff_iff, Str.eqFirst_length, decide_eq_true_eq]
  constructor
  · intro hprefix
    exact (hkeys key node.key hkey (ht _ node hnode) (t.placed _ node hnode).symm hprefix).symm
  · intro heq
    rw [heq]

theorem simulates_map (hkeys : Apart keys) {m : Str → Option Entry} (htable : Stored keys table m) :
    Simulates (hashSpec table) (mapSpec m) (Stored keys) fun b => Plain keys b.data := by
  refine ⟨htable, ?_, ?_⟩
  · intro t m b hb ht
    obtain ⟨hkey, hsize, hsmall, hget | hset⟩ := hb
    · rw [next_of_get hget]
      show Stored keys t (if b.data.operFlg = 1 then _ else m)
      rw [if_neg (by rw [hget]; decide)]
      exact ht
    · rw [next_of_set hset]
      show Stored keys _ (if b.data.operFlg = 1 then _ else m)
      rw [if_pos hset]
      refine ⟨by rw [Table.entry_insertNode, ht.entry], ht.sized.insertNode hsize, ?_⟩
      intro i node hnode
      rw [Table.chain_insertNode] at hnode
      by_cases hi : hashString b.data.key = i
      · rw [if_pos hi] at hnode
        rcases List.mem_cons.mp hnode with rfl | hnode
        · exact ⟨hkey, hsmall⟩
        · exact ht.keys i node hnode
      · rw [if_neg hi] at hnode
        exact ht.keys i node hnode
  · intro t m b hb ht
    obtain ⟨hkey, hsize, hsmall, hget | hset⟩ := hb
    · have hne : ¬ b.data.operFlg = 1 := by
        rw [hget]
        decide
      have hfind := hkeys.getNode_eq (fun i node hnode => (ht.keys i node hnode).1) hkey
      show Sent.mk _ (handleHash t [] b.data []).reply = Sent.mk _ (some (if _ then _ else _))
      rw [handleHash, if_pos hget, if_neg hne, ← ht.entry, Table.entry, hfind]
      cases hfound : t.find b.data.key with
      | none => rfl
      | some node =>
          have hmem : node ∈ t.chain (hashString b.data.key) := List.mem_of_find?_eq_some hfound
          have hown : node.key = b.data.key := by simpa using List.find?_some hfound
          show Sent.mk _ (sendMessageFormat node []) = _
          rw [sendMessageFormat_eq (ht.sized.sized _ node hmem), if_pos (ht.keys _ node hmem).2,
            hown]
          rfl
    · have hne : ¬ b.data.operFlg = 0 := by
        rw [hset]
        decide
      show Sent.mk _ (handleHash t [] b.data []).reply = Sent.mk _ (some (if _ then _ else _))
      rw [handleHash, if_neg hne, if_pos hset, if_pos hset]

namespace HashThreads

/-- Every request that is queued is about a key of the family and has a small size. -/
def Asks (keys : Str → Prop) (_ : HashThreads n) (a : HashAct n) (_ : HashThreads n) : Prop :=
  match a with
  | .enqueueHash r _ _ => Plain keys r.node
  | _ => True

instance [DecidablePred keys] (s s' : HashThreads n) (a : HashAct n) :
    Decidable (Asks keys s a s') :=
  match a with
  | .enqueueHash r _ _ => inferInstanceAs (Decidable (Plain keys r.node))
  | .check _ | .spurious _ | .resume _ | .lock _ | .logSet _ | .insert _ | .get _ | .unlock _
  | .send _ _ | .close _ => inferInstanceAs (Decidable True)

theorem Asks.printable {s s' : HashThreads n} {a : HashAct n} (h : Asks keys s a s') :
    a.Printable := by
  cases a with
  | enqueueHash r fd wakes => exact h.2.2.1
  | _ => trivial

theorem calls_plain {s : HashThreads n}
    (h : (hashThreads n table log).ReachableVia (Asks keys) s) :
    ∀ i b, Event.call i b ∈ s.trace → Plain keys b.data := by
  refine System.ReachableVia.invariant
    (P := fun s : HashThreads n => ∀ i b, Event.call i b ∈ s.trace → Plain keys b.data)
    (fun _ _ h => absurd h List.not_mem_nil) ?_ s h
  intro s a s' hs hold hstep hasks i b hb
  rcases call_of_step (step_spec (reachable_wf hs.reachable) hstep).1 hb with
    hmem | ⟨r, fd, wakes, rfl, rfl⟩
  · exact hold i b hmem
  · exact hasks

/-- `A` and `B`. -/
def twoKeys (key : Str) : Prop := key = Str.ofBytes [65] ∨ key = Str.ofBytes [66]

instance : DecidablePred twoKeys := fun key =>
  inferInstanceAs (Decidable (key = Str.ofBytes [65] ∨ key = Str.ofBytes [66]))

theorem twoKeys_apart : Apart twoKeys := by
  intro k k' hk hk' _ hprefix
  rcases hk with rfl | rfl <;> rcases hk' with rfl | rfl
  · rfl
  · exact absurd hprefix (by decide)
  · exact absurd hprefix (by decide)
  · rfl

theorem empty_stored : Stored keys Table.empty fun _ => none :=
  ⟨rfl, ⟨Table.empty.placed, by simp [Table.empty]⟩, by simp [Table.empty]⟩

def setOfB : SetRequest := ⟨Str.ofBytes [66], 1, Str.ofBytes [13, 10, 114], by decide⟩

/-- `A` is set and then asked for, while a set of `B` is under way. -/
def setAnswerGet : List (HashAct 2) :=
  [.enqueueHash (.set setOfA) 7 none, .enqueueHash (.set setOfB) 8 none, .check w₀, .lock w₀,
    .logSet w₀, .insert w₀, .unlock w₀, .send w₀ [], .enqueueHash (.get setOfA.key) 9 none,
    .close w₀, .check w₁, .check w₀, .lock w₁, .logSet w₁, .insert w₁, .unlock w₁, .lock w₀,
    .get w₀, .unlock w₀, .send w₀ []]

theorem setAnswerGet_asks : (hashThreads 2 Table.empty []).ReachableVia (Asks twoKeys)
    ((hashThreads 2 Table.empty []).endOf setAnswerGet) :=
  System.endOf_reachableVia (by decide +kernel)

/-- **The server is an atomic map** from keys to values for requests about a family of
keys that are apart, with sizes of at most thirteen digits, from a table that stores the
map: its histories are those of a map whose operations happen one at a time, somewhere
between call and answer. -/
theorem atomic_map (hkeys : Apart keys) {m : Str → Option Entry} (htable : Stored keys table m)
    {s : HashThreads n} (h : (hashThreads n table log).ReachableVia (Asks keys) s) :
    Linearizes (mapSpec m) s.trace (commits s.trace) :=
  (linearizes_of_reachable htable.sized h.reachable).simulate (simulates_map hkeys htable)
    (calls_plain h)

theorem setAnswerGet_linearizes :
    Linearizes (mapSpec fun _ => none) ((hashThreads 2 Table.empty []).endOf setAnswerGet).trace
      (commits ((hashThreads 2 Table.empty []).endOf setAnswerGet).trace) :=
  atomic_map twoKeys_apart empty_stored setAnswerGet_asks

/-- Operations that do not set a key leave it alone. -/
theorem map_after_append {m : Str → Option Entry} {front rest : List (Nat × NodeHash)} {key : Str}
    (hrest : ∀ x ∈ rest, ¬ (x.2.data.operFlg = 1 ∧ x.2.data.key = key)) :
    (mapSpec m).after (front ++ rest) key = (mapSpec m).after front key := by
  induction rest using List.reverseRec with
  | nil => rw [List.append_nil]
  | append_singleton more x ih =>
      rw [← List.append_assoc, Spec.after_append_singleton, mapSpec_next,
        if_neg (hrest x (by simp))]
      exact ih fun y hy => hrest y (List.mem_append_left _ hy)

/-- **A get that is queued after a set was answered has its value**, if every other set
of the key was answered before that set was queued, or is queued after the get was
answered. The requests are about keys that are apart and have sizes of at most thirteen
digits, and the table at the start stores a map; a get of a key that begins another one of
its chain may find the other one's value. -/
theorem get_after_set (hkeys : Apart keys) {m : Str → Option Entry} (htable : Stored keys table m)
    {s : HashThreads n} (h : (hashThreads n table log).ReachableVia (Asks keys) s) {i j : Nat}
    {set get : NodeHash} (hset : Event.call i set ∈ s.trace) (hget : Event.call j get ∈ s.trace)
    (hsetFlg : set.data.operFlg = 1) (hgetFlg : get.data.operFlg = 0)
    (hkey : set.data.key = get.data.key) (hij : Precedes s.trace i j)
    (hothers : ∀ x b, x ≠ i → Event.call x b ∈ s.trace → b.data.operFlg = 1 →
      b.data.key = get.data.key → Precedes s.trace x i ∨ Precedes s.trace j x)
    {r : Sent} (hr : Event.answer j r ∈ s.trace) :
    r = ⟨get.sockFd, some (valueReply get.data.key set.data.userSize set.data.value)⟩ := by
  have hlin : Linearizes (mapSpec m) s.trace (commits s.trace) :=
    (linearizes_of_reachable htable.sized h.reachable).simulate (simulates_map hkeys htable)
      (calls_plain h)
  have htimed := (reachable_timely h.reachable).timed
  obtain ⟨pre, op, post, hl, rfl⟩ := hlin.answers j r hr
  obtain ⟨front, a, rest, rfl, hrest⟩ := hlin.between hij hl
  obtain rfl : get = op :=
    call_unique htimed hget (hlin.called (j, op) (by rw [hl]; simp))
  obtain rfl : set = a :=
    call_unique htimed hset (hlin.called (i, a) (by rw [hl]; simp))
  have hnone : ∀ x ∈ rest, ¬ (x.2.data.operFlg = 1 ∧ x.2.data.key = get.data.key) := by
    intro x hx hbad
    have hcall : Event.call x.1 x.2 ∈ s.trace := hlin.called x (by rw [hl]; simp [hx])
    obtain ⟨hne, hbefore, hafter⟩ := hrest x hx
    rcases hothers x.1 x.2 hne hcall hbad.1 hbad.2 with hprec | hprec
    · exact hbefore hprec
    · exact hafter hprec
  have hafter : (mapSpec m).after (front ++ (i, set) :: rest) get.data.key =
      some set.data.entry := by
    rw [List.append_cons, map_after_append hnone, Spec.after_append_singleton, mapSpec_next,
      if_pos ⟨hsetFlg, hkey⟩]
  show Sent.mk _ (some (if get.data.operFlg = 1 then _ else _)) = _
  rw [if_neg (by rw [hgetFlg]; decide), hafter]
  rfl

/-- The get is answered with `x`. -/
theorem setAnswerGet_value :
    let x : Sent := ⟨9, some [86, 65, 76, 85, 69, 32, 65, 32, 49, 13, 10, 113, 13, 10, 69, 78, 68,
      13, 10]⟩
    Event.answer 2 x ∈ ((hashThreads 2 Table.empty []).endOf setAnswerGet).trace ∧
      x = ⟨9, some (valueReply setOfA.key setOfA.userSize setOfA.value)⟩ := by
  intro x
  have hr : Event.answer 2 x ∈ ((hashThreads 2 Table.empty []).endOf setAnswerGet).trace := by
    decide +kernel
  have hset : Event.call 0 (NodeHash.mk setOfA.node 7) ∈
      ((hashThreads 2 Table.empty []).endOf setAnswerGet).trace := by decide +kernel
  have hget : Event.call 2 (NodeHash.mk (Request.get setOfA.key).node 9) ∈
      ((hashThreads 2 Table.empty []).endOf setAnswerGet).trace := by decide +kernel
  have hij : Precedes ((hashThreads 2 Table.empty []).endOf setAnswerGet).trace 0 2 :=
    ⟨⟨7, some storedText⟩, ⟨(Request.get setOfA.key).node, 9⟩, by decide +kernel⟩
  have hothers : (((hashThreads 2 Table.empty []).endOf setAnswerGet).trace.all fun e =>
      match e with
      | .call x b => x = 0 || b.data.operFlg ≠ 1 || b.data.key ≠ setOfA.key
      | _ => true) = true := by decide +kernel
  refine ⟨hr, get_after_set twoKeys_apart empty_stored setAnswerGet_asks hset hget rfl rfl rfl hij
    (fun y b hy hb hflg hkey => ?_) hr⟩
  have h := List.all_eq_true.mp hothers _ hb
  simp only [Bool.or_eq_true, decide_eq_true_eq] at h
  rcases h with (h | h) | h
  · exact absurd h hy
  · exact absurd hflg h
  · exact absurd hkey h

end HashThreads

end DistKv.Memcache
