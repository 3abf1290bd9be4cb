import DistKv.Memcache.Server

/-!
# Which set a get answers with

A chain holds the sets of its keys, newest first, so `get_node` finds the
newest set whose key hashes to the chain of the asked key and agrees with it
over the length of the asked key. A get is answered with the last set of its
own key exactly as long as that set is the one found, and its size is short
enough for the reply buffer.
-/

namespace DistKv.Memcache

open CText FirstMatch History

/-! ## What the workers keep -/

/-- The chains hold the sets that were handled, newest first. -/
def Table.Reflects (t : Table) (served : List Served) : Prop :=
  ∀ i, t.chain i = ((sets served).filter fun node => hashString node.key = i).reverse

/-- The reply is the one `handle_hash` gives on the table of that moment. -/
def Answered (before : List Served) (e : Served) : Prop :=
  ∃ table log heap, Table.Reflects table before ∧
    e.reply = (handleHash table log e.node heap).reply

/-- What holds between two steps of the workers. -/
structure Inv (s : State) : Prop where
  chains : s.table.Reflects s.served
  log : s.log = (sets s.served).flatMap logRecord
  replies : AtEvents Answered s.served

theorem inv_init : Inv init := ⟨fun _ => rfl, rfl, atEvents_nil _⟩

theorem sets_singleton (node : KvNode) (reply : Option (List UInt8)) :
    sets [⟨node, reply⟩] = if node.operFlg = 1 then [node] else [] := by
  by_cases h : node.operFlg = 1 <;> simp [sets, h]

/-- One handled node: the table and the log take it in if it is a set. -/
theorem handleHash_spec {table : Table} {log : List UInt8} {served : List Served}
    (htable : table.Reflects served) (hlog : log = (sets served).flatMap logRecord)
    (node : KvNode) (heap : List UInt8) (reply : Option (List UInt8)) :
    (handleHash table log node heap).table.Reflects (served ++ [⟨node, reply⟩]) ∧
      (handleHash table log node heap).log =
        (sets (served ++ [⟨node, reply⟩])).flatMap logRecord := by
  rw [sets_append, sets_singleton]
  unfold handleHash Table.Reflects
  simp only [sets_append, sets_singleton]
  by_cases hget : node.operFlg = 0
  · rw [if_pos hget, if_neg (by rw [hget]; decide), List.append_nil]
    cases table.getNode node.key with
    | none => exact ⟨htable, hlog⟩
    | some found => exact ⟨htable, hlog⟩
  · rw [if_neg hget]
    by_cases hset : node.operFlg = 1
    · rw [if_pos hset, if_pos hset]
      refine ⟨fun i => ?_, by simp [hlog]⟩
      show (table.insertNode node).chain i = _
      rw [Table.chain_insertNode, htable i, List.filter_append, List.reverse_append]
      by_cases hi : hashString node.key = i <;> simp [hi]
    · rw [if_neg hset, if_neg hset, List.append_nil]
      exact ⟨htable, hlog⟩

theorem Inv.step {s s' : State} {a : Act} (hs : Inv s) (h : step s a = some s') : Inv s' := by
  cases a with
  | enqueueHash r =>
      obtain rfl := Option.some.inj h
      exact ⟨hs.chains, hs.log, hs.replies⟩
  | dequeueHash =>
      simp only [Memcache.step] at h
      cases hq : s.queue with
      | nil => simp [hq] at h
      | cons node rest =>
          simp only [hq] at h
          by_cases hidle : s.taken.length < hashPool
          · rw [if_pos hidle, Option.some.injEq] at h
            subst h
            exact ⟨hs.chains, hs.log, hs.replies⟩
          · simp [hidle] at h
  | handleHash i heap =>
      simp only [Memcache.step, Option.map_eq_some_iff] at h
      obtain ⟨node, hnode, rfl⟩ := h
      obtain ⟨hchains, hlog⟩ := handleHash_spec hs.chains hs.log node heap
        (handleHash s.table s.log node heap).reply
      refine ⟨hchains, hlog, ?_⟩
      rw [atEvents_append_singleton]
      exact ⟨hs.replies, s.table, s.log, heap, hs.chains, rfl⟩

theorem reachable_inv {G : State → Act → State → Prop} {s : State}
    (hs : server.ReachableVia G s) : Inv s :=
  Transition.System.ReachableVia.invariant (P := Inv) inv_init
    (fun _ _ _ _ hold hstep _ => hold.step hstep) s hs

/-! ## The reply to a get -/

/-- The node is in the chain of `key`, and its key begins with `key`. -/
def beginsWith (key : Str) (node : KvNode) : Bool :=
  hashString node.key = hashString key && Str.eqFirst key.length node.key key

/-- The newest set of exactly `key`. -/
def lastSet (key : Str) (served : List Served) : Option KvNode :=
  latest (fun node => node.key = key) (sets served)

/-- `get_node` finds the newest set in the chain whose key begins with the asked one. -/
theorem getNode_eq {t : Table} {served : List Served} (h : t.Reflects served) (key : Str) :
    t.getNode key = latest (beginsWith key) (sets served) := by
  unfold Table.getNode latest
  rw [h, ← List.filter_reverse, List.find?_filter]
  refine congrArg (fun p => List.find? p _) (funext fun node => ?_)
  simp [beginsWith]

/-- The reply the sets before it demand of a get. -/
def expectedReply (before : List Served) (key : Str) : List UInt8 :=
  match lastSet key before with
  | none => errGet
  | some own => valueReply key own.userSize own.value

/-- A get is answered with the last set of its key. -/
def LastWriteWins (before : List Served) (e : Served) : Prop :=
  e.node.operFlg = 0 → e.reply = some (expectedReply before e.node.key)

instance (before : List Served) (e : Served) : Decidable (LastWriteWins before e) :=
  inferInstanceAs (Decidable (_ → _ = _))

/-- What follows the asked key in the reply. -/
def afterKey (key : Str) (node : KvNode) : List UInt8 :=
  node.key.bytes.drop key.length ++ 32 :: Decimal.digits node.userSize.toNat ++ node.value.bytes

/-- `found` answers for `key`: its size is short enough, and it is a set of
`key`, or at least it spells out the same bytes as the last set of `key`. -/
def AnswersFor (before : List Served) (key : Str) (found : KvNode) : Prop :=
  found.userSize.toNat < 10 ^ 13 ∧
    (found.key = key ∨ ∃ own ∈ lastSet key before, afterKey key found = afterKey key own)

instance (before : List Served) (key : Str) (found : KvNode) :
    Decidable (AnswersFor before key found) :=
  inferInstanceAs (Decidable (_ ∧ (_ ∨ ∃ own ∈ lastSet key before, _)))

/-- The newest set in the chain whose key begins with the asked key answers for it. -/
def Unshadowed (before : List Served) (e : Served) : Prop :=
  e.node.operFlg = 0 →
    ∀ found ∈ latest (beginsWith e.node.key) (sets before), AnswersFor before e.node.key found

instance (before : List Served) (e : Served) : Decidable (Unshadowed before e) :=
  inferInstanceAs (Decidable (_ → ∀ found ∈ latest _ _, AnswersFor before e.node.key found))

theorem beginsWith_of_key_eq {key : Str} {node : KvNode} (h : node.key = key) :
    beginsWith key node = true := by
  simp [beginsWith, h, Str.eqFirst]

theorem valueReply_eq {key : Str} {node : KvNode} (h : key.bytes <+: node.key.bytes) :
    valueReply node.key node.userSize node.value =
      valueText ++ key.bytes ++ afterKey key node ++ endText := by
  obtain ⟨rest, hrest⟩ := h
  simp [valueReply, afterKey, ← hrest, Str.length]

theorem valueReply_ne_errGet {key : Str} {userSize : UInt64} {value : Str} :
    valueReply key userSize value ≠ errGet := by
  simp [valueReply, valueText, errGet]

/-- **A get is answered with the last set of its key if and only if that set is
not shadowed.** -/
theorem lastWriteWins_iff {before : List Served} {e : Served}
    (hbefore : ∀ node ∈ sets before, node.valueSize = node.value.length) (h : Answered before e) :
    LastWriteWins before e ↔ Unshadowed before e := by
  obtain ⟨table, log, heap, htable, hreply⟩ := h
  refine forall_congr' fun hget => ?_
  have hnode := getNode_eq htable e.node.key
  rw [hreply, handleHash, if_pos hget, hnode]
  unfold expectedReply
  cases hfound : latest (beginsWith e.node.key) (sets before) with
  | none =>
      have hnone : lastSet e.node.key before = none := by
        rw [lastSet, latest_eq_none_iff]
        rw [latest_eq_none_iff] at hfound
        intro node hmem
        have hnot := hfound node hmem
        simp only [decide_eq_false_iff_not]
        exact fun hkey => by simp [beginsWith_of_key_eq hkey] at hnot
      simp [hnone]
  | some found =>
      obtain ⟨hbegins, hmem⟩ := of_latest_eq_some hfound
      simp only [beginsWith, Bool.and_eq_true, Str.eqFirst_length] at hbegins
      show sendMessageFormat found heap = some _ ↔ _
      rw [sendMessageFormat_eq (hbefore found hmem)]
      simp only [Option.mem_some_iff, forall_eq', AnswersFor]
      by_cases hsmall : found.userSize.toNat < 10 ^ 13
      · simp only [hsmall, if_true, Option.some.injEq, true_and]
        by_cases hkey : found.key = e.node.key
        · -- the set that is found is the last set of the key
          have hlast : lastSet e.node.key before = some found :=
            latest_of_imp hfound (fun y hy => beginsWith_of_key_eq (by simpa using hy))
              (by simpa using hkey)
          simp [hlast, hkey]
        · simp only [hkey, false_or]
          cases hlast : lastSet e.node.key before with
          | none => simp [valueReply_ne_errGet]
          | some own =>
              have hown := (of_latest_eq_some hlast).1
              simp only [decide_eq_true_eq] at hown
              simp only [Option.mem_some_iff, exists_eq_left']
              have howned : own.key.bytes <+: own.key.bytes := List.prefix_rfl
              rw [← hown] at hbegins ⊢
              rw [valueReply_eq hbegins.2, valueReply_eq howned]
              simp
      · simp only [hsmall, if_false, reduceCtorEq, false_and]

/-- **Last write wins**, in every run in which no get finds a newer set whose
key only begins with the asked one, or a size that is too long; and in no other. -/
theorem last_write_wins_iff {s : State} (hs : server.Reachable s) :
    AtEvents LastWriteWins s.served ↔ AtEvents Unshadowed s.served := by
  have hanswered : AtEvents (fun before e => (∀ node ∈ sets before,
      node.valueSize = node.value.length) ∧ Answered before e) s.served := by
    intro before e after hsplit
    refine ⟨fun node hnode => ?_, (reachable_inv hs).replies before e after hsplit⟩
    obtain ⟨d, hd, rfl⟩ := List.mem_map.mp (List.mem_filter.mp hnode).1
    have hmem : d.node ∈ s.nodes := List.mem_append_right _
      (List.mem_map_of_mem (by rw [hsplit]; exact List.mem_append_left _ hd))
    obtain ⟨r, -, hr⟩ := reachable_nodes (Q := fun _ => True) (fun _ _ _ _ => trivial) hs _ hmem
    rw [hr]
    exact r.valueSize_eq
  exact hanswered.congr fun before e h => lastWriteWins_iff h.1 h.2

/-- A set of `A`, and a get of it. -/
def plainRun : List Act :=
  [.enqueueHash (.set ⟨Str.ofBytes [65], 20, Str.ofBytes [13, 10, 120], by decide⟩), .dequeueHash,
    .handleHash 0 [], .enqueueHash (.get (Str.ofBytes [65])), .dequeueHash, .handleHash 0 []]

theorem plain_last_write_wins : AtEvents LastWriteWins (server.endOf plainRun).served :=
  (last_write_wins_iff (Transition.System.endOf_reachable plainRun)).mpr (by decide +kernel)

/-- Sets of `A` and of `A0`, which hash to one chain, and a get of `A`. -/
def shadowRun : List Act :=
  [.enqueueHash (.set ⟨Str.ofBytes [65], 20, Str.ofBytes [13, 10, 120], by decide⟩), .dequeueHash,
    .handleHash 0 [],
    .enqueueHash (.set ⟨Str.ofBytes [65, 48], 30, Str.ofBytes [13, 10, 121], by decide⟩),
    .dequeueHash, .handleHash 0 [],
    .enqueueHash (.get (Str.ofBytes [65])), .dequeueHash, .handleHash 0 []]

/-- The get of `A` is answered with the set of `A0`. -/
theorem shadow_last_write_loses : server.Reachable (server.endOf shadowRun) ∧
    ¬ AtEvents LastWriteWins (server.endOf shadowRun).served :=
  ⟨Transition.System.endOf_reachable shadowRun, by decide +kernel⟩

end DistKv.Memcache
