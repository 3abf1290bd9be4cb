import DistKv.Memcache.LastWrite
import DistKv.Memcache.LogLines

/-!
# What a restart recovers of the keys

The lines of the log are the lines of its records one after the other, and what
a line does to the keys and sizes depends on the line alone. So the keys and
sizes survive a restart for every workload whose sets survive it each on its
own: the further lines of a record must not speak of another key, and what is
read last must be the sizes of the record.
-/

namespace DistKv.Memcache

open CText FirstMatch

/-! ## Workloads -/

/-- Nothing but the sets in `R` is set. -/
def SetsIn (R : SetRequest → Prop) (_ : State) (a : Act) (_ : State) : Prop :=
  match a with
  | .enqueueHash (.set r) => R r
  | _ => True

theorem reachable_sets {R : SetRequest → Prop} {s : State}
    (hs : server.ReachableVia (SetsIn R) s) {node : KvNode} (hnode : node ∈ sets s.served) :
    ∃ r, R r ∧ node = r.node := by
  have hQ : ∀ s r s', SetsIn R s (.enqueueHash r) s' → ∀ x, r = .set x → R x := by
    rintro s r s' hr x rfl
    exact hr
  obtain ⟨hmem, hflg⟩ := List.mem_filter.mp hnode
  obtain ⟨r, hr, rfl⟩ := reachable_nodes hQ hs node (List.mem_append_right _ hmem)
  cases r with
  | get key => exact absurd hflg (by simp [Request.node, createNode])
  | set r => exact ⟨r, hr r rfl, rfl⟩

/-- A run of one set, from its arrival to its record. -/
theorem solo_reachable {R : SetRequest → Prop} {r : SetRequest} (hr : R r) :
    ∃ s, server.ReachableVia (SetsIn R) s ∧ s.log = logRecord r.node ∧
      s.served = [⟨r.node, some storedText⟩] := by
  let s₁ : State := { init with queue := [r.node] }
  let s₂ : State := { init with taken := [r.node] }
  let s₃ : State := { init with
    table := Table.empty.insertNode r.node
    log := logRecord r.node
    served := [⟨r.node, some storedText⟩] }
  have h₁ : server.ReachableVia (SetsIn R) s₁ :=
    .step (a := Act.enqueueHash (.set r)) .init rfl hr
  have h₂ : server.ReachableVia (SetsIn R) s₂ := h₁.step (a := Act.dequeueHash) rfl trivial
  exact ⟨s₃, h₂.step (a := Act.handleHash 0 []) rfl trivial, rfl, rfl⟩

/-! ## Keys and sizes -/

def KvNode.sizes (node : KvNode) : UInt64 × Nat := (node.userSize, node.valueSize)

/-- The keys of the table are those that were set, with the sizes of their last set. -/
structure KeysReplayed (served : List Served) (t : Table) : Prop where
  keys : ∀ key, t.Holds key ↔ ∃ node ∈ sets served, node.key = key
  sizes : ∀ key, ∀ node ∈ lastSet key served, t.sizes key = some (node.userSize, node.valueSize)

theorem Table.holds_iff_sizes {t : Table} {key : Str} :
    t.Holds key ↔ (t.sizes key).isSome = true := by
  rw [holds_iff, sizes, Option.isSome_map]

theorem lastSet_isSome_iff {served : List Served} {key : Str} :
    (lastSet key served).isSome = true ↔ ∃ node ∈ sets served, node.key = key := by
  rw [Option.isSome_iff_ne_none, Ne, lastSet, latest_eq_none_iff]
  simp

theorem lastSet_singleton {node : KvNode} (hset : node.operFlg = 1) (reply : Option (List UInt8))
    (key : Str) :
    lastSet key [⟨node, reply⟩] = if node.key = key then some node else none := by
  rw [lastSet, sets_singleton, if_pos hset]
  by_cases hkey : node.key = key <;> simp [latest, hkey]

theorem mem_sets_of_lastSet {served : List Served} {key : Str} {node : KvNode}
    (h : node ∈ lastSet key served) : node ∈ sets served :=
  (of_latest_eq_some h).2

theorem keysReplayed_iff {served : List Served} {t : Table} :
    KeysReplayed served t ↔ ∀ key, t.sizes key = (lastSet key served).map KvNode.sizes := by
  constructor
  · intro h key
    cases hlast : lastSet key served with
    | none =>
        have hnot : ¬ t.Holds key := by
          rw [h.keys, ← lastSet_isSome_iff, hlast]
          simp
        rw [Table.holds_iff_sizes] at hnot
        simpa using hnot
    | some node => exact h.sizes key node hlast
  · intro h
    refine ⟨fun key => ?_, fun key node hnode => ?_⟩
    · rw [Table.holds_iff_sizes, h, Option.isSome_map, lastSet_isSome_iff]
    · rw [h, hnode]
      rfl

/-- The record of the node is read back as one or more records of its key, with
its sizes in the last. -/
structure SurvivesAlone (node : KvNode) : Prop where
  quiet : ∀ line ∈ recordLines node, ¬ Overruns line
  own : ∀ x ∈ records node, x.key = node.key
  last : (records node).getLast? = some ⟨node.key, node.userSize, node.valueSize⟩

/-- The replay of a log of records that overrun nothing. -/
theorem initHashFromLog_sizes (nodes : List KvNode) (junk : Vector UInt8 valueRoom)
    (h : ∀ node ∈ nodes, ∀ line ∈ recordLines node, ¬ Overruns line) :
    ∃ t, initHashFromLog Table.empty junk (nodes.flatMap logRecord) = some t ∧
      ∀ key, t.sizes key =
        (latest (fun x => x.key = key) (nodes.flatMap records)).map Record.sizes := by
  have hlines : ∀ line ∈ nodes.flatMap recordLines, line.length ≤ lineRoom := fun line hline => by
    obtain ⟨node, -, hline⟩ := List.mem_flatMap.mp hline
    exact length_of_mem_readLines hline
  obtain ⟨st, hst, hsizes⟩ := replay_sizes hlines ⟨Table.empty, junk.toList⟩ (by simp)
    fun line hline => by
      obtain ⟨node, hnode, hline⟩ := List.mem_flatMap.mp hline
      exact h node hnode line hline
  refine ⟨st.table, ?_, fun key => ?_⟩
  · rw [initHashFromLog, readLines_log, hst, Option.map_some]
  · rw [hsizes key, List.filterMap_flatMap]
    exact Option.or_none

/-- The last record of a key is that of its last set. -/
theorem latest_records {nodes : List KvNode} (h : ∀ node ∈ nodes, SurvivesAlone node) (key : Str) :
    (latest (fun x => x.key = key) (nodes.flatMap records)).map Record.sizes =
      (latest (fun node => node.key = key) nodes).map KvNode.sizes := by
  induction nodes using List.reverseRec with
  | nil => rfl
  | append_singleton rest node ih =>
      have hnode := h node (by simp)
      rw [List.flatMap_append, List.flatMap_singleton, latest_append, latest_append_singleton]
      by_cases hkey : node.key = key
      · rw [latest_eq_getLast? fun x hx => by simpa [hnode.own x hx] using hkey, hnode.last]
        simp [hkey, Record.sizes, KvNode.sizes]
      · have hnone : latest (fun x => x.key = key) (records node) = none := by
          rw [latest_eq_none_iff]
          intro x hx
          simpa [hnode.own x hx] using hkey
        simpa [hnone, hkey] using ih fun y hy => h y (List.mem_append_left _ hy)

/-- From a log of sets that survive alone the keys and sizes are recovered. -/
theorem keysReplayed_of_survivesAlone {R : SetRequest → Prop} {s : State}
    (hs : server.ReachableVia (SetsIn R) s) (h : ∀ r, R r → SurvivesAlone r.node)
    (junk : Vector UInt8 valueRoom) :
    ∃ t, initHashFromLog Table.empty junk s.log = some t ∧ KeysReplayed s.served t := by
  have hsets : ∀ node ∈ sets s.served, SurvivesAlone node := fun node hnode => by
    obtain ⟨r, hr, rfl⟩ := reachable_sets hs hnode
    exact h r hr
  obtain ⟨t, ht, hsizes⟩ := initHashFromLog_sizes _ junk fun node hnode => (hsets node hnode).quiet
  refine ⟨t, by rw [(reachable_inv hs).log]; exact ht, keysReplayed_iff.mpr fun key => ?_⟩
  rw [hsizes key, latest_records hsets key]
  rfl

/-- A set whose own log is replayed without a fault overruns nothing. -/
theorem quiet_of_solo {node : KvNode} {junk : Vector UInt8 valueRoom} {t : Table}
    (h : initHashFromLog Table.empty junk (logRecord node) = some t) :
    ∀ line ∈ recordLines node, ¬ Overruns line := by
  intro line hline hover
  have hlines : ∀ line ∈ recordLines node, line.length ≤ lineRoom := fun line hline =>
    length_of_mem_readLines hline
  rw [initHashFromLog] at h
  change ((recordLines node).foldlM replayLine _).map _ = _ at h
  rw [replay_eq_none hlines (by simp) ⟨line, hline, hover⟩] at h
  simp at h

/-- What the replay of one record makes of the sizes. -/
theorem sizes_of_solo {node : KvNode} {junk : Vector UInt8 valueRoom} {t : Table}
    (h : initHashFromLog Table.empty junk (logRecord node) = some t) (key : Str) :
    t.sizes key = (latest (fun x => x.key = key) (records node)).map Record.sizes := by
  obtain ⟨t', ht', hsizes⟩ := initHashFromLog_sizes [node] junk fun x hx => by
    rw [List.mem_singleton] at hx
    exact hx ▸ quiet_of_solo h
  simp only [List.flatMap_cons, List.flatMap_nil, List.append_nil] at ht' hsizes
  obtain rfl := Option.some.inj (h.symm.trans ht')
  exact hsizes key

/-- A set that is recovered from a log of its own survives alone. -/
theorem survivesAlone_of_solo {node : KvNode} {junk : Vector UInt8 valueRoom} {t : Table}
    {reply : Option (List UInt8)} (hset : node.operFlg = 1)
    (h : initHashFromLog Table.empty junk (logRecord node) = some t)
    (hkeys : KeysReplayed [⟨node, reply⟩] t) : SurvivesAlone node := by
  have hsizes : ∀ key, (latest (fun x => x.key = key) (records node)).map Record.sizes =
      (if node.key = key then some node else none).map KvNode.sizes := fun key => by
    rw [← sizes_of_solo h key, keysReplayed_iff.mp hkeys key, lastSet_singleton hset]
  have hown : ∀ x ∈ records node, x.key = node.key := by
    intro x hx
    by_contra hne
    have hnone := hsizes x.key
    rw [if_neg (Ne.symm hne), Option.map_none, Option.map_eq_none_iff, latest_eq_none_iff] at hnone
    simpa using hnone x hx
  refine ⟨quiet_of_solo h, hown, ?_⟩
  have hsome := hsizes node.key
  rw [if_pos rfl, latest_eq_getLast? fun x hx => by simpa using hown x hx] at hsome
  obtain ⟨x, hx, hxsizes⟩ := Option.map_eq_some_iff.mp hsome
  obtain ⟨huser, hvalue⟩ := Prod.mk.inj hxsizes
  rw [hx, ← hown x (List.mem_of_getLast? hx), ← huser, ← hvalue]

/-! ### Which sets survive -/

/-- The set is read back from its record: it has a key that `sscanf` reads and
that fits, a value that is not too long, and further lines that speak of its own
key only. What is read last are its sizes, in the first line or in a further one. -/
structure Replayable (r : SetRequest) : Prop where
  word : IsWord r.key.bytes
  key_lt : r.key.length < keyRoom
  value_lt : r.value.length < valueRoom
  quiet : ∀ line ∈ otherLines r.node, ¬ Overruns line
  own : ∀ x ∈ otherRecords r.node, x.key = r.key
  last : match (otherRecords r.node).getLast? with
    | none => ∀ c ∈ (valueCut r.node).1, isSpace c = true
    | some x => x.sizes = (r.userSize, r.value.length)

/-- What a line of a record is taken for has a key that fits and a size that fits. -/
theorem ofLine_recordLines {node : KvNode} {line : List UInt8} (hline : line ∈ recordLines node)
    (hquiet : ¬ Overruns line) {x : Record} (hx : Record.ofLine line = some x) :
    IsWord x.key.bytes ∧ x.key.length < keyRoom ∧ x.valueSize < valueRoom := by
  have hzero : (0 : UInt8) ∉ line := fun h0 =>
    zero_not_mem_logRecord node (mem_of_mem_readLines (by decide) hline h0)
  obtain ⟨hword, hlen, hsize, -⟩ := ofLine_spec hzero hx
  exact ⟨hword, hlen hquiet, hsize⟩

theorem zero_not_mem_valueCut (node : KvNode) : (0 : UInt8) ∉ (valueCut node).1 := by
  intro h0
  have h : (0 : UInt8) ∈ node.value.bytes ++ [10] := by
    rw [← valueCut_append]
    exact List.mem_append_left _ h0
  rcases List.mem_append.mp h with h | h
  · exact node.value.noNul h
  · exact absurd h (by decide)

section replayable

variable {r : SetRequest}

/-- The records of a set whose key is read and fits. -/
theorem records_eq (hkey : IsWord r.key.bytes) (hlen : r.key.length < keyRoom) :
    records r.node = (Record.ofLine (recordHead r.node ++ (valueCut r.node).1)).toList ++
      otherRecords r.node := by
  unfold records otherRecords
  rw [recordLines_eq r.node hkey hlen r.value_lt, List.filterMap_cons]
  cases Record.ofLine (recordHead r.node ++ (valueCut r.node).1) <;> rfl

/-- The last record tells that the key and the value fit. -/
theorem replayable_of_survivesAlone (h : SurvivesAlone r.node) : Replayable r := by
  have hcut := zero_not_mem_valueCut r.node
  obtain ⟨line, hline, hx⟩ := List.mem_filterMap.mp (List.mem_of_getLast? h.last)
  obtain ⟨hword, hlen, hsize⟩ := ofLine_recordLines hline (h.quiet line hline) hx
  have hlines := recordLines_eq r.node hword hlen r.value_lt
  have hrecords := records_eq hword hlen
  refine ⟨hword, hlen, hsize, fun line hline => h.quiet line ?_, fun x hx => h.own x ?_, ?_⟩
  · rw [hlines]
    exact List.mem_cons_of_mem _ hline
  · rw [hrecords]
    exact List.mem_append_right _ hx
  · have hlast := h.last
    rw [hrecords, List.getLast?_append] at hlast
    cases hother : (otherRecords r.node).getLast? with
    | some x =>
        rw [hother, Option.some_or, Option.some.injEq] at hlast
        rw [hlast]
        rfl
    | none =>
        rw [hother, Option.none_or, ofLine_head r.node hword r.value_lt hcut] at hlast
        by_contra hblank
        simp only at hblank
        simp [hblank] at hlast

theorem key_of_mem_records (h : Replayable r) {x : Record} (hx : x ∈ records r.node) :
    x.key = r.key := by
  rw [records_eq h.word h.key_lt, List.mem_append] at hx
  rcases hx with hx | hx
  · have hhead := ofLine_head r.node h.word r.value_lt (zero_not_mem_valueCut r.node)
    rw [Option.mem_toList, hhead] at hx
    split at hx
    · rw [← Option.some.inj hx]
      rfl
    · cases hx
  · exact h.own x hx

theorem survivesAlone_of_replayable (h : Replayable r) : SurvivesAlone r.node := by
  have hcut := zero_not_mem_valueCut r.node
  have hlines := recordLines_eq r.node h.word h.key_lt r.value_lt
  have hrecords := records_eq h.word h.key_lt
  have hhead := ofLine_head r.node h.word r.value_lt hcut
  refine ⟨fun line hline => ?_, fun x hx => key_of_mem_records h hx, ?_⟩
  · rw [hlines] at hline
    rcases List.mem_cons.mp hline with rfl | hline
    · rw [overruns_head_iff r.node h.word r.value_lt hcut]
      exact not_not_intro h.key_lt
    · exact h.quiet line hline
  · have hlast := h.last
    rw [hrecords, List.getLast?_append]
    cases hother : (otherRecords r.node).getLast? with
    | some x =>
        rw [hother] at hlast
        obtain ⟨huser, hvalue⟩ := Prod.mk.inj hlast
        have hkey := h.own x (List.mem_of_getLast? hother)
        obtain ⟨key, userSize, valueSize⟩ := x
        obtain rfl : key = r.key := hkey
        obtain rfl : userSize = r.userSize := huser
        obtain rfl : valueSize = r.value.length := hvalue
        rfl
    | none =>
        rw [hother] at hlast
        rw [hhead, if_pos ⟨List.all_eq_true.mpr hlast, h.value_lt⟩]
        rfl

/-- **A set survives on its own exactly if it is replayable.** -/
theorem survivesAlone_iff : SurvivesAlone r.node ↔ Replayable r :=
  ⟨replayable_of_survivesAlone, survivesAlone_of_replayable⟩

end replayable

/-- **Replay neither invents nor loses keys**, nor takes a wrong size for one, after
every run of sets that are replayable each on its own; a set that is not is
replayed wrongly after the run that sets nothing else. -/
theorem keys_replayed_iff {R : SetRequest → Prop} :
    (∀ s, server.ReachableVia (SetsIn R) s → ∀ junk : Vector UInt8 valueRoom,
      ∃ t, initHashFromLog Table.empty junk s.log = some t ∧ KeysReplayed s.served t) ↔
      ∀ r, R r → Replayable r := by
  constructor
  · intro h r hr
    obtain ⟨s, hs, hlog, hserved⟩ := solo_reachable hr
    obtain ⟨t, ht, hkeys⟩ := h s hs (Vector.replicate valueRoom 0)
    rw [hlog] at ht
    rw [hserved] at hkeys
    exact survivesAlone_iff.mp (survivesAlone_of_solo rfl ht hkeys)
  · intro h s hs junk
    exact keysReplayed_of_survivesAlone hs (fun r hr => survivesAlone_iff.mpr (h r hr)) junk

/-! ### Clients that send one line -/

/-- A line that does not begin with `SET` is taken for nothing. -/
theorem scanRecord_other {line : List UInt8} (h : ¬ [83, 69, 84] <+: line) :
    scanRecord line = {} := by
  unfold scanRecord
  split
  · exact absurd ⟨_, rfl⟩ h
  · rfl

/-- What a client sends survives: the line break behind the key, and a text that
is one line of the log and does not begin with `SET`. -/
theorem replayable_of_oneLine {r : SetRequest} {text : List UInt8} (hkey : IsWord r.key.bytes)
    (hlen : r.key.length < keyRoom) (hvalue : r.value.bytes = 13 :: 10 :: text)
    (hline : (10 : UInt8) ∉ text) (htext : text.length < lineRoom)
    (hset : ¬ [83, 69, 84] <+: text) : Replayable r := by
  have hcut : valueCut r.node = ([13, 10], text ++ [10]) := by
    have hhead := recordHead_length_le r.node hlen r.value_lt
    obtain ⟨k, hk⟩ : ∃ k, lineRoom - (recordHead r.node).length = k + 2 :=
      ⟨lineRoom - (recordHead r.node).length - 2, by unfold lineRoom; omega⟩
    rw [valueCut, hk]
    show fgets (k + 2) (r.value.bytes ++ [10]) = _
    rw [hvalue]
    rfl
  have hlines : otherLines r.node = [text ++ [10]] := by
    obtain ⟨k, hk⟩ : ∃ k, lineRoom - text.length = k + 1 :=
      ⟨lineRoom - text.length - 1, by omega⟩
    rw [otherLines, hcut, readLines_of_ne_nil (by decide) (by simp), fgets_head hline htext.le, hk]
    rfl
  have hscan : scanRecord (Str.ofBytes (text ++ [10])).bytes = {} := by
    have hzero : (0 : UInt8) ∉ text := fun h => r.value.noNul (by simp [hvalue, h])
    rw [Str.ofBytes_bytes_of_not_mem (by simp [hzero])]
    refine scanRecord_other fun hpre => ?_
    rcases List.prefix_concat_iff.mp hpre with heq | hpre
    · exact absurd (congrArg List.getLast? heq) (by simp)
    · exact hset hpre
  have hnone : otherRecords r.node = [] := by
    rw [otherRecords, hlines]
    simp [Record.ofLine, hscan]
  refine ⟨hkey, hlen, ?_, ?_, ?_, ?_⟩
  · rw [Str.length, hvalue]
    simp only [List.length_cons, lineRoom, valueRoom] at htext ⊢
    omega
  · intro line hmem
    rw [hlines, List.mem_singleton] at hmem
    rw [hmem, Overruns, hscan]
    decide
  · simp [hnone]
  · rw [hnone, hcut]
    show ∀ c ∈ [13, 10], isSpace c = true
    exact List.all_eq_true.mp (by decide)

/-- A set of `A` to a value whose second line is a record of `B`. -/
def smuggleRun : List Act :=
  [.enqueueHash (.set ⟨Str.ofBytes [65], 20,
      Str.ofBytes [13, 10, 83, 69, 84, 32, 66, 32, 55, 32, 48], by decide⟩), .dequeueHash,
    .handleHash 0 []]

/-- The restart invents the key `B`. -/
theorem smuggled_key_invented : server.Reachable (server.endOf smuggleRun) ∧
    ¬ ∃ t, initHashFromLog Table.empty (Vector.replicate valueRoom 0)
        (server.endOf smuggleRun).log = some t ∧
      KeysReplayed (server.endOf smuggleRun).served t := by
  refine ⟨Transition.System.endOf_reachable smuggleRun, ?_⟩
  rintro ⟨t, ht, hkeys⟩
  have hheld : (initHashFromLog Table.empty (Vector.replicate valueRoom 0)
      (server.endOf smuggleRun).log).map (fun t => (t.sizes (Str.ofBytes [66])).isSome) =
        some true := by
    decide +kernel
  rw [ht, Option.map_some, Option.some.injEq, ← Table.holds_iff_sizes, hkeys.keys] at hheld
  exact absurd hheld (by decide +kernel)

end DistKv.Memcache
