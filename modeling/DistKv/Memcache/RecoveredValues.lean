import DistKv.Memcache.Recovery

/-!
# What a restart recovers of the values

A line with a value on it is not taken for a record, and of a line that is, the
value is whatever the array holds: nothing it held at the start, or the value of
a line that was not taken. That is a word, without a blank, while a value that
is set starts with the line break that stands in front of it. So the values
survive for the workloads that set nothing but empty values.
-/

namespace DistKv.Memcache

open CText FirstMatch

/-- Every key that was set has the value of its last set. -/
def ValuesRecovered (served : List Served) (t : Table) : Prop :=
  ∀ key, ∀ node ∈ lastSet key served, ∃ e, t.entry key = some e ∧ e.value = node.value

/-- A set of an empty value, under a key that is read back. -/
structure EmptyValued (r : SetRequest) : Prop where
  word : IsWord r.key.bytes
  key_lt : r.key.length < keyRoom
  empty : r.value.bytes = []

/-! ## Empty values survive -/

theorem EmptyValued.replayable {r : SetRequest} (h : EmptyValued r) : Replayable r := by
  have hcut : valueCut r.node = ([10], []) := by
    have hhead := recordHead_length_le r.node h.key_lt r.value_lt
    obtain ⟨k, hk⟩ : ∃ k, lineRoom - (recordHead r.node).length = k + 1 :=
      ⟨lineRoom - (recordHead r.node).length - 1, by unfold lineRoom; omega⟩
    rw [valueCut, hk]
    show fgets (k + 1) (r.value.bytes ++ [10]) = _
    rw [h.empty]
    rfl
  have hlines : otherLines r.node = [] := by
    rw [otherLines, hcut]
    rfl
  have hrecords : otherRecords r.node = [] := by
    rw [otherRecords, hlines]
    rfl
  refine ⟨h.word, h.key_lt, ?_, by simp [hlines], by simp [hrecords], ?_⟩
  · rw [Str.length, h.empty]
    decide
  · rw [hrecords, hcut]
    show ∀ c ∈ [10], isSpace c = true
    exact List.all_eq_true.mp (by decide)

theorem initHashFromLog_fits {junk : Vector UInt8 valueRoom} {log : List UInt8} {t : Table}
    (h : initHashFromLog Table.empty junk log = some t) : t.Fits := by
  obtain ⟨st, hst, rfl⟩ := Option.map_eq_some_iff.mp h
  refine replay_fits (fun line hline => length_of_mem_readLines hline) (by simp) ?_ hst
  intro key e he
  exact absurd he (by simp [Table.entry_empty])

/-- From a log of sets of empty values these are recovered. -/
theorem valuesRecovered_of_emptyValued {R : SetRequest → Prop} {s : State}
    (hs : server.ReachableVia (SetsIn R) s) (h : ∀ r, R r → EmptyValued r)
    (junk : Vector UInt8 valueRoom) :
    ∃ t, initHashFromLog Table.empty junk s.log = some t ∧ ValuesRecovered s.served t := by
  obtain ⟨t, ht, hkeys⟩ := keysReplayed_of_survivesAlone hs
    (fun r hr => survivesAlone_iff.mpr (h r hr).replayable) junk
  refine ⟨t, ht, fun key node hnode => ?_⟩
  obtain ⟨r, hr, rfl⟩ := reachable_sets hs (mem_sets_of_lastSet hnode)
  obtain ⟨e, he, hsizes⟩ := Option.map_eq_some_iff.mp (hkeys.sizes key r.node hnode)
  refine ⟨e, he, ?_⟩
  -- a value of size zero is empty
  have hsize : e.valueSize = r.value.length := (Prod.mk.inj hsizes).2
  have hfits := initHashFromLog_fits ht key e he
  have hnil : e.value.bytes = [] := by
    rw [hsize, Str.length, Str.length, (h r hr).empty] at hfits
    exact List.length_eq_zero_iff.mp (Nat.le_zero.mp hfits)
  exact Str.ext (hnil.trans (h r hr).empty.symm)

/-! ## No other value does -/

theorem initHashFromLog_blankless {log : List UInt8} {t : Table}
    (h : initHashFromLog Table.empty (Vector.replicate valueRoom 0) log = some t) {key : Str}
    {e : Entry} (he : t.entry key = some e) : ∀ c ∈ e.value.bytes, isSpace c = false := by
  obtain ⟨st, hst, rfl⟩ := Option.map_eq_some_iff.mp h
  have hblank := replay_blankless (fun line hline => length_of_mem_readLines hline) (by simp)
    ⟨?_, ?_⟩ hst
  · exact hblank.table key e he
  · intro c hc
    have hnil : (Str.ofBytes (Vector.replicate valueRoom (0 : UInt8)).toList).bytes = [] := by
      simp [Str.ofBytes, Vector.toList_replicate, valueRoom]
    rw [hnil] at hc
    exact absurd hc (List.not_mem_nil)
  · intro key e he
    exact absurd he (by simp [Table.entry_empty])

/-- A byte with something behind it in front of the newline is before the newline. -/
theorem mem_of_inner {value before after : List UInt8} {c d : UInt8}
    (h : value ++ [d] = before ++ c :: after) (hafter : after ≠ []) : c ∈ value := by
  have hdrop := congrArg List.dropLast h
  rw [List.dropLast_concat, List.dropLast_append_of_ne_nil (by simp),
    List.dropLast_cons_of_ne_nil hafter] at hdrop
  simp [hdrop]

/-- A set of a value whose key is read back has a blank in the value, if there is
anything in it. -/
theorem blank_of_record {r : SetRequest} (hkey : IsWord r.key.bytes)
    (hlen : r.key.length < keyRoom) {x : Record} (hx : x ∈ records r.node)
    (hvalue : r.value.bytes ≠ []) : ∃ c ∈ r.value.bytes, isSpace c = true := by
  have happend := valueCut_append r.node
  rw [records_eq hkey hlen, List.mem_append, Option.mem_toList] at hx
  rcases hx with hx | hx
  · -- the first line is taken if its part of the value is blank, and there is one
    rw [ofLine_head r.node hkey r.value_lt (zero_not_mem_valueCut r.node)] at hx
    have hblank : ∀ c ∈ (valueCut r.node).1, isSpace c = true := by
      by_contra hblank
      simp [hblank] at hx
    have hhead := recordHead_length_le r.node hlen r.value_lt
    obtain ⟨c, value, hcons⟩ := List.exists_cons_of_ne_nil hvalue
    refine ⟨c, by simp [hcons], hblank c ?_⟩
    have hroom : 0 < lineRoom - (recordHead r.node).length := by
      unfold lineRoom
      omega
    show c ∈ (fgets _ (r.value.bytes ++ [10])).1
    rw [hcons]
    exact mem_fgets_cons hroom c _
  · -- a further line has a blank inside
    obtain ⟨line, hline, hx⟩ := List.mem_filterMap.mp hx
    have hmem : line ∈ recordLines r.node := by
      rw [recordLines_eq r.node hkey hlen r.value_lt]
      exact List.mem_cons_of_mem _ hline
    have hzero : (0 : UInt8) ∉ line := fun h0 =>
      zero_not_mem_logRecord r.node (mem_of_mem_readLines (by decide) hmem h0)
    obtain ⟨-, -, -, before, c, after, rfl, hc, hafter⟩ := ofLine_spec hzero hx
    obtain ⟨pre, post, hsplit⟩ := List.append_of_mem hline
    have hflat : (otherLines r.node).flatten = (valueCut r.node).2 :=
      flatten_readLines (by decide) _
    have hvalueLine : r.value.bytes ++ [10] = ((valueCut r.node).1 ++ (pre.flatten ++ before)) ++
        c :: (after ++ post.flatten) := by
      rw [hsplit] at hflat
      show r.node.value.bytes ++ [10] = _
      rw [← happend, ← hflat]
      simp
    exact ⟨c, mem_of_inner hvalueLine (by simp [hafter]), hc⟩

/-- A set whose value is recovered from a log of its own has an empty one. -/
theorem emptyValued_of_solo {r : SetRequest} {t : Table} {reply : Option (List UInt8)}
    (h : initHashFromLog Table.empty (Vector.replicate valueRoom 0) (logRecord r.node) = some t)
    (hvalues : ValuesRecovered [⟨r.node, reply⟩] t) : EmptyValued r := by
  have hlast : lastSet r.key [⟨r.node, reply⟩] = some r.node :=
    (lastSet_singleton rfl reply r.key).trans (if_pos rfl)
  obtain ⟨e, he, hvalue⟩ := hvalues r.key r.node hlast
  have hsizes : t.sizes r.key = some (e.userSize, e.valueSize) := by
    rw [Table.sizes, he]
    rfl
  -- the key is there, so some line was taken for a record of it
  rw [sizes_of_solo h] at hsizes
  obtain ⟨x, hx, -⟩ := Option.map_eq_some_iff.mp hsizes
  obtain ⟨hkey, hmem⟩ := of_latest_eq_some hx
  rw [decide_eq_true_eq] at hkey
  obtain ⟨line, hline, hofLine⟩ := List.mem_filterMap.mp hmem
  obtain ⟨hword, hlen, -⟩ := ofLine_recordLines hline (quiet_of_solo h line hline) hofLine
  rw [hkey] at hword hlen
  refine ⟨hword, hlen, ?_⟩
  by_contra hne
  obtain ⟨c, hc, hblank⟩ := blank_of_record hword hlen hmem hne
  have hvalue : e.value = r.value := hvalue
  rw [initHashFromLog_blankless h he c (hvalue ▸ hc)] at hblank
  exact absurd hblank (by decide)

/-- **The log recovers the values** for the workloads that set nothing but empty
values, whatever the array holds at the start; and for no other. -/
theorem values_recovered_iff {R : SetRequest → Prop} :
    (∀ s, server.ReachableVia (SetsIn R) s → ∀ junk : Vector UInt8 valueRoom,
      ∃ t, initHashFromLog Table.empty junk s.log = some t ∧ ValuesRecovered s.served t) ↔
      ∀ r, R r → EmptyValued r := by
  constructor
  · intro h r hr
    obtain ⟨s, hs, hlog, hserved⟩ := solo_reachable hr
    obtain ⟨t, ht, hvalues⟩ := h s hs (Vector.replicate valueRoom 0)
    rw [hlog] at ht
    rw [hserved] at hvalues
    exact emptyValued_of_solo ht hvalues
  · intro h s hs junk
    exact valuesRecovered_of_emptyValued hs h junk

/-- The first set of the log in the repository: `set A 20 sdgjhgdgd`. -/
def loggedRun : List Act :=
  [.enqueueHash (.set ⟨Str.ofBytes [65], 20,
      Str.ofBytes [13, 10, 115, 100, 103, 106, 104, 103, 100, 103, 100], by decide⟩), .dequeueHash,
    .handleHash 0 []]

/-- The restart finds `A` with an empty value. -/
theorem logged_value_lost : server.Reachable (server.endOf loggedRun) ∧
    ¬ ∃ t, initHashFromLog Table.empty (Vector.replicate valueRoom 0)
        (server.endOf loggedRun).log = some t ∧
      ValuesRecovered (server.endOf loggedRun).served t := by
  refine ⟨Transition.System.endOf_reachable loggedRun, ?_⟩
  rintro ⟨t, ht, hvalues⟩
  obtain ⟨e, he, hvalue⟩ := hvalues (Str.ofBytes [65]) _ rfl
  have hempty : (initHashFromLog Table.empty (Vector.replicate valueRoom 0)
      (server.endOf loggedRun).log).bind (fun t => (t.entry (Str.ofBytes [65])).map
        (fun e => e.value.bytes)) = some [] := by
    decide +kernel
  rw [ht, Option.bind_some, he, Option.map_some, Option.some.injEq, hvalue] at hempty
  exact absurd hempty (by decide +kernel)

end DistKv.Memcache
