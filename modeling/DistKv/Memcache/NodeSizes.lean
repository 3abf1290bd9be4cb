import DistKv.Memcache.Recovery
import DistKv.Memcache.StoredNodes

/-!
# The sizes of the nodes (`create_node`, `init_hash_from_log`)

`send_message_format` takes the size of its buffer from the string in a node and
copies as many bytes as the node says. `create_node` takes the one from the other.
The replay takes the size from the line and the string from the array `value`, cut
to that size, and a line that is taken for a record has assigned nothing to that
array: the string in it is the one that a line with four fields left there. So the
sizes agree as long as that string is not shorter than the size on the line, or a
later line of the same key makes up for it.
-/

namespace DistKv.Memcache

open CText FirstMatch

/-! ## Well-formed tables -/

def Entry.Sized (e : Entry) : Prop := e.valueSize = e.value.length

/-- Every node is in the chain of its key, and has the size of its value. -/
structure Table.WellFormed (t : Table) : Prop where
  placed : ∀ i, ∀ node ∈ t.chain i, hashString node.key = i
  sized : ∀ i, ∀ node ∈ t.chain i, node.valueSize = node.value.length

theorem Table.WellFormed.insertNode {t : Table} (h : t.WellFormed) {node : KvNode}
    (hnode : node.valueSize = node.value.length) : (t.insertNode node).WellFormed := by
  refine ⟨(t.insertNode node).placed, fun i x hx => ?_⟩
  rw [Table.chain_insertNode] at hx
  by_cases hi : hashString node.key = i
  · rw [if_pos hi] at hx
    rcases List.mem_cons.mp hx with rfl | hx
    · exact hnode
    · exact h.sized i x hx
  · rw [if_neg hi] at hx
    exact h.sized i x hx

/-- The sets of a server keep it. -/
theorem Table.WellFormed.foldl {t : Table} (h : t.WellFormed) (later : List SetRequest) :
    ((later.map SetRequest.node).foldl Table.insertNode t).WellFormed := by
  induction later generalizing t with
  | nil => exact h
  | cons r rest ih => exact ih (h.insertNode rfl)

/-- With one node for each key it is enough to look at the map. -/
theorem Table.Unique.wellFormed_iff {t : Table} (h : t.Unique) :
    t.WellFormed ↔ ∀ key e, t.entry key = some e → e.Sized := by
  constructor
  · intro hwf key e he
    obtain ⟨node, hnode, rfl⟩ := Option.map_eq_some_iff.mp he
    exact hwf.sized _ node (List.mem_of_find?_eq_some hnode)
  · intro hsized
    refine ⟨t.placed, fun i node hnode => hsized node.key node.entry ?_⟩
    obtain ⟨before, after, hsplit⟩ := List.append_of_mem hnode
    have hunique := h i
    rw [hsplit, List.map_append, List.map_cons] at hunique
    have hbefore : ∀ x ∈ before, x.key ≠ node.key := by
      intro x hx hkey
      exact (List.disjoint_of_nodup_append hunique) (List.mem_map_of_mem hx)
        (hkey ▸ List.mem_cons_self)
    rw [Table.entry, Table.find, t.placed i node hnode, hsplit, List.find?_append,
      List.find?_eq_none.mpr fun x hx => by simpa using hbefore x hx]
    simp

/-! ## The string in the array -/

theorem length_ofFirst (n : Nat) (l : List UInt8) :
    (Str.ofFirst n l).length = min n (Str.ofBytes l).length := by
  show ((l.take n).takeWhile _).length = min n (l.takeWhile _).length
  rw [← List.take_takeWhile, List.length_take]

/-- The length of the string in the array behind a line. -/
def valueLength (n : Nat) (line : List UInt8) : Nat :=
  if (scanRecord (Str.ofBytes line).bytes).count = 4 then
    (scanRecord (Str.ofBytes line).bytes).value.length
  else n

theorem zero_not_mem_value {line : List UInt8} (hzero : (0 : UInt8) ∉ line) :
    (0 : UInt8) ∉ (scanRecord line).value := by
  rcases scanRecord_cases line with ⟨-, hnil⟩ |
    ⟨s, key, s₁, userSize, s₂, valueSize, s₃, rfl, hkey, hu, hn, ⟨-, hf⟩ | ⟨value, s₄, hv, hf⟩⟩
  · rw [hnil]
    exact List.not_mem_nil
  · rw [hf]
    exact List.not_mem_nil
  · -- the value is a piece of the line
    obtain ⟨-, blank, hs₃, -⟩ := isWord_of_scanWord hv
    have hsuffix := ((suffix_of_scanSize hn).trans (suffix_of_scanSize hu)).trans
      (suffix_of_scanWord hkey)
    rw [hf]
    intro h0
    have hmem : (0 : UInt8) ∈ s₃ := by
      rw [hs₃]
      exact List.mem_append_left _ (List.mem_append_right _ h0)
    exact hzero (by simp [hsuffix.subset hmem])

theorem length_value_replayLine {st next : Replay} {line : List UInt8}
    (h : replayLine st line = some next) :
    (Str.ofBytes next.value).length = valueLength (Str.ofBytes st.value).length line := by
  unfold replayLine at h
  unfold valueLength
  have hzero := zero_not_mem_value (Str.ofBytes line).noNul
  generalize scanRecord (Str.ofBytes line).bytes = f at h hzero ⊢
  simp only [Option.ite_none_left_eq_some, Option.map_eq_some_iff] at h
  obtain ⟨-, value, hvalue, rfl⟩ := h
  have hsame : ∀ (c : Prop) [Decidable c] (t : Table),
      (if c then (⟨t, value⟩ : Replay) else { st with value := value }).value = value := by
    intro c _ t
    split <;> rfl
  rw [hsame]
  by_cases hfour : f.count = 4
  · rw [if_pos hfour] at hvalue ⊢
    unfold store at hvalue
    split at hvalue
    · rw [← Option.some.inj hvalue, List.take_zero, List.nil_append, List.append_assoc,
        List.singleton_append]
      rw [Str.length, Str.ofBytes_append_zero hzero]
    · exact absurd hvalue (by simp)
  · rw [if_neg hfour] at hvalue ⊢
    rw [Option.some.inj hvalue]

/-- A line that is taken for a record assigns nothing to the array. -/
theorem valueLength_of_ofLine {line : List UInt8} {r : Record} (h : Record.ofLine line = some r)
    (n : Nat) : valueLength n line = n := by
  unfold Record.ofLine at h
  obtain ⟨⟨hthree, -⟩, -⟩ := Option.ite_none_right_eq_some.mp h
  rw [valueLength, if_neg (by omega)]

/-! ## Which lines keep the sizes -/

/-- One of the lines is taken for a record of the key. -/
def Renewed (lines : List (List UInt8)) (key : Str) : Prop :=
  ∃ r ∈ lines.filterMap Record.ofLine, r.key = key

/-- A line that is taken for a record names a size that the string in the array has, which
is at first `n` bytes long; or a later line is taken for a record of its key. -/
def SizesFit : Nat → List (List UInt8) → Prop
  | _, [] => True
  | n, line :: rest =>
      (∀ r, Record.ofLine line = some r → r.valueSize ≤ n ∨ Renewed rest r.key) ∧
        SizesFit (valueLength n line) rest

/-- A longer string does not hurt. -/
theorem SizesFit.mono {lines : List (List UInt8)} {n m : Nat} (hle : n ≤ m)
    (h : SizesFit n lines) : SizesFit m lines := by
  induction lines generalizing n m with
  | nil => trivial
  | cons line rest ih =>
      refine ⟨fun r hr => (h.1 r hr).imp_left (·.trans hle), ?_⟩
      unfold SizesFit valueLength at h
      unfold valueLength
      split
      · rename_i hfour
        rw [if_pos hfour] at h
        exact h.2
      · rename_i hfour
        rw [if_neg hfour] at h
        exact ih hle h.2

theorem renewed_cons_some {line : List UInt8} {rest : List (List UInt8)} {r : Record} {key : Str}
    (hr : Record.ofLine line = some r) :
    Renewed (line :: rest) key ↔ r.key = key ∨ Renewed rest key := by
  unfold Renewed
  rw [List.filterMap_cons_some hr]
  simp

theorem renewed_cons_none {line : List UInt8} {rest : List (List UInt8)} {key : Str}
    (hr : Record.ofLine line = none) : Renewed (line :: rest) key ↔ Renewed rest key := by
  unfold Renewed
  rw [List.filterMap_cons_none hr]

/-- An entry has its size, or is replaced by one of the lines. -/
def SizedOr (lines : List (List UInt8)) (t : Table) : Prop :=
  ∀ key e, t.entry key = some e → e.Sized ∨ Renewed lines key

/-- What storing a record does to it. -/
theorem sizedOr_replaceOrInsert {line : List UInt8} {rest : List (List UInt8)} {r : Record}
    (hr : Record.ofLine line = some r) (t : Table) {node : KvNode} (hkey : node.key = r.key) :
    SizedOr rest (t.replaceOrInsert node) ↔
      (node.entry.Sized ∨ Renewed rest r.key) ∧ SizedOr (line :: rest) t := by
  unfold SizedOr
  rw [Table.entry_replaceOrInsert, hkey]
  constructor
  · intro h
    refine ⟨h r.key _ (Function.update_self ..), fun key e he => ?_⟩
    rw [renewed_cons_some hr]
    by_cases hsame : r.key = key
    · exact Or.inr (Or.inl hsame)
    · rw [← Function.update_of_ne (Ne.symm hsame) (some node.entry) t.entry] at he
      exact (h key e he).imp_right Or.inr
  · rintro ⟨hnew, hold⟩ key e he
    by_cases hsame : r.key = key
    · subst hsame
      rw [Function.update_self, Option.some.injEq] at he
      exact he ▸ hnew
    · rw [Function.update_of_ne (Ne.symm hsame)] at he
      have := hold key e he
      rw [renewed_cons_some hr] at this
      exact this.imp_right (·.resolve_left hsame)

/-- **The replay keeps the sizes** exactly if they fit. -/
theorem replay_sized_iff {lines : List (List UInt8)}
    (hlines : ∀ line ∈ lines, line.length ≤ lineRoom) (h : ∀ line ∈ lines, ¬ Overruns line)
    (st : Replay) (hvalue : st.value.length = valueRoom) :
    ∃ st', lines.foldlM replayLine st = some st' ∧
      (SizedOr [] st'.table ↔
        SizesFit (Str.ofBytes st.value).length lines ∧ SizedOr lines st.table) := by
  induction lines generalizing st with
  | nil => exact ⟨st, rfl, (and_iff_right trivial).symm⟩
  | cons line rest ih =>
      obtain ⟨next, hline, hlen, -, htable⟩ := replayLine_spec hvalue
        (hlines line List.mem_cons_self) (h line List.mem_cons_self)
      have hlength := length_value_replayLine hline
      obtain ⟨st', hst', hiff⟩ := ih (fun l hl => hlines l (List.mem_cons_of_mem _ hl))
        (fun l hl => h l (List.mem_cons_of_mem _ hl)) next hlen
      refine ⟨st', by rw [List.foldlM_cons, hline]; exact hst', ?_⟩
      rw [hiff, hlength, htable, SizesFit]
      cases hr : Record.ofLine line with
      | none =>
          simp only [reduceCtorEq, false_implies, implies_true, true_and]
          refine and_congr_right fun _ => forall₃_congr fun key e _ => ?_
          rw [renewed_cons_none hr]
      | some r =>
          rw [sizedOr_replaceOrInsert hr _ rfl]
          have hsized : (KvNode.entry ⟨r.key, Str.ofFirst r.valueSize next.value, r.valueSize,
              r.userSize, 0⟩).Sized ↔ r.valueSize ≤ (Str.ofBytes st.value).length := by
            rw [valueLength_of_ofLine hr] at hlength
            show r.valueSize = (Str.ofFirst r.valueSize next.value).length ↔ _
            rw [length_ofFirst, hlength]
            omega
          simp only [hsized, Option.some.injEq, forall_eq']
          exact and_left_comm.trans and_assoc.symm

theorem replay_unique {lines : List (List UInt8)} (hlines : ∀ line ∈ lines, line.length ≤ lineRoom)
    {st st' : Replay} (hvalue : st.value.length = valueRoom) (hst : st.table.Unique)
    (h : lines.foldlM replayLine st = some st') : st'.table.Unique := by
  refine replay_invariant (Q := fun st => st.table.Unique) ?_ hlines hvalue hst h
  intro st hlen hunique line hline hover st' hst'
  obtain ⟨_, hspec, -, -, htable⟩ := replayLine_spec hlen (hlines line hline) hover
  obtain rfl := Option.some.inj (hst'.symm.trans hspec)
  rw [htable]
  cases Record.ofLine line with
  | none => exact hunique
  | some r => exact hunique.replaceOrInsert _

theorem sizedOr_nil_iff {t : Table} (h : t.Unique) : SizedOr [] t ↔ t.WellFormed := by
  rw [h.wellFormed_iff]
  refine forall₃_congr fun key e _ => ?_
  exact or_iff_left (by simp [Renewed])

/-- The lines of the log of these sets. -/
def logLines (written : List SetRequest) : List (List UInt8) :=
  (written.map SetRequest.node).flatMap recordLines

/-- The nodes are well formed after a restart from the log of these sets, whatever the array
`value` holds, and stay so along every sequence of sets. -/
def StartsWellFormed (written : List SetRequest) : Prop :=
  ∀ junk : Vector UInt8 valueRoom, ∃ t,
    initHashFromLog Table.empty junk ((written.map SetRequest.node).flatMap logRecord) = some t ∧
      ∀ later : List SetRequest, ((later.map SetRequest.node).foldl Table.insertNode t).WellFormed

/-- **Table nodes are well formed** after a restart if and only if no key on a line overruns
its array, and each size on a line that is taken for a record fits the string that the lines
before it left in the array `value`, or a later line of the key makes up for it. -/
theorem nodes_well_formed_iff (written : List SetRequest) :
    StartsWellFormed written ↔
      (∀ line ∈ logLines written, ¬ Overruns line) ∧ SizesFit 0 (logLines written) := by
  have hlines : ∀ line ∈ logLines written, line.length ≤ lineRoom := fun line hline => by
    obtain ⟨node, -, hline⟩ := List.mem_flatMap.mp hline
    exact length_of_mem_readLines hline
  have hempty : ∀ lines, SizedOr lines Table.empty := fun lines key e he =>
    absurd he (by simp [Table.entry_empty])
  have hreplay : ∀ junk : Vector UInt8 valueRoom, initHashFromLog Table.empty junk
      ((written.map SetRequest.node).flatMap logRecord) =
        ((logLines written).foldlM replayLine ⟨Table.empty, junk.toList⟩).map Replay.table :=
    fun junk => by rw [initHashFromLog, readLines_log, logLines]
  constructor
  · intro h
    -- an array of zeros holds the empty string
    obtain ⟨t, ht, hwf⟩ := h (Vector.replicate valueRoom 0)
    rw [hreplay] at ht
    have hover : ∀ line ∈ logLines written, ¬ Overruns line := by
      intro line hline hover
      rw [replay_eq_none hlines (by simp) ⟨line, hline, hover⟩] at ht
      exact absurd ht (by simp)
    obtain ⟨st, hst, hiff⟩ := replay_sized_iff hlines hover
      ⟨Table.empty, (Vector.replicate valueRoom 0).toList⟩ (by simp)
    rw [hst, Option.map_some, Option.some.injEq] at ht
    obtain rfl := ht
    have hunique := replay_unique hlines (by simp) Table.unique_empty hst
    have hnone : (Str.ofBytes (Vector.replicate valueRoom (0 : UInt8)).toList).length = 0 := by
      simp [Str.ofBytes, Str.length, Vector.toList_replicate, valueRoom]
    rw [sizedOr_nil_iff hunique, hnone] at hiff
    exact ⟨hover, (hiff.mp (hwf [])).1⟩
  · rintro ⟨hover, hfit⟩ junk
    obtain ⟨st, hst, hiff⟩ := replay_sized_iff hlines hover ⟨Table.empty, junk.toList⟩ (by simp)
    have hunique := replay_unique hlines (by simp) Table.unique_empty hst
    rw [sizedOr_nil_iff hunique] at hiff
    have hwf : st.table.WellFormed :=
      hiff.mpr ⟨hfit.mono (Nat.zero_le _), hempty _⟩
    exact ⟨st.table, by rw [hreplay, hst, Option.map_some], hwf.foldl⟩

theorem length_loggedValue :
    (Str.ofBytes [13, 10, 115, 100, 103, 106, 104, 103, 100, 103, 100]).length < 2 ^ 64 := by
  decide

/-- The first set of the log in the repository: `set A 20 sdgjhgdgd`. -/
def loggedSet : SetRequest := ⟨Str.ofBytes [65], 20, _, length_loggedValue⟩

/-- After the restart its node has eleven bytes by its size, and none in its value. -/
theorem logged_node_not_well_formed : ¬ StartsWellFormed [loggedSet] := by
  intro h
  obtain ⟨t, ht, hwf⟩ := h (Vector.replicate valueRoom 0)
  have hbad : ((initHashFromLog Table.empty (Vector.replicate valueRoom 0)
      (([loggedSet].map SetRequest.node).flatMap logRecord)).bind fun t =>
        (t.find (Str.ofBytes [65])).map fun node => (node.valueSize, node.value.length)) =
          some (11, 0) := by
    decide +kernel
  rw [ht, Option.bind_some] at hbad
  obtain ⟨node, hfind, hsizes⟩ := Option.map_eq_some_iff.mp hbad
  have hsized := (hwf []).sized _ node (List.mem_of_find?_eq_some hfind)
  obtain ⟨hvalueSize, hlength⟩ := Prod.mk.inj hsizes
  rw [hvalueSize, hlength] at hsized
  exact absurd hsized (by decide)

end DistKv.Memcache
