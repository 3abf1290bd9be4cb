import DistKv.Memcache.Crash
import DistKv.Memcache.TornLines

/-!
# Crashes that tear records

`Crash.lean` with records that a crash tears. The process that finds an
open line goes on with it, and the first record that it writes is lost: the next
start does not know the set, which may have been answered `STORED` long before
(`tornRun_loses`). Nothing else is lost, and of the torn record itself either
nothing is read or, while the open line is still the last, what its bytes say by
then (`torn_crashes`).

All of this is for sets of one line each (`OneLine`) and crashes that leave an open
line shorter than the array of a key (`Machine.Short`). A set of another form, as one
with a blank in its key, can be lost to the next start in any case.
-/

namespace DistKv.Memcache

open CText FirstMatch History Linearizable Transition

variable {n : Nat}

namespace HashThreads

variable {table : Table} {log : List UInt8}

/-- The record in progress is that of a set that was called. -/
theorem called_of_inProgress {s : HashThreads n} (h : (hashThreads n table log).Reachable s)
    {node : KvNode} (hnode : s.inProgress = some node) :
    ∃ i b, Event.call i b ∈ s.trace ∧ b.data = node ∧ b.data.operFlg = 1 := by
  unfold inProgress at hnode
  split at hnode
  · cases hnode
  · rename_i w hw
    split at hnode
    · rename_i b hb
      by_cases hset : b.block.data.operFlg = 1
      · rw [if_pos hset] at hnode
        obtain rfl := Option.some.inj hnode
        exact ⟨b.id, b.block, ((reachable_known h).worker w b (by rw [hb]; rfl)).2, rfl, hset⟩
      · rw [if_neg hset] at hnode
        cases hnode
    · cases hnode

/-- What a crash leaves, when every set that was called is one line. -/
theorem holds_crash {s : HashThreads n} (h : (hashThreads n table log).Reachable s)
    (hasked : ∀ i b, Event.call i b ∈ s.trace → b.data.operFlg = 1 → OneLine b.data)
    {rs : List Record} (hlog : Holds log rs) (torn : Nat)
    (hshort : (openLine (s.log ++ s.tornRecord torn)).length < keyRoom) :
    Holds (s.log ++ s.tornRecord torn) (rs ++ (kept log (s.entered torn)).map KvNode.record) := by
  have hwritten : ∀ node ∈ s.written, OneLine node := by
    intro node hnode
    obtain ⟨i, b, hcall, rfl, hset⟩ := called_of_written h hnode
    exact hasked i b hcall hset
  obtain ⟨hholds, hopen⟩ := hlog.append_records hwritten
  rw [← reachable_log h] at hholds hopen
  cases hprogress : s.inProgress with
  | none =>
      have htorn : s.tornRecord torn = [] := by rw [tornRecord, hprogress]
      have hentered : s.entered torn = s.written := by
        rw [entered, hprogress]
        exact List.append_nil _
      rw [htorn, hentered, List.append_nil]
      exact hholds
  | some node =>
      obtain ⟨i, b, hcall, rfl, hset⟩ := called_of_inProgress h hprogress
      have htorn : s.tornRecord torn = (logRecord b.data).take torn := by
        rw [tornRecord, hprogress]
      rw [htorn] at hshort ⊢
      have happend := hholds.append_take (hasked i b hcall hset) torn hshort
      rw [hopen, List.append_assoc] at happend
      have hkept : (kept log (s.entered torn)).map KvNode.record =
          (kept log s.written).map KvNode.record ++
            if (if s.written = [] then openLine log else []) = [] ∧
              (recordHead b.data).length + 2 ≤ torn then [b.data.record] else [] := by
        rw [entered, hprogress, Option.filter_some]
        unfold kept
        by_cases hwhole : (recordHead b.data).length + 2 ≤ torn
        · by_cases hnil : openLine log = []
          · simp [hwhole, hnil]
          · cases s.written <;> simp [hwhole, hnil]
        · simp [hwhole]
      rw [hkept]
      exact happend

end HashThreads

/-- The sets of a process that the next starts know of. -/
def Life.kept (l : Life) : List KvNode := Memcache.kept l.found l.entered

namespace Machine

/-- Every set is one line, and a crash leaves a short open line. -/
def Short (m : Machine n) (a : MachineAct n) (_ : Machine n) : Prop :=
  match a with
  | .run (.enqueueHash (.set r) _ _) => OneLine r.node
  | .run _ => True
  | .crash torn _ => (openLine (m.server.log ++ m.server.tornRecord torn)).length < keyRoom

/-- A crash that leaves a short open line. -/
def leavesShort (m : Machine n) (torn : Nat) : Bool :=
  (openLine (m.server.log ++ m.server.tornRecord torn)).length < keyRoom

theorem short_of_setsOnly {rs : List SetRequest} (hrs : ∀ r ∈ rs, OneLine r.node)
    {m m' : Machine n} {a : MachineAct n} (h : setsOnly rs leavesShort m a m' = true) :
    Short m a m' := by
  cases a with
  | run a =>
      cases a with
      | enqueueHash r fd wakes =>
          cases r with
          | get key => trivial
          | set r => exact hrs r (of_decide_eq_true h)
      | _ => trivial
  | crash torn junk =>
      show _ < _
      exact of_decide_eq_true h

/-- The sets of the processes before that this one knows of. -/
def kept (m : Machine n) : List KvNode := m.lives.flatMap Life.kept

/-- What this process read: those, and what the open line was taken for. -/
def read (m : Machine n) : List Record :=
  m.kept.map KvNode.record ++ (Record.ofLine (openLine m.found)).toList

/-- The invariant of a run with torn records. -/
structure TornInv (m : Machine n) : Prop where
  found : Holds m.found (m.kept.map KvNode.record)
  started : ∃ table, (hashThreads n table m.found).Reachable m.server ∧
    ∀ key, table.sizes key = (latest (fun x => x.key = key) m.read).map Record.sizes
  asked : ∀ i b, Event.call i b ∈ m.server.trace → b.data.operFlg = 1 → OneLine b.data
  answered : ∀ l ∈ m.lives, ∀ i b r, Event.call i b ∈ l.trace → Event.answer i r ∈ l.trace →
    b.data.operFlg = 1 → b.data ∈ l.entered

/-- The file of a process that crashes. -/
theorem TornInv.crash {m : Machine n} (h : m.TornInv) (torn : Nat)
    (hshort : (openLine (m.server.log ++ m.server.tornRecord torn)).length < keyRoom) :
    Holds (m.server.log ++ m.server.tornRecord torn)
      (((m.lives ++ [m.life torn]).flatMap Life.kept).map KvNode.record) := by
  obtain ⟨table, hserver, -⟩ := h.started
  have hholds := HashThreads.holds_crash hserver h.asked h.found torn hshort
  rw [List.flatMap_append, List.flatMap_singleton, List.map_append]
  exact hholds

theorem TornInv.step {m m' : Machine n} {a : MachineAct n} (h : m.TornInv)
    (hstep : m.step a = some m') (hact : Short m a m') : m'.TornInv := by
  obtain ⟨table, hserver, hsizes⟩ := h.started
  cases a with
  | run a =>
      obtain ⟨server, hrun, rfl⟩ := Option.map_eq_some_iff.mp hstep
      refine ⟨h.found, ⟨table, .step hserver hrun trivial, hsizes⟩, ?_, h.answered⟩
      intro i b hcall hset
      have hspec := (HashThreads.step_spec (HashThreads.reachable_wf hserver) hrun).1
      rcases HashThreads.call_of_step hspec hcall with hold | ⟨r, fd, wakes, rfl, rfl⟩
      · exact h.asked i b hold hset
      · cases r with
        | get key => exact absurd hset (by simp [Request.node, createNode])
        | set r => exact hact
  | crash torn junk =>
      have hfile := h.crash torn hact
      obtain ⟨recovered, hrecovered, hnew⟩ := hfile.start junk
      rw [Machine.step, hrecovered] at hstep
      obtain rfl := Option.some.inj hstep
      refine ⟨hfile, ⟨recovered, .init, hnew⟩, fun i b hcall => absurd hcall List.not_mem_nil, ?_⟩
      intro l hl i b r hcall hans hset
      rcases List.mem_append.mp hl with hl | hl
      · exact h.answered l hl i b r hcall hans hset
      · rw [List.mem_singleton.mp hl] at hcall hans ⊢
        have hmem := HashThreads.answered_set_mem hserver hcall hans hset
        exact List.mem_append_left _ (List.mem_append_left _ hmem)

theorem init_tornInv (n : Nat) : (init n).TornInv := by
  refine ⟨holds_nil, ⟨Table.empty, .init, fun _ => rfl⟩, ?_, ?_⟩
  · exact fun i b hcall => absurd hcall List.not_mem_nil
  · exact fun l hl => absurd hl List.not_mem_nil

theorem reachable_torn {m : Machine n} (h : (machine n).ReachableVia Short m) : m.TornInv :=
  System.ReachableVia.invariant (P := TornInv) (init_tornInv n)
    (fun _ _ _ _ hm hstep hact => hm.step hstep hact) m h

end Machine

/-- What a process keeps of the sets it has entered. -/
theorem mem_kept {found : List UInt8} {nodes : List KvNode} {node : KvNode} (h : node ∈ nodes) :
    node ∈ kept found nodes ∨ openLine found ≠ [] ∧ nodes.head? = some node := by
  unfold kept
  by_cases hnil : openLine found = []
  · rw [if_pos hnil]
    exact Or.inl h
  · rw [if_neg hnil]
    cases nodes with
    | nil => cases h
    | cons x rest =>
        rcases List.mem_cons.mp h with rfl | h
        · exact Or.inr ⟨hnil, rfl⟩
        · exact Or.inl h

/-- **What torn records cost.** Let every set be one line, and every crash leave an open
line that is shorter than the array of a key. Then, over any number of crashes that tear
records, in every interleaving: the table has for each key the sizes of the last set of
this process, or else of the last record that it read; that is the sets that the processes
before kept, and what the open line is taken for. A set that was answered is kept, unless
its process found an open line and it was the first to be written there. And every such
crash is followed by a start. -/
theorem torn_crashes {m : Machine n} (h : (machine n).ReachableVia Machine.Short m) :
    (∀ key, m.server.table.sizes key =
      ((latest (fun node => node.key = key) (setsAmong (commits m.server.trace))).map
        KvNode.sizes).or ((latest (fun x => x.key = key) m.read).map Record.sizes)) ∧
      (∀ l ∈ m.lives, ∀ i b r, Event.call i b ∈ l.trace → Event.answer i r ∈ l.trace →
        b.data.operFlg = 1 →
          b.data ∈ l.kept ∨ openLine l.found ≠ [] ∧ l.entered.head? = some b.data) ∧
      ∀ torn junk, (openLine (m.server.log ++ m.server.tornRecord torn)).length < keyRoom →
        ∃ m', m.step (.crash torn junk) = some m' := by
  have hm := Machine.reachable_torn h
  refine ⟨fun key => ?_, fun l hl i b r hcall hans hset => ?_, fun torn junk hshort => ?_⟩
  · obtain ⟨table, hserver, hsizes⟩ := hm.started
    rw [HashThreads.reachable_inserted hserver, Machine.sizes_foldl_insertNode, hsizes]
  · exact mem_kept (hm.answered l hl i b r hcall hans hset)
  · obtain ⟨table, htable, -⟩ := (hm.crash torn hshort).start junk
    apply Option.isSome_iff_exists.mp
    rw [Machine.step, htable]
    rfl

/-- A set of `B` is torn to `SET B 1`; the next process sets `A` and answers, and dies. -/
def tornRun : List (MachineAct 1) :=
  [.run (.enqueueHash (.set HashThreads.setOfB) 7 none), .run (.check soleThread),
    .run (.lock soleThread), .crash 7 (Vector.replicate valueRoom 0),
    .run (.enqueueHash (.set HashThreads.setOfA) 8 none), .run (.check soleThread),
    .run (.lock soleThread), .run (.logSet soleThread), .run (.insert soleThread),
    .run (.unlock soleThread), .run (.send soleThread []),
    .crash 0 (Vector.replicate valueRoom 0)]

theorem setOfA_oneLine : OneLine HashThreads.setOfA.node :=
  ⟨by decide +kernel, by decide +kernel, rfl, [113], by decide +kernel⟩

theorem setOfB_oneLine : OneLine HashThreads.setOfB.node :=
  ⟨by decide +kernel, by decide +kernel, rfl, [114], by decide +kernel⟩

theorem tornRun_short : (machine 1).ReachableVia Machine.Short ((machine 1).endOf tornRun) := by
  have hshort : ∀ m a m', Machine.setsOnly [HashThreads.setOfA, HashThreads.setOfB]
      Machine.leavesShort m a m' = true → Machine.Short (n := 1) m a m' :=
    fun m a m' => Machine.short_of_setsOnly fun r hr => by
      rcases List.mem_pair.mp hr with rfl | rfl
      · exact setOfA_oneLine
      · exact setOfB_oneLine
  exact System.ReachableVia.init.of_runVia hshort
    (System.runVia_eq_some_endOf (by decide +kernel))

/-- The set of `A` was answered and is lost. -/
theorem tornRun_loses :
    ((machine 1).endOf tornRun).server.table.sizes HashThreads.setOfA.key = none ∧
      ∃ l ∈ ((machine 1).endOf tornRun).lives,
        Event.answer 0 (Sent.mk 8 (some storedText)) ∈ l.trace ∧ openLine l.found ≠ [] ∧
          l.entered.head? = some HashThreads.setOfA.node := by
  have h := torn_crashes tornRun_short
  refine ⟨(h.1 _).trans (by decide +kernel), ?_⟩
  have hlife : ∃ l ∈ ((machine 1).endOf tornRun).lives,
      Event.call 0 (NodeHash.mk HashThreads.setOfA.node 8) ∈ l.trace ∧
        Event.answer 0 (Sent.mk 8 (some storedText)) ∈ l.trace ∧
          HashThreads.setOfA.node ∉ l.kept := by decide +kernel
  obtain ⟨l, hl, hcall, hans, hlost⟩ := hlife
  exact ⟨l, hl, hans, (h.2.1 l hl 0 _ _ hcall hans rfl).resolve_left hlost⟩

end DistKv.Memcache
