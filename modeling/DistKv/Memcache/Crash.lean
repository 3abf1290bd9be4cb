import DistKv.Memcache.HashLog
import DistKv.Memcache.Recovery

/-!
# Crashes

The process can die at any step. What is left of it is the log file, and of a
record that was being written as much as had reached the file; the next process
reads the file back into an empty table and goes on appending to it. `found` and
`lives` are history variables: the file that the process found, and what
happened in the processes before it.

As long as no crash tears a record, a set that a client was told is `STORED` is
never lost, over any number of crashes: the log is the records of the sets that
took effect or were written last, and the table has for each key the sizes of
its last set (`stored_is_durable`). That takes sets that are replayed from their
records, as they are one by one (`Replayable`). Torn records are the subject of
`Torn.lean`.
-/

namespace DistKv.Memcache

open CText FirstMatch History Linearizable Transition

variable {n : Nat}

namespace HashThreads

/-- The node of the record that is being written. -/
def inProgress (s : HashThreads n) : Option KvNode :=
  match s.hashHolder with
  | none => none
  | some w =>
      match s.worker w with
      | .locked b => if b.block.data.operFlg = 1 then some b.block.data else none
      | _ => none

/-- The first `torn` bytes of that record. -/
def tornRecord (s : HashThreads n) (torn : Nat) : List UInt8 :=
  match s.inProgress with
  | none => []
  | some node => (logRecord node).take torn

/-- The sets whose records are in the file, and the one whose record is torn behind its
head and the line break that clients put in front of a value. -/
def entered (s : HashThreads n) (torn : Nat) : List KvNode :=
  s.written ++ (s.inProgress.filter fun node => (recordHead node).length + 2 ≤ torn).toList

theorem tornRecord_zero (s : HashThreads n) : s.tornRecord 0 = [] := by
  unfold tornRecord
  cases s.inProgress <;> rfl

theorem entered_zero (s : HashThreads n) : s.entered 0 = s.written := by
  unfold entered
  cases s.inProgress with
  | none => exact List.append_nil _
  | some node =>
      rw [Option.filter_some, if_neg (by simp)]
      exact List.append_nil _

end HashThreads

/-- A process that died. -/
structure Life where
  found : List UInt8
  trace : List (Event NodeHash Sent)
  entered : List KvNode

/-- A process, the file that it found, and the processes before it. -/
structure Machine (n : Nat) where
  server : HashThreads n
  found : List UInt8
  lives : List Life

/-- A step of the process, or its death with `torn` bytes of the record in progress in
the file, and the start of the next one. -/
inductive MachineAct (n : Nat)
  | run (a : HashAct n)
  | crash (torn : Nat) (junk : Vector UInt8 valueRoom)

namespace Machine

/-- The first process finds no log. -/
def init (n : Nat) : Machine n :=
  { server := HashThreads.init n Table.empty [], found := [], lives := [] }

/-- What is known of the process if it dies now. -/
def life (m : Machine n) (torn : Nat) : Life :=
  { found := m.found, trace := m.server.trace, entered := m.server.entered torn }

def step (m : Machine n) : MachineAct n → Option (Machine n)
  | .run a => (m.server.step a).map fun server => { m with server }
  | .crash torn junk =>
      let file := m.server.log ++ m.server.tornRecord torn
      (initHashFromLog Table.empty junk file).map fun table =>
        { server := HashThreads.init n table file
          found := file
          lives := m.lives ++ [m.life torn] }

end Machine

/-- A server that crashes and is started again. -/
def machine (n : Nat) : System (Machine n) (MachineAct n) :=
  { init := Machine.init n, step := Machine.step }

namespace Machine

/-- Sets are replayable each on its own, and no record is torn. -/
def Clean (_ : Machine n) (a : MachineAct n) (_ : Machine n) : Prop :=
  match a with
  | .run (.enqueueHash (.set r) _ _) => Replayable r
  | .run _ => True
  | .crash torn _ => torn = 0

/-- The sets of the processes before. -/
def earlier (m : Machine n) : List KvNode := m.lives.flatMap Life.entered

/-- The sets whose records are in the file. -/
def logged (m : Machine n) : List KvNode := m.earlier ++ m.server.written

/-- The sets that are in the table, or that it had from the file. -/
def taken (m : Machine n) : List KvNode := m.earlier ++ setsAmong (commits m.server.trace)

theorem taken_prefix (m : Machine n) : m.taken <+: m.logged := by
  refine ⟨m.server.unfinished, ?_⟩
  rw [taken, logged, HashThreads.written, List.append_assoc]

/-- The invariant of a clean run. -/
structure Inv (m : Machine n) : Prop where
  found : m.found = m.earlier.flatMap logRecord
  started : ∃ table, (hashThreads n table m.found).Reachable m.server ∧ ∀ key,
    table.sizes key = (latest (fun node => node.key = key) m.earlier).map KvNode.sizes
  earlier : ∀ node ∈ m.earlier, SurvivesAlone node
  asked : ∀ i b, Event.call i b ∈ m.server.trace → b.data.operFlg = 1 → SurvivesAlone b.data
  answered : ∀ l ∈ m.lives, ∀ i b r, Event.call i b ∈ l.trace → Event.answer i r ∈ l.trace →
    b.data.operFlg = 1 → b.data ∈ m.earlier

/-- Inserting nodes one after the other leaves the sizes of the last. -/
theorem sizes_foldl_insertNode (nodes : List KvNode) (t : Table) (key : Str) :
    (nodes.foldl Table.insertNode t).sizes key =
      ((latest (fun node => node.key = key) nodes).map KvNode.sizes).or (t.sizes key) := by
  unfold Table.sizes
  rw [Table.stores_insertNode.entry_foldl]
  cases latest (fun node => node.key = key) nodes <;> rfl

/-- The file is the records of the sets that were written, and the table has what they left. -/
theorem Inv.file {m : Machine n} (h : m.Inv) :
    m.server.log = m.logged.flatMap logRecord ∧ ∀ key, m.server.table.sizes key =
      (latest (fun node => node.key = key) m.taken).map KvNode.sizes := by
  obtain ⟨table, hserver, hsizes⟩ := h.started
  constructor
  · rw [HashThreads.reachable_log hserver, h.found, logged, List.flatMap_append]
  · intro key
    rw [HashThreads.reachable_inserted hserver, sizes_foldl_insertNode, hsizes, taken,
      latest_append]
    cases latest (fun node => node.key = key) (setsAmong (commits m.server.trace)) <;> rfl

theorem Inv.survives {m : Machine n} (h : m.Inv) : ∀ node ∈ m.logged, SurvivesAlone node := by
  obtain ⟨table, hserver, -⟩ := h.started
  intro node hnode
  rcases List.mem_append.mp hnode with hnode | hnode
  · exact h.earlier node hnode
  · obtain ⟨i, b, hcall, rfl, hset⟩ := HashThreads.called_of_written hserver hnode
    exact h.asked i b hcall hset

/-- Sets that were answered are in the table or were overwritten there. -/
theorem Inv.answered_mem {m : Machine n} (h : m.Inv) {trace : List (Event NodeHash Sent)}
    (htrace : trace ∈ m.server.trace :: m.lives.map Life.trace)
    {i : Nat} {b : NodeHash} {r : Sent}
    (hcall : Event.call i b ∈ trace) (hans : Event.answer i r ∈ trace)
    (hset : b.data.operFlg = 1) : b.data ∈ m.taken := by
  obtain ⟨table, hserver, -⟩ := h.started
  rcases List.mem_cons.mp htrace with rfl | htrace
  · exact List.mem_append_right _ (HashThreads.answered_set_mem hserver hcall hans hset)
  · obtain ⟨l, hl, rfl⟩ := List.mem_map.mp htrace
    exact List.mem_append_left _ (h.answered l hl i b r hcall hans hset)

/-- The next process reads back what was written. -/
theorem Inv.recovers {m : Machine n} (h : m.Inv) (junk : Vector UInt8 valueRoom) :
    ∃ table, initHashFromLog Table.empty junk m.server.log = some table ∧
      ∀ key, table.sizes key = (latest (fun node => node.key = key) m.logged).map KvNode.sizes := by
  obtain ⟨table, htable, hsizes⟩ := initHashFromLog_sizes m.logged junk fun node hnode =>
    (h.survives node hnode).quiet
  refine ⟨table, by rw [h.file.1]; exact htable, fun key => ?_⟩
  rw [hsizes key, latest_records h.survives]

/-- What is logged is what the next process knows of those before it. -/
theorem earlier_crash (m : Machine n) (server : HashThreads n) (found : List UInt8) :
    earlier ⟨server, found, m.lives ++ [m.life 0]⟩ = m.logged := by
  rw [earlier, List.flatMap_append, List.flatMap_singleton, life, HashThreads.entered_zero]
  rfl

theorem Inv.step {m m' : Machine n} {a : MachineAct n} (h : m.Inv) (hstep : m.step a = some m')
    (hclean : Clean m a m') : m'.Inv := by
  obtain ⟨table, hserver, hsizes⟩ := h.started
  cases a with
  | run a =>
      obtain ⟨server, hrun, rfl⟩ := Option.map_eq_some_iff.mp hstep
      refine ⟨h.found, ⟨table, .step hserver hrun trivial, hsizes⟩, h.earlier, ?_, h.answered⟩
      intro i b hcall hset
      have hspec := (HashThreads.step_spec (HashThreads.reachable_wf hserver) hrun).1
      rcases HashThreads.call_of_step hspec hcall with hold | ⟨r, fd, wakes, rfl, rfl⟩
      · exact h.asked i b hold hset
      · cases r with
        | get key => exact absurd hset (by simp [Request.node, createNode])
        | set r => exact survivesAlone_iff.mpr hclean
  | crash torn junk =>
      obtain rfl : torn = 0 := hclean
      obtain ⟨recovered, hrecovered, hnew⟩ := h.recovers junk
      rw [Machine.step, HashThreads.tornRecord_zero, List.append_nil, hrecovered] at hstep
      obtain rfl := Option.some.inj hstep
      have hearlier := earlier_crash m (HashThreads.init n recovered m.server.log) m.server.log
      refine ⟨?_, ⟨recovered, .init, ?_⟩, ?_, fun i b hcall => absurd hcall List.not_mem_nil, ?_⟩
      · exact h.file.1.trans (congrArg (List.flatMap logRecord) hearlier.symm)
      · intro key
        rw [hearlier]
        exact hnew key
      · rw [hearlier]
        exact h.survives
      · intro l hl i b r hcall hans hset
        rw [hearlier]
        have htrace : l.trace ∈ m.server.trace :: m.lives.map Life.trace := by
          rcases List.mem_append.mp hl with hl | hl
          · exact List.mem_cons_of_mem _ (List.mem_map_of_mem hl)
          · rw [List.mem_singleton.mp hl]
            exact List.mem_cons_self
        exact m.taken_prefix.subset (h.answered_mem htrace hcall hans hset)

theorem init_inv (n : Nat) : (init n).Inv := by
  refine ⟨rfl, ⟨Table.empty, .init, fun _ => rfl⟩, ?_, ?_, ?_⟩
  · exact fun node hnode => absurd hnode List.not_mem_nil
  · exact fun i b hcall => absurd hcall List.not_mem_nil
  · exact fun l hl => absurd hl List.not_mem_nil

theorem reachable_clean {m : Machine n} (h : (machine n).ReachableVia Clean m) : m.Inv :=
  System.ReachableVia.invariant (P := Inv) (init_inv n)
    (fun _ _ _ _ hm hstep hclean => hm.step hstep hclean) m h

end Machine

/-- Nothing but these is set, and crashes leave what is all right. -/
def Machine.setsOnly (rs : List SetRequest) (ok : Machine n → Nat → Bool) (m : Machine n)
    (a : MachineAct n) (_ : Machine n) : Bool :=
  match a with
  | .run (.enqueueHash (.set r) _ _) => r ∈ rs
  | .run _ => true
  | .crash torn _ => ok m torn

theorem Machine.clean_of_setsOnly {rs : List SetRequest} (hrs : ∀ r ∈ rs, Replayable r)
    {m m' : Machine n} {a : MachineAct n}
    (h : setsOnly rs (fun _ torn => torn = 0) m a m' = true) : Clean m a m' := by
  cases a with
  | run a =>
      cases a with
      | enqueueHash r fd wakes =>
          cases r with
          | get key => trivial
          | set r => exact hrs r (of_decide_eq_true h)
      | _ => trivial
  | crash torn junk =>
      show torn = 0
      exact of_decide_eq_true h

/-- The thread of a pool of one. -/
def soleThread : Fin 1 := ⟨0, Nat.one_pos⟩

/-- A client sets `A` and is answered; the process dies, and the next one dies before it
has answered to the same set. -/
def crashRun : List (MachineAct 1) :=
  [.run (.enqueueHash (.set HashThreads.setOfA) 7 none), .run (.check soleThread),
    .run (.lock soleThread), .run (.logSet soleThread), .run (.insert soleThread),
    .run (.unlock soleThread), .run (.send soleThread []),
    .crash 0 (Vector.replicate valueRoom 0),
    .run (.enqueueHash (.set HashThreads.setOfA) 8 none), .run (.check soleThread),
    .run (.lock soleThread), .run (.logSet soleThread), .crash 0 (Vector.replicate valueRoom 0)]

theorem setOfA_replayable : Replayable HashThreads.setOfA :=
  replayable_of_oneLine (by decide +kernel) (by decide +kernel)
    (show HashThreads.setOfA.value.bytes = 13 :: 10 :: [113] by decide +kernel)
    (by decide +kernel) (by decide +kernel) (by decide +kernel)

theorem crashRun_clean :
    (machine 1).ReachableVia Machine.Clean ((machine 1).endOf crashRun) := by
  have hclean : ∀ m a m', Machine.setsOnly [HashThreads.setOfA] (fun _ torn => torn = 0) m a m' =
      true → Machine.Clean (n := 1) m a m' :=
    fun m a m' => Machine.clean_of_setsOnly fun r hr => by
      obtain rfl := List.mem_singleton.mp hr
      exact setOfA_replayable
  exact System.ReachableVia.init.of_runVia hclean
    (System.runVia_eq_some_endOf (by decide +kernel))

end DistKv.Memcache
