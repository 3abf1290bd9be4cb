import DistKv.Lib.ChainSort
import DistKv.Lib.FirstMatch
import DistKv.Tob.Queue
import Mathlib.Order.Basic

/-!
# The pointer queue as a list of nodes

`Holds q l` says that `head` starts a NULL-terminated list with the blocks
`l` and that `tail` points to its last block when there is one. Every
operation of `queue.c` keeps some list, and acts on it as

* `enqueue` — append at the end, unless the queue is `wedged`: then the list
  stays empty for ever;
* `order_queue` — the stable sort by `staysBefore`;
* `find_node` — the first node with the uid;
* `dequeue` — erase that node.

`WF` hides the list; the theorems in terms of `nodes` and `wedged` are what
the middleware's proofs use.
-/

namespace DistKv.Tob

open BlockHeap FirstMatch StableInsert

/-! ## The order of `order_queue` -/

theorem Node.staysBefore_iff {x y : Node} :
    x.staysBefore y ↔ x.lc.toNat < y.lc.toNat ∨ x.lc.toNat = y.lc.toNat ∧ y.pid ≤ x.pid := by
  simp only [Node.staysBefore, UInt32.lt_iff_toNat_lt, UInt32.toNat_inj]

theorem Node.staysBefore_total (x y : Node) : x.staysBefore y ∨ y.staysBefore x := by
  simp only [Node.staysBefore_iff]
  omega

theorem Node.staysBefore_trans (x y z : Node) (hxy : x.staysBefore y) (hyz : y.staysBefore z) :
    x.staysBefore z := by
  simp only [Node.staysBefore_iff] at *
  omega

/-- The head test of `order_queue` is the negation of its loop test. -/
theorem Node.head_test_iff {cur s : Node} :
    (cur.lc < s.lc ∨ s.lc = cur.lc ∧ s.pid < cur.pid) ↔ ¬ s.staysBefore cur := by
  simp only [Node.staysBefore_iff, UInt32.lt_iff_toNat_lt, ← UInt32.toNat_inj]
  omega

/-- `staysBefore` on blocks: address and node. -/
def blockLe (x y : Nat × Node) : Prop := x.2.staysBefore y.2

instance : DecidableRel blockLe := fun x y => inferInstanceAs (Decidable (x.2.staysBefore y.2))

/-- `order_queue` looks at the clock and the pid only. -/
theorem pairwise_staysBefore_congr {l l' : List Node}
    (h : l.map (fun x => (x.lc, x.pid)) = l'.map (fun x => (x.lc, x.pid)))
    (hl : l.Pairwise Node.staysBefore) : l'.Pairwise Node.staysBefore := by
  let keyLe : UInt32 × Nat → UInt32 × Nat → Prop :=
    fun a b => a.1 < b.1 ∨ a.1 = b.1 ∧ b.2 ≤ a.2
  have on_keys : ∀ k : List Node, k.Pairwise Node.staysBefore ↔
      (k.map fun x => (x.lc, x.pid)).Pairwise keyLe := by
    intro k
    rw [List.pairwise_map]
    exact Iff.rfl
  rw [on_keys, ← h, ← on_keys]
  exact hl

namespace Queue

/-- `q` holds the list `l`: the chain from `head`, with `tail` at its end. -/
structure Holds (q : Queue) (l : List (Nat × Node)) : Prop where
  chain : Chain q.heap q.head l
  tail_last : ∀ a, (addrs l).getLast? = some a → q.tail = some a

/-- The queue holds some list. -/
def WF (q : Queue) : Prop := ∃ l, q.Holds l

theorem Holds.nodes_eq {q : Queue} {l : List (Nat × Node)} (hq : q.Holds l) :
    q.nodes = l.map Prod.snd := by
  unfold nodes
  rw [hq.chain.walk_eq hq.chain.length_le]

theorem Holds.head_eq {q : Queue} {l : List (Nat × Node)} (hq : q.Holds l) :
    q.head = l.head?.map Prod.fst := by
  cases l with
  | nil => exact hq.chain
  | cons b rest =>
      obtain ⟨a, v⟩ := b
      exact hq.chain.1

theorem Holds.wedged_iff {q : Queue} {l : List (Nat × Node)} (hq : q.Holds l) :
    q.wedged = true ↔ l = [] ∧ q.tail ≠ none := by
  unfold wedged
  rw [hq.head_eq]
  cases l with
  | nil => cases q.tail <;> simp
  | cons b rest => simp

theorem getLast?_addrs_concat (l : List (Nat × Node)) (b : Nat × Node) :
    (addrs (l ++ [b])).getLast? = some b.1 := by
  simp

theorem empty_holds : empty.Holds [] :=
  ⟨rfl, by simp⟩

/-! ## `enqueue` -/

/-- A fresh node goes to the end of the list. -/
theorem Holds.enqueue {q : Queue} {l : List (Nat × Node)} (hq : q.Holds l)
    (hw : q.wedged = false) (node : Node) :
    ((q.malloc node).enqueue q.heap.length).Holds (l ++ [(q.heap.length, node)]) := by
  have hmal : Chain (BlockHeap.malloc q.heap node) q.head l := Seg.malloc hq.chain node
  have hself := load_malloc_self q.heap node
  have hfresh := Seg.length_not_mem hq.chain
  rcases List.eq_nil_or_concat l with rfl | ⟨pre, ⟨t, tv⟩, rfl⟩
  · have htail : q.tail = none := by
      by_contra hne
      have := hq.wedged_iff.mpr ⟨rfl, hne⟩
      rw [hw] at this
      exact absurd this (by simp)
    constructor
    · simp only [Queue.enqueue, malloc, htail]
      exact ⟨rfl, none, hself, rfl⟩
    · simp [Queue.enqueue, malloc, htail]
  · simp only [List.concat_eq_append] at *
    have htail := hq.tail_last t (by simp)
    constructor
    · simp only [Queue.enqueue, malloc, htail]
      exact Chain.snoc hmal hself hfresh
    · simp [Queue.enqueue, malloc, htail]

/-- Through a dangling `tail` the new node is lost and the queue stays wedged. -/
theorem Holds.enqueue_wedged {q : Queue} {l : List (Nat × Node)} (hq : q.Holds l)
    (hw : q.wedged = true) (node : Node) :
    ((q.malloc node).enqueue q.heap.length).Holds [] ∧
      ((q.malloc node).enqueue q.heap.length).wedged = true := by
  obtain ⟨rfl, htail⟩ := hq.wedged_iff.mp hw
  have hhead : q.head = none := hq.chain
  obtain ⟨t, ht⟩ := Option.ne_none_iff_exists'.mp htail
  simp only [Queue.enqueue, malloc, ht]
  refine ⟨⟨hhead, by simp⟩, ?_⟩
  simp [wedged, hhead]

/-! ## `find_node` -/

theorem findFrom_spec {h : Heap Node} {p : Option Nat} {l : List (Nat × Node)} {uid : UInt32}
    (hc : Chain h p l) : ∀ fuel, l.length ≤ fuel →
      findFrom h uid fuel p = some ((l.find? (fun b => b.2.uid = uid)).map Prod.fst) := by
  induction l generalizing p with
  | nil =>
      intro fuel _
      rw [show p = none from hc]
      cases fuel <;> rfl
  | cons b rest ih =>
      obtain ⟨a, v⟩ := b
      obtain ⟨rfl, nx, hl, hrest⟩ := hc
      intro fuel hf
      cases fuel with
      | zero => simp at hf
      | succ f =>
          simp only [findFrom, hl, Option.bind_some]
          by_cases hu : v.uid = uid
          · simp [hu]
          · simp [hu, ih hrest f (by simpa using hf)]

theorem Holds.findNode {q : Queue} {l : List (Nat × Node)} (hq : q.Holds l) (uid : UInt32) :
    q.findNode uid = some ((l.find? (fun b => b.2.uid = uid)).map Prod.fst) :=
  findFrom_spec hq.chain _ hq.chain.length_le

/-! ## `order_queue` -/

/-- The test at the head of the sorted list. -/
def goesFirst (current sorted : Node) : Prop :=
  current.lc < sorted.lc ∨ sorted.lc = current.lc ∧ sorted.pid < current.pid

instance : DecidableRel goesFirst := fun _ _ => inferInstanceAs (Decidable (_ ∨ _))

/-- The queue's pointers as the ends of a list. -/
def ends (q : Queue) : ChainSort.Ends Node := ⟨q.heap, q.head, q.tail⟩

theorem scan_eq (h : Heap Node) (current : Node) :
    ∀ fuel temp, scan h current fuel temp =
      ChainSort.scan Node.staysBefore h current fuel temp := by
  intro fuel
  induction fuel with
  | zero => exact fun _ => rfl
  | succ f ih =>
      intro temp
      have hrest : scan h current f = ChainSort.scan Node.staysBefore h current f := funext ih
      rw [scan, hrest]
      rfl

theorem insertSorted_eq (h : Heap Node) (sorted : Option Nat) (current : Nat) (cur : Node) :
    insertSorted h sorted current cur =
      ChainSort.insertSorted goesFirst Node.staysBefore h sorted current cur := by
  cases sorted with
  | none => rfl
  | some s =>
      have hscan : scan h cur = ChainSort.scan Node.staysBefore h cur :=
        funext fun fuel => funext (scan_eq h cur fuel)
      unfold insertSorted
      rw [hscan]
      rfl

theorem orderLoop_eq :
    ∀ fuel (h : Heap Node) (p sorted : Option Nat), orderLoop fuel h p sorted =
      ChainSort.orderLoop goesFirst Node.staysBefore fuel h p sorted := by
  intro fuel
  induction fuel with
  | zero => intro h p sorted; cases p <;> rfl
  | succ f ih =>
      intro h p sorted
      cases p with
      | none => rfl
      | some a => simp only [orderLoop, ChainSort.orderLoop, insertSorted_eq, ih]

theorem lastFrom_eq (h : Heap Node) :
    ∀ fuel a, lastFrom h fuel a = ChainSort.lastFrom h fuel a := by
  intro fuel
  induction fuel with
  | zero => exact fun _ => rfl
  | succ f ih =>
      intro a
      have hrest : lastFrom h f = ChainSort.lastFrom h f := funext ih
      rw [lastFrom, hrest]
      rfl

/-- `order_queue` is the sort in place with the source's two tests. -/
theorem ends_orderQueue (q : Queue) :
    q.orderQueue.map ends = ChainSort.order goesFirst Node.staysBefore q.ends := by
  obtain ⟨h, head, tail⟩ := q
  cases head with
  | none => rfl
  | some a =>
      simp only [orderQueue, ChainSort.order, ends, orderLoop_eq, lastFrom_eq]
      cases load h a with
      | none => rfl
      | some c =>
          simp only [Option.bind_some]
          split
          · rfl
          · cases ChainSort.orderLoop goesFirst Node.staysBefore h.length h (some a) none with
            | none => rfl
            | some r =>
                obtain ⟨h', sorted⟩ := r
                cases sorted with
                | none => rfl
                | some s =>
                    simp only [Option.bind_some]
                    cases ChainSort.lastFrom h' h'.length s with
                    | none => rfl
                    | some t => rfl

/-- **`order_queue` is the stable sort** of the list the queue holds; it
neither faults nor loops, and does not touch an empty queue's pointers. -/
theorem Holds.orderQueue {q : Queue} {l : List (Nat × Node)} (hq : q.Holds l) :
    ∃ q', q.orderQueue = some q' ∧ q'.Holds (stableSort blockLe l) ∧ (l = [] → q' = q) := by
  have hends : q.ends.Holds l := ⟨hq.chain, hq.tail_last⟩
  have htests : ∀ cur s, goesFirst cur s ↔ ¬ s.staysBefore cur := fun _ _ => Node.head_test_iff
  obtain ⟨e, he, hholds, hsame, -⟩ := hends.order htests
  rw [← ends_orderQueue, Option.map_eq_some_iff] at he
  obtain ⟨q', hq', rfl⟩ := he
  refine ⟨q', hq', ⟨hholds.chain, hholds.tail_last⟩, fun hnil => ?_⟩
  obtain ⟨_, _, _⟩ := q'
  obtain ⟨_, _, _⟩ := q
  simpa [ends] using hsame hnil

/-! ## `dequeue` -/

/-- The search loop finds the first block with the uid and the block before it. -/
theorem searchFrom_spec {h : Heap Node} (uid : UInt32) :
    ∀ (l : List (Nat × Node)) (p prev : Option Nat) (fuel : Nat),
      Chain h p l → l.length ≤ fuel →
      (l.find? (fun b => b.2.uid = uid) = none ∧
        ∃ r, searchFrom h uid fuel prev p = some (r, none)) ∨
      ∃ pre a v post, l = pre ++ (a, v) :: post ∧ (∀ b ∈ pre, b.2.uid ≠ uid) ∧ v.uid = uid ∧
        searchFrom h uid fuel prev p =
          some ((pre.getLast?.map Prod.fst).or prev, some a) := by
  intro l
  induction l with
  | nil =>
      intro p prev fuel hp _
      obtain rfl : p = none := hp
      exact Or.inl ⟨rfl, prev, by cases fuel <;> rfl⟩
  | cons b rest ih =>
      obtain ⟨a, v⟩ := b
      intro p prev fuel hp hf
      obtain ⟨f, rfl⟩ : ∃ f, fuel = f + 1 := ⟨fuel - 1, by simp at hf; omega⟩
      obtain ⟨rfl, nx, hl, hrest⟩ := hp
      by_cases hu : v.uid = uid
      · exact Or.inr ⟨[], a, v, rest, rfl, by simp, hu, by simp [searchFrom, hl, hu]⟩
      · rcases ih nx (some a) f hrest (by simpa using hf) with ⟨hnone, r, hr⟩ | hfound
        · exact Or.inl ⟨by simp [hu, hnone], r, by simp [searchFrom, hl, hu, hr]⟩
        · obtain ⟨pre, a', v', post, rfl, hpre, hu', hr⟩ := hfound
          refine Or.inr ⟨(a, v) :: pre, a', v', post, rfl, ?_, hu', ?_⟩
          · intro b hb
            rcases List.mem_cons.mp hb with rfl | hb
            · exact hu
            · exact hpre b hb
          · simp only [searchFrom, hl, Option.bind_some, if_neg hu, hr]
            cases pre using List.reverseRec with
            | nil => rfl
            | append_singleton _ _ => simp [List.getLast?_cons]

theorem eraseP_split {uid : UInt32} {pre post : List (Nat × Node)} {b : Nat × Node}
    (hpre : ∀ c ∈ pre, c.2.uid ≠ uid) (hb : b.2.uid = uid) :
    (pre ++ b :: post).eraseP (fun c => c.2.uid = uid) = pre ++ post := by
  rw [List.eraseP_append_right _ (by simpa using hpre), List.eraseP_cons_of_pos (by simpa using hb)]

/-- Taking out a block behind the head keeps the list, and `tail` at its end. -/
theorem Holds.unlink {q : Queue} {pre post : List (Nat × Node)} {t a : Nat} {tv v : Node}
    {nx : Option Nat} (hq : q.Holds (pre ++ (t, tv) :: (a, v) :: post))
    (hl : load q.heap a = some ⟨v, nx⟩) :
    ({ heap := free (setNext q.heap t nx) a, head := q.head
       tail := if q.tail = some a then some t else q.tail } : Queue).Holds
      (pre ++ (t, tv) :: post) := by
  refine ⟨Chain.unlink (c := ⟨v, nx⟩) hq.chain hl, ?_⟩
  intro z hz
  have hnd := hq.chain.nodup
  cases post using List.reverseRec with
  | nil =>
      have htail := hq.tail_last a (by simp)
      simp only [addrs, List.map_append, List.map_cons, List.map_nil,
        List.getLast?_concat, Option.some.injEq] at hz
      simp [htail, hz]
  | append_singleton post y =>
      have happend : pre ++ (t, tv) :: (post ++ [y]) = pre ++ (t, tv) :: post ++ [y] := by simp
      rw [happend, getLast?_addrs_concat, Option.some.injEq] at hz
      have htail := hq.tail_last y.1 (by
        rw [show pre ++ (t, tv) :: (a, v) :: (post ++ [y])
          = pre ++ (t, tv) :: (a, v) :: post ++ [y] by simp, getLast?_addrs_concat])
      have hne : y.1 ≠ a := by
        intro hya
        simp [List.nodup_append, hya] at hnd
      subst hz
      show (if q.tail = some a then some t else q.tail) = some y.1
      rw [htail, if_neg (by simpa using hne)]

/-- **`dequeue` erases the first node with the uid** and keeps `tail` at the
last node, except that an emptied queue keeps a non-NULL `tail`. -/
theorem Holds.dequeue {q : Queue} {l : List (Nat × Node)} (hq : q.Holds l) (uid : UInt32) :
    ∃ q', q.dequeue uid = some q' ∧ q'.Holds (l.eraseP (fun b => b.2.uid = uid)) ∧
      (q'.tail = none ↔ q.tail = none) := by
  cases l with
  | nil =>
      have hhead : q.head = none := hq.chain
      exact ⟨q, by simp [Queue.dequeue, hhead], hq, Iff.rfl⟩
  | cons b rest =>
      obtain ⟨a, v⟩ := b
      have hnd := hq.chain.nodup
      obtain ⟨hhead, nx, hl, hrest⟩ := hq.chain
      by_cases hu : v.uid = uid
      · refine ⟨{ q with heap := free q.heap a, head := nx }, ?_, ?_, Iff.rfl⟩
        · simp [Queue.dequeue, hhead, hl, hu]
        · rw [List.eraseP_cons_of_pos (by simpa using hu)]
          refine ⟨Seg.free hrest (List.nodup_cons.mp hnd).1, ?_⟩
          intro a' ha'
          exact hq.tail_last a' (by rw [addrs, List.map_cons, List.getLast?_cons, ha']; rfl)
      · rcases searchFrom_spec uid ((a, v) :: rest) (some a) none q.heap.length
          (by rw [← hhead]; exact hq.chain) hq.chain.length_le with ⟨hnone, r, hr⟩ | hfound
        · refine ⟨q, by simp [Queue.dequeue, hhead, hl, hu, hr], ?_, Iff.rfl⟩
          rw [List.eraseP_of_forall_not (by simpa using hnone)]
          exact hq
        · obtain ⟨pre, a', v', post, hsplit, hpre, hu', hr⟩ := hfound
          -- the match is not the head, so there is a block before it
          rcases List.eq_nil_or_concat pre with rfl | ⟨pre', ⟨t, tv⟩, rfl⟩
          · simp only [List.nil_append, List.cons.injEq, Prod.mk.injEq] at hsplit
            exact absurd (hsplit.1.2 ▸ hu') hu
          simp only [List.concat_eq_append, List.append_assoc, List.singleton_append] at *
          have hchain : Chain q.heap q.head (pre' ++ (t, tv) :: (a', v') :: post) :=
            hsplit ▸ hq.chain
          obtain ⟨nx', hl'⟩ := Seg.load_mem hchain (a', v') (by simp)
          refine ⟨{ heap := free (setNext q.heap t nx') a', head := q.head
                    tail := if q.tail = some a' then some t else q.tail }, ?_, ?_, ?_⟩
          · simp only [Queue.dequeue, hhead, hl, Option.bind_some, if_neg hu, hr]
            simp [hl']
          · rw [hsplit] at hq ⊢
            rw [show pre' ++ (t, tv) :: (a', v') :: post
                = (pre' ++ [(t, tv)]) ++ (a', v') :: post by simp,
              eraseP_split (by simpa using hpre) hu', List.append_assoc, List.singleton_append]
            exact hq.unlink hl'
          · by_cases ht : q.tail = some a'
            · simp [ht]
            · simp [ht]

/-! ## Stores -/

theorem Holds.store {q : Queue} (pre : List (Nat × Node)) {post : List (Nat × Node)} {a : Nat}
    {v : Node} (hq : q.Holds (pre ++ (a, v) :: post)) (f : Node → Node) :
    (q.store a f).Holds (pre ++ (a, f v) :: post) := by
  have hnd := hq.chain.nodup
  simp only [List.map_append, List.map_cons, List.nodup_append, List.nodup_cons] at hnd
  refine ⟨Seg.setVal hq.chain (fun hm => hnd.2.2 a hm a List.mem_cons_self rfl) hnd.2.1.1 f, ?_⟩
  intro z hz
  exact hq.tail_last z (by simpa using hz)

/-! ## In terms of `nodes` and `wedged` -/

theorem nodes_empty : empty.nodes = [] := rfl

theorem wf_empty : empty.WF := ⟨[], empty_holds⟩

theorem wf_enqueue {q : Queue} (hq : q.WF) (node : Node) :
    ((q.malloc node).enqueue q.heap.length).WF := by
  obtain ⟨l, hl⟩ := hq
  cases hw : q.wedged with
  | false => exact ⟨_, hl.enqueue hw node⟩
  | true => exact ⟨_, (hl.enqueue_wedged hw node).1⟩

theorem nodes_enqueue {q : Queue} (hq : q.WF) (hw : q.wedged = false) (node : Node) :
    ((q.malloc node).enqueue q.heap.length).nodes = q.nodes ++ [node] := by
  obtain ⟨l, hl⟩ := hq
  rw [(hl.enqueue hw node).nodes_eq, hl.nodes_eq, List.map_append]
  rfl

theorem nodes_of_wedged {q : Queue} (hq : q.WF) (hw : q.wedged = true) : q.nodes = [] := by
  obtain ⟨l, hl⟩ := hq
  rw [hl.nodes_eq, (hl.wedged_iff.mp hw).1]
  rfl

theorem wedged_enqueue {q : Queue} (hq : q.WF) (node : Node) :
    ((q.malloc node).enqueue q.heap.length).wedged = q.wedged := by
  obtain ⟨l, hl⟩ := hq
  cases hw : q.wedged with
  | true => exact (hl.enqueue_wedged hw node).2
  | false =>
      by_contra hne
      have := (hl.enqueue hw node).wedged_iff.mp (by simpa using hne)
      simp at this

/-- `order_queue` terminates and sorts. -/
theorem orderQueue_spec {q : Queue} (hq : q.WF) :
    ∃ q', q.orderQueue = some q' ∧ q'.WF ∧
      q'.nodes = stableSort Node.staysBefore q.nodes ∧ q'.wedged = q.wedged := by
  obtain ⟨l, hl⟩ := hq
  obtain ⟨q', hq', hl', hsame⟩ := hl.orderQueue
  refine ⟨q', hq', ⟨_, hl'⟩, ?_, ?_⟩
  · rw [hl'.nodes_eq, hl.nodes_eq]
    exact map_stableSort Prod.snd (fun _ _ => Iff.rfl) l
  · cases l with
    | nil => rw [hsame rfl]
    | cons b rest =>
        have hperm := perm_stableSort blockLe (b :: rest)
        have h1 : q.wedged = false := by
          by_contra hne
          exact absurd (hl.wedged_iff.mp (by simpa using hne)).1 (by simp)
        have h2 : q'.wedged = false := by
          by_contra hne
          have hnil := (hl'.wedged_iff.mp (by simpa using hne)).1
          rw [hnil] at hperm
          exact absurd hperm.length_eq (by simp)
        rw [h1, h2]

/-- `find_node` returns the first node with the uid; storing through the
result updates that node and no other. -/
theorem findNode_spec {q : Queue} (hq : q.WF) (uid : UInt32) :
    (q.nodes.find? (fun x => x.uid = uid) = none ∧ q.findNode uid = some none) ∨
    ∃ a c, q.findNode uid = some (some a) ∧ load q.heap a = some c ∧
      q.nodes.find? (fun x => x.uid = uid) = some c.val ∧
      ∀ f, (q.store a f).WF ∧ (q.store a f).wedged = q.wedged ∧
        load (q.store a f).heap a = some { c with val := f c.val } ∧
        (q.store a f).nodes = updateFirst (fun x => x.uid = uid) f q.nodes := by
  obtain ⟨l, hl⟩ := hq
  have hfind : q.nodes.find? (fun x => x.uid = uid) =
      (l.find? (fun b => b.2.uid = uid)).map Prod.snd := by
    rw [hl.nodes_eq, List.find?_map]
    rfl
  cases hf : l.find? (fun b => b.2.uid = uid) with
  | none =>
      exact Or.inl ⟨by rw [hfind, hf]; rfl, by rw [hl.findNode, hf]; rfl⟩
  | some b =>
      obtain ⟨a, v⟩ := b
      obtain ⟨hv, pre, post, rfl, hpre⟩ := List.find?_eq_some_iff_append.mp hf
      obtain ⟨nx, hla⟩ := Seg.load_mem hl.chain (a, v) (by simp)
      refine Or.inr ⟨a, ⟨v, nx⟩, by rw [hl.findNode, hf]; rfl, hla, by rw [hfind, hf]; rfl, ?_⟩
      intro f
      have hst := hl.store _ f
      refine ⟨⟨_, hst⟩, ?_, ?_, ?_⟩
      · rfl
      · simp only at hla
        simp [Queue.store, setVal, hla]
      · rw [hst.nodes_eq, hl.nodes_eq, List.map_append, List.map_append, List.map_cons,
          List.map_cons, updateFirst_append (by simpa using hv)]
        intro y hy
        obtain ⟨b, hb, rfl⟩ := List.mem_map.mp hy
        simpa using hpre b hb

/-- The node at `head`, and what a store through `head` does. -/
theorem head_spec {q : Queue} (hq : q.WF) :
    (q.nodes = [] ∧ q.head = none) ∨
    ∃ a c rest, q.head = some a ∧ load q.heap a = some c ∧ q.nodes = c.val :: rest ∧
      ∀ f, (q.store a f).WF ∧ (q.store a f).wedged = q.wedged ∧
        (q.store a f).nodes = f c.val :: rest := by
  obtain ⟨l, hl⟩ := hq
  cases l with
  | nil => exact Or.inl ⟨hl.nodes_eq, hl.head_eq⟩
  | cons b rest =>
      obtain ⟨a, v⟩ := b
      obtain ⟨hhead, nx, hla, _⟩ := hl.chain
      refine Or.inr ⟨a, ⟨v, nx⟩, rest.map Prod.snd, hhead, hla, hl.nodes_eq, fun f => ?_⟩
      have hst : (q.store a f).Holds ((a, f v) :: rest) := Holds.store [] hl f
      exact ⟨⟨_, hst⟩, rfl, hst.nodes_eq⟩

/-- `dequeue` erases the first node with the uid; a queue it empties is wedged. -/
theorem dequeue_spec {q : Queue} (hq : q.WF) (uid : UInt32) :
    ∃ q', q.dequeue uid = some q' ∧ q'.WF ∧
      q'.nodes = q.nodes.eraseP (fun x => x.uid = uid) ∧
      (q'.wedged = true ↔ q.wedged = true ∨ q.nodes ≠ [] ∧ q'.nodes = []) := by
  obtain ⟨l, hl⟩ := hq
  obtain ⟨q', hq', hl', htail⟩ := hl.dequeue uid
  have hnodes : q'.nodes = q.nodes.eraseP (fun x => x.uid = uid) := by
    rw [hl'.nodes_eq, hl.nodes_eq, List.eraseP_map]
    rfl
  refine ⟨q', hq', ⟨_, hl'⟩, hnodes, ?_⟩
  rw [hl'.wedged_iff, hl.wedged_iff, ne_eq, htail, hl'.nodes_eq, hl.nodes_eq]
  simp only [List.map_eq_nil_iff, ne_eq]
  cases l using List.reverseRec with
  | nil => simp
  | append_singleton pre b =>
      have := hl.tail_last b.1 (getLast?_addrs_concat pre b)
      simp [this]

end Queue

end DistKv.Tob
