import DistKv.Lib.History
import DistKv.Tob.QueueSpec

/-!
# The queue over whole sequences of calls

For its callers the queue is a list of nodes: `enqueue` appends, `dequeue`
erases the first node with the uid, `order_queue` sorts. The pointer queue
keeps to that, with exactly the live blocks reachable and `tail` at the last of
them, as long as no call removes the only node. The first call that does leaves
`tail` at the freed block.
-/

namespace DistKv.Tob

open BlockHeap FirstMatch History StableInsert

/-- A call of one of the three operations; `enqueue` is called with a new node. -/
inductive Call
  | enqueue (node : Node)
  | dequeue (uid : UInt32)
  | orderQueue
deriving DecidableEq

namespace Queue

/-- The queue a call leaves. -/
def call (q : Queue) : Call → Option Queue
  | .enqueue node => some ((q.malloc node).enqueue q.heap.length)
  | .dequeue uid => q.dequeue uid
  | .orderQueue => q.orderQueue

/-- The queue a sequence of calls leaves. -/
def calls (q : Queue) (cs : List Call) : Option Queue := cs.foldlM call q

/-- The call neither follows nor writes through a pointer to a freed node. -/
def Sound (q : Queue) : Call → Prop
  | .enqueue _ => ∀ t ∈ q.tail, Live q.heap t
  | .dequeue uid => (q.dequeue uid).isSome = true
  | .orderQueue => q.orderQueue.isSome = true

/-- The blocks reachable from `head`. -/
def blocks (q : Queue) : List (Nat × Node) := walk q.heap q.heap.length q.head

/-- The queue is a list: the nodes that were enqueued and not freed are
reachable, each once, and `tail` is the last of them, if any. -/
structure Faithful (q : Queue) : Prop where
  reachable : ∀ a, a ∈ addrs q.blocks ↔ Live q.heap a
  once : (addrs q.blocks).Nodup
  ends : q.head = none ↔ q.tail = none
  tail_last : ∀ t ∈ q.tail, (addrs q.blocks).getLast? = some t

end Queue

/-- Every call is sound and leaves a faithful queue. -/
def FaithfulRun (cs : List Call) : Prop :=
  AtEvents (fun before c => ∃ q q', Queue.empty.calls before = some q ∧ q.Sound c ∧
    q.call c = some q' ∧ q'.Faithful) cs

/-! ## The queue as a list of nodes -/

/-- What a call does to the list. -/
def Call.onList (l : List Node) : Call → List Node
  | .enqueue node => l ++ [node]
  | .dequeue uid => l.eraseP fun x => x.uid = uid
  | .orderQueue => stableSort Node.staysBefore l

/-- The list after a sequence of calls. -/
def listAfter (cs : List Call) : List Node := cs.foldl Call.onList []

/-- The call removes the only node. -/
def Call.Empties (l : List Node) : Call → Prop
  | .dequeue uid => l.map Node.uid = [uid]
  | _ => False

instance (l : List Node) (c : Call) : Decidable (c.Empties l) :=
  match c with
  | .dequeue _ => inferInstanceAs (Decidable (_ = _))
  | .enqueue _ | .orderQueue => inferInstanceAs (Decidable False)

theorem listAfter_append_singleton (cs : List Call) (c : Call) :
    listAfter (cs ++ [c]) = c.onList (listAfter cs) := by
  simp [listAfter]

namespace Queue

theorem calls_append_singleton {q q' : Queue} {cs : List Call} (h : q.calls cs = some q')
    (c : Call) : q.calls (cs ++ [c]) = q'.call c := by
  unfold calls at *
  rw [List.foldlM_append, h]
  simp

/-! ## Live blocks -/

theorem live_insertSorted {h h' : Heap Node} {sorted sorted' : Option Nat} {current : Nat}
    {cur : Node} (hins : insertSorted h sorted current cur = some (h', sorted')) (b : Nat) :
    Live h' b ↔ Live h b := by
  cases sorted with
  | none =>
      simp only [insertSorted, Option.some.injEq, Prod.mk.injEq] at hins
      rw [← hins.1, live_setNext]
  | some s =>
      obtain ⟨sn, -, hins⟩ := Option.bind_eq_some_iff.mp hins
      by_cases htest : cur.lc < sn.val.lc ∨ sn.val.lc = cur.lc ∧ sn.val.pid < cur.pid
      · rw [if_pos htest, Option.some.injEq, Prod.mk.injEq] at hins
        rw [← hins.1, live_setNext]
      · rw [if_neg htest] at hins
        obtain ⟨temp, -, hins⟩ := Option.bind_eq_some_iff.mp hins
        obtain ⟨t, -, hins⟩ := Option.bind_eq_some_iff.mp hins
        rw [Option.some.injEq, Prod.mk.injEq] at hins
        rw [← hins.1, live_setNext, live_setNext]

/-- Sorting frees nothing. -/
theorem live_orderLoop {fuel : Nat} {h h' : Heap Node} {p sorted sorted' : Option Nat}
    (hloop : orderLoop fuel h p sorted = some (h', sorted')) (b : Nat) :
    Live h' b ↔ Live h b := by
  induction fuel generalizing h p sorted with
  | zero =>
      cases p with
      | none =>
          simp only [orderLoop, Option.some.injEq, Prod.mk.injEq] at hloop
          rw [← hloop.1]
      | some a => simp [orderLoop] at hloop
  | succ fuel ih =>
      cases p with
      | none =>
          simp only [orderLoop, Option.some.injEq, Prod.mk.injEq] at hloop
          rw [← hloop.1]
      | some a =>
          obtain ⟨c, -, hloop⟩ := Option.bind_eq_some_iff.mp hloop
          obtain ⟨⟨h₁, s₁⟩, hins, hloop⟩ := Option.bind_eq_some_iff.mp hloop
          rw [ih hloop, live_insertSorted hins]

theorem live_orderQueue {q q' : Queue} (h : q.orderQueue = some q') (b : Nat) :
    Live q'.heap b ↔ Live q.heap b := by
  unfold orderQueue at h
  cases hhead : q.head with
  | none =>
      rw [hhead] at h
      rw [← Option.some.inj h]
  | some a =>
      rw [hhead] at h
      obtain ⟨c, -, h⟩ := Option.bind_eq_some_iff.mp h
      by_cases hnext : c.next = none
      · rw [if_pos hnext] at h
        rw [← Option.some.inj h]
      · rw [if_neg hnext] at h
        obtain ⟨⟨h₁, s₁⟩, hloop, h⟩ := Option.bind_eq_some_iff.mp h
        cases s₁ with
        | none =>
            rw [← Option.some.inj h]
            exact live_orderLoop hloop b
        | some s =>
            obtain ⟨t, -, h⟩ := Option.bind_eq_some_iff.mp h
            rw [← Option.some.inj h]
            exact live_orderLoop hloop b

/-- A `dequeue` frees one live block, or leaves the queue as it is. -/
theorem dequeue_heap {q q' : Queue} {uid : UInt32} (h : q.dequeue uid = some q') :
    q' = q ∨ ∃ a, Live q.heap a ∧ ∀ b, Live q'.heap b ↔ Live q.heap b ∧ b ≠ a := by
  unfold dequeue at h
  cases hhead : q.head with
  | none =>
      rw [hhead] at h
      exact Or.inl (Option.some.inj h).symm
  | some temp =>
      rw [hhead] at h
      obtain ⟨c, hc, h⟩ := Option.bind_eq_some_iff.mp h
      by_cases hu : c.val.uid = uid
      · rw [if_pos hu] at h
        refine Or.inr ⟨temp, Live.of_load hc, fun b => ?_⟩
        rw [← Option.some.inj h]
        exact live_free
      · rw [if_neg hu] at h
        obtain ⟨⟨prev, found⟩, -, h⟩ := Option.bind_eq_some_iff.mp h
        cases found with
        | none => exact Or.inl (Option.some.inj h).symm
        | some a =>
            obtain ⟨before, -, h⟩ := Option.bind_eq_some_iff.mp h
            obtain ⟨ca, hca, h⟩ := Option.bind_eq_some_iff.mp h
            refine Or.inr ⟨a, Live.of_load hca, fun b => ?_⟩
            rw [← Option.some.inj h]
            show Live (free _ a) b ↔ _
            rw [live_free, live_setNext]

/-! ## One call -/

/-- The queue holds the list, nothing else is live, and an empty queue has no `tail`. -/
structure Lists (q : Queue) (l : List (Nat × Node)) : Prop where
  holds : q.Holds l
  live : ∀ a, Live q.heap a → a ∈ addrs l
  ends : l = [] → q.tail = none

theorem empty_lists : empty.Lists [] :=
  ⟨empty_holds, by simp [empty, Live, load], fun _ => rfl⟩

theorem Lists.wedged {q : Queue} {l : List (Nat × Node)} (h : q.Lists l) : q.wedged = false := by
  by_contra hw
  obtain ⟨hnil, htail⟩ := h.holds.wedged_iff.mp (by simpa using hw)
  exact htail (h.ends hnil)

/-- A `tail` points to the last node. -/
theorem Lists.tail_last {q : Queue} {l : List (Nat × Node)} (h : q.Lists l) {t : Nat}
    (ht : q.tail = some t) : (addrs l).getLast? = some t := by
  cases l using List.reverseRec with
  | nil =>
      rw [h.ends rfl] at ht
      cases ht
  | append_singleton rest b =>
      have hlast := getLast?_addrs_concat rest b
      rw [hlast, ← ht, h.holds.tail_last b.1 hlast]

theorem Lists.faithful {q : Queue} {l : List (Nat × Node)} (h : q.Lists l) : q.Faithful := by
  have hblocks : q.blocks = l := h.holds.chain.walk_eq h.holds.chain.length_le
  refine ⟨fun a => ?_, ?_, ?_, fun t ht => ?_⟩
  · rw [hblocks]
    exact ⟨Seg.live h.holds.chain a, h.live a⟩
  · rw [hblocks]
    exact h.holds.chain.nodup
  · rw [h.holds.head_eq]
    constructor
    · intro hnone
      exact h.ends (by simpa using hnone)
    · intro htail
      cases l using List.reverseRec with
      | nil => rfl
      | append_singleton rest b =>
          rw [h.holds.tail_last b.1 (getLast?_addrs_concat rest b)] at htail
          cases htail
  · rw [hblocks]
    exact h.tail_last ht

theorem Lists.enqueue {q : Queue} {l : List (Nat × Node)} (h : q.Lists l) (node : Node) :
    ((q.malloc node).enqueue q.heap.length).Lists (l ++ [(q.heap.length, node)]) := by
  refine ⟨h.holds.enqueue h.wedged node, fun a ha => ?_, by simp⟩
  have hlive : Live (BlockHeap.malloc q.heap node) a := by
    unfold Queue.enqueue at ha
    cases htail : (q.malloc node).tail with
    | none =>
        rw [htail] at ha
        exact ha
    | some t =>
        rw [htail] at ha
        exact live_setNext.mp ha
  rw [addrs, List.map_append, List.mem_append]
  rcases live_malloc.mp hlive with hold | rfl
  · exact Or.inl (h.live a hold)
  · exact Or.inr (by simp)

theorem Lists.orderQueue {q : Queue} {l : List (Nat × Node)} (h : q.Lists l) :
    ∃ q', q.orderQueue = some q' ∧ q'.Lists (stableSort blockLe l) := by
  obtain ⟨q', hq', hholds, hsame⟩ := h.holds.orderQueue
  have hperm := perm_stableSort blockLe l
  refine ⟨q', hq', hholds, fun a ha => ?_, fun hnil => ?_⟩
  · exact (hperm.map Prod.fst).mem_iff.mpr (h.live a ((live_orderQueue hq' a).mp ha))
  · rw [hnil] at hperm
    have hl : l = [] := List.nil_perm.mp hperm
    rw [hsame hl]
    exact h.ends hl

/-- `dequeue` erases the node it frees, unless it was the only one. -/
theorem Lists.dequeue {q : Queue} {l : List (Nat × Node)} (h : q.Lists l) {uid : UInt32}
    (hmore : l.map (fun b => b.2.uid) ≠ [uid]) :
    ∃ q', q.dequeue uid = some q' ∧ q'.Lists (l.eraseP fun b => b.2.uid = uid) := by
  obtain ⟨q', hq', hholds, htail⟩ := h.holds.dequeue uid
  refine ⟨q', hq', hholds, fun a ha => ?_, fun hnil => ?_⟩
  · rcases dequeue_heap hq' with rfl | ⟨freed, hfreed, hlive⟩
    · rw [hholds.chain.unique h.holds.chain]
      exact h.live a ha
    · -- the freed block is the one that is no longer reachable
      have hgone : freed ∉ addrs (l.eraseP fun b => b.2.uid = uid) := fun hmem =>
        ((hlive freed).mp (Seg.live hholds.chain freed hmem)).2 rfl
      obtain ⟨hold, hne⟩ := (hlive a).mp ha
      have hmem := h.live a hold
      obtain ⟨b, hb, hba⟩ := List.mem_map.mp (h.live freed hfreed)
      rcases List.exists_or_eq_self_of_eraseP (fun b : Nat × Node => b.2.uid = uid) l with
        hsame | ⟨x, pre, post, -, -, hsplit, herase⟩
      · rw [hsame] at hgone
        exact absurd (List.mem_map.mpr ⟨b, hb, hba⟩) hgone
      · rw [herase] at hgone ⊢
        rw [hsplit] at hmem
        have hfx : x.1 = freed := by
          have hmemf := h.live freed hfreed
          rw [hsplit] at hmemf
          simp only [addrs, List.map_append, List.map_cons, List.mem_append, List.mem_cons]
            at hmemf hgone
          rcases hmemf with hf | hf | hf
          · exact absurd (Or.inl hf) hgone
          · exact hf.symm
          · exact absurd (Or.inr hf) hgone
        simp only [addrs, List.map_append, List.map_cons, List.mem_append, List.mem_cons]
          at hmem ⊢
        rcases hmem with hm | hm | hm
        · exact Or.inl hm
        · exact absurd (hm.trans hfx) hne
        · exact Or.inr hm
  · -- more than the erased node was in the queue, or it was empty before
    rw [htail]
    apply h.ends
    rcases List.exists_or_eq_self_of_eraseP (fun b : Nat × Node => b.2.uid = uid) l with
      hsame | ⟨x, pre, post, -, hx, hsplit, herase⟩
    · rw [← hsame, hnil]
    · rw [herase] at hnil
      obtain ⟨rfl, rfl⟩ := List.append_eq_nil_iff.mp hnil
      refine absurd ?_ hmore
      rw [hsplit]
      simpa using hx

/-- **A call acts on the list**, if it does not remove the only node. -/
theorem Lists.call {q : Queue} {l : List (Nat × Node)} (h : q.Lists l) {c : Call}
    (hc : ¬ c.Empties (l.map Prod.snd)) : q.Sound c ∧ ∃ q' l', q.call c = some q' ∧
      q'.Lists l' ∧ l'.map Prod.snd = c.onList (l.map Prod.snd) := by
  cases c with
  | enqueue node =>
      refine ⟨fun t ht => ?_, _, _, rfl, h.enqueue node, by simp [Call.onList]⟩
      have hlast := h.tail_last ht
      exact Seg.live h.holds.chain t (List.mem_of_getLast? hlast)
  | dequeue uid =>
      have hmore : l.map (fun b => b.2.uid) ≠ [uid] := fun heq =>
        hc (by simpa [Call.Empties] using heq)
      obtain ⟨q', hq', hlists⟩ := h.dequeue hmore
      refine ⟨by rw [Sound, hq']; rfl, q', _, hq', hlists, ?_⟩
      show _ = (l.map Prod.snd).eraseP _
      rw [List.eraseP_map]
      rfl
  | orderQueue =>
      obtain ⟨q', hq', hlists⟩ := h.orderQueue
      refine ⟨by rw [Sound, hq']; rfl, q', _, hq', hlists, ?_⟩
      exact map_stableSort Prod.snd (fun _ _ => Iff.rfl) l

/-- A call that removes the only node leaves a `tail` behind. -/
theorem Lists.not_faithful {q q' : Queue} {l : List (Nat × Node)} (h : q.Lists l) {c : Call}
    (hc : c.Empties (l.map Prod.snd)) (hq' : q.call c = some q') : ¬ q'.Faithful := by
  cases c with
  | dequeue uid =>
      obtain ⟨q₁, hq₁, hholds, htail⟩ := h.holds.dequeue uid
      obtain rfl := Option.some.inj (hq₁.symm.trans hq')
      have hlen : l.length = 1 := by simpa [Call.Empties] using congrArg List.length hc
      obtain ⟨b, rfl⟩ := List.length_eq_one_iff.mp hlen
      have hu : b.2.uid = uid := by simpa [Call.Empties] using hc
      have hhead : q₁.head = none := by
        rw [hholds.head_eq]
        simp [hu]
      intro hfaithful
      have hnone := htail.mp (hfaithful.ends.mp hhead)
      rw [h.holds.tail_last b.1 rfl] at hnone
      cases hnone
  | _ => exact hc.elim

end Queue

/-! ## Sequences of calls -/

/-- As long as no call removes the only node the pointer queue holds the list. -/
theorem lists_of_calls {cs : List Call}
    (h : AtEvents (fun before c => ¬ c.Empties (listAfter before)) cs) :
    ∃ q l, Queue.empty.calls cs = some q ∧ q.Lists l ∧ l.map Prod.snd = listAfter cs := by
  induction cs using List.reverseRec with
  | nil => exact ⟨Queue.empty, [], rfl, Queue.empty_lists, rfl⟩
  | append_singleton before c ih =>
      obtain ⟨hbefore, hc⟩ := atEvents_append_singleton.mp h
      obtain ⟨q, l, hq, hlists, hl⟩ := ih hbefore
      obtain ⟨-, q', l', hq', hlists', hl'⟩ := hlists.call (hl ▸ hc)
      refine ⟨q', l', ?_, hlists', ?_⟩
      · rw [Queue.calls_append_singleton hq, hq']
      · rw [hl', hl, listAfter_append_singleton]

/-- **The queue is a faithful list** over a sequence of calls if and only if no
call removes the only node. -/
theorem faithfulRun_iff (cs : List Call) :
    FaithfulRun cs ↔ AtEvents (fun before c => ¬ c.Empties (listAfter before)) cs := by
  induction cs using List.reverseRec with
  | nil => exact iff_of_true (atEvents_nil _) (atEvents_nil _)
  | append_singleton before c ih =>
      unfold FaithfulRun at ih ⊢
      rw [atEvents_append_singleton, atEvents_append_singleton, ih]
      refine and_congr_right fun hbefore => ?_
      obtain ⟨q, l, hq, hlists, hl⟩ := lists_of_calls hbefore
      rw [← hl]
      constructor
      · rintro ⟨q₁, q', hq₁, -, hq', hfaithful⟩ hc
        obtain rfl := Option.some.inj (hq.symm.trans hq₁)
        exact hlists.not_faithful hc hq' hfaithful
      · intro hc
        obtain ⟨hsound, q', l', hq', hlists', -⟩ := hlists.call hc
        exact ⟨q, q', hq, hsound, hq', hlists'.faithful⟩

/-- A node that is enqueued and dequeued, and a second one. -/
def refillCalls : List Call :=
  let node (uid : UInt32) := createNode 100 10000 false 0 [104, 105] 2 1 uid 2 0
  [.enqueue (node 1), .dequeue 1, .enqueue (node 2)]

/-- The second node is written through the pointer to the first, and never seen again. -/
theorem refill_not_faithful : ¬ FaithfulRun refillCalls ∧
    ∀ q ∈ Queue.empty.calls refillCalls, q.nodes = [] ∧ Live q.heap 1 := by
  refine ⟨fun h => ?_, by decide +kernel⟩
  obtain ⟨q, q', hq, hsound, -⟩ := h (refillCalls.take 2) _ [] rfl
  obtain rfl := Option.some.inj ((show Queue.empty.calls (refillCalls.take 2) =
    some ⟨[none], none, some 0⟩ by decide +kernel).symm.trans hq)
  exact absurd (hsound 0 rfl) (by decide)

end DistKv.Tob
