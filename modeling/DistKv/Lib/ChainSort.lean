import DistKv.Lib.BlockHeap
import DistKv.Lib.StableInsert

/-!
# Sorting a linked list in place

An insertion sort that takes the blocks off the front of a NULL-terminated
list and threads each one into a second list, which starts out empty. Only
`next` pointers are stored to, so the blocks of the two lists share the heap
and each block taken still points into the rest of the first list until it is
threaded in.

The sort has two tests: `first cur s` puts `cur` in front of the head `s` of
the second list, `stays n cur` lets the walk pass the block `n`. When one is
the negation of the other, the sort is `stableSort stays` of the list, and it
touches no block outside the list (`Ends.Holds.order`).
-/

namespace ChainSort

open BlockHeap StableInsert

variable {α : Type}

/-- A heap with the two end pointers of a list. -/
structure Ends (α : Type) where
  heap : Heap α
  head : Option Nat
  tail : Option Nat
deriving DecidableEq, Repr

/-- `q` holds the list `l`: the chain from `head`, with `tail` at its end. -/
structure Ends.Holds (q : Ends α) (l : List (Nat × α)) : Prop where
  chain : Chain q.heap q.head l
  tail_last : ∀ a, (addrs l).getLast? = some a → q.tail = some a

section Program

variable (first stays : α → α → Prop) [DecidableRel first] [DecidableRel stays]

/-- The inner loop: advance `temp` while the node behind it stays in front of
`current`. -/
def scan (h : Heap α) (current : α) : Nat → Nat → Option Nat
  | 0, _ => none
  | fuel + 1, temp =>
      (load h temp).bind fun t =>
        match t.next with
        | none => some temp
        | some nx =>
            (load h nx).bind fun n =>
              if stays n.val current then scan h current fuel nx else some temp

/-- One turn of the outer loop: thread the block at `current` into the list
that starts at `sorted`. -/
def insertSorted (h : Heap α) (sorted : Option Nat) (current : Nat) (cur : α) :
    Option (Heap α × Option Nat) :=
  match sorted with
  | none => some (setNext h current none, some current)
  | some s =>
      (load h s).bind fun sn =>
        if first cur sn.val then
          some (setNext h current (some s), some current)
        else
          (scan stays h cur h.length s).bind fun temp =>
            (load h temp).bind fun t =>
              some (setNext (setNext h current t.next) temp (some current), some s)

/-- The outer loop. -/
def orderLoop : Nat → Heap α → Option Nat → Option Nat → Option (Heap α × Option Nat)
  | _, h, none, sorted => some (h, sorted)
  | 0, _, some _, _ => none
  | fuel + 1, h, some current, sorted =>
      (load h current).bind fun c =>
        (insertSorted first stays h sorted current c.val).bind fun r =>
          orderLoop fuel r.1 c.next r.2

/-- The loop that moves `tail` to the last node. -/
def lastFrom (h : Heap α) : Nat → Nat → Option Nat
  | 0, _ => none
  | fuel + 1, a =>
      (load h a).bind fun c =>
        match c.next with
        | none => some a
        | some nx => lastFrom h fuel nx

/-- Sort the list between `head` and `tail`; a list of at most one block is
left as it is. -/
def order (q : Ends α) : Option (Ends α) :=
  match q.head with
  | none => some q
  | some a =>
      (load q.heap a).bind fun c =>
        if c.next = none then some q
        else
          (orderLoop first stays q.heap.length q.heap q.head none).bind fun r =>
            match r.2 with
            | none => some { heap := r.1, head := none, tail := none }
            | some s =>
                (lastFrom r.1 r.1.length s).bind fun t =>
                  some { heap := r.1, head := some s, tail := some t }

end Program

section Spec

variable {first stays : α → α → Prop} [DecidableRel first] [DecidableRel stays]

/-- An order of payloads as an order of blocks. -/
def onBlocks (le : α → α → Prop) (x y : Nat × α) : Prop := le x.2 y.2

instance (le : α → α → Prop) [DecidableRel le] : DecidableRel (onBlocks le) :=
  fun x y => inferInstanceAs (Decidable (le x.2 y.2))


/-- The inner loop stops at the block behind which the insertion happens. -/
theorem scan_spec (stays : α → α → Prop) [DecidableRel stays] {h : Heap α} (cur : Nat × α) :
    ∀ (rest : List (Nat × α)) (t : Nat) (tv : α) (fuel : Nat),
      Chain h (some t) ((t, tv) :: rest) → rest.length < fuel →
      ∃ pre t' tv' post, (t, tv) :: rest = pre ++ (t', tv') :: post ∧
        scan stays h cur.2 fuel t = some t' ∧
        (t, tv) :: insertBehind (onBlocks stays) cur rest = pre ++ (t', tv') :: cur :: post := by
  intro rest
  induction rest with
  | nil =>
      intro t tv fuel hc hf
      obtain ⟨f, rfl⟩ : ∃ f, fuel = f + 1 := ⟨fuel - 1, by omega⟩
      obtain ⟨_, nx, hl, hnx⟩ := hc
      obtain rfl : nx = none := hnx
      exact ⟨[], t, tv, [], rfl, by simp [scan, hl], rfl⟩
  | cons b rest ih =>
      obtain ⟨u, uv⟩ := b
      intro t tv fuel hc hf
      obtain ⟨f, rfl⟩ : ∃ f, fuel = f + 1 := ⟨fuel - 1, by omega⟩
      obtain ⟨_, nx, hl, hrest⟩ := hc
      obtain ⟨rfl, nx', hl', hrest'⟩ := seg_cons.mp hrest
      by_cases hle : stays uv cur.2
      · obtain ⟨pre, t', tv', post, hsplit, hscan, hins⟩ :=
          ih u uv f ⟨rfl, nx', hl', hrest'⟩ (by simpa using hf)
        refine ⟨(t, tv) :: pre, t', tv', post, by rw [hsplit]; rfl, ?_, ?_⟩
        · simp [scan, hl, hl', hle, hscan]
        · rw [insertBehind_of_le rest (show onBlocks stays (u, uv) cur from hle), hins]
          rfl
      · refine ⟨[], t, tv, (u, uv) :: rest, rfl, ?_, ?_⟩
        · simp [scan, hl, hl', hle]
        · rw [insertBehind_of_not_le rest (show ¬ onBlocks stays (u, uv) cur from hle)]
          rfl

/-- One turn of the outer loop: the node at `current`, outside the list, is
threaded into it; only the list and `current` change. -/
theorem insertSorted_spec (htests : ∀ cur s, first cur s ↔ ¬ stays s cur) {h : Heap α}
    {sorted : Option Nat} {done : List (Nat × α)} {current : Nat} {c : Cell α}
    (hdone : Chain h sorted done) (hl : load h current = some c) (hnew : current ∉ addrs done) :
    ∃ h' sorted', insertSorted first stays h sorted current c.val = some (h', sorted') ∧
      Chain h' sorted' (insertBehind (onBlocks stays) (current, c.val) done) ∧
      h'.length = h.length ∧
      ∀ b, b ≠ current → b ∉ addrs done → load h' b = load h b := by
  cases done with
  | nil =>
      obtain rfl : sorted = none := hdone
      refine ⟨setNext h current none, some current, rfl, ⟨rfl, none, ?_, rfl⟩, by simp, ?_⟩
      · unfold setNext
        rw [load_modify_self, hl]
        rfl
      · intro b hb _
        exact load_modify_ne _ (Ne.symm hb)
  | cons first' rest =>
      obtain ⟨s, sv⟩ := first'
      obtain ⟨rfl, nx, hls, hrest⟩ := hdone
      have hdone : Chain h (some s) ((s, sv) :: rest) := ⟨rfl, nx, hls, hrest⟩
      by_cases hle : stays sv c.val
      · obtain ⟨pre, t, tv, post, hsplit, hscan, hins⟩ :=
          scan_spec stays (current, c.val) rest s sv h.length hdone (Chain.length_le hdone)
        have hchain : Chain h (some s) (pre ++ (t, tv) :: post) := hsplit ▸ hdone
        obtain ⟨nxt, hlt⟩ := Seg.load_mem hchain (t, tv) (by simp)
        have htail : ¬ first c.val sv := fun hn => (htests _ _).mp hn hle
        refine ⟨setNext (setNext h current nxt) t (some current), some s, ?_, ?_, by simp, ?_⟩
        · simp only [insertSorted, hls, Option.bind_some, if_neg htail, hscan, hlt]
        · rw [insertBehind_of_le rest
            (show onBlocks stays (s, sv) (current, c.val) from hle), hins]
          exact Chain.insertBehind hlt hchain hl (hsplit ▸ hnew)
        · intro b hb hbd
          have hbt : t ≠ b := by
            rintro rfl
            rw [hsplit] at hbd
            exact hbd (by simp)
          unfold setNext
          rw [load_modify_ne _ hbt, load_modify_ne _ (Ne.symm hb)]
      · have hhead : first c.val sv := (htests _ _).mpr hle
        refine ⟨setNext h current (some s), some current, ?_, ?_, by simp, ?_⟩
        · simp only [insertSorted, hls, Option.bind_some, if_pos hhead]
        · rw [insertBehind_of_not_le rest
            (show ¬ onBlocks stays (s, sv) (current, c.val) from hle)]
          refine ⟨rfl, some s, ?_, Seg.modify hdone hnew _⟩
          unfold setNext
          rw [load_modify_self, hl]
          rfl
        · intro b hb _
          exact load_modify_ne _ (Ne.symm hb)

theorem mem_addrs_insertBehind {b : Nat × α} {l : List (Nat × α)} {a : Nat} :
    a ∈ addrs (insertBehind (onBlocks stays) b l) ↔ a = b.1 ∨ a ∈ addrs l := by
  rw [addrs, ((perm_insertBehind (onBlocks stays) b l).map Prod.fst).mem_iff]
  simp

/-- The outer loop inserts the remaining blocks from left to right. The list
being built and the rest of the old one share no block, so a turn leaves the
rest alone; blocks outside both keep their contents. -/
theorem orderLoop_spec (htests : ∀ cur s, first cur s ↔ ¬ stays s cur) :
    ∀ (todo : List (Nat × α)) (h : Heap α) (p sorted : Option Nat)
      (done : List (Nat × α)) (fuel : Nat),
      Chain h p todo → Chain h sorted done →
      (∀ a ∈ addrs todo, a ∉ addrs done) → todo.length ≤ fuel →
      ∃ h' sorted', orderLoop first stays fuel h p sorted = some (h', sorted') ∧
        Chain h' sorted' (todo.foldl (fun acc b => insertBehind (onBlocks stays) b acc) done) ∧
        h'.length = h.length ∧
        ∀ b, b ∉ addrs todo → b ∉ addrs done → load h' b = load h b := by
  intro todo
  induction todo with
  | nil =>
      intro h p sorted done fuel hp hdone _ _
      obtain rfl : p = none := hp
      exact ⟨h, sorted, by cases fuel <;> rfl, hdone, rfl, fun _ _ _ => rfl⟩
  | cons b rest ih =>
      obtain ⟨a, v⟩ := b
      intro h p sorted done fuel hp hdone hdisj hf
      have hnd := Chain.nodup hp
      obtain ⟨rfl, nx, hl, hrest⟩ := hp
      obtain ⟨f, rfl⟩ : ∃ f, fuel = f + 1 := ⟨fuel - 1, by simp at hf; omega⟩
      obtain ⟨hna, -⟩ := List.nodup_cons.mp hnd
      obtain ⟨h1, s1, hins, hchain, hlen, hframe⟩ :=
        insertSorted_spec htests (c := ⟨v, nx⟩) hdone hl (hdisj a List.mem_cons_self)
      have hrest1 : Chain h1 nx rest := by
        refine Seg.frame hrest fun b hb => hframe b ?_ (hdisj b (List.mem_cons_of_mem _ hb))
        rintro rfl
        exact hna hb
      have hdisj1 : ∀ b ∈ addrs rest, b ∉ addrs (insertBehind (onBlocks stays) (a, v) done) := by
        intro b hb hmem
        rcases mem_addrs_insertBehind.mp hmem with rfl | hmem
        · exact hna hb
        · exact hdisj b (List.mem_cons_of_mem _ hb) hmem
      obtain ⟨h2, s2, hloop, hfin, hlen2, hframe2⟩ :=
        ih h1 nx s1 _ f hrest1 hchain hdisj1 (by simpa using hf)
      refine ⟨h2, s2, ?_, hfin, by omega, fun b hb hbd => ?_⟩
      · simp only [orderLoop, hl, Option.bind_some, hins]
        exact hloop
      · have hba : b ≠ a := fun he => hb (he ▸ List.mem_cons_self)
        have hbrest : b ∉ addrs rest := fun hm => hb (List.mem_cons_of_mem _ hm)
        rw [hframe2 b hbrest (fun hm => (mem_addrs_insertBehind.mp hm).elim hba hbd),
          hframe b hba hbd]

theorem lastFrom_spec {h : Heap α} :
    ∀ (l : List (Nat × α)) (a : Nat) (v : α) (fuel : Nat),
      Chain h (some a) ((a, v) :: l) → l.length < fuel →
      ∃ pre t tv, (a, v) :: l = pre ++ [(t, tv)] ∧ lastFrom h fuel a = some t := by
  intro l
  induction l with
  | nil =>
      intro a v fuel hc hf
      obtain ⟨f, rfl⟩ : ∃ f, fuel = f + 1 := ⟨fuel - 1, by omega⟩
      obtain ⟨_, nx, hl, hnx⟩ := hc
      obtain rfl : nx = none := hnx
      exact ⟨[], a, v, rfl, by simp [lastFrom, hl]⟩
  | cons b rest ih =>
      obtain ⟨u, uv⟩ := b
      intro a v fuel hc hf
      obtain ⟨f, rfl⟩ : ∃ f, fuel = f + 1 := ⟨fuel - 1, by omega⟩
      obtain ⟨_, nx, hl, hrest⟩ := hc
      obtain ⟨rfl, nx', hl', hrest'⟩ := seg_cons.mp hrest
      obtain ⟨pre, t, tv, hsplit, hlast⟩ := ih u uv f ⟨rfl, nx', hl', hrest'⟩ (by simpa using hf)
      exact ⟨(a, v) :: pre, t, tv, by rw [hsplit]; rfl, by simp [lastFrom, hl, hlast]⟩

/-- **The sort in place is the stable sort** of the list the pointers hold: it
neither faults nor loops, leaves the blocks outside the list alone and does
not touch the pointers of an empty list. -/
theorem Ends.Holds.order (htests : ∀ cur s, first cur s ↔ ¬ stays s cur) {q : Ends α}
    {l : List (Nat × α)} (hq : q.Holds l) :
    ∃ q', order first stays q = some q' ∧ q'.Holds (stableSort (onBlocks stays) l) ∧
      (l = [] → q' = q) ∧ ∀ b, b ∉ addrs l → load q'.heap b = load q.heap b := by
  cases l with
  | nil =>
      have hhead : q.head = none := hq.chain
      exact ⟨q, by simp [ChainSort.order, hhead], hq, fun _ => rfl, fun _ _ => rfl⟩
  | cons b rest =>
      obtain ⟨a, v⟩ := b
      obtain ⟨hhead, nx, hl, hrest⟩ := hq.chain
      cases rest with
      | nil =>
          obtain rfl : nx = none := hrest
          exact ⟨q, by simp [ChainSort.order, hhead, hl], hq, by simp, fun _ _ => rfl⟩
      | cons b' rest' =>
          have hnx : nx ≠ none := by
            obtain ⟨u, uv⟩ := b'
            rw [hrest.1]
            simp
          obtain ⟨h', s', hloop, hchain, hlen, hframe⟩ := orderLoop_spec htests _ q.heap q.head
            none [] q.heap.length hq.chain rfl (by simp) hq.chain.length_le
          have hperm := perm_stableSort (onBlocks stays) ((a, v) :: b' :: rest')
          cases hsort : stableSort (onBlocks stays) ((a, v) :: b' :: rest') with
          | nil =>
              rw [hsort] at hperm
              exact absurd hperm.length_eq (by simp)
          | cons first' others =>
              obtain ⟨s, sv⟩ := first'
              change Chain h' s' (stableSort (onBlocks stays) ((a, v) :: b' :: rest')) at hchain
              rw [hsort] at hchain
              obtain ⟨rfl, -⟩ := seg_cons.mp hchain
              obtain ⟨pre, t, tv, hsplit, hlast⟩ := lastFrom_spec others s sv h'.length hchain
                (Chain.length_le hchain)
              refine ⟨{ heap := h', head := some s, tail := some t }, ?_, ?_, by simp, ?_⟩
              · rw [hhead] at hloop
                simp only [ChainSort.order, hhead, hl, Option.bind_some, if_neg hnx, hloop,
                  hlast]
              · exact ⟨hchain, by rw [hsplit]; simp⟩
              · exact fun b hb => hframe b hb (by simp)

end Spec

end ChainSort
