import DistKv.Lib.CommonOrder
import DistKv.Tob.Delivery

/-!
# Delivery at the head, in one order

`handle_ack` and `handle_ready` do not look at the head. What they deliver is
the head all the same in every run without overtaking: no BROAD is handled
that sorts before an acknowledged message still in the queue. There, at most
one queued message is acknowledged at a time, and it is the head.

A process then acknowledges its next message only after it removed the one
before, and that one had been acknowledged by everyone. So all processes
acknowledge, and remove, in one order, whatever the timestamps are.

With overtaking both fail: see `crossed`.
-/

namespace DistKv.Tob

open CommonOrder FirstMatch History StableInsert

variable {n : Nat}

/-- A BROAD that sorts before an acknowledged message in the queue. -/
def Overtakes (queue : List Node) : Msg → Prop
  | .broad _ pid _ stamp _ _ =>
      ∃ x ∈ queue, x.ackFlg = true ∧ ¬ (x.lc < stamp ∨ x.lc = stamp ∧ pid ≤ x.pid)
  | _ => False

instance (queue : List Node) (msg : Msg) : Decidable (Overtakes queue msg) :=
  match msg with
  | .broad _ pid _ stamp _ _ => inferInstanceAs (Decidable
      (∃ x ∈ queue, x.ackFlg = true ∧ ¬ (x.lc < stamp ∨ x.lc = stamp ∧ pid ≤ x.pid)))
  | .issue _ | .ack _ _ | .ready _ => inferInstanceAs (Decidable False)

/-- No process handles a BROAD that overtakes. -/
def NoOvertaking (s : State n) (a : Act n) (_ : State n) : Prop :=
  match a with
  | .accept p k _ _ => ∀ pk ∈ s.net[k]?, ¬ Overtakes (s.procs p).queue.nodes pk.msg
  | _ => True

instance (s : State n) (a : Act n) (s' : State n) : Decidable (NoOvertaking s a s') :=
  match a with
  | .accept p k _ _ => inferInstanceAs (Decidable
      (∀ pk ∈ s.net[k]?, ¬ Overtakes (s.procs p).queue.nodes pk.msg))
  | .client _ _ | .perform _ | .abort _ _ | .drop _ => inferInstanceAs (Decidable True)

theorem NoOvertaking.staysBefore {s s' : State n} {p : Fin n} {k got : Nat} {stack : Bytes}
    (h : NoOvertaking s (.accept p k got stack) s') {pk : Packet n} {uid : UInt32}
    {pid portNum : Nat} {stamp : UInt32} {len : Nat} {body : Bytes} (hk : s.net[k]? = some pk)
    (hmsg : pk.msg = .broad uid pid portNum stamp len body) {x : Node}
    (hx : x ∈ (s.procs p).queue.nodes) (hf : x.ackFlg = true) :
    x.lc < stamp ∨ x.lc = stamp ∧ pid ≤ x.pid := by
  have hpk := h pk hk
  rw [hmsg] at hpk
  by_contra hnot
  exact hpk ⟨x, hx, hf, hnot⟩

/-- Only the head may be acknowledged. -/
def FlagAtHead (l : List Node) : Prop := ∀ b ∈ (l.map Node.ackFlg).tail, b = false

theorem FlagAtHead.head {l : List Node} (h : FlagAtHead l) {y : Node} (hy : y ∈ l)
    (hf : y.ackFlg = true) : ∃ rest, l = y :: rest ∧ ∀ z ∈ rest, z.ackFlg = false := by
  cases l with
  | nil => simp at hy
  | cons x rest =>
      have hrest : ∀ z ∈ rest, z.ackFlg = false := fun z hz =>
        h z.ackFlg (by simpa using ⟨z, hz, rfl⟩)
      rcases List.mem_cons.mp hy with rfl | hy
      · exact ⟨rest, rfl, hrest⟩
      · exact absurd hf (by simp [hrest y hy])

theorem FlagAtHead.cons {x : Node} {rest : List Node} :
    FlagAtHead (x :: rest) ↔ ∀ z ∈ rest, z.ackFlg = false := by
  simp [FlagAtHead]

/-- A node that overtakes nobody leaves the acknowledged node at the head. -/
theorem FlagAtHead.insertBehind {l : List Node} (h : FlagAtHead l) {new head : Node}
    {rest : List Node} (hnew : new.ackFlg = false)
    (hins : insertBehind Node.staysBefore new l = head :: rest)
    (hover : ∀ x ∈ l, x.ackFlg = true → x.staysBefore new) : FlagAtHead (head :: rest) := by
  cases l with
  | nil =>
      obtain ⟨rfl, rfl⟩ := by simpa using hins
      simp [FlagAtHead]
  | cons x l' =>
      rw [FlagAtHead.cons] at h ⊢
      rw [insertBehind_cons] at hins
      by_cases hx : x.staysBefore new
      · rw [if_pos hx] at hins
        obtain ⟨rfl, rfl⟩ := List.cons.inj hins
        intro z hz
        rcases mem_insertBehind.mp hz with rfl | hz
        · exact hnew
        · exact h z hz
      · rw [if_neg hx] at hins
        obtain ⟨rfl, rfl⟩ := List.cons.inj hins
        intro z hz
        rcases List.mem_cons.mp hz with rfl | hz
        · cases hf : z.ackFlg with
          | false => rfl
          | true => exact absurd (hover z List.mem_cons_self hf) hx
        · exact h z hz

theorem FlagAtHead.updateFirst {l : List Node} (h : FlagAtHead l) {p : Node → Bool}
    {f : Node → Node} (hflag : ∀ x, (f x).ackFlg = x.ackFlg) :
    FlagAtHead (FirstMatch.updateFirst p f l) := by
  unfold FlagAtHead
  rw [map_updateFirst Node.ackFlg hflag]
  exact h

/-- The acknowledged messages in a queue. -/
def flaggedMids (l : List Node) : List Nat := (l.filter Node.ackFlg).map Node.mid

theorem flaggedMids_eq_nil {l : List Node} (h : ∀ z ∈ l, z.ackFlg = false) :
    flaggedMids l = [] := by
  rw [flaggedMids, List.filter_eq_nil_iff.mpr (fun z hz => by simp [h z hz]), List.map_nil]

theorem flaggedMids_updateFirst {p : Node → Bool} {f : Node → Node}
    (hmid : ∀ x, (f x).mid = x.mid) (hflag : ∀ x, (f x).ackFlg = x.ackFlg) (l : List Node) :
    flaggedMids (updateFirst p f l) = flaggedMids l := by
  have hmap := map_updateFirst (p := p) (f := f) (fun x => (x.mid, x.ackFlg))
    (fun x => by rw [hmid, hflag]) l
  have hpairs : ∀ k : List Node, flaggedMids k =
      ((k.map fun x => (x.mid, x.ackFlg)).filter Prod.snd).map Prod.fst := by
    intro k
    rw [List.filter_map, List.map_map]
    rfl
  rw [hpairs, hmap, ← hpairs]

/-- The messages `p` acknowledged, in order. -/
def flags (p : Fin n) (t : List (Event n)) : List Nat :=
  t.filterMap fun
    | .flagged q m => if q = p then some m else none
    | _ => none

/-- The messages `p` removed, in order. -/
def removals (p : Fin n) (t : List (Event n)) : List Nat :=
  t.filterMap fun
    | .gotReady q _ (some m) _ _ => if q = p then some m else none
    | _ => none

theorem count_flags (p : Fin n) (m : Nat) (t : List (Event n)) :
    (flags p t).count m = t.countP (Event.isFlagged p m) := by
  induction t with
  | nil => rfl
  | cons e rest ih =>
      cases e with
      | flagged q k =>
          rw [List.countP_cons, ← ih]
          by_cases hq : q = p
          · simp [flags, hq, List.count_cons]
          · simp [flags, hq]
      | _ => exact ih

theorem count_removals (p : Fin n) (m : Nat) (t : List (Event n)) :
    (removals p t).count m = t.countP (Event.isRemoved p m) := by
  induction t with
  | nil => rfl
  | cons e rest ih =>
      cases e with
      | gotReady q k hit head bare =>
          cases hit with
          | none => exact ih
          | some j =>
              rw [List.countP_cons, ← ih]
              by_cases hq : q = p
              · simp [removals, hq, List.count_cons]
              · simp [removals, hq]
      | _ => exact ih

theorem flags_append (p : Fin n) (t t' : List (Event n)) :
    flags p (t ++ t') = flags p t ++ flags p t' := List.filterMap_append

theorem removals_append (p : Fin n) (t t' : List (Event n)) :
    removals p (t ++ t') = removals p t ++ removals p t' := List.filterMap_append

/-- Events elsewhere, or of other kinds, flag and remove nothing at `q`. -/
theorem flags_eq_nil {q : Fin n} {events : List (Event n)}
    (h : ∀ e ∈ events, ¬ e.At q ∨ e.Quiet) : flags q events = [] ∧ removals q events = [] := by
  constructor
  · rw [flags, List.filterMap_eq_nil_iff]
    intro e he
    have hnot := h e he
    cases e with
    | flagged p m => exact if_neg (hnot.resolve_right id)
    | _ => rfl
  · rw [removals, List.filterMap_eq_nil_iff]
    intro e he
    have hnot := h e he
    cases e with
    | gotReady p m hit head bare =>
        cases hit with
        | none => rfl
        | some j => exact if_neg (hnot.resolve_right id)
    | _ => rfl

/-- What a handler does to the acknowledged messages of its process: nothing,
or it acknowledges one while there was none, or it removes the only one. -/
inductive FlagMove (old new : List Nat) : List Nat → List Nat → Prop
  | keep : new = old → FlagMove old new [] []
  | flag (m : Nat) : old = [] → new = [m] → FlagMove old new [m] []
  | remove (m : Nat) : old = [m] → new = [] → FlagMove old new [] [m]

theorem Handles.flagMove {cfg : Cfg n} {p : Fin n} {fresh : Nat} {x x' : ViewProc n}
    {pk : Packet n} {events : List (Event n)} {issued : Option (Issued n)}
    (h : Handles cfg p fresh x pk x' events issued) (hhead : FlagAtHead x.queue)
    (hover : ∀ uid pid portNum stamp len body, pk.msg = .broad uid pid portNum stamp len body →
      ∀ y ∈ x.queue, y.ackFlg = true → y.lc < stamp ∨ y.lc = stamp ∧ pid ≤ y.pid)
    (hready : ∀ uid, pk.msg = .ready uid →
      ∃ y, x.queue.find? (fun y => y.uid = uid) = some y ∧ y.ackFlg = true) :
    FlagAtHead x'.queue ∧
      FlagMove (flaggedMids x.queue) (flaggedMids x'.queue) (flags p events)
        (removals p events) := by
  cases h with
  | issue message hmsg => exact ⟨hhead, .keep rfl⟩
  | hang uid pid port stamp len hmsg => exact ⟨hhead, .keep rfl⟩
  | lose uid pid port stamp len body hmsg hw => exact ⟨hhead, .keep rfl⟩
  | enqueueAck uid pid port stamp len body buffer head rest hmsg hw hins hf =>
      have hnew := hhead.insertBehind rfl hins (hover uid pid port stamp len body hmsg)
      rw [FlagAtHead.cons] at hnew
      refine ⟨FlagAtHead.cons.mpr hnew, ?_⟩
      have hflags : flags p [Event.received p pk.mid (receiveClock x.lc stamp),
          .flagged p head.mid] = [head.mid] := by simp [flags]
      rw [hflags]
      refine .flag head.mid ?_ ?_
      · -- no node was acknowledged before
        apply flaggedMids_eq_nil
        intro z hz
        have hmem : z ∈ head :: rest := by
          rw [← hins, mem_insertBehind]
          exact Or.inr hz
        rcases List.mem_cons.mp hmem with rfl | hmem
        · exact hf
        · exact hnew z hmem
      · have hrest := flaggedMids_eq_nil hnew
        unfold flaggedMids at hrest ⊢
        simp [hrest]
  | enqueueQuiet uid pid port stamp len body buffer head rest hmsg hw hins hf =>
      have hnew := hhead.insertBehind rfl hins (hover uid pid port stamp len body hmsg)
      refine ⟨hnew, .keep ?_⟩
      have hperm := ((perm_insertBehind Node.staysBefore
        (createNode pid port false 0 buffer len stamp uid n pk.mid) x.queue).filter
          Node.ackFlg).map Node.mid
      rw [hins] at hperm
      -- the acknowledged node is the head before and after
      rw [FlagAtHead.cons] at hnew
      have hrest := flaggedMids_eq_nil hnew
      unfold flaggedMids at hrest ⊢
      simp only [List.filter_cons, hf, if_true, List.map_cons, hrest, createNode,
        Bool.false_eq_true, if_false] at hperm ⊢
      exact (List.perm_singleton.mp hperm.symm).symm
  | ackMiss pid uid hmsg hnone => exact ⟨hhead, .keep rfl⟩
  | ackCount pid uid y hmsg hsome hcount =>
      exact ⟨hhead.updateFirst (by intro; rfl),
        .keep (flaggedMids_updateFirst (by intro; rfl) (by intro; rfl) _)⟩
  | ackReady pid uid y hmsg hsome hcount =>
      exact ⟨hhead.updateFirst (by intro; rfl),
        .keep (flaggedMids_updateFirst (by intro; rfl) (by intro; rfl) _)⟩
  | ready uid hmsg =>
      obtain ⟨y, hfind, hf⟩ := hready uid hmsg
      obtain ⟨rest, hqueue, hrest⟩ := hhead.head (List.mem_of_find?_eq_some hfind) hf
      have hyu := List.find?_some hfind
      have herase : x.queue.eraseP (fun y => y.uid = uid) = rest := by
        rw [hqueue]
        exact List.eraseP_cons_of_pos (p := fun y : Node => y.uid = uid) hyu
      have hnone := flaggedMids_eq_nil hrest
      simp only [herase, hfind, Option.map_some]
      refine ⟨?_, ?_⟩
      · intro b hb
        obtain ⟨z, hz, rfl⟩ := List.mem_map.mp (List.mem_of_mem_tail hb)
        exact hrest z hz
      · have hremoved : removals p [Event.gotReady p pk.mid (some y.mid) x.headMid
            (bareHead rest)] = [y.mid] := by simp [removals]
        rw [hremoved]
        refine .remove y.mid ?_ hnone
        unfold flaggedMids at hnone ⊢
        simp [hqueue, hf, hnone]

/-! ## Along a run -/

/-- What is marked, and what is removed, is at the head. -/
def DeliversAtHead (t : List (Event n)) : Prop :=
  (∀ p m head clock, .marked p m head clock ∈ t → head = some m) ∧
    ∀ p m k head bare, .gotReady p m (some k) head bare ∈ t → head = some k

theorem DeliversAtHead.append {t events : List (Event n)} (h : DeliversAtHead t)
    (h' : DeliversAtHead events) : DeliversAtHead (t ++ events) := by
  constructor
  · intro p m head clock he
    exact (List.mem_append.mp he).elim (h.1 p m head clock) (h'.1 p m head clock)
  · intro p m k head bare he
    exact (List.mem_append.mp he).elim (h.2 p m k head bare) (h'.2 p m k head bare)

/-- A handler delivers at the head if the nodes it completes or removes are there. -/
theorem Handles.deliversAtHead {cfg : Cfg n} {p : Fin n} {fresh : Nat} {x x' : ViewProc n}
    {pk : Packet n} {events : List (Event n)} {issued : Option (Issued n)}
    (h : Handles cfg p fresh x pk x' events issued)
    (hmark : ∀ y ∈ x.queue, .marked p y.mid x.headMid x'.lc ∈ events → x.headMid = some y.mid)
    (hready : ∀ uid y, pk.msg = .ready uid → x.queue.find? (fun y => y.uid = uid) = some y →
      x.headMid = some y.mid) : DeliversAtHead events := by
  cases h with
  | ackReady pid uid y hmsg hsome hcount =>
      refine ⟨fun q m head clock he => ?_, by simp⟩
      obtain ⟨-, rfl, rfl, -⟩ : q = p ∧ m = y.mid ∧ head = x.headMid ∧ clock = x.lc + 1 := by
        simpa using he
      exact hmark y (List.mem_of_find?_eq_some hsome) (by simp)
  | ready uid hmsg =>
      refine ⟨by simp, fun q m k head bare he => ?_⟩
      obtain ⟨-, -, ⟨y, hfind, rfl⟩, rfl, -⟩ : q = p ∧ m = pk.mid ∧
          (∃ y, x.queue.find? (fun y => y.uid = uid) = some y ∧ y.mid = k) ∧
          head = x.headMid ∧ bare = bareHead (x.queue.eraseP (fun y => y.uid = uid)) := by
        simpa [Option.map_eq_some_iff, eq_comm] using he
      exact hready uid y hmsg hfind
  | _ => exact ⟨by simp, by simp⟩

/-- What is removed anywhere was marked. -/
theorem Ledgers.marked_of_removed {cfg : Cfg n} {v : View n} (hv : Ledgers cfg v)
    (hu : UidsDistinct v.issued) {p : Fin n} {m : Nat}
    (hm : 0 < v.trace.countP (Event.isRemoved p m)) :
    0 < v.trace.countP (Event.isMarked m) := by
  obtain ⟨e, he, hrem⟩ := List.countP_pos_iff.mp hm
  have hgot : 0 < v.trace.countP (Event.isGotReady p m) := by
    cases e with
    | gotReady p' k hit head bare =>
        cases hit with
        | none => simp at hrem
        | some j =>
            have hjk := hv.tagged.gotReady_hit hu he
            exact List.countP_pos_iff.mpr ⟨_, he, by simpa [← hjk] using hrem⟩
    | _ => simp at hrem
  have := hv.ready p m
  omega

/-- What is marked was flagged by everyone. -/
theorem Ledgers.flagged_of_marked {cfg : Cfg n} {v : View n} (hv : Ledgers cfg v)
    (hu : UidsDistinct v.issued) {m : Nat} (hm : 0 < v.trace.countP (Event.isMarked m))
    (q : Fin n) : 0 < v.trace.countP (Event.isFlagged q m) := by
  obtain ⟨p, hmark⟩ := exists_countP_own (Event.isMarked_iff m) hm
  have hone := hv.flagged_of_acked (hv.acked_of_marked hu hmark q)
  omega

/-- The state of acknowledgement and removal in a run without overtaking. -/
structure HeadOrder (v : View n) : Prop where
  atHead : ∀ p, FlagAtHead (v.procs p).queue
  flags_eq : ∀ p, flags p v.trace = removals p v.trace ++ flaggedMids (v.procs p).queue
  consistent : Consistent fun p => flags p v.trace
  delivers : DeliversAtHead v.trace

/-- The node of a flagged message that is still queued is the head. -/
theorem HeadOrder.headMid_eq {cfg : Cfg n} {v : View n} (hv : HeadOrder v) (hled : Ledgers cfg v)
    {p : Fin n} {y : Node} (hy : y ∈ (v.procs p).queue)
    (hf : 0 < v.trace.countP (Event.isFlagged p y.mid)) :
    (v.procs p).headMid = some y.mid := by
  have hmem : y.mid ∈ flags p v.trace := by
    rw [← List.count_pos_iff, count_flags]
    exact hf
  rw [hv.flags_eq p, List.mem_append] at hmem
  rcases hmem with hmem | hmem
  · -- it cannot have been removed as well
    rw [← List.count_pos_iff, count_removals] at hmem
    have := queued_pos hy
    have := (hled.queue p y.mid).received
    have := hled.broad.received_le_one p y.mid
    omega
  · obtain ⟨z, hz, hzm⟩ := List.mem_map.mp hmem
    obtain ⟨hz, hzf⟩ := List.mem_filter.mp hz
    obtain ⟨rest, hqueue, -⟩ := (hv.atHead p).head hz hzf
    rw [ViewProc.headMid, hqueue, List.head?_cons, Option.map_some, hzm]

/-- A step that leaves the queues alone. -/
theorem HeadOrder.quiet {v v' : View n} (hv : HeadOrder v)
    (hqueue : ∀ q, (v'.procs q).queue = (v.procs q).queue) {events : List (Event n)}
    (htrace : v'.trace = v.trace ++ events) (hquiet : ∀ e ∈ events, e.Quiet) : HeadOrder v' := by
  have hnone : ∀ q, flags q events = [] ∧ removals q events = [] := fun q =>
    flags_eq_nil fun e he => Or.inr (hquiet e he)
  refine ⟨fun q => ?_, fun q => ?_, ?_, ?_⟩
  · rw [hqueue q]
    exact hv.atHead q
  · rw [htrace, flags_append, removals_append, (hnone q).1, (hnone q).2, hqueue q]
    simpa using hv.flags_eq q
  · have hfamily : (fun q => flags q v'.trace) = fun q => flags q v.trace := by
      funext q
      rw [htrace, flags_append, (hnone q).1, List.append_nil]
    rw [hfamily]
    exact hv.consistent
  · rw [htrace]
    refine hv.delivers.append ⟨fun p m head clock he => ?_, fun p m k head bare he => ?_⟩
    · exact (hquiet _ he).elim
    · exact (hquiet _ he).elim

/-- An acknowledgement of what nobody has removed keeps the orders consistent:
what its process acknowledged before, everyone did. -/
theorem HeadOrder.consistent_accept {cfg : Cfg n} {v : View n} (hv : HeadOrder v)
    (hled : Ledgers cfg v) (hu : UidsDistinct v.issued) {p : Fin n} {new : List Nat}
    {events : List (Event n)}
    (hone : ∀ m, (v.trace ++ events).countP (Event.isFlagged p m) ≤ 1)
    (hmove : FlagMove (flaggedMids (v.procs p).queue) new (flags p events) (removals p events))
    (hother : ∀ q, q ≠ p → flags q events = []) :
    Consistent fun q => flags q (v.trace ++ events) := by
  have hfamily : (fun q => flags q (v.trace ++ events)) =
      Function.update (fun q => flags q v.trace) p (flags p v.trace ++ flags p events) := by
    funext q
    by_cases hq : q = p
    · subst hq
      simp [flags_append]
    · simp [hq, flags_append, hother q hq]
  rw [hfamily]
  generalize hf : flags p events = f at hmove
  generalize removals p events = r at hmove
  cases hmove with
  | keep hsame => simpa using hv.consistent
  | remove m hold hnew => simpa using hv.consistent
  | flag m hold hnew =>
      have hflags := hv.flags_eq p
      rw [hold, List.append_nil] at hflags
      refine hv.consistent.append ?_ fun b hb q => ?_
      · intro hmem
        have hle := hone m
        rw [← count_flags, flags_append, hf, List.count_append, List.count_singleton_self]
          at hle
        have := List.count_pos_iff.mpr hmem
        omega
      · -- what `p` acknowledged before it has removed, so all acknowledged it
        rw [hflags, ← List.count_pos_iff, count_removals] at hb
        rw [← List.count_pos_iff, count_flags]
        exact hled.flagged_of_marked hu (hled.marked_of_removed hu hb) q

theorem HeadOrder.step {cfg : Cfg n} {v v' : View n} {a : Act n} (hv : HeadOrder v)
    (hled : Ledgers cfg v) (hled' : Ledgers cfg v') (hu : UidsDistinct v'.issued)
    (h : ViewStep cfg v a v')
    (hover : ∀ p k got stack pk uid pid portNum stamp len body, a = .accept p k got stack →
      v.net[k]? = some pk → pk.msg = .broad uid pid portNum stamp len body →
      ∀ x ∈ (v.procs p).queue, x.ackFlg = true → x.lc < stamp ∨ x.lc = stamp ∧ pid ≤ x.pid) :
    HeadOrder v' := by
  have hu0 := UidsDistinct.of_step h hu
  rcases h.accept_or_quiet with
    ⟨p, k, got, stack, pk, x, events, issued, rfl, hidle, hk, hdst, hx, rfl⟩ |
    ⟨-, hqueue, events, htrace, hquiet⟩
  · have hready : ∀ uid, pk.msg = .ready uid →
        ∃ y, (v.procs p).queue.find? (fun y => y.uid = uid) = some y ∧ y.ackFlg = true := by
      intro uid hmsg
      obtain ⟨y, hfind, -, hf⟩ := hled.queued_of_ready hu0 (List.mem_of_getElem? hk) hdst hmsg
      exact ⟨y, hfind, hf⟩
    obtain ⟨hhead, hmove⟩ := hx.flagMove (hv.atHead p)
      (fun uid pid portNum stamp len body => hover p k got stack pk uid pid portNum stamp len body
        rfl hk) hready
    have hother : ∀ q, q ≠ p → flags q events = [] ∧ removals q events = [] := by
      intro q hq
      exact flags_eq_nil fun e he => Or.inl fun hat => hq (hat.unique (hx.at_mem he))
    refine ⟨fun q => ?_, fun q => ?_, ?_, hv.delivers.append (hx.deliversAtHead ?_ ?_)⟩
    · by_cases hq : q = p
      · subst hq
        simpa using hhead
      · simpa [hq] using hv.atHead q
    · simp only [flags_append, removals_append]
      by_cases hq : q = p
      · subst hq
        simp only [Function.update_self, hv.flags_eq q]
        generalize flags q events = f at hmove
        generalize removals q events = r at hmove
        cases hmove with
        | keep hsame => simp [hsame]
        | flag m hold hnew => simp [hold, hnew]
        | remove m hold hnew => simp [hold, hnew]
      · simp [hq, hother q hq, hv.flags_eq q]
    · exact hv.consistent_accept hled hu0 (hled'.flagged_le_one p) hmove
        fun q hq => (hother q hq).1
    · intro y hy hmarked
      have hacked := hled'.acked_of_marked hu (p := p) (m := y.mid)
        (List.countP_pos_iff.mpr ⟨_, List.mem_append_right _ hmarked, by simp⟩) p
      have hflagged := hled'.flagged_of_acked hacked
      refine hv.headMid_eq hled hy ?_
      rcases hx.marks with hnone | ⟨m, rfl⟩
      · have := (hnone _ hmarked y.mid).1
        simp at this
      · have hquiet : [Event.gotAck p pk.src pk.mid (some m),
            .marked p m (v.procs p).headMid ((v.procs p).lc + 1)].countP
              (Event.isFlagged p y.mid) = 0 := rfl
        rw [List.countP_append, hquiet] at hflagged
        omega
    · intro uid y hmsg hfind
      obtain ⟨y', hfind', hf⟩ := hready uid hmsg
      obtain rfl := Option.some.inj (hfind.symm.trans hfind')
      obtain ⟨rest, hqueue, -⟩ := (hv.atHead p).head (List.mem_of_find?_eq_some hfind) hf
      rw [ViewProc.headMid, hqueue, List.head?_cons, Option.map_some]
  · exact hv.quiet hqueue htrace hquiet

theorem init_headOrder : HeadOrder (init : State n).view := by
  refine ⟨fun p => ?_, fun p => ?_, ?_, ?_⟩
  · simp [init, State.view, Proc.view, Queue.nodes_empty, FlagAtHead]
  · simp [init, State.view, Proc.view, Queue.nodes_empty, flags, removals, flaggedMids]
  · exact consistent_nil
  · exact ⟨by simp [init, State.view], by simp [init, State.view]⟩

theorem reachable_headOrder {cfg : Cfg n} {s : State n}
    (hs : (system cfg).ReachableVia NoOvertaking s) (hu : UidsDistinct s.issued) :
    HeadOrder s.view := by
  refine Transition.System.ReachableVia.invariant
    (P := fun s => UidsDistinct s.issued → HeadOrder s.view) (fun _ => init_headOrder) ?_ s hs hu
  intro s a s' hs hold hstep hover hu'
  obtain ⟨hsound, hled⟩ := reachable_ledgers hs.reachable
  obtain ⟨hview, -⟩ := step_view hsound hstep
  have hs' : (system cfg).Reachable s' := .step hs.reachable hstep trivial
  refine (hold (UidsDistinct.of_step hview hu')).step hled (reachable_ledgers hs').2 hu' hview ?_
  intro p k got stack pk uid pid portNum stamp len body ha hk hmsg x hx hf
  subst ha
  exact hover.staysBefore hk hmsg hx hf

/-- **Delivery at the head.** In a run without overtaking, with distinct uids,
a message is at the head of its issuer's queue when it is marked and written,
and at the head of every queue it is removed from. -/
theorem delivered_at_head (cfg : Cfg n) {s : State n}
    (hs : (system cfg).ReachableVia NoOvertaking s) (hu : UidsDistinct s.issued) :
    DeliversAtHead s.trace :=
  (reachable_headOrder hs hu).delivers

/-- Nothing overtakes in `orderlyRun`. -/
theorem orderly_delivered_at_head :
    .marked 1 1 (some 1) 8 ∈ (endOf orderlyRun).trace ∧ DeliversAtHead (endOf orderlyRun).trace :=
  ⟨by decide +kernel, delivered_at_head twoProcs (endOf_reachableVia (by decide +kernel))
    (by decide +kernel)⟩

/-- In `crossedRun` process 1 marks message 0, and removes it, while message 1
is at the head. -/
theorem crossed_not_delivered_at_head :
    (system twoProcs).ReachableVia Fifo (endOf crossedRun) ∧
      UidsDistinct (endOf crossedRun).issued ∧ ¬ DeliversAtHead (endOf crossedRun).trace := by
  refine ⟨endOf_reachableVia (by decide +kernel), by decide +kernel, fun h => ?_⟩
  have hmark : Event.marked 1 0 (some 1) 5 ∈ (endOf crossedRun).trace := by decide +kernel
  exact absurd (h.1 1 0 (some 1) 5 hmark) (by decide)

/-- Any two processes remove any two messages that both remove in one order. -/
def RemovalsAgree (t : List (Event n)) : Prop :=
  ∀ p q m m', m ∈ removals p t → m' ∈ removals p t → m ∈ removals q t → m' ∈ removals q t →
    ([m, m'].Sublist (removals p t) ↔ [m, m'].Sublist (removals q t))

/-- **Agreement.** In a run without overtaking, with distinct uids, all
processes remove messages in one order. -/
theorem removals_agree (cfg : Cfg n) {s : State n}
    (hs : (system cfg).ReachableVia NoOvertaking s) (hu : UidsDistinct s.issued) :
    RemovalsAgree s.trace := by
  have hord := reachable_headOrder hs hu
  have hsub : ∀ p, (removals p s.trace).Sublist (flags p s.trace) := fun p => by
    have := hord.flags_eq p
    change flags p s.trace = removals p s.trace ++ _ at this
    rw [this]
    exact List.sublist_append_left _ _
  -- one direction, for both
  have hone : ∀ p q m m', m ∈ removals q s.trace → m' ∈ removals q s.trace →
      [m, m'].Sublist (removals p s.trace) → [m, m'].Sublist (removals q s.trace) := by
    intro p q m m' hm hm' h
    have hpair := h.trans (hsub p)
    by_cases hne : m = m'
    · subst hne
      exact absurd hpair (not_pair_sublist_swap (hord.consistent.nodup p) hpair)
    · rcases pair_sublist_or hm hm' hne with hq | hq
      · exact hq
      · exact absurd (hq.trans (hsub q)) (hord.consistent.agree p q m m' hpair)
  intro p q m m' hp hp' hq hq'
  exact ⟨hone p q m m' hq hq', hone q p m m' hp hp'⟩

/-- Both processes of `orderlyRun` remove message 0 and then message 1. -/
theorem orderly_removals_agree :
    removals 0 (endOf orderlyRun).trace = [0, 1] ∧ RemovalsAgree (endOf orderlyRun).trace :=
  ⟨by decide +kernel, removals_agree twoProcs (endOf_reachableVia (by decide +kernel))
    (by decide +kernel)⟩

/-- In `crossedRun` process 0 removes message 1 and then message 0, process 1
the other way round. -/
theorem crossed_removals_disagree :
    (system twoProcs).ReachableVia Fifo (endOf crossedRun) ∧
      UidsDistinct (endOf crossedRun).issued ∧ ¬ RemovalsAgree (endOf crossedRun).trace := by
  refine ⟨endOf_reachableVia (by decide +kernel), by decide +kernel, fun h => ?_⟩
  have hpair := h 0 1 0 1 (by decide +kernel) (by decide +kernel) (by decide +kernel)
    (by decide +kernel)
  exact absurd (hpair.mpr (by decide +kernel)) (by decide +kernel)

end DistKv.Tob
