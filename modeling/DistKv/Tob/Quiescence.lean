import DistKv.Tob.Agreement
import DistKv.Tob.Order
import DistKv.Tob.Stopped

/-!
# What is left when everything has come to rest

In a run without failures, with distinct uids and distinct keys, all messages
are written and all queues are empty in a state of rest if and only if every
message that was issued fits the buffer in which it is encoded, and nothing
went wrong in one of three ways on the way there:

* a node was swallowed: a BROAD came to a process whose queue had been emptied
  by the removal of its head;
* an ACK missed: it came to the issuer before the issuer's own BROAD did;
* a process was left bare: the last BROAD or READY it handled is a READY that
  left an unacknowledged message at the head.

The proof takes the undelivered message that sorts first: it is queued
everywhere, so it is the head everywhere, so everyone acknowledged it.
-/

namespace DistKv.Tob

open FirstMatch History StableInsert

variable {n : Nat}

/-- No connection is open and no handler is running; a process that stored past the end
of its buffer does not run any more. -/
def Quiescent (s : State n) : Prop :=
  s.net = [] ∧ ∀ p, (s.procs p).pending = [] ∨ (s.procs p).overran = true

instance (s : State n) : Decidable (Quiescent s) := inferInstanceAs (Decidable (_ ∧ _))

/-- Every issued message was written once, and every queue is empty. -/
def AllDelivered (s : State n) : Prop :=
  (∀ m < s.issued.length, s.trace.countP (Event.isWrote m) = 1) ∧
    ∀ p, (s.procs p).queue.nodes = []

instance (s : State n) : Decidable (AllDelivered s) := inferInstanceAs (Decidable (_ ∧ _))

/-- Whether the last BROAD or READY that `p` handled left an unacknowledged head. -/
def leftBare (p : Fin n) (t : List (Event n)) : Bool :=
  t.foldl (fun bare e =>
    match e with
    | .received q _ _ => if q = p then false else bare
    | .gotReady q _ _ _ b => if q = p then b else bare
    | _ => bare) false

def Event.isSwallow : Event n → Bool
  | .swallowed _ _ => true
  | _ => false

/-- An ACK that found no node. -/
def Event.isMiss : Event n → Bool
  | .gotAck _ _ _ none => true
  | _ => false

/-- Nothing was swallowed, no ACK missed, and no process was left bare. -/
def Unbroken (t : List (Event n)) : Prop :=
  (∀ e ∈ t, e.isSwallow = false) ∧ (∀ e ∈ t, e.isMiss = false) ∧ ∀ p, leftBare p t = false

instance (t : List (Event n)) : Decidable (Unbroken t) := inferInstanceAs (Decidable (_ ∧ _))

/-! ## The bare head -/

theorem leftBare_append (p : Fin n) (t : List (Event n)) (e : Event n) :
    leftBare p (t ++ [e]) =
      match e with
      | .received q _ _ => if q = p then false else leftBare p t
      | .gotReady q _ _ _ b => if q = p then b else leftBare p t
      | _ => leftBare p t := by
  unfold leftBare
  rw [List.foldl_append]
  rfl

/-- Events elsewhere, or of other kinds, leave nothing bare. -/
theorem leftBare_append_of_not {p : Fin n} {t events : List (Event n)}
    (h : ∀ e ∈ events, ¬ e.At p ∨ e.Quiet) : leftBare p (t ++ events) = leftBare p t := by
  induction events using List.reverseRec with
  | nil => rw [List.append_nil]
  | append_singleton rest e ih =>
      have hrest := ih fun d hd => h d (List.mem_append_left _ hd)
      have he := h e (by simp)
      rw [← List.append_assoc, leftBare_append, hrest]
      cases e with
      | received q m c => exact if_neg (he.resolve_right id)
      | gotReady q m hit head bare => exact if_neg (he.resolve_right id)
      | _ => rfl

theorem bareHead_updateFirst {p : Node → Bool} {f : Node → Node}
    (hflag : ∀ x, (f x).ackFlg = x.ackFlg) (l : List Node) :
    bareHead (updateFirst p f l) = bareHead l := by
  cases l with
  | nil => rfl
  | cons x rest =>
      unfold updateFirst bareHead
      by_cases hx : p x = true
      · simp [hx, hflag]
      · simp [hx]

theorem Handles.leftBare {cfg : Cfg n} {p : Fin n} {fresh : Nat} {x x' : ViewProc n}
    {pk : Packet n} {events : List (Event n)} {issued : Option (Issued n)}
    (h : Handles cfg p fresh x pk x' events issued) (hwedged : x.wedged = true → x.queue = [])
    {t : List (Event n)} (hold : bareHead x.queue = Tob.leftBare p t) :
    bareHead x'.queue = Tob.leftBare p (t ++ events) := by
  cases h with
  | issue message hmsg =>
      rw [List.append_cons t, leftBare_append, leftBare_append]
      exact hold
  | hang uid pid port stamp len hmsg => simpa using hold
  | lose uid pid port stamp len body hmsg hw =>
      rw [List.append_cons t, leftBare_append, leftBare_append]
      simp [hwedged hw, bareHead]
  | enqueueAck uid pid port stamp len body buffer head rest hmsg hw hins hf =>
      rw [List.append_cons t, leftBare_append, leftBare_append]
      simp [bareHead]
  | enqueueQuiet uid pid port stamp len body buffer head rest hmsg hw hins hf =>
      rw [leftBare_append]
      simp [bareHead, hf]
  | ackMiss pid uid hmsg hnone =>
      rw [leftBare_append]
      exact hold
  | ackCount pid uid y hmsg hsome hcount =>
      rw [leftBare_append]
      exact (bareHead_updateFirst (by intro; rfl) _).trans hold
  | ackReady pid uid y hmsg hsome hcount =>
      rw [List.append_cons t, leftBare_append, leftBare_append]
      exact (bareHead_updateFirst (by intro; rfl) _).trans hold
  | ready uid hmsg =>
      rw [leftBare_append]
      simp

/-- **A head is unacknowledged exactly where a READY left it so.** -/
theorem reachable_leftBare {cfg : Cfg n} {s : State n} (hs : (system cfg).Reachable s)
    (p : Fin n) : bareHead (s.procs p).queue.nodes = leftBare p s.trace := by
  refine Transition.System.ReachableVia.invariant
    (P := fun s => bareHead (s.procs p).queue.nodes = leftBare p s.trace) ?_ ?_ s hs
  · simp [system, init, Queue.nodes_empty, bareHead, leftBare]
  · intro s a s' hs hold hstep _
    obtain ⟨hsound, -⟩ := reachable_ledgers hs
    obtain ⟨hview, -⟩ := step_view hsound hstep
    show bareHead (s'.view.procs p).queue = leftBare p s'.view.trace
    change bareHead (s.view.procs p).queue = leftBare p s.view.trace at hold
    obtain ⟨events, htrace, ⟨hsame, hnot⟩ | hmove⟩ := hview.local_cases p
    · rw [htrace, hsame, leftBare_append_of_not fun e he => Or.inl (hnot e he)]
      exact hold
    · rw [htrace]
      generalize s'.view.procs p = x at hmove
      cases hmove with
      | handles pk x events issued hidle hpk hdst hx =>
          exact hx.leftBare (fun hw => Queue.nodes_of_wedged (hsound p).1 hw) hold
      | acks pk rest pid uid hp hmsg => rw [leftBare_append]; exact hold
      | sends pk rest hp hmsg => rw [List.append_nil]; exact hold
      | writes mid buffer rest hp => rw [leftBare_append]; exact hold
      | aborts pk hidle hpk => rw [leftBare_append]; exact hold

/-! ## Runs without failures -/

theorem reachable_no_loss {cfg : Cfg n} {s : State n}
    (hs : (system cfg).ReachableVia FailureFree s) (f : Packet n → Bool) :
    s.trace.countP (Event.isLost f) = 0 := by
  refine Transition.System.ReachableVia.invariant
    (P := fun s => s.trace.countP (Event.isLost f) = 0) (by simp [system, init]) ?_ s hs
  intro s a s' hs hold hstep hfree
  obtain ⟨hsound, -⟩ := reachable_ledgers hs.reachable
  obtain ⟨hview, -⟩ := step_view hsound hstep
  show s'.view.trace.countP (Event.isLost f) = 0
  change s.view.trace.countP (Event.isLost f) = 0 at hold
  generalize s'.view = v' at hview
  cases hview with
  | client p message => exact hold
  | accept p k got stack pk x events issued hidle hk hdst hx =>
      have hnone : events.countP (Event.isLost f) = 0 := by
        cases hx <;> simp
      rw [List.countP_append, hold, hnone]
  | sendAck p pk rest pid uid hp hmsg => simpa [List.countP_append] using hold
  | send p pk rest hp hmsg => exact hold
  | write p mid buffer rest hp => simpa [List.countP_append] using hold
  | abort p k pk hidle hk hdst => exact hfree.elim
  | drop k pk hk => exact hfree.elim

/-- Every READY hit its message. -/
theorem reachable_ready_hits {cfg : Cfg n} {s : State n} (hs : (system cfg).Reachable s)
    (hu : UidsDistinct s.issued) {p : Fin n} {m : Nat} {hit head : Option Nat} {bare : Bool}
    (he : .gotReady p m hit head bare ∈ s.trace) : hit = some m := by
  refine Transition.System.ReachableVia.invariant
    (P := fun s => UidsDistinct s.issued → ∀ p m hit head bare,
      .gotReady p m hit head bare ∈ s.trace → hit = some m) (by simp [system, init]) ?_ s hs hu
      p m hit head bare he
  intro s a s' hs hold hstep _ hu' p m hit head bare he
  obtain ⟨hsound, hled⟩ := reachable_ledgers hs
  obtain ⟨hview, -⟩ := step_view hsound hstep
  have hu0 : UidsDistinct s.issued := UidsDistinct.of_step hview hu'
  change _ ∈ s'.view.trace at he
  have hold' : ∀ p m hit head bare, .gotReady p m hit head bare ∈ s.view.trace → hit = some m :=
    hold hu0
  rcases hview.accept_or_quiet with
    ⟨q, k, got, stack, pk, x, events, issued, -, hidle, hk, hdst, hx, hv'⟩ |
    ⟨-, -, events, htrace, hquiet⟩
  · rw [hv'] at he
    rcases List.mem_append.mp he with hmem | hnew
    · exact hold' p m hit head bare hmem
    · cases hx with
      | ready uid hmsg =>
          obtain ⟨y, hfind, hmid, -⟩ :=
            hled.queued_of_ready hu0 (List.mem_of_getElem? hk) hdst hmsg
          simp only [List.mem_singleton, Event.gotReady.injEq] at hnew
          rw [hnew.2.2.1, hfind, Option.map_some, hmid, hnew.2.1]
      | _ => simp at hnew
  · rw [htrace] at he
    rcases List.mem_append.mp he with he | he
    · exact hold' p m hit head bare he
    · exact (hquiet _ he).elim

/-- An ACK of `q` for `m` that was counted. -/
def Event.isCounted (q : Fin n) (m : Nat) : Event n → Bool
  | .gotAck _ src k (some _) => src = some q ∧ k = m
  | _ => false

theorem isGotAck_of_isCounted {q : Fin n} {m : Nat} {e : Event n}
    (h : e.isCounted q m = true) : e.isGotAck q m = true := by
  cases e with
  | gotAck p src k hit =>
      cases hit with
      | none => simp [Event.isCounted] at h
      | some j => simpa [Event.isCounted] using h
  | _ => simp [Event.isCounted] at h

/-- The rank of a message in the order of `order_queue`. -/
def Issued.rank (cfg : Cfg n) (r : Issued n) : Nat :=
  r.stamp.toNat * 10 ^ 8 + (10 ^ 8 - cfg.pid r.owner)

theorem Issued.precedes_of_rank_le {cfg : Cfg n} {r r' : Issued n} (hkey : r.key cfg ≠ r'.key cfg)
    (h : r.rank cfg ≤ r'.rank cfg) : r.precedes cfg r' := by
  refine (Issued.precedes_or hkey).resolve_right fun hprec => ?_
  have h1 := cfg.pid_lt r.owner
  have h2 := cfg.pid_lt r'.owner
  have h3 := cfg.pid_pos r.owner
  have h4 := cfg.pid_pos r'.owner
  unfold Issued.rank at h
  simp only [Issued.precedes, UInt32.lt_iff_toNat_lt, ← UInt32.toNat_inj] at hprec
  omega

section rest

variable {cfg : Cfg n} {v : View n}

/-- A marked message is written, and nowhere queued. -/
structure Finished (v : View n) (m : Nat) : Prop where
  wrote : v.trace.countP (Event.isWrote m) = 1
  unqueued : ∀ q b, queued m b (v.procs q).queue = 0

theorem Ledgers.finished_of_marked (hv : Ledgers cfg v) (hu : UidsDistinct v.issued)
    (hnet : v.net = []) (hidle : ∀ p, (v.procs p).pending = [])
    (hloss : ∀ f, v.trace.countP (Event.isLost f) = 0)
    (hhits : ∀ p m hit head bare, .gotReady p m hit head bare ∈ v.trace → hit = some m)
    {m : Nat} (hm : 0 < v.trace.countP (Event.isMarked m)) : Finished v m := by
  have htravel : ∀ f, v.travelling f = 0 := fun f => by simp [View.travelling, hnet, hidle]
  constructor
  · obtain ⟨p, hmark⟩ := exists_countP_own (Event.isMarked_iff m) hm
    have hwrite := hv.write p m
    unfold WriteLedger at hwrite
    rw [hidle p, List.countP_nil] at hwrite
    have hle : v.trace.countP (Event.isWroteAt p m) ≤ v.trace.countP (Event.isWrote m) :=
      countP_own_le (Event.isWrote_iff m) p
    have hone := hv.wrote_le_one hu m
    omega
  · intro q b
    have hready := hv.ready q m
    rw [htravel, hloss] at hready
    obtain ⟨e, he, hgot⟩ := List.countP_pos_iff.mp
      (show 0 < v.trace.countP (Event.isGotReady q m) by omega)
    cases e with
    | gotReady p k hit head bare =>
        have hhit := hhits p k hit head bare he
        subst hhit
        have hremoved : 0 < v.trace.countP (Event.isRemoved q m) :=
          List.countP_pos_iff.mpr ⟨_, he, by simpa using hgot⟩
        have := (hv.queue q m).received
        have := hv.broad.received_le_one q m
        cases b <;> omega
    | _ => simp at hgot

/-- At rest, without misses, a message that everyone flagged was marked. -/
theorem Ledgers.marked_of_flagged (hv : Ledgers cfg v) (hu : UidsDistinct v.issued)
    (hnet : v.net = []) (hidle : ∀ p, (v.procs p).pending = [])
    (hloss : ∀ f, v.trace.countP (Event.isLost f) = 0) (hmiss : ∀ e ∈ v.trace, e.isMiss = false)
    {m : Nat} {r : Issued n} (hr : v.issued[m]? = some r)
    (hflag : ∀ q, 0 < v.trace.countP (Event.isFlagged q m)) :
    0 < v.trace.countP (Event.isMarked m) := by
  have hgot : ∀ q, 1 ≤ v.trace.countP (Event.isGotAck q m) := fun q => by
    have hsent := hv.sent q m
    unfold SentAcks at hsent
    rw [hidle q, List.countP_nil] at hsent
    have hack := hv.ack q m
    rw [hnet, hloss, List.countP_nil] at hack
    have := hflag q
    omega
  -- every ACK was handled by the issuer, and counted
  have hsum : ∑ q, v.trace.countP (Event.isGotAck q m) ≤
      v.trace.countP (Event.isHit r.owner m) := by
    apply sum_countP_le
    · intro e he q hack
      cases e with
      | gotAck p src k hit =>
          obtain ⟨-, hk⟩ : src = some q ∧ k = m := by simpa using hack
          subst hk
          cases hit with
          | none =>
              have := hmiss _ he
              simp [Event.isMiss] at this
          | some j =>
              have hjk := hv.tagged.gotAck_hit hu he
              obtain ⟨-, r', hr', howner, -⟩ := hv.tagged.trace _ he
              obtain rfl := Option.some.inj (hr.symm.trans hr')
              simp [howner, hjk]
      | _ => simp at hack
    · intro e he q q' hack hack'
      cases e with
      | gotAck p src k hit =>
          obtain ⟨hsrc, -⟩ : src = some q ∧ k = m := by simpa using hack
          obtain ⟨hsrc', -⟩ : src = some q' ∧ k = m := by simpa using hack'
          exact Option.some.inj (hsrc.symm.trans hsrc')
      | _ => simp at hack
  have hn : n ≤ ∑ q, v.trace.countP (Event.isGotAck q m) := by
    have hsum_one := Finset.sum_le_sum (s := Finset.univ) (f := fun _ : Fin n => 1)
      (g := fun q => v.trace.countP (Event.isGotAck q m)) fun q _ => hgot q
    simpa using hsum_one
  have hmarked := (hv.count r.owner m).marked
  rw [if_pos (hn.trans hsum)] at hmarked
  have hle : v.trace.countP (Event.isMarkedAt r.owner m) ≤ v.trace.countP (Event.isMarked m) :=
    countP_own_le (Event.isMarked_iff m) r.owner
  omega

/-- What is counted is in the queue. -/
theorem mem_of_queued_pos {m : Nat} {queue : List Node}
    (h : 0 < queued m true queue + queued m false queue) : ∃ y ∈ queue, y.mid = m := by
  rcases Nat.eq_zero_or_pos (queued m false queue) with hzero | hpos
  · obtain ⟨y, hy, hmid⟩ := List.countP_pos_iff.mp (show 0 < queued m true queue by omega)
    exact ⟨y, hy, (by simpa using hmid : y.mid = m ∧ _).1⟩
  · obtain ⟨y, hy, hmid⟩ := List.countP_pos_iff.mp hpos
    exact ⟨y, hy, (by simpa using hmid : y.mid = m ∧ _).1⟩

/-- At rest an unmarked message is queued everywhere. -/
theorem Ledgers.queued_of_unmarked (hv : Ledgers cfg v) (hu : UidsDistinct v.issued)
    (hnet : v.net = []) (hidle : ∀ p, (v.procs p).pending = [])
    (hloss : ∀ f, v.trace.countP (Event.isLost f) = 0)
    (hswallow : ∀ e ∈ v.trace, e.isSwallow = false) {m : Nat} (hm : m < v.issued.length)
    (hun : v.trace.countP (Event.isMarked m) = 0) (q : Fin n) :
    ∃ y ∈ (v.procs q).queue, y.mid = m := by
  have hswallowed : v.trace.countP (Event.isSwallowed q m) = 0 := by
    rw [List.countP_eq_zero]
    intro e he hsw
    have hnone := hswallow e he
    cases e with
    | swallowed p k => cases hnone
    | _ => cases hsw
  have hbroad := hv.broad q m
  rw [if_pos hm, hloss, hidle q, List.countP_nil, View.travelling, hnet] at hbroad
  simp only [List.countP_nil, hidle, Finset.sum_const_zero] at hbroad
  have hrec := (hv.queue q m).received
  rw [hswallowed] at hrec
  have hrem : v.trace.countP (Event.isRemoved q m) = 0 := by
    by_contra hne
    have hmarked := hv.marked_of_removed hu (Nat.pos_of_ne_zero hne)
    omega
  apply mem_of_queued_pos
  omega

/-- At rest a queued message is unmarked. -/
theorem Ledgers.unmarked_of_queued (hv : Ledgers cfg v) (hu : UidsDistinct v.issued)
    (hnet : v.net = []) (hidle : ∀ p, (v.procs p).pending = [])
    (hloss : ∀ f, v.trace.countP (Event.isLost f) = 0)
    (hhits : ∀ p m hit head bare, .gotReady p m hit head bare ∈ v.trace → hit = some m)
    {q : Fin n} {y : Node} (hy : y ∈ (v.procs q).queue) :
    v.trace.countP (Event.isMarked y.mid) = 0 := by
  by_contra hpos
  have hfin := hv.finished_of_marked hu hnet hidle hloss hhits (Nat.pos_of_ne_zero hpos)
  have hqueued := queued_pos hy
  have htrue := hfin.unqueued q true
  have hfalse := hfin.unqueued q false
  omega

/-- An acknowledged head was flagged. -/
theorem Ledgers.flagged_of_head (hv : Ledgers cfg v) {q : Fin n} {head : Node}
    {rest : List Node} (hqueue : (v.procs q).queue = head :: rest)
    (hbare : bareHead (v.procs q).queue = false) :
    0 < v.trace.countP (Event.isFlagged q head.mid) := by
  have hflag : head.ackFlg = true := by simpa [hqueue, bareHead] using hbare
  have hmem : head ∈ (v.procs q).queue := by
    rw [hqueue]
    exact List.mem_cons_self
  have hpos : 0 < queued head.mid true (v.procs q).queue :=
    List.countP_pos_iff.mpr ⟨head, hmem, by simp [hflag]⟩
  have hle := (hv.queue q head.mid).queued_le
  omega

/-- The unmarked message that sorts first. -/
theorem exists_first_unmarked (cfg : Cfg n) {m₁ : Nat} (hm₁ : m₁ < v.issued.length)
    (hun₁ : v.trace.countP (Event.isMarked m₁) = 0) :
    ∃ m r, v.issued[m]? = some r ∧ v.trace.countP (Event.isMarked m) = 0 ∧
      ∀ m' r', v.issued[m']? = some r' → v.trace.countP (Event.isMarked m') = 0 →
        r.rank cfg ≤ r'.rank cfg := by
  let rankOf : Nat → Nat := fun m => (v.issued[m]?.map (Issued.rank cfg)).getD 0
  obtain ⟨m, hmem, hmin⟩ := Finset.exists_min_image
    ((Finset.range v.issued.length).filter fun m => v.trace.countP (Event.isMarked m) = 0)
    rankOf ⟨m₁, by simp only [Finset.mem_filter, Finset.mem_range]; omega⟩
  obtain ⟨hm, hun⟩ := Finset.mem_filter.mp hmem
  rw [Finset.mem_range] at hm
  have hr := List.getElem?_eq_getElem hm
  refine ⟨m, _, hr, hun, ?_⟩
  intro m' r' hr' hun'
  have hm' : m' < v.issued.length := (List.getElem?_eq_some_iff.mp hr').1
  have hle := hmin m' (Finset.mem_filter.mpr ⟨Finset.mem_range.mpr hm', hun'⟩)
  simpa only [rankOf, hr, hr', Option.map_some, Option.getD_some] using hle

/-- **Everything is delivered** from a state of rest that nothing broke. -/
theorem Ledgers.all_finished (hv : Ledgers cfg v) (hu : UidsDistinct v.issued)
    (hkeys : KeysDistinct cfg v.issued) (hnet : v.net = [])
    (hidle : ∀ p, (v.procs p).pending = [])
    (hsorted : ∀ p, (v.procs p).queue.Pairwise Node.staysBefore)
    (hloss : ∀ f, v.trace.countP (Event.isLost f) = 0)
    (hhits : ∀ p m hit head bare, .gotReady p m hit head bare ∈ v.trace → hit = some m)
    (hswallow : ∀ e ∈ v.trace, e.isSwallow = false) (hmiss : ∀ e ∈ v.trace, e.isMiss = false)
    (hbare : ∀ p, bareHead (v.procs p).queue = false) :
    ∀ m < v.issued.length, Finished v m := by
  have hmarked : ∀ m < v.issued.length, 0 < v.trace.countP (Event.isMarked m) := by
    by_contra hnot
    push Not at hnot
    obtain ⟨m₁, hm₁, hun₁⟩ := hnot
    obtain ⟨m, r, hr, hun, hmin⟩ := exists_first_unmarked cfg hm₁ (by omega)
    have hm : m < v.issued.length := (List.getElem?_eq_some_iff.mp hr).1
    -- it is at the head of every queue
    have hflagged : ∀ q, 0 < v.trace.countP (Event.isFlagged q m) := by
      intro q
      obtain ⟨y, hy, hmid⟩ := hv.queued_of_unmarked hu hnet hidle hloss hswallow hm hun q
      cases hqueue : (v.procs q).queue with
      | nil =>
          rw [hqueue] at hy
          cases hy
      | cons head rest =>
          have hhead : head ∈ (v.procs q).queue := by
            rw [hqueue]
            exact List.mem_cons_self
          obtain ⟨r', hr', -⟩ := hv.tagged.queue q head hhead
          have hsame : head.mid = m := by
            by_contra hne
            have hunhead := hv.unmarked_of_queued hu hnet hidle hloss hhits hhead
            have hprec := Issued.precedes_of_rank_le
              (fun hkey => hne (hkeys.index_eq hr' hr hkey.symm)) (hmin _ _ hr' hunhead)
            exact hv.not_queued_of_head hkeys (hsorted q) hqueue (hmid ▸ hr) hr' hprec hy
          rw [← hsame]
          exact hv.flagged_of_head hqueue (hbare q)
    have hpos := hv.marked_of_flagged hu hnet hidle hloss hmiss hr hflagged
    omega
  intro m hm
  exact hv.finished_of_marked hu hnet hidle hloss hhits (hmarked m hm)

theorem Ledgers.markedAt_of_wrote_once (hv : Ledgers cfg v) {m : Nat}
    (hwrote : v.trace.countP (Event.isWrote m) = 1) :
    ∃ q, 0 < v.trace.countP (Event.isMarkedAt q m) := by
  obtain ⟨q, hq⟩ := exists_countP_own (Event.isWrote_iff m) (hwrote ▸ Nat.one_pos)
  have hmark := hv.write q m
  unfold WriteLedger at hmark
  exact ⟨q, by omega⟩

/-- Where every message was written nothing was swallowed. -/
theorem Ledgers.no_swallow (hv : Ledgers cfg v) (hu : UidsDistinct v.issued)
    (hwrote : ∀ m < v.issued.length, v.trace.countP (Event.isWrote m) = 1) :
    ∀ e ∈ v.trace, e.isSwallow = false := by
  intro e he
  cases e with
  | swallowed p m =>
      have hsw : 0 < v.trace.countP (Event.isSwallowed p m) :=
        List.countP_pos_iff.mpr ⟨_, he, by simp⟩
      have hrec := (hv.queue p m).received
      have hone := hv.broad.received_le_one p m
      have hm : m < v.issued.length := by
        have hbroad := hv.broad p m
        by_contra hlt
        rw [if_neg hlt] at hbroad
        omega
      obtain ⟨q, hmark⟩ := hv.markedAt_of_wrote_once (hwrote m hm)
      have hflag := hv.flagged_of_acked (hv.acked_of_marked hu hmark p)
      have := (hv.queue p m).flagged
      omega
  | _ => rfl

/-- Where `m` was marked an ACK of every process was counted. -/
theorem Ledgers.counted_of_marked (hv : Ledgers cfg v) (hu : UidsDistinct v.issued) {p : Fin n}
    {m : Nat} (hm : 0 < v.trace.countP (Event.isMarkedAt p m)) (q : Fin n) :
    v.trace.countP (Event.isCounted q m) = 1 := by
  have hle : ∀ q, v.trace.countP (Event.isCounted q m) ≤ 1 := fun q => by
    have hcounted : v.trace.countP (Event.isCounted q m) ≤ v.trace.countP (Event.isGotAck q m) :=
      List.countP_mono_left fun e _ => isGotAck_of_isCounted
    have := hv.gotAck_le q m
    have := hv.acked_le q m
    have := hv.flagged_le_one q m
    omega
  refine eq_one_of_le_sum hle ((hv.le_hits_of_marked hm).trans (countP_le_sum ?_)) q
  intro e he hhit
  obtain ⟨q, rfl⟩ := hv.hit_cases hu he hhit
  exact ⟨q, decide_eq_true ⟨rfl, rfl⟩⟩

/-- Where every message was written no ACK missed. -/
theorem Ledgers.no_miss (hv : Ledgers cfg v) (hu : UidsDistinct v.issued)
    (hwrote : ∀ m < v.issued.length, v.trace.countP (Event.isWrote m) = 1) :
    ∀ e ∈ v.trace, e.isMiss = false := by
  intro e he
  cases e with
  | gotAck p src m hit =>
      cases hit with
      | some k => rfl
      | none =>
          obtain ⟨⟨q, rfl⟩, r, hr, -⟩ := hv.tagged.trace _ he
          have hm := (List.getElem?_eq_some_iff.mp hr).1
          obtain ⟨o, hmark⟩ := hv.markedAt_of_wrote_once (hwrote m hm)
          have hcounted := hv.counted_of_marked hu hmark q
          -- the missed ACK would be the second of `q`
          obtain ⟨pre, post, hsplit⟩ := List.append_of_mem he
          have hgot : v.trace.countP (Event.isGotAck q m) ≤ 1 := by
            have := hv.gotAck_le q m
            have := hv.acked_le q m
            have := hv.flagged_le_one q m
            omega
          have hmono : ∀ l : List (Event n),
              l.countP (Event.isCounted q m) ≤ l.countP (Event.isGotAck q m) :=
            fun l => List.countP_mono_left fun e _ => isGotAck_of_isCounted
          have hpre := hmono pre
          have hpost := hmono post
          rw [hsplit, List.countP_append, List.countP_cons_of_neg (by simp [Event.isCounted])]
            at hcounted
          rw [hsplit, List.countP_append, List.countP_cons_of_pos (by simp)] at hgot
          omega
  | _ => rfl

/-- Where every message was written all of them fit. -/
theorem fits_of_wrote {s : State n} (hs : (system cfg).Reachable s) (hu : UidsDistinct s.issued)
    (hwrote : ∀ m < s.issued.length, s.trace.countP (Event.isWrote m) = 1) :
    ∀ r ∈ s.issued, cfg.Fits r.bufLen := by
  obtain ⟨-, hled⟩ := reachable_ledgers hs
  intro r hr
  by_contra hfits
  obtain ⟨m, hm⟩ := List.mem_iff_getElem?.mp hr
  obtain ⟨q, hmark⟩ := hled.markedAt_of_wrote_once
    (hwrote m (List.getElem?_eq_some_iff.mp hm).1)
  -- its issuer acknowledged it, so it received it
  have hflag := hled.flagged_of_acked (hled.acked_of_marked hu hmark r.owner)
  have hle := (hled.queue r.owner m).flagged_le
  have hnone : s.view.trace.countP (Event.isReceived r.owner m) = 0 :=
    unreceived_of_unfit hs hm hfits r.owner
  omega

/-- Where every message fits a process at rest is idle. -/
theorem Quiescent.idle {s : State n} (hrest : Quiescent s) (hs : (system cfg).Reachable s)
    (hfits : ∀ r ∈ s.issued, cfg.Fits r.bufLen) (p : Fin n) : (s.procs p).pending = [] := by
  refine (hrest.2 p).resolve_right fun hover => ?_
  obtain ⟨mid, rest, hp⟩ := Proc.overran_iff.mp hover
  obtain ⟨r, hr, hunfit⟩ : (Out.overrun mid).Tagged cfg s.issued p :=
    (reachable_ledgers hs).2.tagged.pending p _ (by
      show _ ∈ (s.procs p).pending
      rw [hp]
      exact List.mem_cons_self)
  exact hunfit (hfits r (List.mem_of_getElem? hr))

end rest

/-- Process 0 issues one message and, when that is delivered and removed
everywhere, another. -/
def secondRun : List (Act 2) :=
  [.client 0 [104, 101, 108, 108, 111, 49], .accept 0 0 0 [], .perform 0, .perform 0,
    .accept 0 0 2 [], .perform 0, .accept 1 0 2 [], .perform 1,
    .accept 0 0 0 [], .accept 0 0 0 [], .perform 0, .perform 0, .perform 0,
    .accept 0 0 0 [], .accept 1 0 0 [],
    .client 0 [104, 101, 108, 108, 111, 50], .accept 0 0 0 [], .perform 0, .perform 0,
    .accept 0 0 2 [], .accept 1 0 2 []]

/-- **No message is lost or stuck** in a run that nothing broke, and only in
such a run: a state of rest has delivered everything if and only if every message
fits the buffer of its BROAD, no node was swallowed, no ACK missed and no process
was left with a bare head. -/
theorem rest_delivered_iff (cfg : Cfg n) {s : State n}
    (hs : (system cfg).ReachableVia FailureFree s) (hu : UidsDistinct s.issued)
    (hkeys : KeysDistinct cfg s.issued) (hrest : Quiescent s) :
    AllDelivered s ↔ (∀ r ∈ s.issued, cfg.Fits r.bufLen) ∧ Unbroken s.trace := by
  obtain ⟨hsound, hled⟩ := reachable_ledgers hs.reachable
  have hbare := reachable_leftBare hs.reachable
  constructor
  · rintro ⟨hwrote, hempty⟩
    refine ⟨fits_of_wrote hs.reachable hu hwrote, hled.no_swallow hu hwrote,
      hled.no_miss hu hwrote, fun p => ?_⟩
    rw [← hbare p, hempty p]
    rfl
  · rintro ⟨hfits, hswallow, hmiss, hleft⟩
    have hidle : ∀ p, (s.procs p).pending = [] := hrest.idle hs.reachable hfits
    have hfin := hled.all_finished hu hkeys hrest.1 hidle (fun p => (hsound p).2)
      (reachable_no_loss hs) (fun p m hit head bare => reachable_ready_hits hs.reachable hu)
      hswallow hmiss (fun p => (hbare p).trans (hleft p))
    refine ⟨fun m hm => (hfin m hm).wrote, fun p => List.eq_nil_iff_forall_not_mem.mpr ?_⟩
    -- a queued node is a node of an issued message, and those are gone
    intro y hy
    obtain ⟨r, hr, -⟩ := hled.tagged.queue p y hy
    have hfin := hfin y.mid (List.getElem?_eq_some_iff.mp hr).1
    have hpos : 0 < queued y.mid false (s.view.procs p).queue +
        queued y.mid true (s.view.procs p).queue := queued_pos hy
    have := hfin.unqueued p true
    have := hfin.unqueued p false
    omega

/-- `crossedRun` comes to rest unbroken. -/
theorem crossed_rest_delivered : AllDelivered (endOf crossedRun) :=
  (rest_delivered_iff twoProcs (endOf_reachableVia (by decide +kernel)) (by decide +kernel)
    (by decide +kernel) (by decide +kernel)).mpr (by decide +kernel)

/-- The second message of `secondRun` is swallowed by both queues. -/
theorem second_not_delivered :
    (system twoProcs).ReachableVia FailureFree (endOf secondRun) ∧
      UidsDistinct (endOf secondRun).issued ∧ KeysDistinct twoProcs (endOf secondRun).issued ∧
      Quiescent (endOf secondRun) ∧ ¬ AllDelivered (endOf secondRun) :=
  ⟨endOf_reachableVia (by decide +kernel), by decide +kernel, by decide +kernel,
    by decide +kernel, by decide +kernel⟩

/-- A message of 13 bytes: with its terminator the BROAD takes 62 bytes of a block of 56. -/
def overRun : List (Act 2) :=
  [.client 0 [104, 101, 108, 108, 111, 32, 101, 118, 101, 114, 121, 111, 110], .accept 0 0 0 []]

/-- Its issuer is at rest, and it is not delivered. -/
example : Quiescent (endOf overRun) ∧ ¬ AllDelivered (endOf overRun) := by decide +kernel

end DistKv.Tob
