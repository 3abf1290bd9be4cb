import DistKv.Tob.Progress

/-!
# One lost message stops a process

No message is ever sent twice, and a message needs the ACK of every process.
So when one BROAD or one ACK of `m` is lost, `m` is never delivered, and as
only a READY takes a node out of a queue, `m` stays wherever it is queued. A
process acknowledges the head of its queue only: behind `m` nothing is
acknowledged any more, and so nothing behind `m` is delivered anywhere. As
long as clocks fit their field, this is everything that a process that holds
`m` issues from then on.

A READY that hits another message with the same uid takes `m` out, so all of this is
about runs whose uids are distinct.
-/

namespace DistKv.Tob

open FirstMatch History StableInsert Transition

variable {n : Nat}

/-- What keeps an ACK of `q` for `m` from ever being counted: the BROAD of `m`
was lost on its way to `q`, `q` hangs on it or wrote it through a dangling
tail, or the ACK was lost or found no node. -/
def Cut (q : Fin n) (m : Nat) (v : View n) : Prop :=
  0 < v.trace.countP (Event.isLost (Packet.isBroad q m)) ∨
  0 < (v.procs q).pending.countP (Out.isHang m) ∨
  0 < v.trace.countP (Event.isSwallowed q m) ∨
  0 < v.trace.countP (Event.isLost (Packet.isAck q m)) ∨
  ∃ p, .gotAck p (some q) m none ∈ v.trace

/-! ## What is cut off is never delivered -/

theorem hang_step {cfg : Cfg n} {v v' : View n} {a : Act n} (h : ViewStep cfg v a v')
    {q : Fin n} {m : Nat} (hq : 0 < (v.procs q).pending.countP (Out.isHang m)) :
    0 < (v'.procs q).pending.countP (Out.isHang m) := by
  obtain ⟨events, -, ⟨hsame, -⟩ | hmove⟩ := h.local_cases q
  · rw [hsame]
    exact hq
  · generalize v'.procs q = x at hmove
    cases hmove with
    | handles pk x events issued hidle hpk hdst hx =>
        rw [hidle] at hq
        exact absurd hq (Nat.lt_irrefl 0)
    | acks pk rest pid uid hp hmsg =>
        rw [hp] at hq
        exact hq
    | sends pk rest hp hmsg =>
        rw [hp] at hq
        exact hq
    | writes mid buffer rest hp =>
        rw [hp] at hq
        exact hq
    | aborts pk hidle hpk => exact hq

/-- A cut stays. -/
theorem Cut.step {cfg : Cfg n} {v v' : View n} {a : Act n} (h : ViewStep cfg v a v')
    {q : Fin n} {m : Nat} (hcut : Cut q m v) : Cut q m v' := by
  obtain ⟨events, htrace, -⟩ := h.local_cases q
  have hmono : ∀ f : Event n → Bool, 0 < v.trace.countP f → 0 < v'.trace.countP f := by
    intro f hf
    rw [htrace, List.countP_append]
    omega
  rcases hcut with hlost | hhang | hswallowed | hack | ⟨p, hmiss⟩
  · exact Or.inl (hmono _ hlost)
  · exact Or.inr (Or.inl (hang_step h hhang))
  · exact Or.inr (Or.inr (Or.inl (hmono _ hswallowed)))
  · exact Or.inr (Or.inr (Or.inr (Or.inl (hmono _ hack))))
  · exact Or.inr (Or.inr (Or.inr (Or.inr ⟨p, htrace ▸ List.mem_append_left events hmiss⟩)))

section cut

variable {cfg : Cfg n} {v : View n}

/-- **A message that is cut off somewhere is marked nowhere.** -/
theorem Ledgers.unmarked_of_cut (hv : Ledgers cfg v) (hu : UidsDistinct v.issued) {q : Fin n}
    {m : Nat} (hcut : Cut q m v) : v.trace.countP (Event.isMarked m) = 0 := by
  by_contra hne
  obtain ⟨p, hmark⟩ := exists_countP_own (Event.isMarked_iff m) (Nat.pos_of_ne_zero hne)
  have hcounted := hv.counted_of_marked hu hmark q
  have hmono : v.trace.countP (Event.isCounted q m) ≤ v.trace.countP (Event.isGotAck q m) :=
    List.countP_mono_left fun e _ => isGotAck_of_isCounted
  have hgot := hv.gotAck_le q m
  have hacked := hv.acked_le q m
  have hflagged := hv.flagged_le_one q m
  have hqueue := hv.queue q m
  have hflag := hqueue.flagged
  have hreceived := hqueue.received
  have hbroad := hv.broad q m
  have hone : (if m < v.issued.length then 1 else 0) ≤ 1 := by split <;> omega
  rcases hcut with hlost | hhang | hswallowed | hack | ⟨p', hmiss⟩
  · omega
  · omega
  · omega
  · have := hv.ack q m
    omega
  · -- the ACK that missed was the only one
    have hsplit : v.trace.countP (Event.isCounted q m) < v.trace.countP (Event.isGotAck q m) :=
      countP_lt_of_mem hmiss (fun _ => isGotAck_of_isCounted) rfl (by simp)
    omega

theorem Ledgers.unwritten_of_unmarked (hv : Ledgers cfg v) {m : Nat}
    (hm : v.trace.countP (Event.isMarked m) = 0) : v.trace.countP (Event.isWrote m) = 0 := by
  by_contra hne
  obtain ⟨p, hwrote⟩ := exists_countP_own (Event.isWrote_iff m) (Nat.pos_of_ne_zero hne)
  have hwrite := hv.write p m
  have hle : v.trace.countP (Event.isMarkedAt p m) ≤ v.trace.countP (Event.isMarked m) :=
    countP_own_le (Event.isMarked_iff m) p
  unfold WriteLedger at hwrite
  omega

/-- Nobody flags a message that was not issued. -/
theorem Ledgers.unflagged_of_unissued (hv : Ledgers cfg v) {m : Nat} (hm : v.issued.length ≤ m)
    (p : Fin n) : v.trace.countP (Event.isFlagged p m) = 0 := by
  have hle := (hv.queue p m).flagged_le
  have hbroad := hv.broad p m
  rw [if_neg (Nat.not_lt.mpr hm)] at hbroad
  omega

/-- No READY is under way for a message that was not marked. -/
theorem Ledgers.marked_of_ready (hv : Ledgers cfg v) {q : Fin n} {pk : Packet n} {uid : UInt32}
    (hpk : pk ∈ v.net) (hdst : pk.dst = port q) (hmsg : pk.msg = .ready uid) :
    0 < v.trace.countP (Event.isMarked pk.mid) := by
  have hready : Packet.isReady q pk.mid pk = true := by simp [Packet.isReady, hmsg, hdst]
  have hopen : 0 < v.net.countP (Packet.isReady q pk.mid) :=
    List.countP_pos_iff.mpr ⟨pk, hpk, hready⟩
  have hledger := hv.ready q pk.mid
  unfold View.travelling at hledger
  omega

end cut

/-! ## What is not removed blocks -/

theorem mem_mids_counted {uid : UInt32} {l : List Node} {m : Nat} (hm : m ∈ l.map Node.mid) :
    m ∈ (updateFirst (fun y => y.uid = uid)
      (fun y => { y with ackCount := y.ackCount + 1 }) l).map Node.mid := by
  rw [map_updateFirst Node.mid (by intro; rfl)]
  exact hm

theorem mem_mids_insertBehind {new head : Node} {l rest : List Node} {m : Nat}
    (hins : insertBehind Node.staysBefore new l = head :: rest) (hm : m ∈ l.map Node.mid) :
    m ∈ (head :: rest).map Node.mid := by
  obtain ⟨y, hy, rfl⟩ := List.mem_map.mp hm
  exact List.mem_map_of_mem (hins ▸ mem_insertBehind.mpr (Or.inr hy))

/-- A handler keeps `m` queued, unless it handles a READY that finds it. -/
theorem Handles.keeps_mid {cfg : Cfg n} {p : Fin n} {fresh : Nat} {x x' : ViewProc n}
    {pk : Packet n} {events : List (Event n)} {issued : Option (Issued n)}
    (h : Handles cfg p fresh x pk x' events issued) {m : Nat} (hm : m ∈ x.mids)
    (hready : ∀ uid, pk.msg = .ready uid → ∀ y ∈ x.queue, y.uid = uid → y.mid ≠ m) :
    m ∈ x'.mids := by
  cases h with
  | enqueueAck uid pid port stamp len body buffer head rest hmsg hw hins hf =>
      show m ∈ (head :: rest).map Node.mid
      exact mem_mids_insertBehind hins hm
  | enqueueQuiet uid pid port stamp len body buffer head rest hmsg hw hins hf =>
      exact mem_mids_insertBehind hins hm
  | ackCount pid uid y hmsg hsome hcount =>
      exact mem_mids_counted hm
  | ackReady pid uid y hmsg hsome hcount =>
      exact mem_mids_counted hm
  | ready uid hmsg =>
      obtain ⟨y, hy, hym⟩ := List.mem_map.mp hm
      have hne : ¬ decide (y.uid = uid) = true := fun huid =>
        hready uid hmsg y hy (of_decide_eq_true huid) hym
      exact List.mem_map.mpr ⟨y, (List.mem_eraseP_of_neg (p := fun z => z.uid = uid) hne).mpr hy,
        hym⟩
  | issue message hmsg => exact hm
  | hang uid pid port stamp len hmsg => exact hm
  | lose uid pid port stamp len body hmsg hw => exact hm
  | ackMiss pid uid hmsg hnone => exact hm

/-- What a handler flags is the head it leaves. -/
theorem Handles.flags_head {cfg : Cfg n} {p : Fin n} {fresh : Nat} {x x' : ViewProc n}
    {pk : Packet n} {events : List (Event n)} {issued : Option (Issued n)}
    (h : Handles cfg p fresh x pk x' events issued) {m : Nat}
    (hm : 0 < events.countP (Event.isFlagged p m)) :
    ∃ head rest, x'.queue = head :: rest ∧ head.mid = m := by
  cases h with
  | enqueueAck uid pid port stamp len body buffer head rest hmsg hw hins hf =>
      refine ⟨_, rest, rfl, ?_⟩
      by_contra hne
      simp [hne] at hm
  | _ => simp at hm

/-- `m` stands in the queue of `p`, and `p` has flagged nothing behind it since the
history was `old`. -/
structure Blocked (cfg : Cfg n) (p : Fin n) (m : Nat) (r : Issued n) (old : List (Event n))
    (v : View n) : Prop where
  record : v.issued[m]? = some r
  queued : m ∈ (v.procs p).mids
  unflagged : ∀ m' r', v.issued[m']? = some r' → r.precedes cfg r' →
    old.countP (Event.isFlagged p m') = 0 → v.trace.countP (Event.isFlagged p m') = 0

theorem Blocked.step {cfg : Cfg n} {v v' : View n} {a : Act n} (h : ViewStep cfg v a v')
    (hled : Ledgers cfg v) (hled' : Ledgers cfg v') (hu : UidsDistinct v.issued)
    (hk : KeysDistinct cfg v'.issued)
    (hsorted : ∀ p, (v'.procs p).queue.Pairwise Node.staysBefore) {q p : Fin n} {m : Nat}
    {r : Issued n} {old : List (Event n)} (hcut : Cut q m v) (hv : Blocked cfg p m r old v) :
    Blocked cfg p m r old v' := by
  obtain ⟨events, htrace, hlocal⟩ := h.local_cases p
  obtain ⟨more, hmore⟩ := h.issued_prefix
  have hrecord : v'.issued[m]? = some r := by
    rw [hmore]
    exact getElem?_append_of_eq_some hv.record
  -- the queue keeps `m`
  have hqueued : m ∈ (v'.procs p).mids := by
    rcases hlocal with ⟨hsame, -⟩ | hmove
    · rw [hsame]
      exact hv.queued
    · generalize v'.procs p = x at hmove
      cases hmove with
      | handles pk x events issued hidle hpk hdst hx =>
          refine hx.keeps_mid hv.queued fun uid hmsg y hy huid hym => ?_
          have hmid : pk.mid = m := by
            have hpkt := hled.tagged.net pk hpk
            unfold Packet.Tagged at hpkt
            rw [hmsg] at hpkt
            obtain ⟨r', hr', huid'⟩ := hpkt
            obtain ⟨ry, hry, hyuid, -⟩ := hled.tagged.queue p y hy
            rw [← hym]
            exact hu.index_eq hr' hry (by rw [← hyuid, huid, huid'])
          have hmarked := hled.marked_of_ready hpk hdst hmsg
          rw [hmid, hled.unmarked_of_cut hu hcut] at hmarked
          exact absurd hmarked (Nat.lt_irrefl 0)
      | acks pk rest pid uid hp hmsg => exact hv.queued
      | sends pk rest hp hmsg => exact hv.queued
      | writes mid buffer rest hp => exact hv.queued
      | aborts pk hidle hpk => exact hv.queued
  refine ⟨hrecord, hqueued, fun m' r' hr' hprec hold => ?_⟩
  -- so what is flagged does not sort behind `m`
  have hnone : events.countP (Event.isFlagged p m') = 0 := by
    by_contra hne
    have hpos := Nat.pos_of_ne_zero hne
    rcases hlocal with ⟨-, hnot⟩ | hmove
    · rw [(localTo_isFlagged p m').countP_eq_zero hnot] at hpos
      exact absurd hpos (Nat.lt_irrefl 0)
    · obtain ⟨head, rest, hqueue, hmid⟩ : ∃ head rest, (v'.procs p).queue = head :: rest ∧
          head.mid = m' := by
        generalize v'.procs p = x at hmove
        cases hmove with
        | handles pk x events issued hidle hpk hdst hx => exact hx.flags_head hpos
        | _ => simp at hpos
      obtain ⟨y, hy, rfl⟩ := List.mem_map.mp hqueued
      exact hled'.not_queued_of_head hk (hsorted p) hqueue hrecord (hmid ▸ hr') hprec hy
  rw [htrace, List.countP_append, hnone, Nat.add_zero]
  by_cases hlt : m' < v.issued.length
  · rw [hmore, List.getElem?_append_left hlt] at hr'
    exact hv.unflagged m' r' hr' hprec hold
  · exact hled.unflagged_of_unissued (Nat.not_lt.mp hlt) p

/-! ## Runs after the loss -/

section runs

variable {cfg : Cfg n} {s t : State n} {more : List (Act n)}

theorem KeysDistinct.of_step {v v' : View n} {a : Act n} (h : ViewStep cfg v a v')
    (hk : KeysDistinct cfg v'.issued) : KeysDistinct cfg v.issued := by
  obtain ⟨more, hmore⟩ := h.issued_prefix
  unfold KeysDistinct at *
  rw [hmore, List.map_append] at hk
  exact (List.nodup_append.mp hk).1

theorem exec_cut (hs : (system cfg).Reachable s) (hrun : (system cfg).exec s more = some t)
    {q : Fin n} {m : Nat} (hcut : Cut q m s.view) : Cut q m t.view :=
  System.exec_keeps (P := fun u => Cut q m u.view) hs hcut
    (fun _ _ _ hu hcut hstep => hcut.step (step_view (reachable_ledgers hu).1 hstep).1) hrun

theorem exec_reachable (hs : (system cfg).Reachable s) (hrun : (system cfg).exec s more = some t) :
    (system cfg).Reachable t :=
  hs.of_exec (fun _ _ _ _ => trivial) hrun

/-- Where `m` is cut off, it blocks every queue that holds it. -/
theorem exec_blocked (hs : (system cfg).Reachable s) (hrun : (system cfg).exec s more = some t)
    (hu : UidsDistinct t.issued) (hk : KeysDistinct cfg t.issued) {q p : Fin n} {m : Nat}
    {r : Issued n} (hcut : Cut q m s.view) (hr : s.issued[m]? = some r)
    (hm : m ∈ (s.view.procs p).mids) : Blocked cfg p m r s.trace t.view := by
  refine (System.exec_keeps (P := fun u => Cut q m u.view ∧ (UidsDistinct u.issued →
    KeysDistinct cfg u.issued → Blocked cfg p m r s.trace u.view)) hs
    ⟨hcut, fun _ _ => ⟨hr, hm, fun _ _ _ _ hold => hold⟩⟩ ?_ hrun).2 hu hk
  intro u a u' hreach ⟨hcut, hold⟩ hstep
  obtain ⟨hsound, hled⟩ := reachable_ledgers hreach
  obtain ⟨hview, hsound'⟩ := step_view hsound hstep
  refine ⟨hcut.step hview, fun hu' hk' => ?_⟩
  have hu0 : UidsDistinct u.issued := UidsDistinct.of_step hview hu'
  exact (hold hu0 (KeysDistinct.of_step hview hk')).step hview hled (hled.step hview) hu0 hk'
    (fun p => (hsound' p).2) hcut

/-- What a process never flagged is delivered nowhere. -/
theorem Ledgers.undelivered_of_unflagged {v : View n} (hv : Ledgers cfg v)
    (hu : UidsDistinct v.issued) {p : Fin n} {m : Nat}
    (hm : v.trace.countP (Event.isFlagged p m) = 0) :
    v.trace.countP (Event.isMarked m) = 0 ∧ v.trace.countP (Event.isWrote m) = 0 := by
  have hmarked : v.trace.countP (Event.isMarked m) = 0 := by
    by_contra hne
    obtain ⟨o, hmark⟩ := exists_countP_own (Event.isMarked_iff m) (Nat.pos_of_ne_zero hne)
    have hacked := hv.acked_of_marked hu hmark p
    have hle := hv.acked_le p m
    omega
  exact ⟨hmarked, hv.unwritten_of_unmarked hmarked⟩

/-- **A loss is for ever, and blocks what is behind it.** With distinct uids, where `m`
is cut off from some process it is never marked and never written, whatever happens
next. If keys are distinct too, every process that has `m` in its queue keeps it there,
and no message that sorts behind `m`, and that this process has not acknowledged yet,
is ever marked or written. -/
theorem lost_blocks (hs : (system cfg).Reachable s) (hrun : (system cfg).exec s more = some t)
    (hu : UidsDistinct t.issued) {q : Fin n} {m : Nat} (hcut : Cut q m s.view) :
    (t.trace.countP (Event.isMarked m) = 0 ∧ t.trace.countP (Event.isWrote m) = 0) ∧
    ∀ p r, s.issued[m]? = some r → m ∈ (s.view.procs p).mids → KeysDistinct cfg t.issued →
      m ∈ (t.view.procs p).mids ∧
      ∀ m' r', t.issued[m']? = some r' → r.precedes cfg r' →
        s.trace.countP (Event.isFlagged p m') = 0 →
        t.trace.countP (Event.isMarked m') = 0 ∧ t.trace.countP (Event.isWrote m') = 0 := by
  obtain ⟨-, hled⟩ := reachable_ledgers (exec_reachable hs hrun)
  have hmarked : t.trace.countP (Event.isMarked m) = 0 :=
    hled.unmarked_of_cut hu (exec_cut hs hrun hcut)
  refine ⟨⟨hmarked, hled.unwritten_of_unmarked hmarked⟩, fun p r hr hm hk => ?_⟩
  have hblocked := exec_blocked hs hrun hu hk hcut hr hm
  exact ⟨hblocked.queued, fun m' r' hr' hprec hold =>
    hled.undelivered_of_unflagged hu (hblocked.unflagged m' r' hr' hprec hold)⟩

/-- Process 0 issues message 0, and its BROAD to process 1 is lost. -/
def lossyRun : List (Act 2) :=
  [.client 0 [104, 101, 108, 108, 111, 49], .accept 0 0 0 [], .perform 0, .perform 0, .drop 1,
    .accept 0 0 2 [], .perform 0, .accept 0 0 0 []]

/-- Message 1, issued by process 0 later on, arrives everywhere. Process 1 sends its
ACK, process 0 does not. -/
def blockedRun : List (Act 2) :=
  [.client 0 [104, 101, 108, 108, 111, 50], .accept 0 0 0 [], .perform 0, .perform 0,
    .accept 0 0 2 [], .accept 1 0 2 [], .perform 1, .accept 0 0 0 []]

theorem lossy_cut : Cut 1 0 (endOf lossyRun).view := Or.inl (by decide +kernel)

theorem lossy_blocks :
    let t := endOf (lossyRun ++ blockedRun)
    Quiescent t ∧ t.trace.countP (Event.isWrote 0) = 0 ∧ (t.view.procs 0).mids = [0, 1] ∧
      t.trace.countP (Event.isWrote 1) = 0 := by
  have h := lost_blocks (System.endOf_reachable lossyRun)
    (System.runVia_endOf_append lossyRun blockedRun (by decide +kernel)) (by decide +kernel)
    lossy_cut
  have hbehind := (h.2 0 ⟨0, 1, generateUid 200 1, 2, 7⟩ (by decide +kernel) (by decide +kernel)
    (by decide +kernel)).2 1 ⟨0, 4, generateUid 200 4, 5, 7⟩
  exact ⟨by decide +kernel, h.1.2, by decide +kernel,
    (hbehind (by decide +kernel) (by decide +kernel) (by decide +kernel)).2⟩

/-- Every issued message has its event. -/
theorem reachable_issued_event (hs : (system cfg).Reachable s) {m : Nat} {r : Issued n}
    (hr : s.issued[m]? = some r) : .issued r.owner m r.lc ∈ s.trace := by
  refine System.ReachableVia.invariant (P := fun s => ∀ m r, s.issued[m]? = some r →
    .issued r.owner m r.lc ∈ s.trace) (fun m r hr => ?_) ?_ s hs m r hr
  · exact absurd hr nofun
  · intro s a s' hs hold hstep _ m r hr
    obtain ⟨hview, -⟩ := step_view (reachable_ledgers hs).1 hstep
    change s'.view.issued[m]? = some r at hr
    show _ ∈ s'.view.trace
    rcases hview.issued_cases with ⟨hsame, events, htrace, -⟩ | ⟨p, message, hissued, -, htrace⟩
    · rw [htrace]
      rw [hsame] at hr
      exact List.mem_append_left _ (hold m r hr)
    · rw [htrace]
      rw [hissued] at hr
      rcases getElem?_append_singleton_cases hr with hr | ⟨rfl, rfl⟩
      · exact List.mem_append_left _ (hold m r hr)
      · exact List.mem_append_right _ List.mem_cons_self

theorem ViewStep.trace_prefix {v v' : View n} {a : Act n} (h : ViewStep cfg v a v') :
    ∃ events, v'.trace = v.trace ++ events := by
  rcases h.issued_cases with ⟨-, events, htrace, -⟩ | ⟨p, message, -, -, htrace⟩
  · exact ⟨events, htrace⟩
  · exact ⟨_, htrace⟩

theorem exec_trace (hs : (system cfg).Reachable s) (hrun : (system cfg).exec s more = some t) :
    ∃ rest, t.trace = s.trace ++ rest := by
  refine System.exec_keeps (P := fun u => ∃ rest, u.trace = s.trace ++ rest) hs
    ⟨[], (List.append_nil _).symm⟩ ?_ hrun
  intro u a u' hreach ⟨rest, hrest⟩ hstep
  obtain ⟨hview, -⟩ := step_view (reachable_ledgers hreach).1 hstep
  obtain ⟨events, htrace⟩ := hview.trace_prefix
  exact ⟨rest ++ events, by rw [← List.append_assoc, ← hrest]; exact htrace⟩

/-- **A process that holds a lost message is silenced.** As long as no clock exceeds
9999 and uids are distinct, nothing it issues from then on is delivered anywhere. -/
theorem lost_silences (hs : (system cfg).Reachable s) (hrun : (system cfg).exec s more = some t)
    (ht : (system cfg).ReachableVia (ClocksBelow 10000) t) (hu : UidsDistinct t.issued)
    {q p : Fin n} {m : Nat} (hcut : Cut q m s.view) (hm : m ∈ (s.view.procs p).mids) :
    ∀ m' r', s.issued.length ≤ m' → t.issued[m']? = some r' → r'.owner = p →
      t.trace.countP (Event.isWrote m') = 0 := by
  intro m' r' hlate hr' howner
  obtain ⟨-, hled⟩ := reachable_ledgers hs
  have hclocks := reachable_clocks ht
  obtain ⟨r, hr⟩ := hled.tagged.issued_of_mem hm
  have hblocked := exec_blocked hs hrun hu (hclocks.keysDistinct cfg) hcut hr hm
  -- `p` handled the BROAD of `m` before it issued `m'`
  have hreceived : 0 < s.trace.countP (Event.isReceived p m) := by
    obtain ⟨y, hy, rfl⟩ := List.mem_map.mp hm
    have hpos := queued_pos hy
    have hsum := (hled.queue p y.mid).received
    change s.trace.countP _ = _ at hsum
    omega
  obtain ⟨e, he, hkind⟩ := List.countP_pos_iff.mp hreceived
  have hheard : HeardBefore t.trace p m m' := by
    obtain ⟨rest, hrest⟩ := exec_trace hs hrun
    have hissued := reachable_issued_event ht.reachable hr'
    rw [howner] at hissued
    have hnew : .issued p m' r'.lc ∈ rest := by
      rw [hrest] at hissued
      refine (List.mem_append.mp hissued).resolve_left fun hold => ?_
      obtain ⟨r0, hr0, -⟩ := hled.tagged.trace _ hold
      have := (List.getElem?_eq_some_iff.mp hr0).1
      change m' < s.issued.length at this
      omega
    cases e with
    | received p' k c =>
        obtain ⟨rfl, rfl⟩ := of_decide_eq_true hkind
        refine ⟨c, r'.lc, Or.inl ?_⟩
        rw [hrest]
        exact (List.singleton_sublist.mpr he).append (List.singleton_sublist.mpr hnew)
    | _ => cases hkind
  have hstamp := hclocks.causal p m m' r r' hblocked.record hr' hheard
  have hunflagged : s.trace.countP (Event.isFlagged p m') = 0 := hled.unflagged_of_unissued hlate p
  exact ((reachable_ledgers ht.reachable).2.undelivered_of_unflagged hu
    (hblocked.unflagged m' r' hr' (Or.inl (UInt32.lt_iff_toNat_lt.mpr hstamp)) hunflagged)).2

theorem lossy_silences :
    (endOf (lossyRun ++ blockedRun)).issued.length = 2 ∧
      (endOf (lossyRun ++ blockedRun)).trace.countP (Event.isWrote 1) = 0 :=
  ⟨by decide +kernel, lost_silences (System.endOf_reachable lossyRun)
    (System.runVia_endOf_append lossyRun blockedRun (by decide +kernel))
    (endOf_reachableVia (by decide +kernel)) (by decide +kernel) lossy_cut (p := 0)
    (by decide +kernel) 1 ⟨0, 4, generateUid 200 4, 5, 7⟩ (by decide +kernel) (by decide +kernel)
    rfl⟩

/-- No connection on which a process may be waiting is closed: no broadcast fails, and no
process stores past its buffer and ends. -/
def Undisturbed (s : State n) (a : Act n) (s' : State n) : Prop :=
  BroadcastsKept s a s' ∧ ∀ p, (s'.procs p).overran = false

instance (s : State n) (a : Act n) (s' : State n) : Decidable (Undisturbed s a s') :=
  inferInstanceAs (Decidable (_ ∧ _))

/-- **One short message stops the group.** With distinct uids, a process that hangs on a
message of at most five bytes never does anything again as long as no broadcast fails
and no process ends, and no message that it has not acknowledged by then is delivered by
any process. -/
theorem hung_blocks (hs : (system cfg).ReachableVia Undisturbed s)
    (hrun : (system cfg).runVia (fun s a s' => decide (Undisturbed s a s')) s more = some t)
    (hu : UidsDistinct t.issued) {p : Fin n} (hp : Hangs s p) :
    t.view.procs p = s.view.procs p ∧ ∀ m, s.trace.countP (Event.isFlagged p m) = 0 →
      t.trace.countP (Event.isMarked m) = 0 ∧ t.trace.countP (Event.isWrote m) = 0 := by
  obtain ⟨mid, rest, hpend⟩ := hp
  have hexec := System.exec_of_runVia hrun
  have hfrozen : t.view.procs p = s.view.procs p ∧
      ∀ m, t.trace.countP (Event.isFlagged p m) = s.trace.countP (Event.isFlagged p m) := by
    refine System.exec_keeps (P := fun u => u.view.procs p = s.view.procs p ∧
      ∀ m, u.trace.countP (Event.isFlagged p m) = s.trace.countP (Event.isFlagged p m))
      hs.reachable ⟨rfl, fun _ => rfl⟩ ?_ hexec
    intro u a u' hreach ⟨hproc, hcount⟩ hstep
    obtain ⟨hview, -⟩ := step_view (reachable_ledgers hreach).1 hstep
    have hhang : (u.view.procs p).pending = .hang mid :: rest := by
      rw [hproc]
      exact hpend
    obtain ⟨hsame, events, htrace, hnot⟩ := hview.frozen hhang trivial
    refine ⟨hsame.trans hproc, fun m => ?_⟩
    show u'.view.trace.countP _ = _
    rw [htrace, List.countP_append, (localTo_isFlagged p m).countP_eq_zero hnot]
    exact hcount m
  refine ⟨hfrozen.1, fun m hm => ?_⟩
  exact (reachable_ledgers (exec_reachable hs.reachable hexec)).2.undelivered_of_unflagged hu
    ((hfrozen.2 m).trans hm)

/-- Two clients send to process 0. It broadcasts the message of two bytes first, and
process 1 handles that BROAD. -/
def hungRun : List (Act 2) :=
  [.client 0 [104, 105], .client 0 [104, 101, 108, 108, 111, 50], .accept 0 0 0 [], .perform 0,
    .perform 0, .accept 1 2 0 []]

/-- Process 0 broadcasts the other message. -/
def afterHungRun : List (Act 2) := [.accept 0 0 0 [], .perform 0, .perform 0]

/-- Message 1 is issued behind it, and never written. -/
theorem hung_blocks_next :
    (endOf (hungRun ++ afterHungRun)).issued.length = 2 ∧
      (endOf (hungRun ++ afterHungRun)).trace.countP (Event.isWrote 1) = 0 := by
  have h := hung_blocks (p := 1) (s := endOf hungRun) (t := endOf (hungRun ++ afterHungRun))
    (endOf_reachableVia (by decide +kernel))
    (System.runVia_endOf_append hungRun afterHungRun (by decide +kernel)) (by decide +kernel)
    ⟨0, [], by decide +kernel⟩
  exact ⟨by decide +kernel, (h.2 1 (by decide +kernel)).2⟩

end runs

end DistKv.Tob
