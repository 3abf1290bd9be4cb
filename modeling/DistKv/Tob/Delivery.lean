import DistKv.Tob.Ledger

/-!
# Unanimous delivery, once

As long as the uids of the issued messages are distinct, a node that a handler
finds by uid is the node of the message the packet is for. Then every counted
ACK is one of `n` different ones, a mark is unanimous, and a READY finds its
message in the queue, flagged.
-/

namespace DistKv.Tob

open History StableInsert

variable {n : Nat}

/-- The uids of the issued messages are pairwise distinct. -/
def UidsDistinct (issued : List (Issued n)) : Prop := (issued.map Issued.uid).Nodup

instance (issued : List (Issued n)) : Decidable (UidsDistinct issued) :=
  inferInstanceAs (Decidable (List.Nodup _))

theorem UidsDistinct.index_eq {issued : List (Issued n)} (h : UidsDistinct issued) {i j : Nat}
    {r r' : Issued n} (hi : issued[i]? = some r) (hj : issued[j]? = some r')
    (huid : r.uid = r'.uid) : i = j :=
  index_eq_of_nodup_map h hi hj huid

theorem UidsDistinct.of_append {issued more : List (Issued n)} (h : UidsDistinct (issued ++ more)) :
    UidsDistinct issued := by
  unfold UidsDistinct at *
  rw [List.map_append] at h
  exact (List.nodup_append.mp h).1

/-- A step keeps what was issued. -/
theorem ViewStep.issued_prefix {cfg : Cfg n} {v v' : View n} {a : Act n}
    (h : ViewStep cfg v a v') : ∃ more, v'.issued = v.issued ++ more := by
  cases h with
  | accept p k got stack pk x events issued hidle hk hdst hx => exact ⟨_, rfl⟩
  | _ => exact ⟨[], by simp⟩

theorem UidsDistinct.of_step {cfg : Cfg n} {v v' : View n} {a : Act n}
    (h : ViewStep cfg v a v') (hu : UidsDistinct v'.issued) : UidsDistinct v.issued := by
  obtain ⟨more, hmore⟩ := h.issued_prefix
  rw [hmore] at hu
  exact hu.of_append

section distinct

variable {cfg : Cfg n} {v : View n}

/-- An ACK counts on the node of the message it is for. -/
theorem View.Tagged.gotAck_hit (ht : v.Tagged cfg) (hu : UidsDistinct v.issued) {p : Fin n}
    {src : Option (Fin n)} {m k : Nat} (he : .gotAck p src m (some k) ∈ v.trace) : k = m := by
  obtain ⟨-, r, hr, -, hhit⟩ := ht.trace _ he
  obtain ⟨r', hr', huid⟩ := hhit k rfl
  exact hu.index_eq hr' hr huid

/-- A READY removes the node of the message it is for. -/
theorem View.Tagged.gotReady_hit (ht : v.Tagged cfg) (hu : UidsDistinct v.issued) {p : Fin n}
    {m k : Nat} {head : Option Nat} {bare : Bool}
    (he : .gotReady p m (some k) head bare ∈ v.trace) : k = m := by
  obtain ⟨r, hr, hhit⟩ := ht.trace _ he
  obtain ⟨r', hr', huid⟩ := hhit k rfl
  exact hu.index_eq hr' hr huid

/-- Two queued nodes with one uid carry one message. -/
theorem View.Tagged.queue_mid_eq (ht : v.Tagged cfg) (hu : UidsDistinct v.issued) {q : Fin n}
    {y z : Node} (hy : y ∈ (v.procs q).queue) (hz : z ∈ (v.procs q).queue)
    (huid : y.uid = z.uid) : y.mid = z.mid := by
  obtain ⟨r, hr, hyr, -⟩ := ht.queue q y hy
  obtain ⟨r', hr', hzr, -⟩ := ht.queue q z hz
  exact hu.index_eq hr hr' (by rw [← hyr, ← hzr, huid])

theorem Ledgers.flagged_le_one (hv : Ledgers cfg v) (q : Fin n) (m : Nat) :
    v.trace.countP (Event.isFlagged q m) ≤ 1 := by
  have := hv.broad.received_le_one q m
  have := (hv.queue q m).flagged_le
  omega

/-- Counted, handled, sent, flagged: each is at most the next. -/
theorem Ledgers.gotAck_le (hv : Ledgers cfg v) (q : Fin n) (m : Nat) :
    v.trace.countP (Event.isGotAck q m) ≤ v.trace.countP (Event.isAcked q m) := by
  have := hv.ack q m
  omega

theorem Ledgers.acked_le (hv : Ledgers cfg v) (q : Fin n) (m : Nat) :
    v.trace.countP (Event.isAcked q m) ≤ v.trace.countP (Event.isFlagged q m) := by
  have := hv.sent q m
  unfold SentAcks at this
  omega

/-- An ACK counted on `m` is an ACK for `m`, of some process. -/
theorem Ledgers.hit_cases (hv : Ledgers cfg v) (hu : UidsDistinct v.issued) {p : Fin n} {m : Nat}
    {e : Event n} (he : e ∈ v.trace) (hhit : e.isHit p m = true) :
    ∃ q, e = .gotAck p (some q) m (some m) := by
  cases e with
  | gotAck p' src k hit =>
      cases hit with
      | none => cases hhit
      | some j =>
          obtain ⟨⟨q, rfl⟩, -⟩ := hv.tagged.trace _ he
          obtain rfl : j = k := hv.tagged.gotAck_hit hu he
          obtain ⟨rfl, rfl⟩ := of_decide_eq_true hhit
          exact ⟨q, rfl⟩
  | _ => cases hhit

/-- The ACKs counted on `m` are ACKs for `m`, each of some process. -/
theorem Ledgers.hits_le (hv : Ledgers cfg v) (hu : UidsDistinct v.issued) (p : Fin n) (m : Nat) :
    v.trace.countP (Event.isHit p m) ≤ ∑ q, v.trace.countP (Event.isGotAck q m) := by
  apply countP_le_sum
  intro e he hhit
  obtain ⟨q, rfl⟩ := hv.hit_cases hu he hhit
  exact ⟨q, decide_eq_true ⟨rfl, rfl⟩⟩

/-- Where `m` is marked, as many ACKs were counted as there are processes. -/
theorem Ledgers.le_hits_of_marked (hv : Ledgers cfg v) {p : Fin n} {m : Nat}
    (hm : 0 < v.trace.countP (Event.isMarkedAt p m)) : n ≤ v.trace.countP (Event.isHit p m) := by
  by_contra hlt
  have hmarked := (hv.count p m).marked
  rw [if_neg hlt] at hmarked
  omega

/-- **Unanimity.** Where `m` was marked every process had sent its ACK. -/
theorem Ledgers.acked_of_marked (hv : Ledgers cfg v) (hu : UidsDistinct v.issued) {p : Fin n}
    {m : Nat} (hm : 0 < v.trace.countP (Event.isMarkedAt p m)) (q : Fin n) :
    v.trace.countP (Event.isAcked q m) = 1 := by
  have hle : ∀ q, v.trace.countP (Event.isGotAck q m) ≤ 1 := fun q => by
    have := hv.gotAck_le q m
    have := hv.acked_le q m
    have := hv.flagged_le_one q m
    omega
  have hhits := hv.le_hits_of_marked hm
  have hone := eq_one_of_le_sum hle (hhits.trans (hv.hits_le hu p m)) q
  have := hv.gotAck_le q m
  have := hv.acked_le q m
  have := hv.flagged_le_one q m
  omega

theorem Ledgers.flagged_of_acked (hv : Ledgers cfg v) {q : Fin n} {m : Nat}
    (h : v.trace.countP (Event.isAcked q m) = 1) : v.trace.countP (Event.isFlagged q m) = 1 := by
  have := hv.acked_le q m
  have := hv.flagged_le_one q m
  omega

/-- Only the issuer marks a message. -/
theorem Ledgers.owner_of_marked (hv : Ledgers cfg v) (hu : UidsDistinct v.issued) {p : Fin n}
    {m : Nat} (hm : 0 < v.trace.countP (Event.isMarkedAt p m)) :
    ∃ r, v.issued[m]? = some r ∧ r.owner = p := by
  have hhits : n ≤ v.trace.countP (Event.isHit p m) := by
    by_contra hlt
    have := (hv.count p m).marked
    rw [if_neg hlt] at this
    omega
  have hpos : 0 < v.trace.countP (Event.isHit p m) := by
    have := p.isLt
    omega
  obtain ⟨e, he, hhit⟩ := List.countP_pos_iff.mp hpos
  cases e with
  | gotAck p' src k hit =>
      cases hit with
      | none => simp at hhit
      | some j =>
          obtain ⟨-, r, hr, hp, -⟩ := hv.tagged.trace _ he
          have hjk := hv.tagged.gotAck_hit hu he
          simp only [Event.isHit, decide_eq_true_eq] at hhit
          exact ⟨r, by rw [← hr, ← hjk, hhit.2], hp.trans hhit.1⟩
  | _ => simp at hhit

/-- Marks of one message happen at one process. -/
theorem Ledgers.marker_unique (hv : Ledgers cfg v) (hu : UidsDistinct v.issued) {p q : Fin n}
    {m : Nat} (hp : 0 < v.trace.countP (Event.isMarkedAt p m))
    (hq : 0 < v.trace.countP (Event.isMarkedAt q m)) : p = q := by
  obtain ⟨r, hr, rfl⟩ := hv.owner_of_marked hu hp
  obtain ⟨r', hr', rfl⟩ := hv.owner_of_marked hu hq
  rw [hr] at hr'
  cases hr'
  rfl

theorem Ledgers.markedAt_le_one (hv : Ledgers cfg v) (p : Fin n) (m : Nat) :
    v.trace.countP (Event.isMarkedAt p m) ≤ 1 := by
  have := (hv.count p m).marked
  split_ifs at this <;> omega

/-- A message is marked at most once. -/
theorem Ledgers.marked_le_one (hv : Ledgers cfg v) (hu : UidsDistinct v.issued) (m : Nat) :
    v.trace.countP (Event.isMarked m) ≤ 1 := by
  by_contra hgt
  have hsome : 0 < v.trace.countP (Event.isMarked m) := by omega
  obtain ⟨p, hpos⟩ := exists_countP_own (Event.isMarked_iff m) hsome
  have hle := countP_le_own (Event.isMarked_iff m) fun q hq => hv.marker_unique hu hq hpos
  have hone := hv.markedAt_le_one p m
  omega

/-- A message is written at most as often as it is marked. -/
theorem Ledgers.wrote_le_one (hv : Ledgers cfg v) (hu : UidsDistinct v.issued) (m : Nat) :
    v.trace.countP (Event.isWrote m) ≤ 1 := by
  have hmarked : ∀ p, v.trace.countP (Event.isWroteAt p m) ≤
      v.trace.countP (Event.isMarkedAt p m) := fun p => by
    have := hv.write p m
    unfold WriteLedger at this
    omega
  by_contra hgt
  have hsome : 0 < v.trace.countP (Event.isWrote m) := by omega
  obtain ⟨p, hpos⟩ := exists_countP_own (Event.isWrote_iff m) hsome
  have hle := countP_le_own (Event.isWrote_iff m) fun q hq =>
    hv.marker_unique hu (hq.trans_le (hmarked q)) (hpos.trans_le (hmarked p))
  have hmark := hmarked p
  have hone := hv.markedAt_le_one p m
  omega

/-- A READY that is still open finds its message queued and flagged. -/
theorem Ledgers.queued_of_ready (hv : Ledgers cfg v) (hu : UidsDistinct v.issued) {q : Fin n}
    {pk : Packet n} {uid : UInt32} (hpk : pk ∈ v.net) (hdst : pk.dst = port q)
    (hmsg : pk.msg = .ready uid) :
    ∃ y, (v.procs q).queue.find? (fun y => y.uid = uid) = some y ∧ y.mid = pk.mid ∧
      y.ackFlg = true := by
  have hready : Packet.isReady q pk.mid pk = true := by simp [Packet.isReady, hmsg, hdst]
  have hopen : 0 < v.net.countP (Packet.isReady q pk.mid) :=
    List.countP_pos_iff.mpr ⟨pk, hpk, hready⟩
  have hledger := hv.ready q pk.mid
  have honce := hv.marked_le_one hu pk.mid
  unfold View.travelling at hledger
  have hgot : v.trace.countP (Event.isGotReady q pk.mid) = 0 := by omega
  -- nothing was removed: a removal of the message is a READY for it
  have hremoved : v.trace.countP (Event.isRemoved q pk.mid) = 0 := by
    rw [List.countP_eq_zero] at hgot ⊢
    intro e he hrem
    cases e with
    | gotReady p k hit head bare =>
        cases hit with
        | none => simp at hrem
        | some j =>
            have hjk := hv.tagged.gotReady_hit hu he
            exact hgot _ he (by simpa [← hjk] using hrem)
    | _ => simp at hrem
  obtain ⟨p, hmark⟩ := exists_countP_own (Event.isMarked_iff pk.mid)
    (show 0 < v.trace.countP (Event.isMarked pk.mid) by omega)
  have hflag := hv.flagged_of_acked (hv.acked_of_marked hu hmark q)
  have hqueued : 0 < queued pk.mid true (v.procs q).queue := by
    have := (hv.queue q pk.mid).flagged
    omega
  obtain ⟨y, hy, hyprop⟩ := List.countP_pos_iff.mp hqueued
  obtain ⟨hym, hyf⟩ : y.mid = pk.mid ∧ y.ackFlg = true := by simpa using hyprop
  obtain ⟨r, hr, hyu, -⟩ := hv.tagged.queue q y hy
  have hyuid : y.uid = uid := by
    have hpkt := hv.tagged.net pk hpk
    unfold Packet.Tagged at hpkt
    rw [hmsg] at hpkt
    obtain ⟨r', hr', huid⟩ := hpkt
    rw [hym, hr'] at hr
    cases hr
    rw [hyu, huid]
  cases hfind : (v.procs q).queue.find? (fun y => y.uid = uid) with
  | none => exact absurd hyuid (by simpa using List.find?_eq_none.mp hfind y hy)
  | some z =>
      have hzu : z.uid = uid := by simpa using List.find?_some hfind
      have hzm := hv.tagged.queue_mid_eq hu (List.mem_of_find?_eq_some hfind) hy
        (hzu.trans hyuid.symm)
      refine ⟨z, rfl, hzm.trans hym, ?_⟩
      -- there is one node of the message, so `z` is `y`
      by_contra hzf
      have hz : 0 < queued pk.mid false (v.procs q).queue :=
        List.countP_pos_iff.mpr ⟨z, List.mem_of_find?_eq_some hfind, by simp [hzm, hym, hzf]⟩
      have := (hv.queue q pk.mid).received
      have := hv.broad.received_le_one q pk.mid
      omega

end distinct

/-! ## ACKs are sent at the head -/

/-- The ACK a process is about to send is for its head. -/
def AcksHead (x : ViewProc n) : Prop :=
  ∀ pk pid uid, .send pk ∈ x.pending → pk.msg = .ack pid uid → x.headMid = some pk.mid

theorem not_ack_mem_sendAll {p : Fin n} {node : Node} {msg : Msg} {pk : Packet n}
    (h : .send pk ∈ sendAll p node msg) : pk.msg = msg := by
  obtain ⟨dst, heq⟩ := mem_sendAll h
  cases heq
  rfl

theorem AcksHead.handles {cfg : Cfg n} {p : Fin n} {fresh : Nat} {x x' : ViewProc n}
    {pk : Packet n} {events : List (Event n)} {issued : Option (Issued n)}
    (h : Handles cfg p fresh x pk x' events issued) (hidle : x.pending = []) : AcksHead x' := by
  intro pk' pid' uid' hpk' hmsg'
  cases h with
  | issue message hmsg =>
      rcases mem_totalBroadcast hpk' with ⟨-, hover⟩ | hpk'
      · cases hover
      · rw [not_ack_mem_sendAll hpk'] at hmsg'
        simp [encodeBroadcastBuffer] at hmsg'
  | hang uid pid port stamp len hmsg => simp at hpk'
  | lose uid pid port stamp len body hmsg hw => simp at hpk'
  | enqueueAck uid pid port stamp len body buffer head rest hmsg hw hins hf =>
      simp only [sendP2pAck, List.mem_singleton, Out.send.injEq] at hpk'
      subst hpk'
      rfl
  | enqueueQuiet uid pid port stamp len body buffer head rest hmsg hw hins hf => simp at hpk'
  | ackMiss pid uid hmsg hnone => simp [hidle] at hpk'
  | ackCount pid uid y hmsg hsome hcount => simp [hidle] at hpk'
  | ackReady pid uid y hmsg hsome hcount =>
      rcases List.mem_append.mp hpk' with hpk' | hpk'
      · rw [not_ack_mem_sendAll hpk'] at hmsg'
        simp at hmsg'
      · simp at hpk'
  | ready uid hmsg => simp [hidle] at hpk'

/-- ACKs are sent for the head. -/
structure HeadAcks (v : View n) : Prop where
  pending : ∀ p, AcksHead (v.procs p)
  trace : ∀ p m head, .acked p m head ∈ v.trace → head = some m

theorem Handles.acked_not_mem {cfg : Cfg n} {p q : Fin n} {fresh m : Nat} {x x' : ViewProc n}
    {pk : Packet n} {events : List (Event n)} {issued : Option (Issued n)} {head : Option Nat}
    (h : Handles cfg p fresh x pk x' events issued) : .acked q m head ∉ events := by
  cases h <;> simp

theorem HeadAcks.step {cfg : Cfg n} {v v' : View n} {a : Act n} (hv : HeadAcks v)
    (h : ViewStep cfg v a v') : HeadAcks v' := by
  constructor
  · intro p
    obtain ⟨events, -, ⟨hsame, -⟩ | hmove⟩ := h.local_cases p
    · rw [hsame]
      exact hv.pending p
    · have hold := hv.pending p
      generalize v'.procs p = x at hmove
      cases hmove with
      | handles pk x events issued hidle hpk hdst hx => exact AcksHead.handles hx hidle
      | acks pk rest pid uid hp hmsg =>
          exact fun pk' pid' uid' hpk' => hold pk' pid' uid' (by rw [hp]; exact .tail _ hpk')
      | sends pk rest hp hmsg =>
          exact fun pk' pid' uid' hpk' => hold pk' pid' uid' (by rw [hp]; exact .tail _ hpk')
      | writes mid buffer rest hp =>
          exact fun pk' pid' uid' hpk' => hold pk' pid' uid' (by rw [hp]; exact .tail _ hpk')
      | aborts pk hidle hpk => exact hold
  · intro p m head he
    cases h with
    | client q message => exact hv.trace p m head he
    | accept q k got stack pk x events issued hidle hk hdst hx =>
        rcases List.mem_append.mp he with he | he
        · exact hv.trace p m head he
        · exact absurd he hx.acked_not_mem
    | sendAck q pk rest pid uid hp hmsg =>
        rcases List.mem_append.mp he with he | he
        · exact hv.trace p m head he
        · obtain ⟨rfl, rfl, rfl⟩ : p = q ∧ m = pk.mid ∧ head = (v.procs q).headMid := by
            simpa using he
          exact hv.pending p pk pid uid (by rw [hp]; exact List.mem_cons_self) hmsg
    | send q pk rest hp hmsg => exact hv.trace p m head he
    | write q mid buffer rest hp => exact hv.trace p m head (by simpa using he)
    | abort q k pk hidle hk hdst => exact hv.trace p m head (by simpa using he)
    | drop k pk hk => exact hv.trace p m head (by simpa using he)

theorem reachable_headAcks {cfg : Cfg n} {s : State n} (hs : (system cfg).Reachable s) :
    HeadAcks s.view := by
  refine (Transition.System.ReachableVia.invariant
    (P := fun s => s.Sound ∧ HeadAcks s.view) ⟨init_sound, ?_, ?_⟩ ?_ s hs).2
  · intro p pk pid uid hpk
    simp [system, init, State.view, Proc.view] at hpk
  · intro p m head he
    simp [system, init, State.view] at he
  · rintro s a s' - ⟨hsound, hacks⟩ hstep -
    obtain ⟨hview, hsound'⟩ := step_view hsound hstep
    exact ⟨hsound', hacks.step hview⟩

/-- The ACKs of `q` for `m`: one, sent while `m` was its head. -/
theorem filter_acked_eq {v : View n} (hv : HeadAcks v) {q : Fin n} {m : Nat}
    (h : v.trace.countP (Event.isAcked q m) = 1) :
    v.trace.filter (Event.isAcked q m) = [.acked q m (some m)] := by
  rw [List.countP_eq_length_filter] at h
  obtain ⟨e, hfilter⟩ := List.length_eq_one_iff.mp h
  obtain ⟨he, hacked⟩ := List.mem_filter.mp (hfilter ▸ List.mem_singleton_self e)
  cases e with
  | acked p k head =>
      obtain ⟨rfl, rfl⟩ : p = q ∧ k = m := by simpa using hacked
      rw [hfilter, hv.trace p k head he]
  | _ => simp at hacked

/-! ## At every mark and at every write -/

/-- An event that marks or writes `m` comes after one ACK of every process,
sent while `m` was at its head. -/
def Unanimous (before : List (Event n)) (e : Event n) : Prop :=
  ∀ m, e.isMarked m = true ∨ e.isWrote m = true →
    ∀ q, before.filter (Event.isAcked q m) = [.acked q m (some m)]

theorem Unanimous.of_other {e : Event n} (he : ∀ m, e.isMarked m = false ∧ e.isWrote m = false)
    (before : List (Event n)) : Unanimous before e := by
  intro m h
  obtain ⟨h1, h2⟩ := he m
  rw [h1, h2] at h
  exact absurd h (by decide)

/-- A handler marks nothing, or it counted the last ACK of the message it marks. -/
theorem Handles.marks {cfg : Cfg n} {p : Fin n} {fresh : Nat} {x x' : ViewProc n}
    {pk : Packet n} {events : List (Event n)} {issued : Option (Issued n)}
    (h : Handles cfg p fresh x pk x' events issued) :
    (∀ e ∈ events, ∀ m, e.isMarked m = false ∧ e.isWrote m = false) ∨
    ∃ m, events = [.gotAck p pk.src pk.mid (some m), .marked p m x.headMid (x.lc + 1)] := by
  cases h with
  | ackReady pid uid y hmsg hsome hcount => exact Or.inr ⟨y.mid, rfl⟩
  | _ => left; simp

theorem unanimous_step {cfg : Cfg n} {v v' : View n} {a : Act n} (h : ViewStep cfg v a v')
    (hled : Ledgers cfg v) (hled' : Ledgers cfg v') (hacks : HeadAcks v) (hacks' : HeadAcks v')
    (hu : UidsDistinct v'.issued) (hv : AtEvents Unanimous v.trace) :
    AtEvents Unanimous v'.trace := by
  have hu0 : UidsDistinct v.issued := UidsDistinct.of_step h hu
  cases h with
  | client p message => exact hv
  | accept p k got stack pk x events issued hidle hk hdst hx =>
      rcases hx.marks with hnone | ⟨m, rfl⟩
      · exact hv.append fun e he before => Unanimous.of_other (hnone e he) before
      · show AtEvents Unanimous (v.trace ++ _)
        rw [List.append_cons, atEvents_append_singleton, atEvents_append_singleton]
        refine ⟨⟨hv, Unanimous.of_other (fun _ => ⟨rfl, rfl⟩) _⟩, fun m' hm' q => ?_⟩
        obtain rfl : m = m' := by simpa using hm'
        have hone := hled'.acked_of_marked hu (p := p) (m := m)
          (List.countP_pos_iff.mpr ⟨.marked p m (v.procs p).headMid ((v.procs p).lc + 1),
            by simp, by simp⟩) q
        have hfilter := filter_acked_eq hacks' hone
        simpa [List.filter_append] using hfilter
  | sendAck p pk rest pid uid hp hmsg =>
      exact hv.append fun e he before => Unanimous.of_other (by
        obtain rfl := List.mem_singleton.mp he
        exact fun _ => ⟨rfl, rfl⟩) before
  | send p pk rest hp hmsg => exact hv
  | write p mid buffer rest hp =>
      rw [atEvents_append_singleton]
      refine ⟨hv, fun m hm q => ?_⟩
      obtain rfl : mid = m := by simpa using hm
      have hwrite := hled.write p mid
      unfold WriteLedger at hwrite
      rw [hp, List.countP_cons] at hwrite
      have hone := hled.acked_of_marked hu0 (p := p) (m := mid) (by
        have : Out.isWrite mid (.write mid buffer : Out n) = true := by simp
        rw [if_pos this] at hwrite
        omega) q
      exact filter_acked_eq hacks hone
  | abort p k pk hidle hk hdst =>
      exact hv.append fun e he before => Unanimous.of_other (by
        obtain rfl := List.mem_singleton.mp he
        exact fun _ => ⟨rfl, rfl⟩) before
  | drop k pk hk =>
      exact hv.append fun e he before => Unanimous.of_other (by
        obtain rfl := List.mem_singleton.mp he
        exact fun _ => ⟨rfl, rfl⟩) before

/-- Along every run that keeps the uids distinct, marks and writes are unanimous. -/
theorem reachable_unanimous {cfg : Cfg n} {s : State n} (hs : (system cfg).Reachable s)
    (hu : UidsDistinct s.issued) : AtEvents Unanimous s.trace := by
  refine Transition.System.ReachableVia.invariant
    (P := fun s => UidsDistinct s.issued → AtEvents Unanimous s.trace)
    (fun _ => atEvents_nil _) ?_ s hs hu
  intro s a s' hs hold hstep _ hu'
  obtain ⟨hsound, hled⟩ := reachable_ledgers hs
  obtain ⟨hview, -⟩ := step_view hsound hstep
  have hs' : (system cfg).Reachable s' := .step hs hstep trivial
  exact unanimous_step hview hled (reachable_ledgers hs').2 (reachable_headAcks hs)
    (reachable_headAcks hs') hu' (hold (UidsDistinct.of_step hview hu'))

/-- **A READY removes its message.** In a reachable state with distinct uids a
process that accepts a READY for `m` has `m` in its queue, and not afterwards. -/
theorem ready_removes {cfg : Cfg n} {s s' : State n} (hs : (system cfg).Reachable s)
    (hu : UidsDistinct s.issued) {p : Fin n} {k got : Nat} {stack : Bytes} {pk : Packet n}
    {uid : UInt32} (hoff : s.offered p k = some pk) (hmsg : pk.msg = .ready uid)
    (hstep : step cfg s (.accept p k got stack) = some s') :
    pk.mid ∈ (s.procs p).queue.nodes.map Node.mid ∧
      pk.mid ∉ (s'.procs p).queue.nodes.map Node.mid := by
  obtain ⟨hsound, hled⟩ := reachable_ledgers hs
  obtain ⟨hidle, hk, hdst⟩ := State.offered_eq_some.mp hoff
  obtain ⟨y, hfind, hmid, -⟩ :=
    hled.queued_of_ready hu (List.mem_of_getElem? hk) hdst hmsg
  refine ⟨List.mem_map.mpr ⟨y, List.mem_of_find?_eq_some hfind, hmid⟩, ?_⟩
  simp only [step, hoff, Option.bind_some, Option.map_eq_some_iff, handleClient, hmsg] at hstep
  obtain ⟨o, ho, rfl⟩ := hstep
  obtain ⟨q', hq', -, hnodes, -⟩ := Queue.dequeue_spec (hsound p).1 uid
  simp only [handleReady, hq', Option.map_some, Option.some.injEq] at ho
  subst ho
  simp only [State.handled, Function.update_self, hnodes]
  -- the message was queued once
  have hone := hled.broad.received_le_one p pk.mid
  have hrec := (hled.queue p pk.mid).received
  obtain ⟨hy, pre, post, hsplit, hpre⟩ := List.find?_eq_some_iff_append.mp hfind
  have hsplit' : (s.procs p).queue.nodes = pre ++ y :: post := hsplit
  change _ = queued pk.mid false (s.procs p).queue.nodes +
    queued pk.mid true (s.procs p).queue.nodes + _ + _ at hrec
  rw [hsplit'] at hrec ⊢
  obtain ⟨hne, hne'⟩ := mid_ne_of_queued_le_one pre post (by omega) hmid
  rw [List.eraseP_append_right _ (fun z hz => by simpa using hpre z hz),
    List.eraseP_cons_of_pos (by simpa using hy), List.mem_map]
  rintro ⟨z, hz, hzm⟩
  rcases List.mem_append.mp hz with hz | hz
  · exact hne z hz hzm
  · exact hne' z hz hzm

/-! ## Two processes -/

/-- Two processes, the first with the larger pid. -/
def twoProcs : Cfg 2 where
  pid := fun i => if i = 0 then 200 else 100
  pid_injective := by
    unfold Function.Injective
    decide
  pid_pos := by decide
  pid_lt := by decide
  ports := ports_two
  usable := usableSize
  le_usable := le_usableSize

/-- The state in which an execution of the two processes ends. -/
def endOf (acts : List (Act 2)) : State 2 := (system twoProcs).endOf acts

theorem endOf_reachableVia {G : State 2 → Act 2 → State 2 → Prop}
    [∀ s a s', Decidable (G s a s')] {acts : List (Act 2)}
    (h : ((system twoProcs).runVia (fun s a s' => decide (G s a s')) init acts).isSome = true) :
    (system twoProcs).ReachableVia G (endOf acts) :=
  Transition.System.endOf_reachableVia h

/-- Process 1 issues message 0 and process 0 message 1, before either hears of
the other. Both handle the BROAD of message 0 first and acknowledge it; then
message 1, with the same timestamp and the larger pid, overtakes it. -/
def crossedRun : List (Act 2) :=
  [.client 0 [104, 101, 108, 108, 111, 49], .client 1 [104, 101, 108, 108, 111, 50],
    .accept 1 1 0 [], .perform 1, .perform 1, .accept 0 0 0 [], .perform 0, .perform 0,
    .accept 0 0 2 [], .perform 0, .accept 0 1 2 [], .perform 0,
    .accept 1 0 2 [], .perform 1, .accept 1 0 2 [], .perform 1,
    .accept 0 1 0 [], .accept 0 2 0 [], .accept 1 0 0 [], .accept 1 0 0 [],
    .perform 0, .perform 1, .perform 1, .perform 0, .perform 1, .perform 0,
    .accept 0 0 0 [], .accept 0 0 0 [], .accept 1 0 0 [], .accept 1 0 0 []]

/-- Message 1 is issued when its issuer has handled message 0, and arrives
everywhere while message 0 is still queued; the BROAD of message 2 makes both
processes acknowledge message 1. -/
def orderlyRun : List (Act 2) :=
  [.client 0 [104, 101, 108, 108, 111, 49], .accept 0 0 0 [], .perform 0, .perform 0,
    .accept 0 0 2 [], .perform 0, .accept 1 0 2 [], .perform 1,
    .client 1 [104, 101, 108, 108, 111, 50], .accept 1 2 0 [], .perform 1, .perform 1,
    .accept 0 0 0 [], .accept 0 0 0 [], .perform 0, .perform 0, .perform 0,
    .accept 0 0 2 [], .accept 1 0 2 [], .accept 0 0 0 [], .accept 1 0 0 [],
    .client 0 [104, 101, 108, 108, 111, 51], .accept 0 0 0 [], .perform 0, .perform 0,
    .accept 0 0 2 [], .perform 0, .accept 1 0 2 [], .perform 1,
    .accept 1 0 0 [], .accept 1 0 0 [], .perform 1, .perform 1, .perform 1,
    .accept 0 0 0 [], .accept 1 0 0 []]

/-- **Only unanimously acknowledged messages are delivered, and once.** In
every run that keeps the uids distinct a message is marked ready and written at
most once, only after every process has sent exactly one ACK for it, while it
was at the head there; and a READY for a message finds it in the queue and
removes it. -/
theorem delivered_once_unanimously (cfg : Cfg n) {s : State n} (hs : (system cfg).Reachable s)
    (hu : UidsDistinct s.issued) :
    (∀ m, s.trace.countP (Event.isMarked m) ≤ 1 ∧ s.trace.countP (Event.isWrote m) ≤ 1) ∧
    AtEvents Unanimous s.trace ∧
    ∀ p k got stack pk uid s', s.offered p k = some pk → pk.msg = .ready uid →
      step cfg s (.accept p k got stack) = some s' →
      pk.mid ∈ (s.procs p).queue.nodes.map Node.mid ∧
        pk.mid ∉ (s'.procs p).queue.nodes.map Node.mid := by
  obtain ⟨-, hled⟩ := reachable_ledgers hs
  refine ⟨fun m => ⟨hled.marked_le_one hu m, hled.wrote_le_one hu m⟩,
    reachable_unanimous hs hu, ?_⟩
  intro p k got stack pk uid s' hoff hmsg hstep
  exact ready_removes hs hu hoff hmsg hstep

/-- Both messages of `crossedRun` are marked and written. -/
theorem crossed_delivered_once_unanimously :
    (∀ m, (endOf crossedRun).trace.countP (Event.isMarked m) ≤ 1 ∧
      (endOf crossedRun).trace.countP (Event.isWrote m) ≤ 1) ∧
    AtEvents Unanimous (endOf crossedRun).trace ∧ writes (endOf crossedRun).trace = [0, 1] :=
  have h := delivered_once_unanimously twoProcs (Transition.System.endOf_reachable crossedRun)
    (by decide +kernel)
  ⟨h.1, h.2.1, by decide +kernel⟩

end DistKv.Tob
