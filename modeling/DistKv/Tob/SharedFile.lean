import DistKv.Tob.Agreement
import DistKv.Tob.Order

/-!
# The shared file

An issuer writes its message when the last ACK comes in, on its own clock's
time. The file is in timestamp order all the same in every run in which no
process handles the BROAD of its own message after it acknowledged a message
that sorts behind it: the issuer of `m` acknowledges nothing behind `m` before
it has written `m`, and what the issuer did not acknowledge nobody writes.
-/

namespace DistKv.Tob

open History StableInsert

variable {n : Nat}

/-- The connection brings `p` its own message, and `p` has already acknowledged
a message that sorts behind it. -/
def ComesLate (cfg : Cfg n) (s : State n) (p : Fin n) (pk : Packet n) : Prop :=
  Packet.isBroad p pk.mid pk = true ∧ ∃ r ∈ s.issued[pk.mid]?, r.owner = p ∧
    ∃ m ∈ flags p s.trace, ∃ r' ∈ s.issued[m]?, r.precedes cfg r'

instance (cfg : Cfg n) (s : State n) (p : Fin n) (pk : Packet n) :
    Decidable (ComesLate cfg s p pk) :=
  inferInstanceAs (Decidable (_ ∧ ∃ r ∈ s.issued[pk.mid]?, r.owner = p ∧
    ∃ m ∈ flags p s.trace, ∃ r' ∈ s.issued[m]?, r.precedes cfg r'))

/-- No process handles its own message late. -/
def OwnInTime (cfg : Cfg n) (s : State n) (a : Act n) (_ : State n) : Prop :=
  match a with
  | .accept p k _ _ => ∀ pk ∈ s.net[k]?, ¬ ComesLate cfg s p pk
  | _ => True

instance (cfg : Cfg n) (s : State n) (a : Act n) (s' : State n) :
    Decidable (OwnInTime cfg s a s') :=
  match a with
  | .accept p k _ _ => inferInstanceAs (Decidable (∀ pk ∈ s.net[k]?, ¬ ComesLate cfg s p pk))
  | .client _ _ | .perform _ | .abort _ _ | .drop _ => inferInstanceAs (Decidable True)

theorem writes_handles {cfg : Cfg n} {p : Fin n} {fresh : Nat} {x x' : ViewProc n}
    {pk : Packet n} {events : List (Event n)} {issued : Option (Issued n)}
    (h : Handles cfg p fresh x pk x' events issued) : writes events = [] := by
  cases h <;> rfl

/-- What a process acknowledged behind its own message comes after the write
of that message, and what is written is written in order. -/
structure FileOrder (cfg : Cfg n) (v : View n) : Prop where
  own_first : ∀ (p : Fin n) (m m' : Nat) (r r' : Issued n), v.issued[m]? = some r →
    r.owner = p → v.issued[m']? = some r' → r.precedes cfg r' → m' ∈ flags p v.trace →
    0 < v.trace.countP (Event.isWroteAt p m) ∨ v.trace.countP (Event.isReceived p m) = 0
  in_order : ∀ (m m' : Nat) (r r' : Issued n), v.issued[m]? = some r →
    v.issued[m']? = some r' → r.precedes cfg r' → ¬ [m', m].Sublist (writes v.trace)

section step

variable {cfg : Cfg n} {v : View n}

/-- A message that was received or flagged anywhere is issued. -/
theorem Ledgers.issued_of_received (hv : Ledgers cfg v) {q : Fin n} {m : Nat}
    (h : 0 < v.trace.countP (Event.isReceived q m)) : m < v.issued.length := by
  have := hv.broad q m
  by_contra hlt
  rw [if_neg hlt] at this
  omega

theorem Ledgers.received_of_flags (hv : Ledgers cfg v) {p : Fin n} {m : Nat}
    (h : m ∈ flags p v.trace) : 0 < v.trace.countP (Event.isReceived p m) := by
  rw [← List.count_pos_iff, count_flags] at h
  have := (hv.queue p m).flagged_le
  omega

/-- A received message that sorts before the head is not queued and was not
swallowed: it has been removed. -/
theorem Ledgers.removed_of_precedes (hv : Ledgers cfg v) (hkeys : KeysDistinct cfg v.issued)
    {p : Fin n} {m : Nat} (hsorted : (v.procs p).queue.Pairwise Node.staysBefore) {head : Node}
    {rest : List Node} (hqueue : (v.procs p).queue = head :: rest)
    (hw : (v.procs p).wedged = false) {r r' : Issued n} (hr : v.issued[m]? = some r)
    (hr' : v.issued[head.mid]? = some r') (hprec : r.precedes cfg r')
    (hreceived : 0 < v.trace.countP (Event.isReceived p m)) :
    0 < v.trace.countP (Event.isRemoved p m) := by
  have hunqueued : ∀ b, queued m b (v.procs p).queue = 0 := by
    intro b
    rw [queued, List.countP_eq_zero]
    intro y hy hym
    obtain ⟨rfl, -⟩ := of_decide_eq_true hym
    exact hv.not_queued_of_head hkeys hsorted hqueue hr hr' hprec hy
  have hrec := (hv.queue p m).received
  rw [hunqueued, hunqueued, hv.swallowed p m hw] at hrec
  omega

/-- The issuer removes its message only after it wrote it. -/
theorem Ledgers.wrote_of_removed (hv : Ledgers cfg v) (hu : UidsDistinct v.issued) {p : Fin n}
    {m : Nat} {r : Issued n} (hr : v.issued[m]? = some r) (howner : r.owner = p)
    (hidle : (v.procs p).pending = []) (hm : 0 < v.trace.countP (Event.isRemoved p m)) :
    0 < v.trace.countP (Event.isWroteAt p m) := by
  obtain ⟨q, hq⟩ := exists_countP_own (Event.isMarked_iff m) (hv.marked_of_removed hu hm)
  obtain ⟨r', hr', rfl⟩ := hv.owner_of_marked hu hq
  obtain rfl := Option.some.inj (hr.symm.trans hr')
  have hwrite := hv.write r.owner m
  unfold WriteLedger at hwrite
  subst howner
  rw [hidle, List.countP_nil] at hwrite
  omega

/-- What is written was marked by its writer. -/
theorem Ledgers.marked_of_wrote (hv : Ledgers cfg v) {p : Fin n} {m : Nat}
    (h : 0 < v.trace.countP (Event.isWroteAt p m)) :
    0 < v.trace.countP (Event.isMarkedAt p m) := by
  have := hv.write p m
  unfold WriteLedger at this
  omega

theorem Ledgers.issued_of_written (hv : Ledgers cfg v) (hu : UidsDistinct v.issued) {m : Nat}
    (h : m ∈ writes v.trace) : ∃ r, v.issued[m]? = some r := by
  obtain ⟨p, hp⟩ := mem_writes_iff.mp h
  obtain ⟨r, hr, -⟩ := hv.owner_of_marked hu (hv.marked_of_wrote hp)
  exact ⟨r, hr⟩

/-- What a BROAD in flight carries is issued. -/
theorem Ledgers.issued_of_broad (hv : Ledgers cfg v) {k : Nat} {pk : Packet n}
    (hk : v.net[k]? = some pk) {p : Fin n} (hbroad : Packet.isBroad p pk.mid pk = true) :
    pk.mid < v.issued.length := by
  have hpkt := hv.tagged.net pk (List.mem_of_getElem? hk)
  unfold Packet.Tagged at hpkt
  unfold Packet.isBroad at hbroad
  cases hmsg : pk.msg with
  | broad uid pid portNum stamp len body =>
      rw [hmsg] at hpkt
      obtain ⟨r, hr, -⟩ := hpkt
      exact (List.getElem?_eq_some_iff.mp hr).1
  | _ => simp [hmsg] at hbroad

/-- A handler that records a BROAD as received was given that BROAD. -/
theorem Handles.received_cases {p : Fin n} {fresh : Nat} {x x' : ViewProc n} {pk : Packet n}
    {events : List (Event n)} {issued : Option (Issued n)}
    (h : Handles cfg p fresh x pk x' events issued) (hdst : pk.dst = port p) {m : Nat}
    (hm : 0 < events.countP (Event.isReceived p m)) :
    m = pk.mid ∧ Packet.isBroad p pk.mid pk = true := by
  obtain ⟨e, he, hrec⟩ := List.countP_pos_iff.mp hm
  cases h with
  | issue message hmsg => simp_all [hrec.symm]
  | hang uid pid port stamp len hmsg => simp at he
  | lose uid pid port stamp len body hmsg hw =>
      refine ⟨?_, by simp [Packet.isBroad, hmsg, hdst]⟩
      rcases List.mem_cons.mp he with rfl | he
      · exact (by simpa using hrec : pk.mid = m).symm
      · simp_all
  | enqueueAck uid pid port stamp len body buffer head rest hmsg hw hins hf =>
      refine ⟨?_, by simp [Packet.isBroad, hmsg, hdst]⟩
      rcases List.mem_cons.mp he with rfl | he
      · exact (by simpa using hrec : pk.mid = m).symm
      · simp_all
  | enqueueQuiet uid pid port stamp len body buffer head rest hmsg hw hins hf =>
      refine ⟨?_, by simp [Packet.isBroad, hmsg, hdst]⟩
      obtain rfl := List.mem_singleton.mp he
      exact (by simpa using hrec : pk.mid = m).symm
  | ackMiss pid uid hmsg hnone => simp_all
  | ackCount pid uid y hmsg hsome hcount => simp_all
  | ackReady pid uid y hmsg hsome hcount => rcases List.mem_cons.mp he with rfl | he <;> simp_all
  | ready uid hmsg => simp_all

/-- A handler flags the head it leaves, and removes nothing then. -/
theorem Handles.flags_cases {p : Fin n} {fresh : Nat} {x x' : ViewProc n} {pk : Packet n}
    {events : List (Event n)} {issued : Option (Issued n)}
    (h : Handles cfg p fresh x pk x' events issued) {m : Nat} (hm : m ∈ flags p events) :
    (∃ head rest, x'.queue = head :: rest ∧ head.mid = m) ∧ x'.wedged = false ∧
      ∀ k, events.countP (Event.isRemoved p k) = 0 := by
  cases h with
  | enqueueAck uid pid port stamp len body buffer head rest hmsg hw hins hf =>
      obtain rfl : head.mid = m := by simpa [flags, eq_comm] using hm
      exact ⟨⟨_, rest, rfl, rfl⟩, hw, fun k => rfl⟩
  | _ => simp [flags] at hm

/-- The issuer wrote what sorts before the head that a handler flags now: it is neither
queued nor swallowed. -/
theorem Ledgers.wrote_of_flags (hv : Ledgers cfg v) (hu : UidsDistinct v.issued) {p : Fin n}
    {pk : Packet n} {x : ViewProc n} {events : List (Event n)} {issued : Option (Issued n)}
    (hidle : (v.procs p).pending = [])
    (hx : Handles cfg p v.issued.length (v.procs p) pk x events issued)
    {v' : View n} (hv' : Ledgers cfg v') (hkeys : KeysDistinct cfg v'.issued)
    (hproc : v'.procs p = x) (hissued : v'.issued = v.issued ++ issued.toList)
    (htrace : v'.trace = v.trace ++ events) (hsorted : x.queue.Pairwise Node.staysBefore)
    {m m' : Nat} {r r' : Issued n} (hr : v'.issued[m]? = some r) (howner : r.owner = p)
    (hr' : v'.issued[m']? = some r') (hprec : r.precedes cfg r') (hflag : m' ∈ flags p events)
    (hreceived : 0 < v'.trace.countP (Event.isReceived p m)) :
    0 < v.trace.countP (Event.isWroteAt p m) := by
  obtain ⟨⟨head, rest, hqueue, rfl⟩, hw, hnone⟩ := hx.flags_cases hflag
  rw [← hproc] at hqueue hw hsorted
  have hremoved := hv'.removed_of_precedes hkeys hsorted hqueue hw hr hr' hprec hreceived
  rw [htrace, List.countP_append, hnone, Nat.add_zero] at hremoved
  have hold : m < v.issued.length := by
    have hledger := (hv.queue p m).received
    exact hv.issued_of_received (show 0 < v.trace.countP (Event.isReceived p m) by omega)
  rw [hissued, List.getElem?_append_left hold] at hr
  exact hv.wrote_of_removed hu hr howner hidle hremoved

end step

/-- A step that receives, flags and writes nothing new at any process. -/
theorem FileOrder.other {cfg : Cfg n} {v v' : View n} (hv : FileOrder cfg v)
    (hissued : v'.issued = v.issued) (events : List (Event n))
    (htrace : v'.trace = v.trace ++ events)
    (hquiet : ∀ e ∈ events, e.Quiet) (hwrites : writes events = []) : FileOrder cfg v' := by
  have hnone : ∀ q, flags q events = [] := fun q =>
    (flags_eq_nil fun e he => Or.inr (hquiet e he)).1
  have hreceived : ∀ q m, events.countP (Event.isReceived q m) = 0 := by
    intro q m
    rw [List.countP_eq_zero]
    intro e he hrec
    have hkind := hquiet e he
    cases e with
    | received p k c => exact hkind
    | _ => cases hrec
  constructor
  · intro p m m' r r' hr howner hr' hprec hm'
    rw [htrace, flags_append, hnone, List.append_nil] at hm'
    rw [htrace, List.countP_append, List.countP_append, hreceived]
    rcases hv.own_first p m m' r r' (hissued ▸ hr) howner (hissued ▸ hr') hprec hm' with h | h
    · exact Or.inl (by omega)
    · exact Or.inr (by omega)
  · intro m m' r r' hr hr' hprec
    rw [htrace, writes_append, hwrites, List.append_nil]
    exact hv.in_order m m' r r' (hissued ▸ hr) (hissued ▸ hr') hprec

theorem FileOrder.accept {cfg : Cfg n} {v : View n} (hv : FileOrder cfg v) (hled : Ledgers cfg v)
    {p : Fin n} {k : Nat} {pk : Packet n} {x : ViewProc n} {events : List (Event n)}
    {issued : Option (Issued n)} (hidle : (v.procs p).pending = []) (hk : v.net[k]? = some pk)
    (hdst : pk.dst = port p)
    (hx : Handles cfg p v.issued.length (v.procs p) pk x events issued)
    {v' : View n} (hv' : v' = ⟨Function.update v.procs p x, v.net.eraseIdx k,
      v.issued ++ issued.toList, v.trace ++ events⟩)
    (hled' : Ledgers cfg v') (hu : UidsDistinct v.issued) (hkeys : KeysDistinct cfg v'.issued)
    (hsorted : (v'.procs p).queue.Pairwise Node.staysBefore)
    (htime : ¬ (Packet.isBroad p pk.mid pk = true ∧ ∃ r ∈ v.issued[pk.mid]?, r.owner = p ∧
      ∃ m ∈ flags p v.trace, ∃ r' ∈ v.issued[m]?, r.precedes cfg r')) : FileOrder cfg v' := by
  have htrace : v'.trace = v.trace ++ events := by rw [hv']
  have hissued : v'.issued = v.issued ++ issued.toList := by rw [hv']
  have hproc : v'.procs p = x := by rw [hv']; simp
  have hold : ∀ {i : Nat} {r : Issued n}, i < v.issued.length → v'.issued[i]? = some r →
      v.issued[i]? = some r := by
    intro i r hi hr
    rwa [hissued, List.getElem?_append_left hi] at hr
  constructor
  · intro q m m' r r' hr howner hr' hprec hm'
    rw [htrace, flags_append, List.mem_append] at hm'
    have hmono : v.trace.countP (Event.isWroteAt q m) ≤ v'.trace.countP (Event.isWroteAt q m) := by
      rw [htrace, List.countP_append]
      omega
    -- a message acknowledged before, and `m` received before
    have hbefore : m' ∈ flags q v.trace → 0 < v.trace.countP (Event.isReceived q m) →
        0 < v'.trace.countP (Event.isWroteAt q m) := by
      intro hflag hrec
      have hr0 := hold (hled.issued_of_received hrec) hr
      have hr0' := hold (hled.issued_of_received (hled.received_of_flags hflag)) hr'
      rcases hv.own_first q m m' r r' hr0 howner hr0' hprec hflag with h | h
      · omega
      · omega
    by_cases hq : q = p
    · subst hq
      rcases Nat.eq_zero_or_pos (v'.trace.countP (Event.isReceived q m)) with hzero | hpos
      · exact Or.inr hzero
      left
      rcases hm' with hm' | hm'
      · rcases Nat.eq_zero_or_pos (v.trace.countP (Event.isReceived q m)) with hnone | hrec
        · -- `m` arrives now, too late
          rw [htrace, List.countP_append, hnone, Nat.zero_add] at hpos
          obtain ⟨rfl, hbroad⟩ := hx.received_cases hdst hpos
          have hr0 := hold (hled.issued_of_broad hk hbroad) hr
          have hr0' := hold (hled.issued_of_received (hled.received_of_flags hm')) hr'
          exact absurd ⟨hbroad, r, hr0, howner, m', hm', r', hr0', hprec⟩ htime
        · exact hbefore hm' hrec
      · have hwrote := hled.wrote_of_flags hu hidle hx hled' hkeys hproc hissued htrace
          (hproc ▸ hsorted) hr howner hr' hprec hm' hpos
        omega
    · -- nothing happens at `q`
      have hnot : ∀ e ∈ events, ¬ e.At q := fun e he hat => hq (hat.unique (hx.at_mem he))
      have hflags : flags q events = [] := (flags_eq_nil fun e he => Or.inl (hnot e he)).1
      rw [hflags] at hm'
      have hm0 : m' ∈ flags q v.trace := hm'.resolve_right (by simp)
      rcases Nat.eq_zero_or_pos (v.trace.countP (Event.isReceived q m)) with hnone | hrec
      · right
        rw [htrace, List.countP_append, hnone,
          (localTo_isReceived q m).countP_eq_zero hnot]
      · exact Or.inl (hbefore hm0 hrec)
  · intro m m' r r' hr hr' hprec hsub
    rw [htrace, writes_append, writes_handles hx, List.append_nil] at hsub
    obtain ⟨r0, hr0⟩ := hled.issued_of_written hu (hsub.subset (by simp : m ∈ [m', m]))
    obtain ⟨r0', hr0'⟩ := hled.issued_of_written hu (hsub.subset (by simp : m' ∈ [m', m]))
    exact hv.in_order m m' r r' (hold (List.getElem?_eq_some_iff.mp hr0).1 hr)
      (hold (List.getElem?_eq_some_iff.mp hr0').1 hr') hprec hsub

/-- The write of `m` comes before the writes of what sorts behind it: those
were acknowledged by the issuer of `m` too. -/
theorem FileOrder.write {cfg : Cfg n} {v v' : View n} (hv : FileOrder cfg v)
    (hled : Ledgers cfg v) (hu : UidsDistinct v.issued) {p : Fin n} {mid : Nat} {buffer : Bytes}
    {rest : List (Out n)} (hp : (v.procs p).pending = .write mid buffer :: rest)
    (hissued : v'.issued = v.issued) (htrace : v'.trace = v.trace ++ [.wrote p mid buffer]) :
    FileOrder cfg v' := by
  constructor
  · intro q m m' r r' hr howner hr' hprec hm'
    rw [htrace, flags_append] at hm'
    have hold : m' ∈ flags q v.trace := by simpa [flags] using hm'
    rw [htrace, List.countP_append, List.countP_append]
    have hrec : [Event.wrote p mid buffer].countP (Event.isReceived q m) = 0 := rfl
    rw [hrec]
    rcases hv.own_first q m m' r r' (hissued ▸ hr) howner (hissued ▸ hr') hprec hold with h | h
    · exact Or.inl (by omega)
    · exact Or.inr (by omega)
  · intro m m' r r' hr hr' hprec hsub
    rw [htrace, writes_append] at hsub
    change [m', m].Sublist (writes v.trace ++ [mid]) at hsub
    rw [pair_sublist_append_singleton] at hsub
    rw [hissued] at hr hr'
    rcases hsub with hsub | ⟨rfl, hm'⟩
    · exact hv.in_order m m' r r' hr hr' hprec hsub
    · -- `m` is due at `p`, its issuer
      have hwrite := hled.write p m
      unfold WriteLedger at hwrite
      have hhead : Out.isWrite m (Out.write m buffer : Out n) = true := by simp
      rw [hp, List.countP_cons, if_pos hhead] at hwrite
      obtain ⟨r0, hr0, howner⟩ := hled.owner_of_marked hu (p := p) (m := m) (by omega)
      obtain rfl := Option.some.inj (hr.symm.trans hr0)
      have hone := hled.markedAt_le_one p m
      -- everyone flagged `m` and `m'`, `p` among them
      obtain ⟨q, hq⟩ := mem_writes_iff.mp hm'
      have hacked' := hled.acked_of_marked hu (hled.marked_of_wrote hq) p
      have hflag' : m' ∈ flags p v.trace := by
        rw [← List.count_pos_iff, count_flags, hled.flagged_of_acked hacked']
        exact Nat.one_pos
      have hacked := hled.acked_of_marked hu (p := p) (m := m) (by omega) p
      have hflag := hled.flagged_of_acked hacked
      have hrec := (hled.queue p m).flagged_le
      rcases hv.own_first p m m' r r' hr howner hr' hprec hflag' with h | h
      · omega
      · omega

theorem FileOrder.step {cfg : Cfg n} {s s' : State n} {a : Act n}
    (hv : FileOrder cfg s.view) (h : ViewStep cfg s.view a s'.view) (hled : Ledgers cfg s.view)
    (hled' : Ledgers cfg s'.view) (hu : UidsDistinct s'.issued)
    (hkeys : KeysDistinct cfg s'.issued) (hsound' : s'.Sound) (htime : OwnInTime cfg s a s') :
    FileOrder cfg s'.view := by
  have hu0 : UidsDistinct s.view.issued := UidsDistinct.of_step h hu
  generalize hv' : s'.view = v' at h
  cases h with
  | client p message =>
      exact hv.other rfl [] (by simp) (by simp) rfl
  | accept p k got stack pk x events issued hidle hk hdst hx =>
      rw [← hv']
      exact hv.accept hled hidle hk hdst hx hv' hled' hu0 hkeys (hsound' p).2 (htime pk hk)
  | sendAck p pk rest pid uid hp hmsg =>
      exact hv.other rfl _ rfl (by simp [Event.Quiet]) rfl
  | send p pk rest hp hmsg => exact hv.other rfl [] (by simp) (by simp) rfl
  | write p mid buffer rest hp => exact hv.write hled hu0 hp rfl rfl
  | abort p k pk hidle hk hdst => exact hv.other rfl _ rfl (by simp [Event.Quiet]) rfl
  | drop k pk hk => exact hv.other rfl _ rfl (by simp [Event.Quiet]) rfl

/-- Written messages stand in the file in the order of `order_queue`. -/
def FileInOrder (cfg : Cfg n) (s : State n) : Prop :=
  ∀ m m' r r', s.issued[m]? = some r → s.issued[m']? = some r' → r.precedes cfg r' →
    m ∈ writes s.trace → m' ∈ writes s.trace → [m, m'].Sublist (writes s.trace)

/-- **The shared file is in timestamp order**, in every run with clocks below
10000 and distinct uids in which no process handles its own message after it
acknowledged one that sorts behind it. -/
theorem file_in_order (cfg : Cfg n) {s : State n}
    (hs : (system cfg).ReachableVia
      (fun s a s' => ClocksBelow 10000 s a s' ∧ OwnInTime cfg s a s') s)
    (hu : UidsDistinct s.issued) : FileInOrder cfg s := by
  have hfile : FileOrder cfg s.view := by
    refine Transition.System.ReachableVia.invariant
      (P := fun s => UidsDistinct s.issued → FileOrder cfg s.view) (fun _ => ?_) ?_ s hs hu
    · exact ⟨by simp [system, init, State.view], by simp [system, init, State.view]⟩
    · intro s a s' hs hold hstep hG hu'
      obtain ⟨hsound, hled⟩ := reachable_ledgers hs.reachable
      obtain ⟨hview, hsound'⟩ := step_view hsound hstep
      have hs' := hs.step hstep hG
      have hclocks := reachable_clocks (hs'.mono fun _ _ _ h => h.1)
      exact (hold (UidsDistinct.of_step hview hu')).step hview hled
        (reachable_ledgers hs'.reachable).2 hu' (hclocks.keysDistinct cfg) hsound' hG.2
  intro m m' r r' hr hr' hprec hm hm'
  have hne : m ≠ m' := by
    rintro rfl
    obtain rfl := Option.some.inj (hr.symm.trans hr')
    exact Issued.not_precedes_swap hprec hprec
  exact (pair_sublist_or hm hm' hne).resolve_right (hfile.in_order m m' r r' hr hr' hprec)

/-- No own message comes late in `orderlyRun`, which writes message 0 and then
message 1. -/
theorem orderly_file_in_order :
    writes (endOf orderlyRun).trace = [0, 1] ∧ FileInOrder twoProcs (endOf orderlyRun) :=
  ⟨by decide +kernel, file_in_order twoProcs (endOf_reachableVia (by decide +kernel))
    (by decide +kernel)⟩

/-- In `crossedRun` message 1, with the larger pid, is written last. -/
theorem crossed_file_not_in_order :
    (system twoProcs).ReachableVia
        (fun s a s' => ClocksBelow 10000 s a s' ∧ Fifo s a s') (endOf crossedRun) ∧
      UidsDistinct (endOf crossedRun).issued ∧ ¬ FileInOrder twoProcs (endOf crossedRun) := by
  refine ⟨endOf_reachableVia (by decide +kernel), by decide +kernel, fun h => ?_⟩
  have hpair := h 1 0 ⟨0, 1, 819201, 2, 7⟩ ⟨1, 1, 409601, 2, 7⟩ (by decide +kernel)
    (by decide +kernel) (by decide +kernel) (by decide +kernel) (by decide +kernel)
  exact absurd hpair (by decide +kernel)

end DistKv.Tob
