import DistKv.Tob.Accounts

/-!
# The ledgers of a message

For a message `m` and a process `q` the history of a run is balanced against
what is stored and what travels:

* one BROAD of `m` was opened to `q` when `m` was issued, and it travels, was
  received, was lost, or its recipient hangs on it;
* what `q` received is in its queue, was removed by a READY or was swallowed;
* every ACK of `q` for `m` was opened when `q` flagged `m`;
* the counter of a queued node is the number of ACKs that found it, and `m`
  was marked exactly when that number has reached `n`;
* one READY to `q` was opened at every mark, and one write is due for it.

All of it holds along every run, with messages handled in any order, with
lost connections and with handlers that return early.
-/

namespace DistKv.Tob

open FirstMatch StableInsert

variable {n : Nat}

/-! ## The queue of one process -/

/-- How many nodes of `m` with the given flag are queued. -/
def queued (m : Nat) (flag : Bool) (l : List Node) : Nat :=
  l.countP fun x => x.mid = m ∧ x.ackFlg = flag

theorem queued_cons (m : Nat) (flag : Bool) (x : Node) (l : List Node) :
    queued m flag (x :: l) = queued m flag l + if x.mid = m ∧ x.ackFlg = flag then 1 else 0 := by
  simp [queued, List.countP_cons]

theorem queued_perm {m : Nat} {flag : Bool} {l l' : List Node} (h : l.Perm l') :
    queued m flag l = queued m flag l' :=
  h.countP_eq _

theorem queued_updateFirst {p : Node → Bool} {f : Node → Node} (hmid : ∀ x, (f x).mid = x.mid)
    (hflag : ∀ x, (f x).ackFlg = x.ackFlg) (m : Nat) (flag : Bool) (l : List Node) :
    queued m flag (updateFirst p f l) = queued m flag l := by
  have hmap := map_updateFirst (p := p) (f := f) (fun x => (x.mid, x.ackFlg))
    (fun x => by rw [hmid, hflag]) l
  have hcount : ∀ k : List Node, queued m flag k =
      (k.map fun x => (x.mid, x.ackFlg)).countP (fun b => b.1 = m ∧ b.2 = flag) := by
    intro k
    rw [List.countP_map]
    rfl
  rw [hcount, hmap, ← hcount]

theorem queued_eraseP (p : Node → Bool) (m : Nat) (flag : Bool) (l : List Node) :
    queued m flag (l.eraseP p) +
      ((l.find? p).toList.countP fun x => x.mid = m ∧ x.ackFlg = flag) = queued m flag l := by
  induction l with
  | nil => rfl
  | cons x rest ih =>
      by_cases hx : p x = true
      · simp [hx, queued_cons]
      · simp only [List.eraseP_cons_of_neg hx, List.find?_cons_of_neg hx, queued_cons]
        omega

/-- What `q` received is queued, was removed, or was swallowed; and what it
flagged is queued with its flag up, or was removed. -/
structure QueueLedger (q : Fin n) (m : Nat) (l : List Node) (t : List (Event n)) : Prop where
  received : t.countP (Event.isReceived q m) = queued m false l + queued m true l +
    t.countP (Event.isRemoved q m) + t.countP (Event.isSwallowed q m)
  flagged_le : t.countP (Event.isFlagged q m) + queued m false l ≤
    t.countP (Event.isReceived q m)
  flagged : t.countP (Event.isFlagged q m) ≤ queued m true l + t.countP (Event.isRemoved q m)
  queued_le : queued m true l ≤ t.countP (Event.isFlagged q m)

/-- Events of other kinds keep the ledger of a queue with the same nodes. -/
theorem QueueLedger.keep {q : Fin n} {m : Nat} {l l' : List Node} {t events : List (Event n)}
    (hl : QueueLedger q m l t) (hqueued : ∀ b, queued m b l' = queued m b l)
    (hreceived : events.countP (Event.isReceived q m) = 0)
    (hremoved : events.countP (Event.isRemoved q m) = 0)
    (hswallowed : events.countP (Event.isSwallowed q m) = 0)
    (hflagged : events.countP (Event.isFlagged q m) = 0) : QueueLedger q m l' (t ++ events) where
  received := by
    rw [List.countP_append, List.countP_append, List.countP_append, hreceived, hremoved,
      hswallowed, hqueued, hqueued]
    exact hl.received
  flagged_le := by
    rw [List.countP_append, List.countP_append, hreceived, hflagged, hqueued]
    exact hl.flagged_le
  flagged := by
    rw [List.countP_append, List.countP_append, hremoved, hflagged, hqueued]
    exact hl.flagged
  queued_le := by
    rw [List.countP_append, hflagged, hqueued]
    exact hl.queued_le

theorem queued_insertBehind {new head : Node} {l rest : List Node}
    (h : insertBehind Node.staysBefore new l = head :: rest) (m : Nat) (flag : Bool) :
    queued m flag l + (if new.mid = m ∧ new.ackFlg = flag then 1 else 0) =
      queued m flag rest + if head.mid = m ∧ head.ackFlg = flag then 1 else 0 := by
  rw [← queued_cons, ← queued_cons, ← h]
  exact (queued_perm (perm_insertBehind Node.staysBefore new l)).symm

theorem QueueLedger.handles {cfg : Cfg n} {q : Fin n} {m fresh : Nat} {x x' : ViewProc n}
    {pk : Packet n} {events t : List (Event n)} {issued : Option (Issued n)}
    (h : Handles cfg q fresh x pk x' events issued) (hl : QueueLedger q m x.queue t) :
    QueueLedger q m x'.queue (t ++ events) := by
  cases h with
  | issue message hmsg => exact hl.keep (fun _ => rfl) rfl rfl rfl rfl
  | hang uid pid port stamp len hmsg => exact hl.keep (fun _ => rfl) rfl rfl rfl rfl
  | lose uid pid port stamp len body hmsg hw =>
      obtain ⟨hrec, hfl, hfla, hle⟩ := hl
      constructor <;> simp [List.countP_append, List.countP_cons] <;> omega
  | enqueueAck uid pid port stamp len body buffer head rest hmsg hw hins hf =>
      obtain ⟨hrec, hfl, hfla, hle⟩ := hl
      have h0 := queued_insertBehind hins m false
      have h1 := queued_insertBehind hins m true
      simp only [createNode, hf] at h0 h1
      constructor <;> simp [List.countP_append, List.countP_cons, queued_cons] <;>
        by_cases h2 : head.mid = m <;> by_cases h3 : pk.mid = m <;> simp [h2, h3] at * <;> omega
  | enqueueQuiet uid pid port stamp len body buffer head rest hmsg hw hins hf =>
      obtain ⟨hrec, hfl, hfla, hle⟩ := hl
      have h0 := queued_insertBehind hins m false
      have h1 := queued_insertBehind hins m true
      simp only [createNode, hf] at h0 h1
      constructor <;> simp [List.countP_append, List.countP_cons, queued_cons] <;>
        by_cases h2 : head.mid = m <;> by_cases h3 : pk.mid = m <;> simp [h2, h3, hf] at * <;> omega
  | ackMiss pid uid hmsg hnone => exact hl.keep (fun _ => rfl) rfl rfl rfl rfl
  | ackCount pid uid y hmsg hsome hcount =>
      exact hl.keep (fun b => queued_updateFirst (by intro; rfl) (by intro; rfl) m b x.queue)
        rfl rfl rfl rfl
  | ackReady pid uid y hmsg hsome hcount =>
      exact hl.keep (fun b => queued_updateFirst (by intro; rfl) (by intro; rfl) m b x.queue)
        rfl rfl rfl rfl
  | ready uid hmsg =>
      obtain ⟨hrec, hfl, hfla, hle⟩ := hl
      have h0 := queued_eraseP (fun y => y.uid = uid) m false x.queue
      have h1 := queued_eraseP (fun y => y.uid = uid) m true x.queue
      cases hfind : x.queue.find? (fun y => y.uid = uid) with
      | none =>
          simp only [hfind, Option.toList_none, List.countP_nil, Nat.add_zero] at h0 h1
          constructor <;> simp [List.countP_append, h0, h1] <;> omega
      | some y =>
          simp only [hfind, Option.toList_some, List.countP_cons, List.countP_nil] at h0 h1
          constructor <;> simp [List.countP_append, List.countP_cons] <;>
            by_cases h2 : y.mid = m <;> cases h3 : y.ackFlg <;> simp [h2, h3] at * <;> omega

/-- The queue ledgers are kept by every step. -/
theorem ViewStep.queueLedger {cfg : Cfg n} {v v' : View n} {a : Act n} (h : ViewStep cfg v a v')
    {q : Fin n} {m : Nat} (hl : QueueLedger q m (v.procs q).queue v.trace) :
    QueueLedger q m (v'.procs q).queue v'.trace := by
  obtain ⟨events, htrace, ⟨hsame, hnot⟩ | hmove⟩ := h.local_cases q
  · rw [htrace, hsame]
    exact hl.keep (fun _ => rfl) ((localTo_isReceived q m).countP_eq_zero hnot)
      ((localTo_isRemoved q m).countP_eq_zero hnot)
      ((localTo_isSwallowed q m).countP_eq_zero hnot)
      ((localTo_isFlagged q m).countP_eq_zero hnot)
  · rw [htrace]
    generalize v'.procs q = x at hmove
    cases hmove with
    | handles pk x events issued hidle hpk hdst hx => exact hl.handles hx
    | acks pk rest pid uid hp hmsg => exact hl.keep (fun _ => rfl) rfl rfl rfl rfl
    | sends pk rest hp hmsg => exact hl.keep (fun _ => rfl) rfl rfl rfl rfl
    | writes mid buffer rest hp => exact hl.keep (fun _ => rfl) rfl rfl rfl rfl
    | aborts pk hidle hpk => exact hl.keep (fun _ => rfl) rfl rfl rfl rfl

/-- Only a wedged queue swallows, and it stays wedged. -/
def SwallowLedger (q : Fin n) (m : Nat) (x : ViewProc n) (t : List (Event n)) : Prop :=
  x.wedged = false → t.countP (Event.isSwallowed q m) = 0

theorem SwallowLedger.handles {cfg : Cfg n} {q : Fin n} {m fresh : Nat} {x x' : ViewProc n}
    {pk : Packet n} {events t : List (Event n)} {issued : Option (Issued n)}
    (h : Handles cfg q fresh x pk x' events issued) (hl : SwallowLedger q m x t) :
    SwallowLedger q m x' (t ++ events) := by
  intro hw'
  cases h with
  | lose uid pid port stamp len body hmsg hw => exact absurd (hw.symm.trans hw') (by decide)
  | ready uid hmsg =>
      have hw : x.wedged = false := (Bool.or_eq_false_iff.mp hw').1
      simpa [List.countP_append] using hl hw
  | _ => simpa [List.countP_append] using hl hw'

theorem ViewStep.swallowLedger {cfg : Cfg n} {v v' : View n} {a : Act n}
    (h : ViewStep cfg v a v') {q : Fin n} {m : Nat}
    (hl : SwallowLedger q m (v.procs q) v.trace) :
    SwallowLedger q m (v'.procs q) v'.trace := by
  obtain ⟨events, htrace, ⟨hsame, hnot⟩ | hmove⟩ := h.local_cases q
  · intro hw
    rw [htrace, List.countP_append, (localTo_isSwallowed q m).countP_eq_zero hnot]
    exact hl (hsame ▸ hw)
  · rw [htrace]
    generalize v'.procs q = x at hmove
    cases hmove with
    | handles pk x events issued hidle hpk hdst hx => exact hl.handles hx
    | _ =>
        intro hw
        simpa [List.countP_append] using hl hw

/-! ## BROADs -/

/-- The BROAD of a message reaches each process once: it travels, or it was
received, or it was lost, or its recipient hangs on it. -/
def BroadLedger (v : View n) : Prop :=
  ∀ q m, v.travelling (Packet.isBroad q m) + v.trace.countP (Event.isReceived q m) +
    v.trace.countP (Event.isLost (Packet.isBroad q m)) +
    (v.procs q).pending.countP (Out.isHang m) = if m < v.issued.length then 1 else 0

theorem Handles.broad_balance {cfg : Cfg n} {p : Fin n} {fresh : Nat} {x x' : ViewProc n}
    {pk : Packet n} {events : List (Event n)} {issued : Option (Issued n)}
    (h : Handles cfg p fresh x pk x' events issued) (hidle : x.pending = [])
    (hdst : pk.dst = port p) (q : Fin n) (m : Nat) :
    x'.pending.countP (Out.opens (Packet.isBroad q m)) + events.countP (Event.isReceived q m) +
      events.countP (Event.isLost (Packet.isBroad q m)) +
      (if p = q then x'.pending.countP (Out.isHang m) else 0) =
    (if Packet.isBroad q m pk then 1 else 0) + if issued.isSome ∧ fresh = m then 1 else 0 := by
  have hport : pk.dst = port q ↔ p = q := by rw [hdst, port_inj]
  cases h with
  | issue message hmsg =>
      have hopen : (totalBroadcast cfg p (issueNode cfg p fresh x.lc message)
          (x.lc + 1)).2.countP (Out.opens (Packet.isBroad q m)) = if fresh = m then 1 else 0 :=
        (countP_totalBroadcast rfl).trans (countP_sendAll rfl (fun i => rfl))
      have hhang : (totalBroadcast cfg p (issueNode cfg p fresh x.lc message)
          (x.lc + 1)).2.countP (Out.isHang m) = 0 :=
        (countP_totalBroadcast rfl).trans (countP_sendAll_of_opens_false fun _ => rfl)
      simp [hopen, hhang, Packet.isBroad, hmsg]
  | hang uid pid port stamp len hmsg =>
      by_cases hq : p = q <;> simp [Packet.isBroad, hmsg, hport, hq, List.countP_cons]
  | lose uid pid port stamp len body hmsg hw =>
      simp [Packet.isBroad, hmsg, hport, List.countP_cons]
  | enqueueAck uid pid port stamp len body buffer head rest hmsg hw hins hf =>
      simp [Packet.isBroad, hmsg, hport, List.countP_cons, sendP2pAck]
  | enqueueQuiet uid pid port stamp len body buffer head rest hmsg hw hins hf =>
      simp [Packet.isBroad, hmsg, hport, List.countP_cons]
  | ackMiss pid uid hmsg hnone => simp [Packet.isBroad, hmsg, hidle]
  | ackCount pid uid y hmsg hsome hcount => simp [Packet.isBroad, hmsg, hidle]
  | ackReady pid uid y hmsg hsome hcount =>
      have hopen : (sendAll p y (.ready y.uid)).countP (Out.opens (Packet.isBroad q m)) = 0 :=
        countP_sendAll_eq_zero fun _ => rfl
      have hhang : (sendAll p y (.ready y.uid)).countP (Out.isHang m) = 0 :=
        countP_sendAll_of_opens_false fun _ => rfl
      simp [Packet.isBroad, hmsg, hopen, hhang]
  | ready uid hmsg => simp [Packet.isBroad, hmsg, hidle]

theorem countP_lost (f : Packet n → Bool) (pk : Packet n) :
    [Event.lost pk].countP (Event.isLost f) = if f pk then 1 else 0 := by
  cases h : f pk <;> simp [h]

/-- What one process stores after a step at `p`. -/
theorem countP_pending_update {v : View n} {p q : Fin n} {x : ViewProc n} {f : Out n → Bool}
    (hidle : (v.procs p).pending = []) :
    (Function.update v.procs p x q).pending.countP f =
      (v.procs q).pending.countP f + if p = q then x.pending.countP f else 0 := by
  by_cases hq : p = q
  · subst hq
    simp [hidle]
  · simp [hq, Ne.symm hq]

/-- A step that performs an action of another kind. -/
theorem countP_pending_performed {v : View n} {p q : Fin n} {out : Out n} {rest : List (Out n)}
    {f : Out n → Bool} (hp : (v.procs p).pending = out :: rest) (hf : f out = false) :
    (Function.update v.procs p { v.procs p with pending := rest } q).pending.countP f =
      (v.procs q).pending.countP f := by
  by_cases hq : q = p
  · subst hq
    simp [hp, hf]
  · simp [hq]

/-- One more message may be due. -/
theorem due_append (l : List (Issued n)) (issued : Option (Issued n)) (m : Nat) :
    (if m < (l ++ issued.toList).length then 1 else 0) =
      (if m < l.length then 1 else 0) + if issued.isSome ∧ l.length = m then 1 else 0 := by
  cases issued with
  | none => simp
  | some r =>
      simp only [Option.toList_some, List.length_append, List.length_singleton,
        Option.isSome_some, true_and]
      split_ifs <;> omega

theorem BroadLedger.step {cfg : Cfg n} {v v' : View n} {a : Act n} (h : ViewStep cfg v a v')
    (hv : BroadLedger v) : BroadLedger v' := by
  intro q m
  have hq := hv q m
  cases h with
  | client p message =>
      rw [View.travelling_client]
      simpa [Packet.isBroad] using hq
  | accept p k got stack pk x events issued hidle hk hdst hx =>
      have hbal := hx.broad_balance hidle hdst q m
      have ht := View.travelling_accept (f := Packet.isBroad q m) (x := x)
        (i := v.issued ++ issued.toList) (t := v.trace ++ events) hidle hk
      simp only [List.countP_append, countP_pending_update hidle]
      rw [due_append]
      omega
  | sendAck p pk rest pid uid hp hmsg =>
      rw [View.travelling_send hp, countP_pending_performed hp rfl]
      simpa [List.countP_append] using hq
  | send p pk rest hp hmsg =>
      rw [View.travelling_send hp, countP_pending_performed hp rfl]
      exact hq
  | write p mid buffer rest hp =>
      rw [View.travelling_write hp, countP_pending_performed hp rfl]
      simpa [List.countP_append] using hq
  | abort p k pk hidle hk hdst =>
      have ht := View.travelling_accept (f := Packet.isBroad q m)
        (x := { v.procs p with lc := abortedClock (v.procs p).lc pk.msg })
        (i := v.issued) (t := v.trace ++ [.lost pk]) hidle hk
      simp only [hidle, List.countP_nil, Nat.add_zero] at ht
      have hrec : [Event.lost pk].countP (Event.isReceived q m) = 0 := rfl
      simp only [List.countP_append, countP_lost, hrec, countP_pending_update hidle, hidle,
        List.countP_nil, ite_self]
      omega
  | drop k pk hk =>
      have ht := View.travelling_drop (v := v) (f := Packet.isBroad q m) (i := v.issued)
        (t := v.trace ++ [.lost pk]) hk
      have hrec : [Event.lost pk].countP (Event.isReceived q m) = 0 := rfl
      simp only [List.countP_append, countP_lost, hrec]
      omega

/-! ## ACKs -/

/-- Every message a process flagged it acknowledged, or is about to. -/
def SentAcks (q : Fin n) (m : Nat) (x : ViewProc n) (t : List (Event n)) : Prop :=
  t.countP (Event.isAcked q m) + x.pending.countP (Out.opens (Packet.isAck q m)) =
    t.countP (Event.isFlagged q m)

theorem SentAcks.handles {cfg : Cfg n} {q : Fin n} {m fresh : Nat} {x x' : ViewProc n}
    {pk : Packet n} {events t : List (Event n)} {issued : Option (Issued n)}
    (h : Handles cfg q fresh x pk x' events issued) (hidle : x.pending = [])
    (hl : SentAcks q m x t) : SentAcks q m x' (t ++ events) := by
  unfold SentAcks at *
  rw [hidle] at hl
  cases h with
  | issue message hmsg =>
      have hopen : (totalBroadcast cfg q (issueNode cfg q fresh x.lc message)
          (x.lc + 1)).2.countP (Out.opens (Packet.isAck q m)) = 0 :=
        (countP_totalBroadcast rfl).trans (countP_sendAll_eq_zero fun _ => rfl)
      simpa [List.countP_append, hopen] using hl
  | hang uid pid port stamp len hmsg => simpa using hl
  | lose uid pid port stamp len body hmsg hw => simpa [List.countP_append] using hl
  | enqueueAck uid pid port stamp len body buffer head rest hmsg hw hins hf =>
      have hopen : Packet.isAck q m ⟨some q, head.portNum, .ack head.pid head.uid, head.mid⟩ =
          decide (head.mid = m) := by simp [Packet.isAck]
      simp only [List.countP_nil, Nat.add_zero] at hl
      simp [List.countP_append, List.countP_cons, sendP2pAck, hopen, hl]
  | enqueueQuiet uid pid port stamp len body buffer head rest hmsg hw hins hf =>
      simpa [List.countP_append] using hl
  | ackMiss pid uid hmsg hnone => simpa [List.countP_append, hidle] using hl
  | ackCount pid uid y hmsg hsome hcount => simpa [List.countP_append, hidle] using hl
  | ackReady pid uid y hmsg hsome hcount =>
      have hopen : (sendAll q y (.ready y.uid)).countP (Out.opens (Packet.isAck q m)) = 0 :=
        countP_sendAll_eq_zero fun _ => rfl
      simpa [List.countP_append, hopen] using hl
  | ready uid hmsg => simpa [List.countP_append, hidle] using hl

theorem ViewStep.sentAcks {cfg : Cfg n} {v v' : View n} {a : Act n} (h : ViewStep cfg v a v')
    (ht : v.Tagged cfg) {q : Fin n} {m : Nat} (hl : SentAcks q m (v.procs q) v.trace) :
    SentAcks q m (v'.procs q) v'.trace := by
  obtain ⟨events, htrace, ⟨hsame, hnot⟩ | hmove⟩ := h.local_cases q
  · rw [htrace, hsame]
    unfold SentAcks at *
    rw [List.countP_append, List.countP_append, (localTo_isAcked q m).countP_eq_zero hnot,
      (localTo_isFlagged q m).countP_eq_zero hnot]
    exact hl
  · rw [htrace]
    generalize v'.procs q = x at hmove
    have hpend := ht.pending q
    cases hmove with
    | handles pk x events issued hidle hpk hdst hx => exact hl.handles hx hidle
    | acks pk rest pid uid hp hmsg =>
        have hsrc : pk.src = some q := (hpend (.send pk) (by rw [hp]; exact List.mem_cons_self)).2
        have hopen : Packet.isAck q m pk = decide (pk.mid = m) := by
          simp [Packet.isAck, hmsg, hsrc]
        unfold SentAcks at *
        rw [hp] at hl
        simp only [List.countP_cons, Out.opens, hopen] at hl
        simp only [List.countP_append, List.countP_singleton, Event.isAcked, Event.isFlagged,
          true_and, Bool.false_eq_true, if_false]
        omega
    | sends pk rest hp hmsg =>
        have hopen : Packet.isAck q m pk = false := by
          unfold Packet.isAck
          cases hk : pk.msg with
          | ack pid uid => exact absurd hk (hmsg pid uid)
          | _ => rfl
        unfold SentAcks at *
        rw [hp] at hl
        simpa [List.countP_cons, hopen] using hl
    | writes mid buffer rest hp =>
        unfold SentAcks at *
        rw [hp] at hl
        simpa [List.countP_cons, List.countP_append] using hl
    | aborts pk hidle hpk =>
        unfold SentAcks at *
        simpa [List.countP_append] using hl

/-- A sent ACK is open, was handled, or was lost. -/
def AckLedger (v : View n) : Prop :=
  ∀ q m, v.net.countP (Packet.isAck q m) + v.trace.countP (Event.isGotAck q m) +
    v.trace.countP (Event.isLost (Packet.isAck q m)) = v.trace.countP (Event.isAcked q m)

theorem Handles.ack_balance {cfg : Cfg n} {p : Fin n} {fresh : Nat} {x x' : ViewProc n}
    {pk : Packet n} {events : List (Event n)} {issued : Option (Issued n)}
    (h : Handles cfg p fresh x pk x' events issued) (q : Fin n) (m : Nat) :
    events.countP (Event.isGotAck q m) = (if Packet.isAck q m pk then 1 else 0) ∧
      events.countP (Event.isLost (Packet.isAck q m)) = 0 ∧
      events.countP (Event.isAcked q m) = 0 := by
  cases h <;> simp_all [Packet.isAck, List.countP_cons]

/-- A packet that is lost moves from the network to the history. -/
theorem AckLedger.lost {v v' : View n} (hv : AckLedger v) {k : Nat} {pk : Packet n}
    (hk : v.net[k]? = some pk) (hnet : v'.net = v.net.eraseIdx k)
    (htrace : v'.trace = v.trace ++ [.lost pk]) : AckLedger v' := by
  intro q m
  have hq := hv q m
  have herase := countP_eraseIdx (f := Packet.isAck q m) hk
  have hgot : [Event.lost pk].countP (Event.isGotAck q m) = 0 := rfl
  have hacked : [Event.lost pk].countP (Event.isAcked q m) = 0 := rfl
  rw [hnet, htrace]
  simp only [List.countP_append, countP_lost, hgot, hacked]
  omega

theorem AckLedger.step {cfg : Cfg n} {v v' : View n} {a : Act n} (h : ViewStep cfg v a v')
    (ht : v.Tagged cfg) (hv : AckLedger v) : AckLedger v' := by
  intro q m
  have hq := hv q m
  cases h with
  | client p message => simpa [List.countP_append, Packet.isAck] using hq
  | accept p k got stack pk x events issued hidle hk hdst hx =>
      obtain ⟨hgot, hlost, hacked⟩ := hx.ack_balance q m
      have hnet := countP_eraseIdx (f := Packet.isAck q m) hk
      simp only [List.countP_append, hgot, hlost, hacked]
      omega
  | sendAck p pk rest pid uid hp hmsg =>
      have hsrc : pk.src = some p :=
        (ht.pending p (.send pk) (by rw [hp]; exact List.mem_cons_self)).2
      have hopen : Packet.isAck q m pk = decide (p = q ∧ pk.mid = m) := by
        simp [Packet.isAck, hmsg, hsrc]
      have hacked : [Event.acked p pk.mid (v.procs p).headMid].countP (Event.isAcked q m) =
          if Packet.isAck q m pk then 1 else 0 := by
        simp [List.countP_cons, hopen]
      have hgot : [Event.acked p pk.mid (v.procs p).headMid].countP (Event.isGotAck q m) = 0 := rfl
      have hlost : [Event.acked p pk.mid (v.procs p).headMid].countP
          (Event.isLost (Packet.isAck q m)) = 0 := rfl
      simp only [List.countP_append, List.countP_singleton, hacked, hgot, hlost]
      omega
  | send p pk rest hp hmsg =>
      have hopen : Packet.isAck q m pk = false := by
        unfold Packet.isAck
        cases hk : pk.msg with
        | ack pid uid => exact absurd hk (hmsg pid uid)
        | _ => rfl
      simpa [List.countP_append, hopen] using hq
  | write p mid buffer rest hp => simpa [List.countP_append] using hq
  | abort p k pk hidle hk hdst => exact hv.lost hk rfl rfl q m
  | drop k pk hk => exact hv.lost hk rfl rfl q m

/-! ## Counters, marks, READYs and writes -/

/-- The counter on the node of `m` at `p` is the number of ACKs that found it,
and `m` was marked when that number reached `n`. -/
structure CountLedger (p : Fin n) (m : Nat) (x : ViewProc n) (t : List (Event n)) : Prop where
  count : ∀ y ∈ x.queue, y.mid = m → y.ackCount = t.countP (Event.isHit p m)
  marked : t.countP (Event.isMarkedAt p m) = if n ≤ t.countP (Event.isHit p m) then 1 else 0
  received : 0 < t.countP (Event.isHit p m) → 0 < t.countP (Event.isReceived p m)

/-- A message queued at most once: the other nodes carry other messages. -/
theorem mid_ne_of_queued_le_one {m : Nat} (pre post : List Node) {y : Node}
    (hle : queued m false (pre ++ y :: post) + queued m true (pre ++ y :: post) ≤ 1)
    (hy : y.mid = m) : (∀ z ∈ pre, z.mid ≠ m) ∧ ∀ z ∈ post, z.mid ≠ m := by
  have hsum : ∀ l : List Node, queued m false l + queued m true l =
      l.countP (fun z => z.mid = m) := by
    intro l
    induction l with
    | nil => rfl
    | cons z rest ih =>
        simp only [queued_cons, List.countP_cons, ← ih]
        cases hz : z.ackFlg <;> simp <;> omega
  rw [hsum, List.countP_append, List.countP_cons] at hle
  simp only [hy, decide_true, if_true] at hle
  constructor
  · intro z hz hzm
    have := List.countP_pos_iff (p := fun w : Node => w.mid = m).mpr ⟨z, hz, decide_eq_true hzm⟩
    omega
  · intro z hz hzm
    have := List.countP_pos_iff (p := fun w : Node => w.mid = m).mpr ⟨z, hz, decide_eq_true hzm⟩
    omega

theorem queued_pos {y : Node} {l : List Node} (hy : y ∈ l) :
    0 < queued y.mid false l + queued y.mid true l := by
  have hpos : 0 < queued y.mid y.ackFlg l :=
    List.countP_pos_iff.mpr ⟨y, hy, by simp⟩
  cases hf : y.ackFlg <;> rw [hf] at hpos <;> omega

/-- An ACK that finds a node counts on it and on no other. -/
theorem CountLedger.counted {p : Fin n} {m : Nat} {x : ViewProc n} {t : List (Event n)}
    (hl : CountLedger p m x t) (hq : QueueLedger p m x.queue t)
    (hone : t.countP (Event.isReceived p m) ≤ 1) {uid : UInt32} {y : Node}
    (hfind : x.queue.find? (fun y => y.uid = uid) = some y) {z : Node}
    (hz : z ∈ updateFirst (fun y => y.uid = uid)
      (fun y => { y with ackCount := y.ackCount + 1 }) x.queue) (hzm : z.mid = m) :
    z.ackCount = t.countP (Event.isHit p m) + if y.mid = m then 1 else 0 := by
  obtain ⟨hy, pre, post, hsplit, hpre⟩ := List.find?_eq_some_iff_append.mp hfind
  rw [hsplit, updateFirst_append (p := fun y : Node => y.uid = uid) hy
    (fun w hw => by simpa using hpre w hw)] at hz
  have hmem : y ∈ x.queue := List.mem_of_find?_eq_some hfind
  by_cases hym : y.mid = m
  · have hle := hq.received
    rw [hsplit] at hle
    obtain ⟨hne, hne'⟩ := mid_ne_of_queued_le_one pre post (by omega) hym
    rw [if_pos hym]
    rcases List.mem_append.mp hz with hz | hz
    · exact absurd hzm (hne z hz)
    · rcases List.mem_cons.mp hz with rfl | hz
      · rw [← hl.count y hmem hym]
      · exact absurd hzm (hne' z hz)
  · rw [if_neg hym, Nat.add_zero]
    apply hl.count z ?_ hzm
    rw [hsplit]
    rcases List.mem_append.mp hz with hz | hz
    · exact List.mem_append_left _ hz
    · rcases List.mem_cons.mp hz with rfl | hz
      · exact absurd hzm hym
      · exact List.mem_append_right _ (List.mem_cons_of_mem _ hz)

/-- A node that is found was received. -/
theorem CountLedger.received_of_found {p : Fin n} {m : Nat} {x : ViewProc n}
    {t events : List (Event n)} (hl : CountLedger p m x t) (hq : QueueLedger p m x.queue t)
    {y : Node} (hmem : y ∈ x.queue)
    (hhits : events.countP (Event.isHit p m) = if y.mid = m then 1 else 0)
    (hpos : 0 < (t ++ events).countP (Event.isHit p m)) :
    0 < (t ++ events).countP (Event.isReceived p m) := by
  rw [List.countP_append, hhits] at hpos
  rw [List.countP_append]
  by_cases hym : y.mid = m
  · have hqueued := queued_pos hmem
    have hrec := hq.received
    rw [hym] at hqueued
    omega
  · rw [if_neg hym] at hpos
    have hrec := hl.received hpos
    omega

/-- A fresh node counts from zero. -/
theorem CountLedger.inserted {p : Fin n} {m : Nat} {x : ViewProc n} {t : List (Event n)}
    (hl : CountLedger p m x t) {new : Node} {l : List Node}
    (hins : insertBehind Node.staysBefore new x.queue = l) (hnew : new.ackCount = 0)
    (hfirst : new.mid = m → t.countP (Event.isReceived p m) = 0) :
    ∀ y ∈ l, y.mid = m → y.ackCount = t.countP (Event.isHit p m) := by
  intro y hy hym
  rw [← hins, mem_insertBehind] at hy
  rcases hy with rfl | hy
  · have hnone := hfirst hym
    have hzero : ¬ 0 < t.countP (Event.isHit p m) := fun hpos => by
      have := hl.received hpos
      omega
    omega
  · exact hl.count y hy hym

/-- A move that counts and marks nothing. -/
theorem CountLedger.keep {p : Fin n} {m : Nat} {x x' : ViewProc n} {t events : List (Event n)}
    (hl : CountLedger p m x t) (hhit : events.countP (Event.isHit p m) = 0)
    (hmark : events.countP (Event.isMarkedAt p m) = 0)
    (hcount : ∀ y ∈ x'.queue, y.mid = m → y.ackCount = t.countP (Event.isHit p m)) :
    CountLedger p m x' (t ++ events) := by
  constructor
  · rw [List.countP_append, hhit]
    exact hcount
  · rw [List.countP_append, List.countP_append, hhit, hmark]
    exact hl.marked
  · rw [List.countP_append, List.countP_append, hhit]
    intro hpos
    have := hl.received hpos
    omega

theorem CountLedger.handles {cfg : Cfg n} {p : Fin n} {m fresh : Nat} {x x' : ViewProc n}
    {pk : Packet n} {events t : List (Event n)} {issued : Option (Issued n)}
    (h : Handles cfg p fresh x pk x' events issued) (hl : CountLedger p m x t)
    (hq : QueueLedger p m x.queue t) (hn : ∀ y ∈ x.queue, y.nprocs = n)
    (hone : (t ++ events).countP (Event.isReceived p m) ≤ 1) :
    CountLedger p m x' (t ++ events) := by
  rw [List.countP_append] at hone
  cases h with
  | issue message hmsg => exact hl.keep rfl rfl hl.count
  | hang uid pid port stamp len hmsg => exact hl.keep rfl rfl hl.count
  | lose uid pid port stamp len body hmsg hw => exact hl.keep rfl rfl hl.count
  | enqueueAck uid pid port stamp len body buffer head rest hmsg hw hins hf =>
      refine hl.keep rfl rfl ?_
      have hall := hl.inserted hins rfl fun hm : pk.mid = m => by
        have hnew : [Event.received p pk.mid (receiveClock x.lc stamp),
            .flagged p head.mid].countP (Event.isReceived p m) = 1 := by simp [hm]
        omega
      intro y hy hym
      rcases List.mem_cons.mp hy with rfl | hy
      · exact hall head List.mem_cons_self hym
      · exact hall y (List.mem_cons_of_mem _ hy) hym
  | enqueueQuiet uid pid port stamp len body buffer head rest hmsg hw hins hf =>
      refine hl.keep rfl rfl ?_
      exact hl.inserted hins rfl fun hm : pk.mid = m => by
        have hnew : [Event.received p pk.mid (receiveClock x.lc stamp)].countP
            (Event.isReceived p m) = 1 := by simp [hm]
        omega
  | ackMiss pid uid hmsg hnone => exact hl.keep rfl rfl hl.count
  | ackCount pid uid y hmsg hsome hcount =>
      have hmem : y ∈ x.queue := List.mem_of_find?_eq_some hsome
      have hhits : [Event.gotAck p pk.src pk.mid (some y.mid)].countP (Event.isHit p m) =
          if y.mid = m then 1 else 0 := by simp [List.countP_cons]
      constructor
      · rw [List.countP_append, hhits]
        exact fun z hz hzm => hl.counted hq (by omega) hsome hz hzm
      · have hmarked := hl.marked
        simp only [List.countP_append, hhits]
        by_cases hym : y.mid = m
        · have hy := hl.count y hmem hym
          rw [hn y hmem] at hcount
          simp only [hym, if_true]
          have hnone : [Event.gotAck p pk.src pk.mid (some m)].countP (Event.isMarkedAt p m) = 0 :=
            rfl
          rw [hnone, hmarked]
          split_ifs <;> omega
        · simpa [hym] using hmarked
      · exact hl.received_of_found hq hmem hhits
  | ackReady pid uid y hmsg hsome hcount =>
      have hmem : y ∈ x.queue := List.mem_of_find?_eq_some hsome
      have hhits : [Event.gotAck p pk.src pk.mid (some y.mid),
          .marked p y.mid x.headMid (x.lc + 1)].countP (Event.isHit p m) =
          if y.mid = m then 1 else 0 := by simp [List.countP_cons]
      have hmarks : [Event.gotAck p pk.src pk.mid (some y.mid),
          .marked p y.mid x.headMid (x.lc + 1)].countP (Event.isMarkedAt p m) =
          if y.mid = m then 1 else 0 := by simp [List.countP_cons]
      constructor
      · rw [List.countP_append, hhits]
        exact fun z hz hzm => hl.counted hq (by omega) hsome hz hzm
      · have hmarked := hl.marked
        simp only [List.countP_append, hhits, hmarks]
        by_cases hym : y.mid = m
        · have hy := hl.count y hmem hym
          rw [hn y hmem] at hcount
          simp only [hym, if_true]
          rw [hmarked]
          split_ifs <;> omega
        · simpa [hym] using hmarked
      · exact hl.received_of_found hq hmem hhits
  | ready uid hmsg =>
      refine hl.keep ?_ rfl fun y hy => hl.count y (List.mem_of_mem_eraseP hy)
      cases hfind : x.queue.find? (fun y => y.uid = uid) <;> rfl

theorem ViewStep.countLedger {cfg : Cfg n} {v v' : View n} {a : Act n} (h : ViewStep cfg v a v')
    (ht : v.Tagged cfg) {p : Fin n} {m : Nat}
    (hq : QueueLedger p m (v.procs p).queue v.trace)
    (hone : v'.trace.countP (Event.isReceived p m) ≤ 1)
    (hl : CountLedger p m (v.procs p) v.trace) : CountLedger p m (v'.procs p) v'.trace := by
  obtain ⟨events, htrace, ⟨hsame, hnot⟩ | hmove⟩ := h.local_cases p
  · rw [htrace, hsame]
    exact hl.keep ((localTo_isHit p m).countP_eq_zero hnot)
      ((localTo_isMarkedAt p m).countP_eq_zero hnot) hl.count
  · rw [htrace] at hone ⊢
    generalize v'.procs p = x at hmove
    cases hmove with
    | handles pk x events issued hidle hpk hdst hx =>
        refine hl.handles hx hq (fun y hy => ?_) hone
        obtain ⟨r, -, -, -, -, -, hn⟩ := ht.queue p y hy
        exact hn
    | acks pk rest pid uid hp hmsg => exact hl.keep rfl rfl hl.count
    | sends pk rest hp hmsg => exact hl.keep rfl rfl hl.count
    | writes mid buffer rest hp => exact hl.keep rfl rfl hl.count
    | aborts pk hidle hpk => exact hl.keep rfl rfl hl.count

/-- Every mark is written, or is about to be. -/
def WriteLedger (p : Fin n) (m : Nat) (x : ViewProc n) (t : List (Event n)) : Prop :=
  t.countP (Event.isWroteAt p m) + x.pending.countP (Out.isWrite m) =
    t.countP (Event.isMarkedAt p m)

theorem WriteLedger.handles {cfg : Cfg n} {p : Fin n} {m fresh : Nat} {x x' : ViewProc n}
    {pk : Packet n} {events t : List (Event n)} {issued : Option (Issued n)}
    (h : Handles cfg p fresh x pk x' events issued) (hidle : x.pending = [])
    (hl : WriteLedger p m x t) : WriteLedger p m x' (t ++ events) := by
  unfold WriteLedger at *
  rw [hidle] at hl
  cases h with
  | issue message hmsg =>
      have hopen : (totalBroadcast cfg p (issueNode cfg p fresh x.lc message)
          (x.lc + 1)).2.countP (Out.isWrite m) = 0 :=
        (countP_totalBroadcast rfl).trans (countP_sendAll_of_opens_false fun _ => rfl)
      simpa [List.countP_append, hopen] using hl
  | hang uid pid port stamp len hmsg => simpa using hl
  | lose uid pid port stamp len body hmsg hw => simpa [List.countP_append] using hl
  | enqueueAck uid pid port stamp len body buffer head rest hmsg hw hins hf =>
      simpa [List.countP_append, sendP2pAck] using hl
  | enqueueQuiet uid pid port stamp len body buffer head rest hmsg hw hins hf =>
      simpa [List.countP_append] using hl
  | ackMiss pid uid hmsg hnone => simpa [List.countP_append, hidle] using hl
  | ackCount pid uid y hmsg hsome hcount => simpa [List.countP_append, hidle] using hl
  | ackReady pid uid y hmsg hsome hcount =>
      have hopen : (sendAll p y (.ready y.uid)).countP (Out.isWrite m) = 0 :=
        countP_sendAll_of_opens_false fun _ => rfl
      simp only [List.countP_nil, Nat.add_zero] at hl
      simp [List.countP_append, List.countP_cons, hopen, hl]
  | ready uid hmsg => simpa [List.countP_append, hidle] using hl

theorem ViewStep.writeLedger {cfg : Cfg n} {v v' : View n} {a : Act n} (h : ViewStep cfg v a v')
    {p : Fin n} {m : Nat} (hl : WriteLedger p m (v.procs p) v.trace) :
    WriteLedger p m (v'.procs p) v'.trace := by
  obtain ⟨events, htrace, ⟨hsame, hnot⟩ | hmove⟩ := h.local_cases p
  · rw [htrace, hsame]
    unfold WriteLedger at *
    rw [List.countP_append, List.countP_append, (localTo_isWroteAt p m).countP_eq_zero hnot,
      (localTo_isMarkedAt p m).countP_eq_zero hnot]
    exact hl
  · rw [htrace]
    generalize v'.procs p = x at hmove
    cases hmove with
    | handles pk x events issued hidle hpk hdst hx => exact hl.handles hx hidle
    | acks pk rest pid uid hp hmsg =>
        unfold WriteLedger at *
        rw [hp] at hl
        simpa [List.countP_cons, List.countP_append] using hl
    | sends pk rest hp hmsg =>
        unfold WriteLedger at *
        rw [hp] at hl
        simpa [List.countP_cons] using hl
    | writes mid buffer rest hp =>
        unfold WriteLedger at *
        rw [hp, List.countP_cons] at hl
        have hwrote : [Event.wrote p mid buffer].countP (Event.isWroteAt p m) =
            if Out.isWrite m (Out.write mid buffer : Out n) then 1 else 0 := by
          simp [List.countP_cons]
        have hmark : [Event.wrote p mid buffer].countP (Event.isMarkedAt p m) = 0 := rfl
        rw [List.countP_append, List.countP_append, hwrote, hmark]
        show _ + rest.countP (Out.isWrite m) = _
        omega
    | aborts pk hidle hpk =>
        unfold WriteLedger at *
        simpa [List.countP_append] using hl

/-- A mark opens one READY to each process: it travels, was handled, or was lost. -/
def ReadyLedger (v : View n) : Prop :=
  ∀ q m, v.travelling (Packet.isReady q m) + v.trace.countP (Event.isGotReady q m) +
    v.trace.countP (Event.isLost (Packet.isReady q m)) = v.trace.countP (Event.isMarked m)

theorem Handles.ready_balance {cfg : Cfg n} {p : Fin n} {fresh : Nat} {x x' : ViewProc n}
    {pk : Packet n} {events : List (Event n)} {issued : Option (Issued n)}
    (h : Handles cfg p fresh x pk x' events issued) (hidle : x.pending = [])
    (hdst : pk.dst = port p) (hn : ∀ y ∈ x.queue, y.nprocs = n) (q : Fin n) (m : Nat) :
    x'.pending.countP (Out.opens (Packet.isReady q m)) + events.countP (Event.isGotReady q m) +
      events.countP (Event.isLost (Packet.isReady q m)) =
    (if Packet.isReady q m pk then 1 else 0) + events.countP (Event.isMarked m) := by
  have hport : pk.dst = port q ↔ p = q := by rw [hdst, port_inj]
  cases h with
  | issue message hmsg =>
      have hopen : (totalBroadcast cfg p (issueNode cfg p fresh x.lc message)
          (x.lc + 1)).2.countP (Out.opens (Packet.isReady q m)) = 0 :=
        (countP_totalBroadcast rfl).trans (countP_sendAll_eq_zero fun _ => rfl)
      simp [hopen, Packet.isReady, hmsg]
  | hang uid pid port stamp len hmsg => simp [Packet.isReady, hmsg]
  | lose uid pid port stamp len body hmsg hw => simp [Packet.isReady, hmsg]
  | enqueueAck uid pid port stamp len body buffer head rest hmsg hw hins hf =>
      simp [Packet.isReady, hmsg, sendP2pAck]
  | enqueueQuiet uid pid port stamp len body buffer head rest hmsg hw hins hf =>
      simp [Packet.isReady, hmsg]
  | ackMiss pid uid hmsg hnone => simp [Packet.isReady, hmsg, hidle]
  | ackCount pid uid y hmsg hsome hcount => simp [Packet.isReady, hmsg, hidle]
  | ackReady pid uid y hmsg hsome hcount =>
      have hopen : (sendAll p y (.ready y.uid)).countP (Out.opens (Packet.isReady q m)) =
          if y.mid = m then 1 else 0 :=
        countP_sendAll (hn y (List.mem_of_find?_eq_some hsome)) fun i => rfl
      simp [Packet.isReady, hmsg, hopen, List.countP_cons]
  | ready uid hmsg => simp [Packet.isReady, hmsg, hidle, hport, List.countP_cons]

theorem ReadyLedger.step {cfg : Cfg n} {v v' : View n} {a : Act n} (h : ViewStep cfg v a v')
    (ht : v.Tagged cfg) (hv : ReadyLedger v) : ReadyLedger v' := by
  intro q m
  have hq := hv q m
  cases h with
  | client p message =>
      rw [View.travelling_client]
      simpa [Packet.isReady] using hq
  | accept p k got stack pk x events issued hidle hk hdst hx =>
      have hbal := hx.ready_balance hidle hdst (fun y hy => by
        obtain ⟨r, -, -, -, -, -, hn⟩ := ht.queue p y hy
        exact hn) q m
      have htr := View.travelling_accept (f := Packet.isReady q m) (x := x)
        (i := v.issued ++ issued.toList) (t := v.trace ++ events) hidle hk
      simp only [List.countP_append]
      omega
  | sendAck p pk rest pid uid hp hmsg =>
      rw [View.travelling_send hp]
      simpa [List.countP_append] using hq
  | send p pk rest hp hmsg =>
      rw [View.travelling_send hp]
      exact hq
  | write p mid buffer rest hp =>
      rw [View.travelling_write hp]
      simpa [List.countP_append] using hq
  | abort p k pk hidle hk hdst =>
      have htr := View.travelling_accept (f := Packet.isReady q m)
        (x := { v.procs p with lc := abortedClock (v.procs p).lc pk.msg })
        (i := v.issued) (t := v.trace ++ [.lost pk]) hidle hk
      have hgot : [Event.lost pk].countP (Event.isGotReady q m) = 0 := rfl
      have hmark : [Event.lost pk].countP (Event.isMarked m) = 0 := rfl
      simp only [hidle, List.countP_nil, Nat.add_zero] at htr
      simp only [List.countP_append, countP_lost, hgot, hmark, hidle]
      omega
  | drop k pk hk =>
      have htr := View.travelling_drop (v := v) (f := Packet.isReady q m) (i := v.issued)
        (t := v.trace ++ [.lost pk]) hk
      have hgot : [Event.lost pk].countP (Event.isGotReady q m) = 0 := rfl
      have hmark : [Event.lost pk].countP (Event.isMarked m) = 0 := rfl
      simp only [List.countP_append, countP_lost, hgot, hmark]
      omega

/-! ## All ledgers along a run -/

structure Ledgers (cfg : Cfg n) (v : View n) : Prop where
  tagged : v.Tagged cfg
  broad : BroadLedger v
  queue : ∀ q m, QueueLedger q m (v.procs q).queue v.trace
  swallowed : ∀ q m, SwallowLedger q m (v.procs q) v.trace
  sent : ∀ q m, SentAcks q m (v.procs q) v.trace
  ack : AckLedger v
  count : ∀ p m, CountLedger p m (v.procs p) v.trace
  write : ∀ p m, WriteLedger p m (v.procs p) v.trace
  ready : ReadyLedger v

theorem BroadLedger.received_le_one {v : View n} (h : BroadLedger v) (q : Fin n) (m : Nat) :
    v.trace.countP (Event.isReceived q m) ≤ 1 := by
  have := h q m
  split_ifs at this <;> omega

theorem init_ledgers (cfg : Cfg n) : Ledgers cfg (init : State n).view := by
  refine ⟨init_tagged cfg, ?_, ?_, ?_, ?_, ?_, ?_, ?_, ?_⟩
  · intro q m
    simp [init, State.view, Proc.view, View.travelling]
  · intro q m
    constructor <;> simp [init, State.view, Proc.view, Queue.nodes_empty, queued]
  · intro q m _
    simp [init, State.view]
  · intro q m
    simp [SentAcks, init, State.view, Proc.view]
  · intro q m
    simp [init, State.view]
  · intro p m
    have hn : ¬ n ≤ 0 := by
      have := p.isLt
      omega
    constructor <;> simp [init, State.view, Proc.view, Queue.nodes_empty, hn]
  · intro p m
    simp [WriteLedger, init, State.view, Proc.view]
  · intro q m
    simp [init, State.view, Proc.view, View.travelling]

theorem Ledgers.step {cfg : Cfg n} {v v' : View n} {a : Act n} (hv : Ledgers cfg v)
    (h : ViewStep cfg v a v') : Ledgers cfg v' := by
  have hbroad := hv.broad.step h
  exact
    { tagged := hv.tagged.step h
      broad := hbroad
      queue := fun q m => h.queueLedger (hv.queue q m)
      swallowed := fun q m => h.swallowLedger (hv.swallowed q m)
      sent := fun q m => h.sentAcks hv.tagged (hv.sent q m)
      ack := hv.ack.step h hv.tagged
      count := fun p m => h.countLedger hv.tagged (hv.queue p m)
        (hbroad.received_le_one p m) (hv.count p m)
      write := fun p m => h.writeLedger (hv.write p m)
      ready := hv.ready.step h hv.tagged }

/-- **The ledgers balance in every reachable state.** -/
theorem reachable_ledgers {cfg : Cfg n} {s : State n} (hs : (system cfg).Reachable s) :
    s.Sound ∧ Ledgers cfg s.view := by
  refine Transition.System.ReachableVia.invariant (P := fun s => s.Sound ∧ Ledgers cfg s.view)
    ⟨init_sound, init_ledgers cfg⟩ ?_ s hs
  intro s a s' _ ⟨hsound, hled⟩ hstep _
  obtain ⟨hview, hsound'⟩ := step_view hsound hstep
  exact ⟨hsound', hled.step hview⟩

end DistKv.Tob
