import DistKv.Lib.History
import DistKv.Tob.Tags

/-!
# Kinds of events, and what a step does to one process

The vocabulary of the ledgers: kinds of events, of packets and of pending
actions, as Boolean tests to be counted with `List.countP`. `travelling`
counts the connections of a kind that are open or due to be opened.

Most events happen at one process. `ViewStep.local_cases` says that a step
leaves a process and its own events alone, or is one of the five moves of
that process.
-/

namespace DistKv.Tob

open History

variable {n : Nat}

/-! ## Kinds of events, packets and actions -/

namespace Event

def isReceived (q : Fin n) (m : Nat) : Event n → Bool
  | .received p k _ => p = q ∧ k = m
  | _ => false

def isSwallowed (q : Fin n) (m : Nat) : Event n → Bool
  | .swallowed p k => p = q ∧ k = m
  | _ => false

def isFlagged (q : Fin n) (m : Nat) : Event n → Bool
  | .flagged p k => p = q ∧ k = m
  | _ => false

/-- `q` sent an ACK for `m`. -/
def isAcked (q : Fin n) (m : Nat) : Event n → Bool
  | .acked p k _ => p = q ∧ k = m
  | _ => false

/-- An ACK of `q` for `m` was handled. -/
def isGotAck (q : Fin n) (m : Nat) : Event n → Bool
  | .gotAck _ src k _ => src = some q ∧ k = m
  | _ => false

/-- `p` counted an ACK on the node of `m`. -/
def isHit (p : Fin n) (m : Nat) : Event n → Bool
  | .gotAck q _ _ (some k) => q = p ∧ k = m
  | _ => false

def isMarked (m : Nat) : Event n → Bool
  | .marked _ k _ _ => k = m
  | _ => false

def isMarkedAt (p : Fin n) (m : Nat) : Event n → Bool
  | .marked q k _ _ => q = p ∧ k = m
  | _ => false

def isWrote (m : Nat) : Event n → Bool
  | .wrote _ k _ => k = m
  | _ => false

def isWroteAt (p : Fin n) (m : Nat) : Event n → Bool
  | .wrote q k _ => q = p ∧ k = m
  | _ => false

/-- `q` handled a READY for `m`. -/
def isGotReady (q : Fin n) (m : Nat) : Event n → Bool
  | .gotReady p k _ _ _ => p = q ∧ k = m
  | _ => false

/-- `q` removed the node of `m`. -/
def isRemoved (q : Fin n) (m : Nat) : Event n → Bool
  | .gotReady p _ (some k) _ _ => p = q ∧ k = m
  | _ => false

def isLost (f : Packet n → Bool) : Event n → Bool
  | .lost pk => f pk
  | _ => false

end Event

namespace Packet

def isBroad (q : Fin n) (m : Nat) (pk : Packet n) : Bool :=
  match pk.msg with
  | .broad .. => pk.dst = port q ∧ pk.mid = m
  | _ => false

/-- An ACK of `q` for `m`. -/
def isAck (q : Fin n) (m : Nat) (pk : Packet n) : Bool :=
  match pk.msg with
  | .ack .. => pk.src = some q ∧ pk.mid = m
  | _ => false

def isReady (q : Fin n) (m : Nat) (pk : Packet n) : Bool :=
  match pk.msg with
  | .ready _ => pk.dst = port q ∧ pk.mid = m
  | _ => false

end Packet

namespace Out

/-- The connection an action opens. -/
def opens (f : Packet n → Bool) : Out n → Bool
  | .send pk => f pk
  | _ => false

def isHang (m : Nat) : Out n → Bool
  | .hang k => k = m
  | _ => false

def isWrite (m : Nat) : Out n → Bool
  | .write k _ => k = m
  | _ => false

end Out

attribute [simp] Event.isReceived Event.isSwallowed Event.isFlagged Event.isAcked Event.isGotAck
  Event.isHit Event.isMarked Event.isMarkedAt Event.isWrote Event.isWroteAt Event.isGotReady
  Event.isRemoved Event.isLost Out.opens Out.isHang Out.isWrite

theorem Event.isMarked_iff (m : Nat) (e : Event n) :
    e.isMarked m = true ↔ ∃ p, e.isMarkedAt p m = true := by
  cases e <;> simp

theorem Event.isWrote_iff (m : Nat) (e : Event n) :
    e.isWrote m = true ↔ ∃ p, e.isWroteAt p m = true := by
  cases e <;> simp

namespace View

/-- How many connections of a kind are open, or due to be opened. -/
def travelling (v : View n) (f : Packet n → Bool) : Nat :=
  v.net.countP f + ∑ p, (v.procs p).pending.countP (Out.opens f)

end View

theorem countP_eraseIdx {α : Type} {f : α → Bool} {l : List α} {k : Nat} {a : α}
    (h : l[k]? = some a) : (l.eraseIdx k).countP f + (if f a then 1 else 0) = l.countP f := by
  obtain ⟨hk, rfl⟩ := List.getElem?_eq_some_iff.mp h
  rw [← (List.getElem_cons_eraseIdx_perm hk).countP_eq f, List.countP_cons]

namespace View

variable {v : View n} {f : Packet n → Bool} {p : Fin n} {k : Nat} {pk : Packet n}
  {i : List (Issued n)} {t : List (Event n)}

theorem travelling_client :
    travelling ⟨v.procs, v.net ++ [pk], i, t⟩ f =
      v.travelling f + if f pk then 1 else 0 := by
  simp only [travelling, List.countP_append, List.countP_singleton]
  omega

theorem travelling_drop (hk : v.net[k]? = some pk) :
    travelling ⟨v.procs, v.net.eraseIdx k, i, t⟩ f + (if f pk then 1 else 0) =
      v.travelling f := by
  have := countP_eraseIdx (f := f) hk
  simp only [travelling]
  omega

theorem travelling_accept {x : ViewProc n} (hidle : (v.procs p).pending = [])
    (hk : v.net[k]? = some pk) :
    travelling ⟨Function.update v.procs p x, v.net.eraseIdx k, i, t⟩ f +
      (if f pk then 1 else 0) = v.travelling f + x.pending.countP (Out.opens f) := by
  have hnet := countP_eraseIdx (f := f) hk
  have hsum := sum_update v.procs (fun y => y.pending.countP (Out.opens f)) p x
  simp only [hidle, List.countP_nil] at hsum
  simp only [travelling]
  omega

theorem travelling_send {rest : List (Out n)} (hp : (v.procs p).pending = .send pk :: rest) :
    travelling ⟨Function.update v.procs p { v.procs p with pending := rest }, v.net ++ [pk],
      i, t⟩ f = v.travelling f := by
  have hsum := sum_update v.procs (fun y => y.pending.countP (Out.opens f)) p
    { v.procs p with pending := rest }
  have hopen : Out.opens f (.send pk) = f pk := rfl
  simp only [hp, List.countP_cons] at hsum
  rw [hopen] at hsum
  simp only [travelling, List.countP_append, List.countP_singleton]
  omega

theorem travelling_write {rest : List (Out n)} {mid : Nat} {buffer : Bytes}
    (hp : (v.procs p).pending = .write mid buffer :: rest) :
    travelling ⟨Function.update v.procs p { v.procs p with pending := rest }, v.net,
      i, t⟩ f = v.travelling f := by
  have hsum := sum_update v.procs (fun y => y.pending.countP (Out.opens f)) p
    { v.procs p with pending := rest }
  simp only [hp, List.countP_cons, Out.opens, Bool.false_eq_true, if_false] at hsum
  simp only [travelling]
  omega

end View

/-- `sendAll` opens one connection to each process. -/
theorem countP_sendAll {p q : Fin n} {m : Nat} {node : Node} {msg : Msg} {f : Packet n → Bool}
    (hn : node.nprocs = n) (hf : ∀ i, f ⟨some p, basePort + i, msg, node.mid⟩ =
      decide (basePort + i = port q ∧ node.mid = m)) :
    (sendAll p node msg).countP (Out.opens f) = if node.mid = m then 1 else 0 := by
  rw [sendAll, List.countP_map, hn]
  show (List.range n).countP (fun i => f ⟨some p, basePort + i, msg, node.mid⟩) = _
  by_cases hm : node.mid = m
  · rw [if_pos hm]
    have hfun : (fun i => f ⟨some p, basePort + i, msg, node.mid⟩) = fun i => i == q.val := by
      funext i
      rw [hf, hm]
      simp [port, beq_eq_decide]
    rw [hfun]
    exact List.count_eq_one_of_mem List.nodup_range (List.mem_range.mpr q.isLt)
  · rw [if_neg hm, List.countP_eq_zero]
    intro i _
    simp [hf, hm]

/-- `sendAll` opens no connection of another kind. -/
theorem countP_sendAll_eq_zero {p : Fin n} {node : Node} {msg : Msg} {f : Packet n → Bool}
    (hf : ∀ i, f ⟨some p, basePort + i, msg, node.mid⟩ = false) :
    (sendAll p node msg).countP (Out.opens f) = 0 := by
  rw [sendAll, List.countP_map, List.countP_eq_zero]
  intro i _
  simp [hf]

theorem countP_sendAll_of_opens_false {p : Fin n} {node : Node} {msg : Msg} {f : Out n → Bool}
    (hf : ∀ pk, f (.send pk) = false) : (sendAll p node msg).countP f = 0 := by
  rw [sendAll, List.countP_map, List.countP_eq_zero]
  intro i _
  simp [hf]

/-- `total_broadcast` opens the connections of `sendAll`. -/
theorem countP_totalBroadcast {cfg : Cfg n} {p : Fin n} {node : Node} {lc : UInt32}
    {f : Out n → Bool} (hf : f (.overrun node.mid) = false) :
    (totalBroadcast cfg p node lc).2.countP f =
      (sendAll p node (encodeBroadcastBuffer node (lc + 1))).countP f := by
  show (overruns cfg node ++ _).countP f = _
  rw [List.countP_append, overruns]
  split
  · exact Nat.zero_add _
  · rw [List.countP_singleton, hf, if_neg Bool.false_ne_true, Nat.zero_add]

/-! ## What a step does to one process -/

/-- The event happened at process `q`. -/
def Event.At (q : Fin n) : Event n → Prop
  | .issued p .. | .broadcast p .. | .received p .. | .swallowed p .. | .flagged p ..
  | .acked p .. | .gotAck p .. | .marked p .. | .wrote p .. | .gotReady p .. => p = q
  | .lost _ => False

theorem Event.At.unique {p q : Fin n} {e : Event n} (hp : e.At p) (hq : e.At q) : p = q := by
  cases e with
  | lost pk => exact hp.elim
  | _ => exact hp.symm.trans hq

/-- The moves of process `q` in `v`. -/
inductive ProcMoves (cfg : Cfg n) (v : View n) (q : Fin n) : List (Event n) → ViewProc n → Prop
  | handles (pk : Packet n) (x : ViewProc n) (events : List (Event n))
      (issued : Option (Issued n)) : (v.procs q).pending = [] → pk ∈ v.net → pk.dst = port q →
      Handles cfg q v.issued.length (v.procs q) pk x events issued → ProcMoves cfg v q events x
  | acks (pk : Packet n) (rest : List (Out n)) (pid : Nat) (uid : UInt32) :
      (v.procs q).pending = .send pk :: rest → pk.msg = .ack pid uid →
      ProcMoves cfg v q [.acked q pk.mid (v.procs q).headMid] { v.procs q with pending := rest }
  | sends (pk : Packet n) (rest : List (Out n)) :
      (v.procs q).pending = .send pk :: rest → (∀ pid uid, pk.msg ≠ .ack pid uid) →
      ProcMoves cfg v q [] { v.procs q with pending := rest }
  | writes (mid : Nat) (buffer : Bytes) (rest : List (Out n)) :
      (v.procs q).pending = .write mid buffer :: rest →
      ProcMoves cfg v q [.wrote q mid buffer] { v.procs q with pending := rest }
  | aborts (pk : Packet n) : (v.procs q).pending = [] → pk ∈ v.net →
      ProcMoves cfg v q [.lost pk] { v.procs q with lc := abortedClock (v.procs q).lc pk.msg }

theorem Handles.at_mem {cfg : Cfg n} {p : Fin n} {fresh : Nat} {x x' : ViewProc n} {pk : Packet n}
    {events : List (Event n)} {issued : Option (Issued n)}
    (h : Handles cfg p fresh x pk x' events issued) {e : Event n} (he : e ∈ events) : e.At p := by
  cases h <;> simp only [List.mem_cons, List.not_mem_nil, or_false] at he <;>
    rcases he with rfl | rfl <;> rfl

/-- A step leaves a process and its history alone, or is a move of it. -/
theorem ViewStep.local_cases {cfg : Cfg n} {v v' : View n} {a : Act n}
    (h : ViewStep cfg v a v') (q : Fin n) : ∃ events, v'.trace = v.trace ++ events ∧
      (v'.procs q = v.procs q ∧ (∀ e ∈ events, ¬ e.At q) ∨
        ProcMoves cfg v q events (v'.procs q)) := by
  cases h with
  | client p message => exact ⟨[], by simp, Or.inl ⟨rfl, by simp⟩⟩
  | accept p k got stack pk x events issued hidle hk hdst hx =>
      refine ⟨events, rfl, ?_⟩
      by_cases hq : q = p
      · subst hq
        refine Or.inr ?_
        simp only [Function.update_self]
        exact .handles pk x events issued hidle (List.mem_of_getElem? hk) hdst hx
      · exact Or.inl ⟨Function.update_of_ne hq _ _,
          fun e he hat => hq (hat.unique (hx.at_mem he))⟩
  | sendAck p pk rest pid uid hp hmsg =>
      refine ⟨_, rfl, ?_⟩
      by_cases hq : q = p
      · subst hq
        refine Or.inr ?_
        simp only [Function.update_self]
        exact .acks pk rest pid uid hp hmsg
      · exact Or.inl ⟨Function.update_of_ne hq _ _, by simp [Event.At, Ne.symm hq]⟩
  | send p pk rest hp hmsg =>
      refine ⟨[], by simp, ?_⟩
      by_cases hq : q = p
      · subst hq
        refine Or.inr ?_
        simp only [Function.update_self]
        exact .sends pk rest hp hmsg
      · exact Or.inl ⟨Function.update_of_ne hq _ _, by simp⟩
  | write p mid buffer rest hp =>
      refine ⟨_, rfl, ?_⟩
      by_cases hq : q = p
      · subst hq
        refine Or.inr ?_
        simp only [Function.update_self]
        exact .writes mid buffer rest hp
      · exact Or.inl ⟨Function.update_of_ne hq _ _, by simp [Event.At, Ne.symm hq]⟩
  | abort p k pk hidle hk hdst =>
      refine ⟨_, rfl, ?_⟩
      by_cases hq : q = p
      · subst hq
        refine Or.inr ?_
        simp only [Function.update_self]
        exact .aborts pk hidle (List.mem_of_getElem? hk)
      · exact Or.inl ⟨Function.update_of_ne hq _ _, by simp [Event.At]⟩
  | drop k pk hk => exact ⟨_, rfl, Or.inl ⟨rfl, by simp [Event.At]⟩⟩

/-- An event that comes without a change of a queue. -/
def Event.Quiet : Event n → Prop
  | .acked .. | .wrote .. | .lost _ => True
  | _ => False

/-- A step is an accepted connection, or leaves all queues alone. -/
theorem ViewStep.accept_or_quiet {cfg : Cfg n} {v v' : View n} {a : Act n}
    (h : ViewStep cfg v a v') :
    (∃ p k got stack pk x events issued, a = .accept p k got stack ∧
      (v.procs p).pending = [] ∧ v.net[k]? = some pk ∧ pk.dst = port p ∧
      Handles cfg p v.issued.length (v.procs p) pk x events issued ∧
      v' = ⟨Function.update v.procs p x, v.net.eraseIdx k, v.issued ++ issued.toList,
        v.trace ++ events⟩) ∨
    v'.issued = v.issued ∧ (∀ q, (v'.procs q).queue = (v.procs q).queue) ∧
      ∃ events, v'.trace = v.trace ++ events ∧ ∀ e ∈ events, e.Quiet := by
  have hqueue : ∀ {p : Fin n} {x : ViewProc n}, x.queue = (v.procs p).queue →
      ∀ q, (Function.update v.procs p x q).queue = (v.procs q).queue := by
    intro p x hx q
    by_cases hq : q = p
    · subst hq
      simpa using hx
    · simp [hq]
  cases h with
  | client p message => exact Or.inr ⟨rfl, fun _ => rfl, [], by simp, by simp⟩
  | accept p k got stack pk x events issued hidle hk hdst hx =>
      exact Or.inl ⟨p, k, got, stack, pk, x, events, issued, rfl, hidle, hk, hdst, hx, rfl⟩
  | sendAck p pk rest pid uid hp hmsg =>
      exact Or.inr ⟨rfl, hqueue rfl, _, rfl, by simp [Event.Quiet]⟩
  | send p pk rest hp hmsg => exact Or.inr ⟨rfl, hqueue rfl, [], by simp, by simp⟩
  | write p mid buffer rest hp =>
      exact Or.inr ⟨rfl, hqueue rfl, _, rfl, by simp [Event.Quiet]⟩
  | abort p k pk hidle hk hdst =>
      exact Or.inr ⟨rfl, hqueue rfl, _, rfl, by simp [Event.Quiet]⟩
  | drop k pk hk => exact Or.inr ⟨rfl, fun _ => rfl, _, rfl, by simp [Event.Quiet]⟩

/-- A kind of events that happen at `q` only. -/
def LocalTo (q : Fin n) (f : Event n → Bool) : Prop := ∀ e, f e = true → e.At q

theorem LocalTo.countP_eq_zero {q : Fin n} {f : Event n → Bool} (hf : LocalTo q f)
    {events : List (Event n)} (h : ∀ e ∈ events, ¬ e.At q) : events.countP f = 0 := by
  rw [List.countP_eq_zero]
  intro e he htrue
  exact h e he (hf e htrue)

section kinds

variable (q : Fin n) (m : Nat)

theorem localTo_isReceived : LocalTo q (Event.isReceived q m) := by
  intro e he
  cases e with
  | received p k c => exact (of_decide_eq_true he).1
  | _ => cases he

theorem localTo_isSwallowed : LocalTo q (Event.isSwallowed q m) := by
  intro e he
  cases e with
  | swallowed p k => exact (of_decide_eq_true he).1
  | _ => cases he

theorem localTo_isFlagged : LocalTo q (Event.isFlagged q m) := by
  intro e he
  cases e with
  | flagged p k => exact (of_decide_eq_true he).1
  | _ => cases he

theorem localTo_isAcked : LocalTo q (Event.isAcked q m) := by
  intro e he
  cases e with
  | acked p k src => exact (of_decide_eq_true he).1
  | _ => cases he

theorem localTo_isHit : LocalTo q (Event.isHit q m) := by
  intro e he
  cases e with
  | gotAck p src k hit =>
      cases hit with
      | none => cases he
      | some j => exact (of_decide_eq_true he).1
  | _ => cases he

theorem localTo_isMarkedAt : LocalTo q (Event.isMarkedAt q m) := by
  intro e he
  cases e with
  | marked p k head c => exact (of_decide_eq_true he).1
  | _ => cases he

theorem localTo_isWroteAt : LocalTo q (Event.isWroteAt q m) := by
  intro e he
  cases e with
  | wrote p k buffer => exact (of_decide_eq_true he).1
  | _ => cases he

theorem localTo_isRemoved : LocalTo q (Event.isRemoved q m) := by
  intro e he
  cases e with
  | gotReady p k hit head bare =>
      cases hit with
      | none => cases he
      | some j => exact (of_decide_eq_true he).1
  | _ => cases he

end kinds

/-- The messages in the shared file, in order. -/
def writes (t : List (Event n)) : List Nat :=
  t.filterMap fun
    | .wrote _ m _ => some m
    | _ => none

theorem count_writes (m : Nat) (t : List (Event n)) :
    (writes t).count m = t.countP (Event.isWrote m) := by
  induction t with
  | nil => rfl
  | cons e rest ih =>
      rw [List.countP_cons, ← ih]
      cases e with
      | wrote q k buffer => simp [writes, List.count_cons]
      | _ => simp [writes]

theorem writes_append (t t' : List (Event n)) : writes (t ++ t') = writes t ++ writes t' :=
  List.filterMap_append

theorem mem_writes_iff {m : Nat} {t : List (Event n)} :
    m ∈ writes t ↔ ∃ p, 0 < t.countP (Event.isWroteAt p m) := by
  rw [← List.count_pos_iff, count_writes]
  constructor
  · exact exists_countP_own (Event.isWrote_iff m)
  · intro ⟨p, hpos⟩
    exact hpos.trans_le (countP_own_le (Event.isWrote_iff m) p)

end DistKv.Tob
