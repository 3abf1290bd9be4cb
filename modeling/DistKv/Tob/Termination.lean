import DistKv.Lib.Ranking
import DistKv.Tob.Delivery

/-!
# Every request costs a bounded number of steps

A message takes one connection of its client, one ISSUE, and for each process
one BROAD, one ACK and one READY, each of them opened once and handled once,
and one write to the shared file: `6 n + 3` steps. The rank of a state is what
is still to be done, counted in `n`ths of a step so that each of the `n` ACKs
of a message can pay its share of the READYs and of the write that the last
of them sets off. A queued node holds what the ACKs it counted have paid.
-/

namespace DistKv.Tob

open FirstMatch History StableInsert

variable {n : Nat}

/-- What handling a connection may still cost, in `n`ths of a step. -/
def Msg.toll (n : Nat) : Msg → Nat
  | .issue _ => n * (6 * n + 2)
  | .broad .. => 5 * n + 1
  | .ack .. => 3 * n + 1
  | .ready _ => n

def Out.toll : Out n → Nat
  | .send pk => n + pk.msg.toll n
  | .write _ _ => n
  | .hang _ | .overrun _ => 0

/-- What the ACKs counted on a node have paid, until the last one spends it. -/
def Node.credit (n : Nat) (x : Node) : Nat :=
  if x.ackCount < n then (2 * n + 1) * x.ackCount else 0

def credits (n : Nat) (l : List Node) : Nat := (l.map (Node.credit n)).sum

def ViewProc.rank (x : ViewProc n) : Nat :=
  (x.pending.map Out.toll).sum + credits n x.queue

def tolls (net : List (Packet n)) : Nat := (net.map fun pk => pk.msg.toll n).sum

/-- What is still to be done, in `n`ths of a step. -/
def View.rank (v : View n) : Nat := tolls v.net + ∑ p, (v.procs p).rank

theorem sum_toll_sendAll (p : Fin n) (node : Node) (msg : Msg) :
    ((sendAll p node msg).map Out.toll).sum = node.nprocs * (n + msg.toll n) := by
  unfold sendAll
  rw [List.map_map]
  show ((List.range node.nprocs).map fun _ => n + msg.toll n).sum = _
  rw [List.map_const', List.sum_replicate, List.length_range, smul_eq_mul]

theorem sum_toll_totalBroadcast (cfg : Cfg n) (p : Fin n) (node : Node) (lc : UInt32) :
    (((totalBroadcast cfg p node lc).2).map Out.toll).sum = node.nprocs * (n + (5 * n + 1)) := by
  have hover : ((overruns cfg node).map Out.toll).sum = 0 := by
    unfold overruns
    split <;> rfl
  show ((overruns cfg node ++ _).map Out.toll).sum = _
  rw [List.map_append, List.sum_append, hover, sum_toll_sendAll, Nat.zero_add]
  rfl

theorem sum_eraseP_le {α : Type} (p : α → Bool) (c : α → Nat) (l : List α) :
    ((l.eraseP p).map c).sum ≤ (l.map c).sum := by
  induction l with
  | nil => exact Nat.le_refl _
  | cons x rest ih =>
      by_cases hx : p x = true
      · rw [List.eraseP_cons_of_pos hx, List.map_cons, List.sum_cons]
        omega
      · rw [List.eraseP_cons_of_neg hx, List.map_cons, List.map_cons, List.sum_cons,
          List.sum_cons]
        omega

/-- The first match is the only entry that changes. -/
theorem sum_updateFirst {α : Type} {p : α → Bool} {f : α → α} (c : α → Nat) {l : List α} {y : α}
    (h : l.find? p = some y) :
    ((updateFirst p f l).map c).sum + c y = (l.map c).sum + c (f y) := by
  induction l with
  | nil => cases h
  | cons x rest ih =>
      unfold updateFirst
      by_cases hx : p x = true
      · rw [List.find?_cons_of_pos hx] at h
        obtain rfl := Option.some.inj h
        rw [if_pos hx, List.map_cons, List.map_cons, List.sum_cons, List.sum_cons]
        omega
      · rw [List.find?_cons_of_neg hx] at h
        have hrest := ih h
        rw [if_neg hx, List.map_cons, List.map_cons, List.sum_cons, List.sum_cons]
        omega

theorem credits_updateFirst {uid : UInt32} {l : List Node} {y : Node}
    (h : l.find? (fun y => y.uid = uid) = some y) :
    credits n (updateFirst (fun y => y.uid = uid)
        (fun y => { y with ackCount := y.ackCount + 1 }) l) + y.credit n =
      credits n l + Node.credit n { y with ackCount := y.ackCount + 1 } :=
  sum_updateFirst (Node.credit n) h

/-- A new node has counted no ACK, so it holds nothing. -/
theorem credits_insertBehind {pid port len : Nat} {buffer : Bytes} {stamp uid : UInt32}
    {mid : Nat} {l : List Node} {head : Node} {rest : List Node}
    (h : insertBehind Node.staysBefore (createNode pid port false 0 buffer len stamp uid n mid) l =
      head :: rest) :
    credits n (head :: rest) = credits n l := by
  have hperm := perm_insertBehind Node.staysBefore
    (createNode pid port false 0 buffer len stamp uid n mid) l
  rw [h] at hperm
  unfold credits
  rw [(hperm.map (Node.credit n)).sum_eq, List.map_cons, List.sum_cons]
  simp [Node.credit, createNode]

/-- **One connection.** The toll of a connection covers the step that handles
it and everything the handler leaves to do. -/
theorem Handles.rank {cfg : Cfg n} {p : Fin n} {fresh : Nat} {x x' : ViewProc n}
    {pk : Packet n} {events : List (Event n)} {issued : Option (Issued n)}
    (h : Handles cfg p fresh x pk x' events issued) (hidle : x.pending = [])
    (hn : ∀ y ∈ x.queue, y.nprocs = n) : x'.rank + n ≤ x.rank + pk.msg.toll n := by
  have hpos : 0 < n := p.pos
  have hold : x.rank = credits n x.queue := by simp [ViewProc.rank, hidle]
  rw [hold]
  unfold ViewProc.rank
  cases h with
  | issue message hmsg =>
      rw [sum_toll_totalBroadcast, hmsg]
      show n * (n + (5 * n + 1)) + credits n x.queue + n ≤ credits n x.queue + n * (6 * n + 2)
      have : n * (n + (5 * n + 1)) + n = n * (6 * n + 2) := by ring
      omega
  | hang uid pid port stamp len hmsg =>
      rw [hmsg]
      show 0 + credits n x.queue + n ≤ credits n x.queue + (5 * n + 1)
      omega
  | lose uid pid port stamp len body hmsg hw =>
      rw [hmsg]
      show 0 + credits n x.queue + n ≤ credits n x.queue + (5 * n + 1)
      omega
  | enqueueAck uid pid port stamp len body buffer head rest hmsg hw hins hf =>
      rw [hmsg, ← credits_insertBehind (n := n) hins]
      show n + (3 * n + 1) + 0 + credits n (head :: rest) + n ≤
        credits n (head :: rest) + (5 * n + 1)
      omega
  | enqueueQuiet uid pid port stamp len body buffer head rest hmsg hw hins hf =>
      rw [hmsg, ← credits_insertBehind (n := n) hins]
      show 0 + credits n (head :: rest) + n ≤ credits n (head :: rest) + (5 * n + 1)
      omega
  | ackMiss pid uid hmsg hnone =>
      rw [hmsg, hidle]
      show 0 + credits n x.queue + n ≤ credits n x.queue + (3 * n + 1)
      omega
  | ackCount pid uid y hmsg hsome hcount =>
      have hsum := credits_updateFirst (n := n) hsome
      rw [hn y (List.mem_of_find?_eq_some hsome)] at hcount
      have hnode : Node.credit n { y with ackCount := y.ackCount + 1 } ≤
          y.credit n + (2 * n + 1) := by
        unfold Node.credit
        by_cases hlt : y.ackCount + 1 < n
        · rw [if_pos hlt, if_pos (Nat.lt_of_succ_lt hlt), Nat.mul_add, Nat.mul_one]
        · rw [if_neg hlt]
          omega
      rw [hmsg, hidle]
      dsimp only
      show 0 + credits n _ + n ≤ credits n x.queue + (3 * n + 1)
      omega
  | ackReady pid uid y hmsg hsome hcount =>
      have hsum := credits_updateFirst (n := n) hsome
      have hnprocs := hn y (List.mem_of_find?_eq_some hsome)
      rw [hnprocs] at hcount
      -- the last ACK spends what the others paid
      have hspent : Node.credit n { y with ackCount := y.ackCount + 1 } = 0 :=
        if_neg (Nat.not_lt.mpr hcount.ge)
      have hsaved : y.credit n + (2 * n + 1) = n * (2 * n + 1) := by
        unfold Node.credit
        rw [if_pos (by omega), ← hcount]
        ring
      have htotal : n * (n + n) + n = n * (2 * n + 1) := by ring
      rw [List.map_append, List.sum_append, sum_toll_sendAll, hnprocs, hmsg]
      dsimp only
      show n * (n + n) + (n + 0) + credits n _ + n ≤ credits n x.queue + (3 * n + 1)
      omega
  | ready uid hmsg =>
      have hle : credits n (x.queue.eraseP fun y => y.uid = uid) ≤ credits n x.queue :=
        sum_eraseP_le _ _ _
      rw [hmsg, hidle]
      dsimp only
      show 0 + credits n _ + n ≤ credits n x.queue + n
      omega

theorem tolls_append (net : List (Packet n)) (pk : Packet n) :
    tolls (net ++ [pk]) = tolls net + pk.msg.toll n := by
  simp [tolls]

theorem tolls_eraseIdx {net : List (Packet n)} {k : Nat} {pk : Packet n} (h : net[k]? = some pk) :
    tolls (net.eraseIdx k) + pk.msg.toll n = tolls net := by
  obtain ⟨hk, rfl⟩ := List.getElem?_eq_some_iff.mp h
  have hperm := (List.getElem_cons_eraseIdx_perm hk).map fun pk : Packet n => pk.msg.toll n
  have hsum := hperm.sum_eq
  rw [List.map_cons, List.sum_cons] at hsum
  unfold tolls
  omega

/-- A step at one process. -/
theorem sum_rank_update (v : View n) (p : Fin n) (x : ViewProc n) :
    ∑ q, (Function.update v.procs p x q).rank + (v.procs p).rank =
      ∑ q, (v.procs q).rank + x.rank :=
  sum_update v.procs ViewProc.rank p x

/-- Performing an action spends its toll. -/
theorem sum_rank_performed {v : View n} {p : Fin n} {out : Out n} {rest : List (Out n)}
    (h : (v.procs p).pending = out :: rest) :
    ∑ q, (Function.update v.procs p { v.procs p with pending := rest } q).rank + out.toll =
      ∑ q, (v.procs q).rank := by
  have hout : (v.procs p).rank = out.toll + { v.procs p with pending := rest }.rank := by
    unfold ViewProc.rank
    rw [h, List.map_cons, List.sum_cons, Nat.add_assoc]
  have hsum : _ = _ + { v.procs p with pending := rest }.rank := sum_rank_update v p _
  omega

/-- Opening a connection moves its toll. -/
theorem rank_send {v : View n} {p : Fin n} {pk : Packet n} {rest : List (Out n)}
    (h : (v.procs p).pending = .send pk :: rest) :
    tolls (v.net ++ [pk]) +
        ∑ q, (Function.update v.procs p { v.procs p with pending := rest } q).rank + n ≤
      tolls v.net + ∑ q, (v.procs q).rank := by
  have hsum := sum_rank_performed h
  change _ + (n + pk.msg.toll n) = _ at hsum
  rw [tolls_append]
  omega

/-- Handling any connection takes a step. -/
theorem Msg.toll_ge (msg : Msg) : n ≤ msg.toll n := by
  cases msg with
  | issue message => exact Nat.le_mul_of_pos_right n (Nat.succ_pos _)
  | broad uid pid port stamp len body =>
      show n ≤ 5 * n + 1
      omega
  | ack pid uid =>
      show n ≤ 3 * n + 1
      omega
  | ready uid => exact Nat.le_refl n

/-- What a client's connection brings in. -/
def Act.gain : Act n → Nat
  | .client _ _ => n * (6 * n + 3)
  | _ => 0

/-- **One step.** Every step costs `n`, and only a client pays in. -/
theorem ViewStep.rank {cfg : Cfg n} {v v' : View n} {a : Act n} (h : ViewStep cfg v a v')
    (ht : v.Tagged cfg) : v'.rank + n ≤ v.rank + a.gain := by
  cases h with
  | client p message =>
      have hnet := tolls_append v.net ⟨none, port p, .issue message, 0⟩
      have hgain : n * (6 * n + 2) + n = n * (6 * n + 3) := by ring
      show tolls _ + ∑ q, (v.procs q).rank + n ≤
        tolls v.net + ∑ q, (v.procs q).rank + n * (6 * n + 3)
      rw [hnet]
      show tolls v.net + n * (6 * n + 2) + _ + n ≤ _
      omega
  | accept p k got stack pk x events issued hidle hk hdst hx =>
      have hnode := hx.rank hidle fun y hy => by
        obtain ⟨r, -, -, -, -, -, hn⟩ := ht.queue p y hy
        exact hn
      have hnet := tolls_eraseIdx hk
      have hsum := sum_rank_update v p x
      show tolls (v.net.eraseIdx k) + ∑ q, (Function.update v.procs p x q).rank + n ≤
        tolls v.net + ∑ q, (v.procs q).rank + 0
      omega
  | sendAck p pk rest pid uid hp hmsg =>
      exact rank_send hp
  | send p pk rest hp hmsg =>
      exact rank_send hp
  | write p mid buffer rest hp =>
      have hsum := sum_rank_performed hp
      change _ + n = _ at hsum
      show tolls v.net + ∑ q, (Function.update v.procs p _ q).rank + n ≤
        tolls v.net + ∑ q, (v.procs q).rank + 0
      omega
  | abort p k pk hidle hk hdst =>
      have hnet := tolls_eraseIdx hk
      have htoll := pk.msg.toll_ge (n := n)
      have hsum := sum_rank_update v p { v.procs p with lc := abortedClock (v.procs p).lc pk.msg }
      have hsame : ViewProc.rank { v.procs p with lc := abortedClock (v.procs p).lc pk.msg } =
        (v.procs p).rank := rfl
      show tolls (v.net.eraseIdx k) + ∑ q, (Function.update v.procs p _ q).rank + n ≤
        tolls v.net + ∑ q, (v.procs q).rank + 0
      omega
  | drop k pk hk =>
      have hnet := tolls_eraseIdx hk
      have htoll := pk.msg.toll_ge (n := n)
      show tolls (v.net.eraseIdx k) + ∑ q, (v.procs q).rank + n ≤
        tolls v.net + ∑ q, (v.procs q).rank + 0
      omega

/-! ## Runs -/

/-- **The rank pays for every step of the middleware.** -/
theorem system_ranks (cfg : Cfg n) :
    (system cfg).Ranks (system cfg).Reachable n Act.gain (fun s => s.view.rank) where
  keeps _ _ _ hs hstep := .step hs hstep trivial
  pays s a s' hs hstep := by
    obtain ⟨hsound, hled⟩ := reachable_ledgers hs
    exact (step_view hsound hstep).1.rank hled.tagged

def Act.isClient : Act n → Bool
  | .client _ _ => true
  | _ => false

theorem sum_gain (as : List (Act n)) :
    (as.map Act.gain).sum = as.countP Act.isClient * (6 * n + 3) * n := by
  induction as with
  | nil => simp
  | cons a rest ih =>
      rw [List.map_cons, List.sum_cons, ih, List.countP_cons]
      cases a with
      | client p message =>
          show n * (6 * n + 3) + _ = (_ + 1) * (6 * n + 3) * n
          ring
      | accept p k got stack => exact Nat.zero_add _
      | perform p => exact Nat.zero_add _
      | abort p k => exact Nat.zero_add _
      | drop k => exact Nat.zero_add _

/-- Without a process there is nothing to do. -/
theorem exec_zero {cfg : Cfg 0} {as : List (Act 0)} {s : State 0}
    (hrun : (system cfg).exec (system cfg).init as = some s) : as = [] := by
  cases as with
  | nil => rfl
  | cons a rest =>
      obtain ⟨s', hstep, -⟩ := Transition.System.runVia_cons_eq_some.mp hrun
      cases a with
      | client p message => exact p.elim0
      | accept p k got stack => exact p.elim0
      | perform p => exact p.elim0
      | abort p k => exact p.elim0
      | drop k => cases hstep

/-- The rank of the first state is zero. -/
theorem rank_init : (init : State n).view.rank = 0 := by
  have hproc : ∀ p : Fin n, ((init : State n).view.procs p).rank = 0 := fun p => by
    simp [init, State.view, Proc.view, ViewProc.rank, credits, Queue.nodes_empty]
  unfold View.rank
  rw [Finset.sum_congr rfl fun p _ => hproc p, Finset.sum_const_zero]
  rfl

/-- A run takes at most `6 n + 3` steps for each request. -/
theorem length_le_of_exec {cfg : Cfg n} {as : List (Act n)} {s : State n}
    (hrun : (system cfg).exec (system cfg).init as = some s) :
    as.length ≤ as.countP Act.isClient * (6 * n + 3) := by
  rcases Nat.eq_zero_or_pos n with rfl | hpos
  · rw [exec_zero hrun]
    exact Nat.zero_le _
  · have hbound := (system_ranks cfg).length_le .init hrun
    rw [sum_gain] at hbound
    change _ ≤ (init : State n).view.rank + _ at hbound
    rw [rank_init] at hbound
    exact Nat.le_of_mul_le_mul_right (by omega) hpos

end DistKv.Tob
