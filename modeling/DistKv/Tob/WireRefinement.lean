import DistKv.Tob.Delivery
import DistKv.Tob.WireMatches

/-!
# The bytes refine the messages

What the processes of `OnWire` do with bytes, those of `Middleware` do with messages:
along every run whose calls of `recv` are intact, clocks, queues, files and histories
are the same, and every connection carries the encoding of the message that is there
(`wire_refines`). A call that fails makes the handler return early, and a header that is
not read loses the message; both are steps of `Middleware`.

What holds of every run of `Middleware` therefore holds on the wire, down to the bytes
that are written (`wire_delivers_once`).
-/

namespace DistKv.Tob.OnWire

open CText History Transition Wire
open DistKv.Memcache (Incoming)

variable {n : Nat}

/-! ## Steps and runs -/

/-- `accept` has intact calls. -/
def IntactCalls (w : State n) (a : Act n) (_ : State n) : Prop :=
  match a with
  | .accept _ k _ recvs => ∀ c ∈ w.net[k]?, Intact ⟨c.bytes, recvs⟩
  | _ => True

instance (w : State n) (a : Act n) (w' : State n) : Decidable (IntactCalls w a w') :=
  match a with
  | .accept _ k _ recvs => inferInstanceAs (Decidable (∀ c ∈ w.net[k]?, Intact ⟨c.bytes, recvs⟩))
  | .client _ _ | .perform _ | .drop _ => inferInstanceAs (Decidable True)

theorem forall₂_eraseIdx {α β : Type} {R : α → β → Prop} {l : List α} {l' : List β}
    (h : List.Forall₂ R l l') (k : Nat) : List.Forall₂ R (l.eraseIdx k) (l'.eraseIdx k) := by
  rw [List.eraseIdx_eq_take_drop_succ, List.eraseIdx_eq_take_drop_succ]
  exact List.rel_append (List.forall₂_take k h) (List.forall₂_drop (k + 1) h)

theorem forall₂_getElem? {α β : Type} {R : α → β → Prop} {l : List α} {l' : List β}
    (h : List.Forall₂ R l l') {k : Nat} {a : α} (ha : l[k]? = some a) :
    ∃ b, l'[k]? = some b ∧ R a b := by
  induction h generalizing k with
  | nil => cases ha
  | cons hab _ ih =>
      cases k with
      | zero =>
          obtain rfl := Option.some.inj ha
          exact ⟨_, rfl, hab⟩
      | succ k => exact ih ha

theorem State.offered_eq_some {w : State n} {p : Fin n} {k : Nat} {c : Stream n} :
    w.offered p k = some c ↔ (w.procs p).pending = [] ∧ w.net[k]? = some c ∧ c.dst = port p := by
  unfold State.offered
  cases (w.procs p).pending with
  | cons task rest => simp
  | nil =>
      cases w.net[k]? with
      | none => simp
      | some c' =>
          dsimp only
          constructor
          · intro h
            obtain ⟨hdst, rfl⟩ := Option.ite_none_right_eq_some.mp h |>.imp_right Option.some.inj
            exact ⟨rfl, rfl, hdst⟩
          · intro h
            obtain rfl := Option.some.inj h.2.1
            exact if_pos h.2.2

section matching

variable {w : State n} {s : Tob.State n}

/-- An idle process is offered the message of its connection. -/
theorem State.Matches.offered (h : w.Matches s) {p : Fin n} {k : Nat} {c : Stream n}
    (hc : w.offered p k = some c) : ∃ pk, s.offered p k = some pk ∧ c.Carries pk := by
  obtain ⟨hidle, hk, hdst⟩ := State.offered_eq_some.mp hc
  obtain ⟨pk, hpk, hcarries⟩ := forall₂_getElem? h.net hk
  have hpending := (h.procs p).pending
  rw [hidle] at hpending
  refine ⟨pk, Tob.State.offered_eq_some.mpr ⟨?_, hpk, hcarries.dst.symm.trans hdst⟩, hcarries⟩
  exact List.forall₂_nil_left_iff.mp hpending

theorem State.Matches.update (h : w.Matches s) (p : Fin n) {x : Proc n} {y : Tob.Proc n}
    (hxy : x.Matches y) :
    ∀ q, (Function.update w.procs p x q).Matches (Function.update s.procs p y q) := by
  intro q
  by_cases hq : q = p
  · subst hq
    rw [Function.update_self, Function.update_self]
    exact hxy
  · rw [Function.update_of_ne hq, Function.update_of_ne hq]
    exact h.procs q

theorem State.Matches.handled (h : w.Matches s) (p : Fin n) (k : Nat) {o : Outcome n}
    {o' : Tob.Outcome n} (ho : o.Matches o') : (w.handled p k o).Matches (s.handled p k o') where
  procs := h.update p ho.proc
  net := forall₂_eraseIdx h.net k
  issued := by
    show w.issued ++ _ = s.issued ++ _
    rw [h.issued, ho.issued]
  trace := by
    show w.trace ++ _ = (s.trace ++ _).filter kept
    rw [h.trace, ho.events, List.filter_append]

/-- A connection that failed is in the one history only. -/
theorem State.Matches.dropped (h : w.Matches s) (k : Nat) (pk : Packet n) :
    State.Matches { w with net := w.net.eraseIdx k }
      { s with net := s.net.eraseIdx k, trace := s.trace ++ [.lost pk] } where
  procs := h.procs
  net := forall₂_eraseIdx h.net k
  issued := h.issued
  trace := by
    show w.trace = (s.trace ++ [Event.lost pk]).filter kept
    rw [List.filter_append, ← h.trace]
    exact (List.append_nil _).symm

theorem step_drop {cfg : Cfg n} {k : Nat} {pk : Packet n} (hk : s.net[k]? = some pk) :
    Tob.step cfg s (.drop k) =
      some { s with net := s.net.eraseIdx k, trace := s.trace ++ [.lost pk] } := by
  simp only [Tob.step, hk]

theorem handled_lost (w : State n) (p : Fin n) (k : Nat) :
    w.handled p k { proc := w.procs p } = { w with net := w.net.eraseIdx k } := by
  unfold State.handled
  rw [Function.update_eq_self]
  simp

/-- The message is an ACK. -/
def isAckMsg : Msg → Bool
  | .ack .. => true
  | _ => false

theorem isAck_of_encodes {msg : Msg} {bytes : Bytes} (h : Encodes msg bytes) :
    isAck bytes = isAckMsg msg := by
  cases h with
  | issue hencoded =>
      rw [(encoded_eq hencoded).2, sentIssue_eq]
      rfl
  | @broad node lc hbuf =>
      rw [offered_header]
      rfl
  | @ack stack pid uid text hpid htext =>
      rw [sendP2pAck_bytes (by omega) (by omega) htext]
      rfl
  | ready htext =>
      rw [readyMessage_text htext]
      rfl

/-- The first pending action of a process. -/
theorem State.Matches.performed (h : w.Matches s) {p : Fin n} {task : Task n}
    {rest : List (Task n)} (hp : (w.procs p).pending = task :: rest) {w' : State n}
    (hw' : w.performed p task rest = some w') :
    ∃ out rest' s', (s.procs p).pending = out :: rest' ∧
      s.performed p out rest' = some s' ∧ w'.Matches s' := by
  obtain ⟨hlc, hqueue, hpending⟩ := h.procs p
  rw [hp] at hpending
  obtain ⟨out, rest', htask, hrest, hs⟩ := List.forall₂_cons_left_iff.mp hpending
  have hprocs := h.update p
    (show Proc.Matches { w.procs p with pending := rest } { s.procs p with pending := rest' } from
      ⟨hlc, hqueue, hrest⟩)
  refine ⟨out, rest', ?_⟩
  cases htask with
  | @send c pk hc =>
      -- only the header tells an ACK here, and only an ACK is in the history
      obtain rfl := Option.some.inj hw'
      refine ⟨_, hs, rfl, hprocs, List.rel_append h.net (.cons hc .nil), h.issued, ?_⟩
      show w.trace ++ _ = (s.trace ++ _).filter kept
      rw [h.trace, List.filter_append, isAck_of_encodes hc.msg, hc.mid, hqueue]
      cases pk.msg <;> rfl
  | write mid buffer =>
      obtain rfl := Option.some.inj hw'
      refine ⟨_, hs, rfl, hprocs, h.net, h.issued, ?_⟩
      show w.trace ++ _ = (s.trace ++ _).filter kept
      rw [h.trace, List.filter_append]
      rfl
  | hang mid | overrun mid => cases hw'

end matching

/-- The pid of an ACK is that of a process. -/
theorem handles_pidFits {cfg : Cfg n} {p : Fin n} {issuedOld : List (Issued n)}
    {x x' : ViewProc n} {pk : Packet n} {events : List (Event n)} {issued : Option (Issued n)}
    (h : Handles cfg p issuedOld.length x pk x' events issued)
    (hpk : pk.Tagged cfg issuedOld) (hidle : x.pending = [])
    (hq : ∀ y ∈ x.queue, y.Tagged cfg issuedOld) : ∀ out ∈ x'.pending, PidFits out := by
  have hqueue := (h.tagged hpk hidle hq).2.1
  intro out hout
  have hall : ∀ {node : Node} {msg : Msg}, isAckMsg msg = false →
      out ∈ Tob.sendAll p node msg → PidFits out := by
    intro node msg hmsg hmem
    obtain ⟨dst, rfl⟩ := mem_sendAll hmem
    cases msg with
    | ack pid uid => cases hmsg
    | _ => trivial
  cases h with
  | issue message hmsg =>
      rcases mem_totalBroadcast hout with ⟨-, rfl⟩ | hout
      · trivial
      · exact hall rfl hout
  | hang uid pid port stamp len hmsg =>
      obtain rfl := List.mem_singleton.mp hout
      trivial
  | lose uid pid port stamp len body hmsg hw => cases hout
  | enqueueAck uid pid port stamp len body buffer head rest hmsg hw hins hf =>
      -- the pid is that of the node at the head, which some process issued
      obtain rfl := List.mem_singleton.mp hout
      obtain ⟨r, -, -, -, hpid, -⟩ := hqueue _ List.mem_cons_self
      have hhead : head.pid = cfg.pid r.owner := hpid
      have hlt := cfg.pid_lt r.owner
      show head.pid < 2 ^ 31
      omega
  | enqueueQuiet uid pid port stamp len body buffer head rest hmsg hw hins hf => cases hout
  | ackMiss pid uid hmsg hnone => exact absurd (hidle ▸ hout) List.not_mem_nil
  | ackCount pid uid y hmsg hsome hcount => exact absurd (hidle ▸ hout) List.not_mem_nil
  | ackReady pid uid y hmsg hsome hcount =>
      rcases List.mem_append.mp hout with hout | hout
      · exact hall rfl hout
      · obtain rfl := List.mem_singleton.mp hout
        trivial
  | ready uid hmsg => exact absurd (hidle ▸ hout) List.not_mem_nil

theorem handled_pidFits {cfg : Cfg n} {s : Tob.State n} (hs : (Tob.system cfg).Reachable s)
    {p : Fin n} {k : Nat} {pk : Packet n} (hpk : s.offered p k = some pk) {got : Nat}
    {stack : Bytes} {o : Tob.Outcome n}
    (ho : Tob.handleClient cfg p s.issued.length (s.procs p) pk got stack = some o) :
    ∀ out ∈ o.proc.pending, PidFits out := by
  obtain ⟨hsound, hled⟩ := reachable_ledgers hs
  obtain ⟨hidle, hk, -⟩ := Tob.State.offered_eq_some.mp hpk
  have hhandles : Handles cfg p s.view.issued.length _ _ _ _ _ :=
    (handleClient_spec (hsound p) ho).1
  exact handles_pidFits hhandles (hled.tagged.net pk (List.mem_of_getElem? hk)) hidle
    (hled.tagged.queue p)

/-- **A step with bytes is a step with messages.** -/
theorem step_matches {cfg : Cfg n} {w w' : State n} {s : Tob.State n} {a : Act n}
    (hs : (Tob.system cfg).Reachable s) (h : w.Matches s) (hstep : step cfg w a = some w')
    (hintact : IntactCalls w a w') :
    ∃ b s', Tob.step cfg s b = some s' ∧ w'.Matches s' := by
  cases a with
  | client p message =>
      obtain ⟨bytes, hbytes, rfl⟩ := Option.map_eq_some_iff.mp hstep
      refine ⟨.client p message.bytes, _, rfl, h.procs, ?_, h.issued, h.trace⟩
      exact List.rel_append h.net (.cons ⟨rfl, rfl, rfl, .issue hbytes⟩ .nil)
  | accept p k m recvs =>
      obtain ⟨c, hc, hrun⟩ := Option.bind_eq_some_iff.mp hstep
      obtain ⟨o, ho, rfl⟩ := Option.map_eq_some_iff.mp hrun
      obtain ⟨pk, hpk, hcarries⟩ := h.offered hc
      obtain ⟨-, hk, -⟩ := Tob.State.offered_eq_some.mp hpk
      obtain ⟨-, hwk, -⟩ := State.offered_eq_some.mp hc
      rw [h.issued] at ho
      cases handleClient_follows (h.procs p) hcarries (hintact c hwk)
        (fun got stack o' ho' => handled_pidFits hs hpk ho') ho with
      | lost =>
          -- a header that is not read is a connection that failed
          refine ⟨.drop k, _, step_drop hk, ?_⟩
          rw [handled_lost]
          exact h.dropped k pk
      | aborted =>
          -- queue and pending actions stay, the clock may have counted the event
          obtain ⟨hlc, hqueue, hpending⟩ := h.procs p
          refine ⟨.abort p k, _, by rw [Tob.step, hpk, Option.map_some], h.handled p k
            ⟨⟨?_, hqueue, hpending⟩, rfl, rfl⟩⟩
          show abortedClock (w.procs p).lc pk.msg = abortedClock (s.procs p).lc pk.msg
          rw [hlc]
      | matched hhandled hmatches =>
          obtain ⟨got, stack, ho'⟩ := hhandled
          refine ⟨.accept p k got stack, _, ?_, h.handled p k hmatches⟩
          rw [Tob.step, hpk, Option.bind_some, ho', Option.map_some]
  | perform p =>
      simp only [step] at hstep
      cases hp : (w.procs p).pending with
      | nil =>
          rw [hp] at hstep
          cases hstep
      | cons task rest =>
          rw [hp] at hstep
          obtain ⟨out, rest', s', hs', hperformed, hmatches⟩ := h.performed hp hstep
          exact ⟨.perform p, s', by simp only [Tob.step, hs', hperformed], hmatches⟩
  | drop k =>
      simp only [step] at hstep
      cases hk : w.net[k]? with
      | none =>
          rw [hk] at hstep
          cases hstep
      | some c =>
          rw [hk] at hstep
          obtain rfl := Option.some.inj hstep
          obtain ⟨pk, hpk, -⟩ := forall₂_getElem? h.net hk
          exact ⟨.drop k, _, step_drop hpk, h.dropped k pk⟩

theorem reachable_matches {cfg : Cfg n} {w : State n}
    (hw : (system cfg).ReachableVia IntactCalls w) :
    ∃ s, (Tob.system cfg).Reachable s ∧ w.Matches s := by
  refine System.ReachableVia.simulated init_matches ?_ w hw
  intro w a w' s _ hs hmatches hstep hintact
  obtain ⟨b, s', hstep', hmatches'⟩ := step_matches hs hmatches hstep hintact
  exact ⟨b, s', hstep', trivial, hmatches'⟩

/-- **The bytes refine the messages.** Every run of the processes on bytes, with intact
calls of `recv`, is a run of the middleware with the same clocks, queues and history, and
on every connection are the bytes that the source makes of the message there. -/
theorem wire_refines (cfg : Cfg n) {w : State n} (hw : (system cfg).ReachableVia IntactCalls w) :
    ∃ s, (Tob.system cfg).Reachable s ∧
      (∀ p, (w.procs p).lc = (s.procs p).lc ∧ (w.procs p).queue = (s.procs p).queue ∧
        List.Forall₂ Task.Performs (w.procs p).pending (s.procs p).pending) ∧
      List.Forall₂ Stream.Carries w.net s.net ∧ w.issued = s.issued ∧
      w.trace = s.trace.filter kept := by
  obtain ⟨s, hs, hprocs, hnet, hissued, htrace⟩ := reachable_matches hw
  exact ⟨s, hs, fun p => ⟨(hprocs p).lc, (hprocs p).queue, (hprocs p).pending⟩, hnet, hissued,
    htrace⟩

/-- "hello1" -/
def hello1 : Str := ⟨[104, 101, 108, 108, 111, 49], by decide⟩

def someStack : Memory := ⟨true, [], [88, 88, 88, 88, 88, 88, 88, 88]⟩

/-- Process 0 issues "hello1", which arrives in two pieces; the first recipient gets its
metadata in two pieces and one byte of the body. -/
def piecesRun : List (Act 2) :=
  [.client 0 hello1, .accept 0 0 someStack [some 6, some 6, some 3], .perform 0, .perform 0,
    .accept 0 0 someStack [some 6, some 9, some 27, some 0], .perform 0,
    .accept 1 0 someStack [], .perform 1, .accept 0 0 someStack [], .accept 0 0 someStack [],
    .perform 0, .perform 0, .perform 0, .accept 1 1 someStack [some 6, none]]

def piecesEnd : State 2 := (system twoProcs).endOf piecesRun

/-- The message is written, and process 1 misses its READY on a failing call. -/
theorem pieces_refines :
    (∃ s, (Tob.system twoProcs).Reachable s ∧ List.Forall₂ Stream.Carries piecesEnd.net s.net ∧
      piecesEnd.trace = s.trace.filter kept) ∧
    piecesEnd.trace.getLast? = some (.wrote 0 0 [104, 88, 88, 88, 88, 88, 88]) ∧
    (piecesEnd.procs 1).queue.nodes.map Node.buffer = [[104, 101, 88, 88, 88, 88, 88]] := by
  have hrun : (system twoProcs).ReachableVia IntactCalls piecesEnd :=
    System.endOf_reachableVia (by decide +kernel)
  obtain ⟨s, hs, -, hnet, -, htrace⟩ := wire_refines twoProcs hrun
  exact ⟨⟨s, hs, hnet, htrace⟩, by decide +kernel, by decide +kernel⟩

/-! ## What follows on the wire -/

theorem unanimous_kept (before : List (Event n)) (e : Event n) (h : Unanimous before e) :
    Unanimous (before.filter kept) e := by
  intro m hm q
  -- no ACK is left out
  have hacked : ∀ d : Event n, Event.isAcked q m d = true → kept d = true := by
    intro d hd
    cases d with
    | acked => rfl
    | _ => cases hd
  rw [List.filter_filter, ← h m hm q]
  apply List.filter_congr
  intro d _
  cases hd : Event.isAcked q m d with
  | false => rfl
  | true => rw [hacked d hd]; rfl

/-- **On the wire, too, messages are delivered once and unanimously**: in every run with
intact calls and distinct uids, whatever fails, a message is marked and written at most
once, and only after every process has sent exactly one ACK for it, from its head. -/
theorem wire_delivers_once (cfg : Cfg n) {w : State n}
    (hw : (system cfg).ReachableVia IntactCalls w) (hu : UidsDistinct w.issued) :
    (∀ m, w.trace.countP (Event.isMarked m) ≤ 1 ∧ w.trace.countP (Event.isWrote m) ≤ 1) ∧
      AtEvents Unanimous w.trace := by
  obtain ⟨s, hs, hmatches⟩ := reachable_matches hw
  rw [hmatches.issued] at hu
  obtain ⟨-, hled⟩ := reachable_ledgers hs
  -- the history of the bytes is part of the other, so nothing is in it more often
  have hsub : w.trace.Sublist s.trace := by
    rw [hmatches.trace]
    exact List.filter_sublist
  constructor
  · intro m
    exact ⟨hsub.countP_le.trans (hled.marked_le_one hu m),
      hsub.countP_le.trans (hled.wrote_le_one hu m)⟩
  · rw [hmatches.trace]
    exact (reachable_unanimous hs hu).filter unanimous_kept

/-- The message of `piecesRun` is written once. -/
theorem pieces_delivers_once :
    writes piecesEnd.trace = [0] ∧ AtEvents Unanimous piecesEnd.trace := by
  have hrun : (system twoProcs).ReachableVia IntactCalls piecesEnd :=
    System.endOf_reachableVia (by decide +kernel)
  exact ⟨by decide +kernel, (wire_delivers_once twoProcs hrun (by decide +kernel)).2⟩

end DistKv.Tob.OnWire
