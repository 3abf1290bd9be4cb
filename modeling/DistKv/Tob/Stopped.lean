import DistKv.Tob.Delivery

/-!
# Processes that stop

Two pending actions are never performed: the body that was not sent is waited for, and
a process that stored past the end of its buffer does nothing more. A process that has
come to one stays as it is (`ViewStep.frozen`).

So the issuer of a message whose BROAD does not fit its buffer has stopped at it, with
all of its BROADs unsent (`reachable_stopped`), and nobody ever receives it.
-/

namespace DistKv.Tob

open History

variable {n : Nat}

/-- An action that is never performed. -/
def Out.Blocks : Out n → Prop
  | .hang _ | .overrun _ => True
  | _ => False

def Out.isOverrun : Out n → Bool
  | .overrun _ => true
  | _ => false

/-- The process has stored past the end of its buffer. -/
def Proc.overran (x : Proc n) : Bool := x.pending.head?.any Out.isOverrun

theorem Proc.overran_iff {x : Proc n} :
    x.overran = true ↔ ∃ mid rest, x.pending = .overrun mid :: rest := by
  unfold Proc.overran
  cases x.pending with
  | nil => simp
  | cons out rest => cases out <;> simp [Out.isOverrun]

/-- A process that has stopped takes no part in a step. -/
theorem ViewStep.frozen {cfg : Cfg n} {v v' : View n} {a : Act n} (h : ViewStep cfg v a v')
    {p : Fin n} {out : Out n} {rest : List (Out n)} (hp : (v.procs p).pending = out :: rest)
    (hout : out.Blocks) :
    v'.procs p = v.procs p ∧
      ∃ events, v'.trace = v.trace ++ events ∧ ∀ e ∈ events, ¬ e.At p := by
  obtain ⟨events, htrace, ⟨hsame, hnot⟩ | hmove⟩ := h.local_cases p
  · exact ⟨hsame, events, htrace, hnot⟩
  · exfalso
    generalize v'.procs p = x at hmove
    cases hmove with
    | handles pk x events issued hidle hpk hdst hx => rw [hp] at hidle; cases hidle
    | acks pk rest pid uid hq hmsg =>
        obtain ⟨rfl, -⟩ := List.cons.inj (hp.symm.trans hq)
        exact hout
    | sends pk rest hq hmsg =>
        obtain ⟨rfl, -⟩ := List.cons.inj (hp.symm.trans hq)
        exact hout
    | writes mid buffer rest hq =>
        obtain ⟨rfl, -⟩ := List.cons.inj (hp.symm.trans hq)
        exact hout
    | aborts pk hidle hpk => rw [hp] at hidle; cases hidle

/-- `m` was not encoded, and none of its BROADs is sent. -/
def StoppedAt (pending : List (Out n)) (m : Nat) : Prop :=
  ∃ rest, pending = .overrun m :: rest ∧
    ∀ q, rest.countP (Out.opens (Packet.isBroad q m)) = 1

/-- A message that is issued and does not fit stops its issuer. -/
theorem Handles.stops {cfg : Cfg n} {p : Fin n} {fresh : Nat} {x x' : ViewProc n}
    {pk : Packet n} {events : List (Event n)} {r : Issued n}
    (h : Handles cfg p fresh x pk x' events (some r)) (hfits : ¬ cfg.Fits r.bufLen) :
    r.owner = p ∧ StoppedAt x'.pending fresh := by
  cases h with
  | issue message hmsg =>
      refine ⟨rfl, sendAll p (issueNode cfg p fresh x.lc message)
        (encodeBroadcastBuffer (issueNode cfg p fresh x.lc message) (x.lc + 1 + 1)),
        ?_, fun q => ?_⟩
      · have hover : ¬ cfg.Fits (issueNode cfg p fresh x.lc message).bufLen := hfits
        show overruns cfg (issueNode cfg p fresh x.lc message) ++ _ = _
        rw [overruns, if_neg hover]
        rfl
      · have hopen : (sendAll p (issueNode cfg p fresh x.lc message)
            (encodeBroadcastBuffer (issueNode cfg p fresh x.lc message) (x.lc + 1 + 1))).countP
              (Out.opens (Packet.isBroad q fresh)) = if fresh = fresh then 1 else 0 :=
          countP_sendAll rfl fun i => rfl
        exact hopen.trans (if_pos rfl)

/-- **Whoever issues a message that does not fit has stopped.** -/
theorem reachable_stopped {cfg : Cfg n} {s : State n} (hs : (system cfg).Reachable s) {m : Nat}
    {r : Issued n} (hr : s.issued[m]? = some r) (hfits : ¬ cfg.Fits r.bufLen) :
    StoppedAt (s.procs r.owner).pending m := by
  refine Transition.System.ReachableVia.invariant (P := fun s => ∀ m r, s.issued[m]? = some r →
    ¬ cfg.Fits r.bufLen → StoppedAt (s.procs r.owner).pending m) ?_ ?_ s hs m r hr hfits
  · exact fun m r hr => absurd hr nofun
  · intro s a s' hs hold hstep _ m r hr hfits
    obtain ⟨hview, -⟩ := step_view (reachable_ledgers hs).1 hstep
    change s'.view.issued[m]? = some r at hr
    show StoppedAt (s'.view.procs r.owner).pending m
    -- where it has stopped before, it has not moved
    have hstays : s.view.issued[m]? = some r →
        StoppedAt (s'.view.procs r.owner).pending m := by
      intro hr
      have hstopped : StoppedAt (s.view.procs r.owner).pending m := hold m r hr hfits
      obtain ⟨rest, hp, -⟩ := id hstopped
      rw [(hview.frozen hp trivial).1]
      exact hstopped
    rcases hview.accept_or_quiet with
      ⟨p, k, got, stack, pk, x, events, issued, -, -, -, -, hx, hv'⟩ | ⟨hsame, -⟩
    · cases issued with
      | none =>
          rw [hv'] at hr
          simp only [Option.toList_none, List.append_nil] at hr
          exact hstays hr
      | some r' =>
          have hissued : s'.view.issued = s.view.issued ++ [r'] := by
            rw [hv']
            rfl
          rw [hissued] at hr
          rcases getElem?_append_singleton_cases hr with hr | ⟨rfl, rfl⟩
          · exact hstays hr
          · obtain ⟨rfl, hstopped⟩ := hx.stops hfits
            rw [hv']
            simpa using hstopped
    · exact hstays (hsame ▸ hr)

/-- Nobody receives a message that does not fit. -/
theorem unreceived_of_unfit {cfg : Cfg n} {s : State n} (hs : (system cfg).Reachable s) {m : Nat}
    {r : Issued n} (hr : s.issued[m]? = some r) (hfits : ¬ cfg.Fits r.bufLen) (q : Fin n) :
    s.trace.countP (Event.isReceived q m) = 0 := by
  obtain ⟨rest, hp, hbroads⟩ := reachable_stopped hs hr hfits
  have hbroad := (reachable_ledgers hs).2.broad q m
  have hm := (List.getElem?_eq_some_iff.mp hr).1
  rw [if_pos (show m < s.view.issued.length from hm)] at hbroad
  -- the BROAD that is due is still with the issuer
  have hpending : 1 ≤ s.view.travelling (Packet.isBroad q m) := by
    have hle := Finset.single_le_sum
      (f := fun p => (s.view.procs p).pending.countP (Out.opens (Packet.isBroad q m)))
      (fun _ _ => Nat.zero_le _) (Finset.mem_univ r.owner)
    have hone : (s.view.procs r.owner).pending.countP (Out.opens (Packet.isBroad q m)) = 1 := by
      show (s.procs r.owner).pending.countP _ = 1
      rw [hp, List.countP_cons_of_neg (by simp [Out.opens])]
      exact hbroads q
    unfold View.travelling
    omega
  change _ + s.trace.countP (Event.isReceived q m) + _ + _ = 1 at hbroad
  omega

end DistKv.Tob
