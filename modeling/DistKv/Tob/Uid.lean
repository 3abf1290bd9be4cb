import DistKv.Tob.Order
import Mathlib.Data.Nat.Bitwise

/-!
# Uids

`generate_uid` packs the pid and the clock into 32 bits: twelve bits of clock,
and above them the pid with the rest of the clock or-ed into it. Uids are
distinct exactly as long as no two messages agree on both parts.
-/

namespace DistKv.Tob

variable {n : Nat}

/-- The clock bits below the pid. -/
def lowPart (lc : UInt32) : Nat := lc.toNat % 2 ^ 12

/-- The pid, as far as it fits, with the higher clock bits or-ed into it. -/
def highPart (pid : Nat) (lc : UInt32) : Nat := (pid ||| lc.toNat / 2 ^ 12) % 2 ^ 20

theorem toNat_generateUid_mod (pid : Nat) (lc : UInt32) :
    (generateUid pid lc).toNat % 2 ^ 12 = lowPart lc := by
  have hshift : (UInt32.ofNat pid <<< 12).toNat % 2 ^ 12 = 0 := by
    simp only [UInt32.toNat_shiftLeft, UInt32.toNat_ofNat', Nat.shiftLeft_eq, UInt32.reduceToNat,
      Nat.reduceMod]
    omega
  rw [generateUid, UInt32.toNat_or, Nat.or_mod_two_pow, hshift, Nat.zero_or, lowPart]

theorem toNat_generateUid_div (pid : Nat) (lc : UInt32) :
    (generateUid pid lc).toNat / 2 ^ 12 = highPart pid lc := by
  have hshift : (UInt32.ofNat pid <<< 12).toNat / 2 ^ 12 = pid % 2 ^ 20 := by
    simp only [UInt32.toNat_shiftLeft, UInt32.toNat_ofNat', Nat.shiftLeft_eq, UInt32.reduceToNat,
      Nat.reduceMod]
    omega
  have hlc := lc.toNat_lt
  rw [generateUid, UInt32.toNat_or, Nat.or_div_two_pow, hshift, highPart, Nat.or_mod_two_pow,
    Nat.mod_eq_of_lt (a := lc.toNat / 2 ^ 12) (by omega)]

/-- **Two uids are equal if and only if both their parts are.** -/
theorem generateUid_eq_iff {pid pid' : Nat} {lc lc' : UInt32} :
    generateUid pid lc = generateUid pid' lc' ↔
      lowPart lc = lowPart lc' ∧ highPart pid lc = highPart pid' lc' := by
  rw [← toNat_generateUid_mod pid, ← toNat_generateUid_mod pid', ← toNat_generateUid_div,
    ← toNat_generateUid_div, ← UInt32.toNat_inj]
  omega

/-- No two messages agree on the low twelve bits of the clock and on the pid
with the other clock bits or-ed into it. -/
def PartsApart (cfg : Cfg n) (issued : List (Issued n)) : Prop :=
  issued.Pairwise fun r r' =>
    ¬ (lowPart r.lc = lowPart r'.lc ∧
      highPart (cfg.pid r.owner) r.lc = highPart (cfg.pid r'.owner) r'.lc)

instance (cfg : Cfg n) (issued : List (Issued n)) : Decidable (PartsApart cfg issued) :=
  inferInstanceAs (Decidable (List.Pairwise _ _))

theorem uidsDistinct_iff {cfg : Cfg n} {issued : List (Issued n)}
    (h : ∀ r ∈ issued, r.Tagged cfg) : UidsDistinct issued ↔ PartsApart cfg issued := by
  rw [UidsDistinct, List.Nodup, List.pairwise_map]
  refine List.Pairwise.iff_of_mem fun {r r'} hr hr' => ?_
  rw [Ne, (h r hr).1, (h r' hr').1, generateUid_eq_iff]

/-- ACKs and READYs hit the node of the message they are for, or none. -/
def HitsOwn (t : List (Event n)) : Prop :=
  ∀ e ∈ t, match e with
    | .gotAck _ _ m hit => hit = none ∨ hit = some m
    | .gotReady _ m hit _ _ => hit = none ∨ hit = some m
    | _ => True

theorem View.Tagged.hitsOwn {cfg : Cfg n} {v : View n} (ht : v.Tagged cfg)
    (hu : UidsDistinct v.issued) : HitsOwn v.trace := by
  intro e he
  cases e with
  | gotAck p src m hit =>
      cases hit with
      | none => exact Or.inl rfl
      | some k => exact Or.inr (congrArg some (ht.gotAck_hit hu he))
  | gotReady p m hit head bare =>
      cases hit with
      | none => exact Or.inl rfl
      | some k => exact Or.inr (congrArg some (ht.gotReady_hit hu he))
  | _ => trivial

/-! ## Small pids and clocks -/

theorem reachable_lc_lt {cfg : Cfg n} {s : State n}
    (hs : (system cfg).ReachableVia (ClocksBelow (2 ^ 12)) s) :
    (∀ p, (s.procs p).lc.toNat < 2 ^ 12) ∧ ∀ r ∈ s.issued, r.lc.toNat < 2 ^ 12 := by
  refine Transition.System.ReachableVia.invariant
    (P := fun s => (∀ p, (s.procs p).lc.toNat < 2 ^ 12) ∧ ∀ r ∈ s.issued, r.lc.toNat < 2 ^ 12)
    (by simp [system, init]) ?_ s hs
  rintro s a s' hs ⟨hlc, hissued⟩ hstep hbelow
  refine ⟨hbelow, fun r hr => ?_⟩
  obtain ⟨hsound, -⟩ := reachable_ledgers hs.reachable
  rcases (step_view hsound hstep).1.issued_cases with ⟨hsame, -⟩ | ⟨p, message, hmore, hclock, -⟩
  · change r ∈ s'.view.issued at hr
    rw [hsame] at hr
    exact hissued r hr
  · change r ∈ s'.view.issued at hr
    rw [hmore, List.mem_append, List.mem_singleton] at hr
    rcases hr with hr | rfl
    · exact hissued r hr
    · have hold : (s.view.procs p).lc.toNat < 2 ^ 12 := hlc p
      have hnew : (s'.view.procs p).lc.toNat < 2 ^ 12 := hbelow p
      rw [hclock] at hnew
      simp only [issueRecord, UInt32.toNat_add, UInt32.reduceToNat] at hnew ⊢
      omega

/-- With pids below `2 ^ 20` and clocks below `2 ^ 12` the parts are the pid and the clock. -/
theorem partsApart_of_small {cfg : Cfg n} (hpid : ∀ p, cfg.pid p < 2 ^ 20) {s : State n}
    (hs : (system cfg).ReachableVia (ClocksBelow (2 ^ 12)) s) : PartsApart cfg s.issued := by
  obtain ⟨-, hled⟩ := reachable_ledgers hs.reachable
  have hkeys : KeysDistinct cfg s.issued := by
    refine (reachable_clocks (hs.mono fun _ _ _ h p => ?_)).keysDistinct cfg
    have := h p
    omega
  rw [KeysDistinct, List.Nodup, List.pairwise_map] at hkeys
  refine hkeys.imp_of_mem fun {r r'} hr hr' hne => ?_
  rintro ⟨hlow, hhigh⟩
  have hlc := (reachable_lc_lt hs).2 r hr
  have hlc' := (reachable_lc_lt hs).2 r' hr'
  have hsame : r.lc = r'.lc := by
    rw [lowPart, lowPart, Nat.mod_eq_of_lt hlc, Nat.mod_eq_of_lt hlc'] at hlow
    exact UInt32.toNat_inj.mp hlow
  rw [highPart, highPart, Nat.div_eq_of_lt hlc, Nat.div_eq_of_lt hlc', Nat.or_zero, Nat.or_zero,
    Nat.mod_eq_of_lt (hpid _), Nat.mod_eq_of_lt (hpid _)] at hhigh
  refine hne ?_
  rw [Issued.key, Issued.key, (hled.tagged.issued r hr).2, (hled.tagged.issued r' hr').2, hsame,
    hhigh]

/-- **Message ids are unique**, and handlers that look for a uid never hit the
node of another message, in a run whose messages differ in one of the two parts
of the uid; and the ids are unique in no other run. -/
theorem uids_unique_iff (cfg : Cfg n) {s : State n} (hs : (system cfg).Reachable s) :
    (UidsDistinct s.issued ∧ HitsOwn s.trace) ↔ PartsApart cfg s.issued := by
  obtain ⟨-, hled⟩ := reachable_ledgers hs
  have hiff := uidsDistinct_iff hled.tagged.issued
  exact ⟨fun h => hiff.mp h.1, fun h => ⟨hiff.mpr h, hled.tagged.hitsOwn (hiff.mpr h)⟩⟩

/-- The two messages of `crossedRun` have their own uids. -/
theorem crossed_uids_unique : UidsDistinct (endOf crossedRun).issued ∧
    HitsOwn (endOf crossedRun).trace :=
  (uids_unique_iff twoProcs (endOf_reachableVia (by decide +kernel))).mpr (by decide +kernel)

/-- Two processes whose pids differ by `2 ^ 20`. -/
def farProcs : Cfg 2 where
  pid := fun i => if i = 0 then 1000 else 1049576
  pid_injective := by
    unfold Function.Injective
    decide
  pid_pos := by decide
  pid_lt := by decide
  ports := ports_two
  usable := usableSize
  le_usable := le_usableSize

/-- Both issue a message as their first event. -/
def farRun : List (Act 2) :=
  [.client 0 [104, 105], .client 1 [104, 111], .accept 0 0 0 [], .accept 1 0 0 []]

/-- The first messages of the two processes have one uid. -/
theorem far_uids_collide : (system farProcs).Reachable ((system farProcs).endOf farRun) ∧
    ((system farProcs).endOf farRun).issued.length = 2 ∧
    ¬ UidsDistinct ((system farProcs).endOf farRun).issued :=
  ⟨Transition.System.endOf_reachable farRun, by decide +kernel, by decide +kernel⟩

end DistKv.Tob
