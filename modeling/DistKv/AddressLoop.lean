import DistKv.Lib.PassLoop
import Mathlib.Data.List.Basic

/-!
# The address loop (`main` in `server_mt.c`, `sock_serve` in `server.c`)

Both servers walk the list that `getaddrinfo` returned with
`while (ptr->ai_next != NULL)`, and neither moves `ptr`: the loop does nothing
for a list of one entry, and otherwise tries the first entry until it is bound.
What the calls return may change from pass to pass.
-/

namespace DistKv.AddressLoop

open PassLoop

/-- What `setsockopt` and `bind` return. -/
structure Status where
  val : Int
  returned : val = 0 ∨ val = -1

/-- What the calls of one pass return. -/
structure Calls where
  socket : Int
  setsockopt : Status
  bind : Status

/-- The list of `getaddrinfo`, and what the calls at its entry `p` return in
pass `i`. -/
structure Addresses where
  count : Nat
  nonempty : 0 < count
  calls : Nat → Nat → Calls

/-- `sockfd` after `socket`, and the entry it is bound to. -/
structure Socket where
  fd : Int
  boundTo : Option Nat
deriving DecidableEq

/-- `ptr` is the position in the list, its length standing for `NULL`; an unset
`sockfd` is `none`; `opened` are the descriptors nobody closed. -/
structure State where
  ptr : Nat
  sockfd : Option Socket
  opened : List Int
deriving DecidableEq

/-- What follows the loop: `listen(sockfd)`, or `exit(1)`. -/
inductive Outcome
  | listens (st : State)
  | exits

/-- Where the two loops differ: the test on what `bind` returned, the `close`
behind it, and the test of `ptr` behind the loop. -/
structure Server where
  bindFailed : Int → Bool
  closes : Bool
  checksPtr : Bool
  bindFailed_iff : ∀ status : Status, bindFailed status.val = true ↔ status.val = -1

/-- `main` of `server_mt.c`. -/
def main : Server where
  bindFailed := fun status => status = -1
  closes := true
  checksPtr := true
  bindFailed_iff := by intro status; exact decide_eq_true_iff

/-- `sock_serve`. -/
def sockServe : Server where
  bindFailed := fun status => status ≠ 0
  closes := false
  checksPtr := false
  bindFailed_iff := by
    intro status
    rw [decide_eq_true_iff]
    have hstatus := status.returned
    omega

/-- Behind the loop. -/
def afterLoop (server : Server) (a : Addresses) (st : State) : Outcome :=
  if server.checksPtr ∧ st.ptr = a.count then .exits else .listens st

/-- The condition of the loop and its body. -/
def pass (server : Server) (a : Addresses) (i : Nat) (st : State) : Ends State Outcome :=
  if st.ptr + 1 < a.count then
    let calls := a.calls st.ptr i
    let st := { st with sockfd := some ⟨calls.socket, none⟩ }
    if calls.socket = -1 then .again st
    else
      let st := { st with opened := calls.socket :: st.opened }
      if calls.setsockopt.val = -1 then .done .exits
      else if server.bindFailed calls.bind.val then
        .again (if server.closes then { st with opened := st.opened.erase calls.socket } else st)
      else
        -- `break`
        .done (afterLoop server a { st with sockfd := some ⟨calls.socket, some st.ptr⟩ })
  else .done (afterLoop server a st)

/-- `ptr = results`. -/
def start : State := { ptr := 0, sockfd := none, opened := [] }

/-- The loop and what is behind it. -/
def bindLoop (server : Server) (a : Addresses) (fuel : Nat) : Option Outcome :=
  run (pass server a) fuel 0 start

/-! ## What the loop is for -/

/-- `socket` and `bind` succeed. -/
def Calls.Succeed (c : Calls) : Prop := c.socket ≠ -1 ∧ c.bind.val = 0

/-- Both calls succeed at the entry, in some pass. -/
def Addresses.Binds (a : Addresses) (p : Nat) : Prop := ∃ i, (a.calls p i).Succeed

/-- A socket bound to the first entry that can be bound, or a failure when
there is none. -/
def EndsRight (a : Addresses) : Outcome → Prop
  | .listens st =>
      ∃ fd p, st.sockfd = some ⟨fd, some p⟩ ∧ p < a.count ∧ a.Binds p ∧ ∀ q < p, ¬ a.Binds q
  | .exits => ∀ p < a.count, ¬ a.Binds p

/-- The loop returns, and with the right address. -/
def BindsRight (server : Server) (a : Addresses) : Prop :=
  ∃ fuel o, bindLoop server a fuel = some o ∧ EndsRight a o

/-! ## One pass -/

/-- `continue`. -/
def Calls.Failed (c : Calls) : Prop :=
  c.socket = -1 ∨ c.setsockopt.val ≠ -1 ∧ c.bind.val = -1

/-- `exit(1)` in the loop. -/
def Calls.OptionFailed (c : Calls) : Prop := c.socket ≠ -1 ∧ c.setsockopt.val = -1

/-- `break`. -/
def Calls.Bound (c : Calls) : Prop := c.Succeed ∧ c.setsockopt.val ≠ -1

theorem Calls.cases (c : Calls) : c.Failed ∨ c.OptionFailed ∨ c.Bound := by
  unfold Failed OptionFailed Bound Succeed
  have hbind := c.bind.returned
  omega

section

variable {server : Server} {a : Addresses} {i k : Nat} {st st' : State} {o : Outcome}

/-- With one entry left there is no pass. -/
theorem pass_of_last (h : ¬ st.ptr + 1 < a.count) :
    pass server a i st = .done (afterLoop server a st) :=
  if_neg h

/-- The descriptors left open by a failed pass. -/
def leftOpen (server : Server) (c : Calls) (opened : List Int) : List Int :=
  if c.socket = -1 ∨ server.closes = true then opened else c.socket :: opened

theorem pass_of_failed (server : Server) (h : st.ptr + 1 < a.count)
    (hc : (a.calls st.ptr i).Failed) :
    ∃ st', pass server a i st = .again st' ∧ st'.ptr = st.ptr ∧
      st'.opened = leftOpen server (a.calls st.ptr i) st.opened := by
  unfold pass leftOpen
  rw [if_pos h]
  by_cases hsocket : (a.calls st.ptr i).socket = -1
  · exact ⟨_, if_pos hsocket, rfl, (if_pos (.inl hsocket)).symm⟩
  · obtain ⟨hopt, hbind⟩ := hc.resolve_left hsocket
    have hfailed := (server.bindFailed_iff (a.calls st.ptr i).bind).mpr hbind
    dsimp only
    rw [if_neg hsocket, if_neg hopt, if_pos hfailed]
    refine ⟨_, rfl, ?_⟩
    cases hcloses : server.closes with
    | true =>
      rw [if_pos rfl, if_pos (.inr rfl)]
      exact ⟨rfl, List.erase_cons_head _ _⟩
    | false =>
      rw [if_neg Bool.false_ne_true, if_neg (by simp [hsocket])]
      exact ⟨rfl, rfl⟩

theorem pass_of_optionFailed (h : st.ptr + 1 < a.count)
    (hc : (a.calls st.ptr i).OptionFailed) : pass server a i st = .done .exits := by
  unfold pass
  dsimp only
  rw [if_pos h, if_neg hc.1, if_pos hc.2]

theorem pass_of_bound (h : st.ptr + 1 < a.count) (hc : (a.calls st.ptr i).Bound) :
    pass server a i st = .done (.listens
      { st with
        sockfd := some ⟨(a.calls st.ptr i).socket, some st.ptr⟩
        opened := (a.calls st.ptr i).socket :: st.opened }) := by
  have hbind : ¬ server.bindFailed (a.calls st.ptr i).bind.val = true := by
    rw [server.bindFailed_iff, hc.1.2]
    decide
  have hptr : ¬ (server.checksPtr = true ∧ st.ptr = a.count) := by omega
  unfold pass
  dsimp only
  rw [if_pos h, if_neg hc.1.1, if_neg hc.2, if_neg hbind]
  congr 1
  exact if_neg hptr

/-- Only a failed pass goes on, and `ptr` stays. -/
theorem failed_of_again (h : pass server a i st = .again st') :
    st.ptr + 1 < a.count ∧ (a.calls st.ptr i).Failed ∧ st'.ptr = st.ptr ∧
      st'.opened = leftOpen server (a.calls st.ptr i) st.opened := by
  by_cases hptr : st.ptr + 1 < a.count
  · rcases (a.calls st.ptr i).cases with hc | hc | hc
    · obtain ⟨st'', hpass, hsame⟩ := pass_of_failed server hptr hc
      rw [hpass] at h
      injection h with h
      exact ⟨hptr, hc, h ▸ hsame⟩
    · rw [pass_of_optionFailed hptr hc] at h
      cases h
    · rw [pass_of_bound hptr hc] at h
      cases h
  · rw [pass_of_last hptr] at h
    cases h

/-! ## The loop -/

/-- **`ptr` never moves.** -/
theorem ptr_before : before (pass server a) start k = some st → st.ptr = 0 := by
  intro h
  refine before_invariant (P := fun _ t => t.ptr = 0) rfl ?_ k st h
  intro k t t' ht hpass
  rw [(failed_of_again hpass).2.2.1, ht]

/-- The loop gets to pass `k` if and only if the first entry failed in all
passes before. -/
theorem before_isSome_iff (hcount : 2 ≤ a.count) :
    (∃ st, before (pass server a) start k = some st) ↔ ∀ i < k, (a.calls 0 i).Failed := by
  induction k with
  | zero => exact ⟨fun _ i hi => absurd hi (by omega), fun _ => ⟨start, rfl⟩⟩
  | succ k ih =>
    constructor
    · intro ⟨st', h⟩ i hi
      obtain ⟨st, hk, hpass⟩ := before_succ_eq_some.mp h
      rcases Nat.lt_succ_iff_lt_or_eq.mp hi with hi | rfl
      · exact ih.mp ⟨st, hk⟩ i hi
      · have hfailed := (failed_of_again hpass).2.1
        rwa [ptr_before hk] at hfailed
    · intro h
      obtain ⟨st, hk⟩ := ih.mpr fun i hi => h i (by omega)
      have hptr := ptr_before hk
      have hnext : st.ptr + 1 < a.count := by omega
      have hfailed : (a.calls st.ptr k).Failed := by
        rw [hptr]
        exact h k (by omega)
      obtain ⟨st', hpass, -⟩ := pass_of_failed server hnext hfailed
      exact ⟨st', before_succ_of_again hk hpass⟩

/-- `main` closes the socket of every failed pass. -/
theorem opened_before_of_closes (hcloses : server.closes = true) :
    before (pass server a) start k = some st → st.opened = [] := by
  intro h
  refine before_invariant (P := fun _ t => t.opened = []) rfl ?_ k st h
  intro k t t' ht hpass
  rw [(failed_of_again hpass).2.2.2, leftOpen, if_pos (.inr hcloses), ht]

/-- `sock_serve` leaves one open for every failed `bind`. -/
theorem length_opened_before (hcloses : server.closes = false)
    (h : before (pass server a) start k = some st) :
    st.opened.length = (List.range k).countP fun i => (a.calls 0 i).socket ≠ -1 := by
  induction k generalizing st with
  | zero =>
    injection h with h
    rw [← h]
    rfl
  | succ k ih =>
    obtain ⟨t, hk, hpass⟩ := before_succ_eq_some.mp h
    rw [(failed_of_again hpass).2.2.2, ptr_before hk, leftOpen, List.range_succ,
      List.countP_append, List.countP_singleton, ← ih hk, hcloses]
    by_cases hsocket : (a.calls 0 k).socket = -1
    · simp [hsocket]
    · simp [hsocket]

theorem bindsRight_iff_exists : BindsRight server a ↔
    ∃ k st o, before (pass server a) start k = some st ∧ pass server a k st = .done o ∧
      EndsRight a o := by
  constructor
  · intro ⟨fuel, o, hrun, hright⟩
    obtain ⟨k, st, hk, hdone⟩ := returns_iff.mp ⟨fuel, hrun⟩
    exact ⟨k, st, o, hk, hdone, hright⟩
  · intro ⟨k, st, o, hk, hdone, hright⟩
    obtain ⟨fuel, hrun⟩ := returns_iff.mpr ⟨k, st, hk, hdone⟩
    exact ⟨fuel, o, hrun, hright⟩

/-- A list of one entry leaves `sockfd` unset, whatever the calls would
return. -/
theorem single_listens_unset (hcount : a.count = 1) :
    Returns (pass server a) start (.listens start) := by
  have hlast : ¬ start.ptr + 1 < a.count := by
    show ¬ 0 + 1 < a.count
    omega
  have hptr : ¬ (server.checksPtr = true ∧ start.ptr = a.count) := by
    rintro ⟨-, h⟩
    exact absurd (h.symm.trans rfl : a.count = 0) (by omega)
  refine returns_iff.mpr ⟨0, start, rfl, ?_⟩
  rw [pass_of_last hlast]
  congr 1
  exact if_neg hptr

/-- A first entry that always fails is tried for ever, whatever the other
entries are. -/
theorem never_returns (hcount : 2 ≤ a.count) (h : ∀ i, (a.calls 0 i).Failed) :
    ∀ o, ¬ Returns (pass server a) start o := by
  intro o hreturns
  obtain ⟨k, st, hk, hdone⟩ := returns_iff.mp hreturns
  obtain ⟨st', hnext⟩ := (before_isSome_iff (k := k + 1) hcount).mpr fun i _ => h i
  rw [before_succ_of_done hk hdone] at hnext
  cases hnext

/-- The first entry is tried until its calls succeed, or until `setsockopt`
fails while no entry can be bound. -/
def FirstEntryDecides (a : Addresses) : Prop :=
  2 ≤ a.count ∧ ∃ k, (∀ i < k, (a.calls 0 i).Failed) ∧
    ((a.calls 0 k).Bound ∨ (a.calls 0 k).OptionFailed ∧ ∀ p < a.count, ¬ a.Binds p)

theorem bindsRight_iff : BindsRight server a ↔ FirstEntryDecides a := by
  by_cases hcount : 2 ≤ a.count
  · rw [bindsRight_iff_exists]
    constructor
    · intro ⟨k, st, o, hk, hdone, hright⟩
      have hptr := ptr_before hk
      have hnext : st.ptr + 1 < a.count := by omega
      refine ⟨hcount, k, (before_isSome_iff hcount).mp ⟨st, hk⟩, ?_⟩
      rw [← hptr]
      rcases (a.calls st.ptr k).cases with hc | hc | hc
      · obtain ⟨st', hpass, -⟩ := pass_of_failed server hnext hc
        rw [hpass] at hdone
        cases hdone
      · rw [pass_of_optionFailed hnext hc] at hdone
        injection hdone with hdone
        subst hdone
        exact .inr ⟨hc, hright⟩
      · exact .inl hc
    · intro ⟨_, k, hfailed, hc⟩
      obtain ⟨st, hk⟩ := (before_isSome_iff hcount).mpr hfailed
      have hptr := ptr_before hk
      have hnext : st.ptr + 1 < a.count := by omega
      rw [← hptr] at hc
      rcases hc with hc | ⟨hc, hnone⟩
      · refine ⟨k, st, _, hk, pass_of_bound hnext hc, _, st.ptr, rfl, by omega, ⟨k, hc.1⟩, ?_⟩
        intro q hq
        omega
      · exact ⟨k, st, .exits, hk, pass_of_optionFailed hnext hc, hnone⟩
  · constructor
    · intro ⟨fuel, o, hrun, hright⟩
      have hsingle : a.count = 1 := by
        have hpos := a.nonempty
        omega
      obtain rfl := Returns.unique ⟨fuel, hrun⟩ (single_listens_unset hsingle)
      obtain ⟨fd, p, hunset, -⟩ := hright
      cases hunset
    · intro h
      exact absurd h.1 hcount

end

/-- **Both loops end with the right address exactly when the first of at least
two entries decides.** -/
theorem address_loops_iff (a : Addresses) :
    (BindsRight main a ↔ FirstEntryDecides a) ∧
      (BindsRight sockServe a ↔ FirstEntryDecides a) :=
  ⟨bindsRight_iff, bindsRight_iff⟩

/-- One entry, and every call succeeds. -/
def oneHealthy : Addresses where
  count := 1
  nonempty := Nat.one_pos
  calls := fun _ _ => { socket := 3, setsockopt := ⟨0, .inl rfl⟩, bind := ⟨0, .inl rfl⟩ }

theorem one_address_unbound : ¬ BindsRight main oneHealthy ∧ ¬ BindsRight sockServe oneHealthy := by
  constructor
  · intro h
    exact absurd (bindsRight_iff.mp h).1 (Nat.not_succ_le_self 1)
  · intro h
    exact absurd (bindsRight_iff.mp h).1 (Nat.not_succ_le_self 1)

end DistKv.AddressLoop
