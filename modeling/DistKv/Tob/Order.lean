import DistKv.Tob.Delivery

/-!
# One causal order for all queues

`order_queue` sorts by timestamp and, among equal timestamps, by descending
pid. As long as no clock passes 9999 the timestamps of one issuer increase,
so no two messages have the same timestamp and pid, and the order of two
messages is the same in every queue.

The order is causal: a clock dominates the timestamps of everything its
process issued or received, and the next message it issues gets a larger one.
-/

namespace DistKv.Tob

open History StableInsert

variable {n : Nat}

/-- What `order_queue` sorts by. -/
def Issued.key (cfg : Cfg n) (r : Issued n) : UInt32 × Nat := (r.stamp, cfg.pid r.owner)

/-- `r` stands before `r'`: a smaller timestamp, or the same and a larger pid. -/
def Issued.precedes (cfg : Cfg n) (r r' : Issued n) : Prop :=
  r.stamp < r'.stamp ∨ r.stamp = r'.stamp ∧ cfg.pid r'.owner < cfg.pid r.owner

instance (cfg : Cfg n) (r r' : Issued n) : Decidable (r.precedes cfg r') :=
  inferInstanceAs (Decidable (_ ∨ _))

/-- No two messages have the same timestamp and pid. -/
def KeysDistinct (cfg : Cfg n) (issued : List (Issued n)) : Prop :=
  (issued.map (Issued.key cfg)).Nodup

instance (cfg : Cfg n) (issued : List (Issued n)) : Decidable (KeysDistinct cfg issued) :=
  inferInstanceAs (Decidable (List.Nodup _))

theorem KeysDistinct.index_eq {cfg : Cfg n} {issued : List (Issued n)}
    (h : KeysDistinct cfg issued) {i j : Nat} {r r' : Issued n} (hi : issued[i]? = some r)
    (hj : issued[j]? = some r') (hkey : r.key cfg = r'.key cfg) : i = j :=
  index_eq_of_nodup_map h hi hj hkey

theorem Issued.not_precedes_swap {cfg : Cfg n} {r r' : Issued n} (h : r.precedes cfg r') :
    ¬ r'.precedes cfg r := by
  simp only [Issued.precedes, UInt32.lt_iff_toNat_lt, ← UInt32.toNat_inj] at *
  omega

theorem Issued.precedes_or {cfg : Cfg n} {r r' : Issued n} (h : r.key cfg ≠ r'.key cfg) :
    r.precedes cfg r' ∨ r'.precedes cfg r := by
  have hne : ¬ (r.stamp.toNat = r'.stamp.toNat ∧ cfg.pid r.owner = cfg.pid r'.owner) := by
    rintro ⟨h1, h2⟩
    exact h (by rw [Issued.key, Issued.key, UInt32.toNat_inj.mp h1, h2])
  simp only [Issued.precedes, UInt32.lt_iff_toNat_lt, ← UInt32.toNat_inj]
  omega

/-! ## Queues agree -/

section queues

variable {cfg : Cfg n} {v : View n}

/-- `order_queue`'s test between two tagged nodes of different messages. -/
theorem Node.Tagged.staysBefore_iff {issued : List (Issued n)} (hk : KeysDistinct cfg issued)
    {x y : Node} {r r' : Issued n} (hx : x.Tagged cfg issued) (hy : y.Tagged cfg issued)
    (hr : issued[x.mid]? = some r) (hr' : issued[y.mid]? = some r') (hne : x.mid ≠ y.mid) :
    x.staysBefore y ↔ r.precedes cfg r' := by
  obtain ⟨rx, hrx, -, hxlc, hxpid, -⟩ := hx
  obtain ⟨ry, hry, -, hylc, hypid, -⟩ := hy
  obtain rfl : r = rx := Option.some.inj (hr.symm.trans hrx)
  obtain rfl : r' = ry := Option.some.inj (hr'.symm.trans hry)
  have hkey : ¬ (r.stamp = r'.stamp ∧ cfg.pid r.owner = cfg.pid r'.owner) := by
    rintro ⟨h1, h2⟩
    exact hne (hk.index_eq hr hr' (by rw [Issued.key, Issued.key, h1, h2]))
  simp only [Node.staysBefore, Issued.precedes, hxlc, hylc, hxpid, hypid]
  constructor
  · rintro (h | ⟨h1, h2⟩)
    · exact Or.inl h
    · exact Or.inr ⟨h1, lt_of_le_of_ne h2 fun h => hkey ⟨h1, h.symm⟩⟩
  · rintro (h | ⟨h1, h2⟩)
    · exact Or.inl h
    · exact Or.inr ⟨h1, h2.le⟩

/-- The messages in the queue of `p`, from the head. -/
def ViewProc.mids (x : ViewProc n) : List Nat := x.queue.map Node.mid

/-- A message stands at most once in a queue. -/
theorem Ledgers.nodup_mids (hv : Ledgers cfg v) (p : Fin n) : (v.procs p).mids.Nodup := by
  rw [ViewProc.mids, List.nodup_iff_count_le_one]
  intro m
  have hsum : ∀ l : List Node, (l.map Node.mid).count m = queued m false l + queued m true l := by
    intro l
    induction l with
    | nil => rfl
    | cons y rest ih =>
        simp only [List.map_cons, List.count_cons, queued_cons, ih, beq_iff_eq]
        cases hy : y.ackFlg <;> simp <;> omega
  have := (hv.queue p m).received
  have := hv.broad.received_le_one p m
  rw [hsum]
  omega

theorem View.Tagged.issued_of_mem (ht : v.Tagged cfg) {p : Fin n} {m : Nat}
    (hm : m ∈ (v.procs p).mids) : ∃ r, v.issued[m]? = some r := by
  obtain ⟨x, hx, rfl⟩ := List.mem_map.mp hm
  obtain ⟨r, hr, -⟩ := ht.queue p x hx
  exact ⟨r, hr⟩

/-- **A sorted queue shows the order of the keys.** -/
theorem Ledgers.pair_sublist_iff (hv : Ledgers cfg v) (hk : KeysDistinct cfg v.issued) {p : Fin n}
    (hsorted : (v.procs p).queue.Pairwise Node.staysBefore) {m m' : Nat} {r r' : Issued n}
    (hm : m ∈ (v.procs p).mids) (hm' : m' ∈ (v.procs p).mids) (hr : v.issued[m]? = some r)
    (hr' : v.issued[m']? = some r') (hne : m ≠ m') :
    [m, m'].Sublist (v.procs p).mids ↔ r.precedes cfg r' := by
  -- what stands before sorts before
  have hforward : ∀ {i j : Nat} {ri rj : Issued n}, v.issued[i]? = some ri →
      v.issued[j]? = some rj → i ≠ j → [i, j].Sublist (v.procs p).mids → ri.precedes cfg rj := by
    intro i j ri rj hi hj hij hsub
    obtain ⟨l, hl, hmap⟩ := List.sublist_map_iff.mp hsub
    obtain ⟨x, y, rfl, rfl, rfl⟩ : ∃ x y, l = [x, y] ∧ x.mid = i ∧ y.mid = j := by
      match l, hmap with
      | [x, y], hmap =>
          simp only [List.map_cons, List.map_nil, List.cons.injEq, and_true] at hmap
          exact ⟨x, y, rfl, hmap.1.symm, hmap.2.symm⟩
    have hxy : x.staysBefore y := by
      have := hsorted.sublist hl
      simpa using this
    have hmem := hl.subset
    exact (Node.Tagged.staysBefore_iff hk (hv.tagged.queue p x (hmem (by simp)))
      (hv.tagged.queue p y (hmem (by simp))) hi hj hij).mp hxy
  constructor
  · exact hforward hr hr' hne
  · intro hprec
    rcases pair_sublist_or hm hm' hne with h | h
    · exact h
    · exact absurd (hforward hr' hr (Ne.symm hne) h) (Issued.not_precedes_swap hprec)

/-- No queued message sorts before the head. -/
theorem Ledgers.not_queued_of_head (hv : Ledgers cfg v) (hk : KeysDistinct cfg v.issued)
    {p : Fin n} (hsorted : (v.procs p).queue.Pairwise Node.staysBefore) {head y : Node}
    {rest : List Node} (hqueue : (v.procs p).queue = head :: rest) {r r' : Issued n}
    (hr : v.issued[y.mid]? = some r) (hr' : v.issued[head.mid]? = some r')
    (hprec : r.precedes cfg r') : y ∉ (v.procs p).queue := by
  intro hy
  have hne : head.mid ≠ y.mid := by
    intro heq
    rw [heq] at hr'
    obtain rfl := Option.some.inj (hr.symm.trans hr')
    exact Issued.not_precedes_swap hprec hprec
  have hhead : head ∈ (v.procs p).queue := by rw [hqueue]; exact List.mem_cons_self
  have hstays : head.staysBefore y := by
    have hmem := hy
    rw [hqueue] at hmem hsorted
    rcases List.mem_cons.mp hmem with rfl | hmem
    · exact absurd rfl hne
    · exact (List.pairwise_cons.mp hsorted).1 y hmem
  have := (Node.Tagged.staysBefore_iff hk (hv.tagged.queue p head hhead)
    (hv.tagged.queue p y hy) hr' hr hne).mp hstays
  exact Issued.not_precedes_swap hprec this

end queues

/-! ## Clocks -/

theorem toNat_succ (lc : UInt32) (h : lc.toNat < 2 ^ 32 - 1) : (lc + 1).toNat = lc.toNat + 1 := by
  rw [UInt32.toNat_add]
  simp only [UInt32.toNat_one, Nat.reducePow]
  omega

/-- Up to 9999 the four digits of the LC field hold the clock. -/
theorem lcField_eq {lc : UInt32} (h : lc.toNat < 10000) : lcField lc = lc := by
  rw [lcField, Decimal.cut_of_lt (by decide) (by simpa using h), UInt32.ofNat_toNat]

theorem toNat_receiveClock {lc : UInt32} (h : lc.toNat < 10000) (stamp : UInt32) :
    (receiveClock lc stamp).toNat = max (lc.toNat + 1) stamp.toNat := by
  have hsucc := toNat_succ lc (by omega)
  unfold receiveClock
  by_cases hlt : lc + 1 < stamp
  · rw [if_pos hlt]
    have := UInt32.lt_iff_toNat_lt.mp hlt
    omega
  · rw [if_neg hlt]
    have : ¬ (lc + 1).toNat < stamp.toNat := fun h => hlt (UInt32.lt_iff_toNat_lt.mpr h)
    omega

theorem le_receiveClock {lc : UInt32} (h : lc.toNat < 10000) (stamp : UInt32) :
    lc.toNat ≤ (receiveClock lc stamp).toNat ∧ stamp.toNat ≤ (receiveClock lc stamp).toNat := by
  rw [toNat_receiveClock h]
  omega

/-- A handler never turns the clock back, and dominates the timestamp it receives. -/
theorem Handles.clock {cfg : Cfg n} {p : Fin n} {issuedOld : List (Issued n)}
    {x x' : ViewProc n} {pk : Packet n} {events : List (Event n)} {issued : Option (Issued n)}
    (h : Handles cfg p issuedOld.length x pk x' events issued) (hpk : pk.Tagged cfg issuedOld)
    (hlc : x.lc.toNat < 10000) :
    x.lc.toNat ≤ x'.lc.toNat ∧
      ∀ m c r, .received p m c ∈ events → issuedOld[m]? = some r →
        r.stamp.toNat ≤ x'.lc.toNat := by
  have h1 := toNat_succ x.lc (by omega)
  have h2 := toNat_succ (x.lc + 1) (by omega)
  -- the timestamp of a BROAD is that of its message
  have hbroad : ∀ {uid pid port stamp len body r},
      pk.msg = .broad uid pid port stamp len body → issuedOld[pk.mid]? = some r →
        r.stamp.toNat ≤ (receiveClock x.lc stamp).toNat := by
    intro uid pid port stamp len body r hmsg hr
    unfold Packet.Tagged at hpk
    rw [hmsg] at hpk
    obtain ⟨r0, hr0, -, rfl, -⟩ := hpk
    obtain rfl := Option.some.inj (hr.symm.trans hr0)
    exact (le_receiveClock hlc _).2
  cases h with
  | issue message hmsg =>
      refine ⟨?_, by simp⟩
      show _ ≤ (x.lc + 1 + 1).toNat
      omega
  | hang uid pid port stamp len hmsg =>
      refine ⟨?_, by simp⟩
      show _ ≤ (x.lc + 1).toNat
      omega
  | lose uid pid port stamp len body hmsg hw =>
      refine ⟨(le_receiveClock hlc stamp).1, fun m c r he hr => ?_⟩
      obtain ⟨rfl, -⟩ : m = pk.mid ∧ _ := by simpa using he
      exact hbroad hmsg hr
  | enqueueAck uid pid port stamp len body buffer head rest hmsg hw hins hf =>
      refine ⟨(le_receiveClock hlc stamp).1, fun m c r he hr => ?_⟩
      obtain ⟨rfl, -⟩ : m = pk.mid ∧ _ := by simpa using he
      exact hbroad hmsg hr
  | enqueueQuiet uid pid port stamp len body buffer head rest hmsg hw hins hf =>
      refine ⟨(le_receiveClock hlc stamp).1, fun m c r he hr => ?_⟩
      obtain ⟨rfl, -⟩ : m = pk.mid ∧ _ := by simpa using he
      exact hbroad hmsg hr
  | ackMiss pid uid hmsg hnone => exact ⟨le_rfl, by simp⟩
  | ackCount pid uid y hmsg hsome hcount => exact ⟨le_rfl, by simp⟩
  | ackReady pid uid y hmsg hsome hcount =>
      refine ⟨?_, by simp⟩
      show _ ≤ (x.lc + 1).toNat
      omega
  | ready uid hmsg => exact ⟨le_rfl, by simp⟩

theorem le_abortedClock {lc : UInt32} (h : lc.toNat < 10000) (msg : Msg) :
    lc.toNat ≤ (abortedClock lc msg).toNat := by
  have hsucc := toNat_succ lc (by omega)
  cases msg <;> simp only [abortedClock] <;> omega

/-- The clock of every process grows along a step, and the step's own
received events are dominated. -/
theorem ViewStep.clock {cfg : Cfg n} {v v' : View n} {a : Act n} (h : ViewStep cfg v a v')
    (ht : v.Tagged cfg) {p : Fin n} (hlc : (v.procs p).lc.toNat < 10000) :
    ∃ events, v'.trace = v.trace ++ events ∧ (v.procs p).lc.toNat ≤ (v'.procs p).lc.toNat ∧
      ∀ m c r, .received p m c ∈ events → v.issued[m]? = some r →
        r.stamp.toNat ≤ (v'.procs p).lc.toNat := by
  obtain ⟨events, htrace, ⟨hsame, hnot⟩ | hmove⟩ := h.local_cases p
  · refine ⟨events, htrace, by rw [hsame], fun m c r he _ => ?_⟩
    exact absurd rfl (hnot _ he)
  · refine ⟨events, htrace, ?_⟩
    generalize v'.procs p = x at hmove
    cases hmove with
    | handles pk x events issued hidle hpk hdst hx => exact hx.clock (ht.net pk hpk) hlc
    | acks pk rest pid uid hp hmsg => exact ⟨le_rfl, by simp⟩
    | sends pk rest hp hmsg => exact ⟨le_rfl, by simp⟩
    | writes mid buffer rest hp => exact ⟨le_rfl, by simp⟩
    | aborts pk hidle hpk => exact ⟨le_abortedClock hlc _, by simp⟩

/-- `p` handled the BROAD of `m`, or issued `m`, before it issued `m'`. -/
def HeardBefore (trace : List (Event n)) (p : Fin n) (m m' : Nat) : Prop :=
  ∃ c c', [Event.received p m c, .issued p m' c'].Sublist trace ∨
    [Event.issued p m c, .issued p m' c'].Sublist trace

/-- Clocks dominate what their process issued and received; later issues get
larger timestamps. -/
structure Clocks (v : View n) : Prop where
  bound : ∀ p, (v.procs p).lc.toNat < 10000
  issued_le : ∀ (m : Nat) (r : Issued n), v.issued[m]? = some r →
    r.stamp.toNat ≤ (v.procs r.owner).lc.toNat
  received_le : ∀ (p : Fin n) (m : Nat) c (r : Issued n), .received p m c ∈ v.trace →
    v.issued[m]? = some r → r.stamp.toNat ≤ (v.procs p).lc.toNat
  issued_lt : ∀ (i j : Nat) (r r' : Issued n), i < j → v.issued[i]? = some r →
    v.issued[j]? = some r' → r.owner = r'.owner → r.stamp.toNat < r'.stamp.toNat
  causal : ∀ (p : Fin n) (m m' : Nat) (r r' : Issued n), v.issued[m]? = some r →
    v.issued[m']? = some r' → HeardBefore v.trace p m m' → r.stamp.toNat < r'.stamp.toNat

/-- What a step issues: nothing, or one message with the clock of its issuer. -/
theorem ViewStep.issued_cases {cfg : Cfg n} {v v' : View n} {a : Act n}
    (h : ViewStep cfg v a v') :
    (v'.issued = v.issued ∧ ∃ events, v'.trace = v.trace ++ events ∧
      ∀ p m c, .issued p m c ∉ events) ∨
    ∃ p message, v'.issued = v.issued ++ [issueRecord cfg p (v.procs p).lc message] ∧
      (v'.procs p).lc = (v.procs p).lc + 1 + 1 ∧
      v'.trace = v.trace ++ [.issued p v.issued.length ((v.procs p).lc + 1),
        .broadcast p v.issued.length ((v.procs p).lc + 1 + 1)] := by
  cases h with
  | accept p k got stack pk x events issued hidle hk hdst hx =>
      cases hx with
      | issue message hmsg => exact Or.inr ⟨p, message, rfl, by simp, rfl⟩
      | _ => exact Or.inl ⟨by simp, _, rfl, by simp⟩
  | client p message => exact Or.inl ⟨rfl, [], by simp, by simp⟩
  | send p pk rest hp hmsg => exact Or.inl ⟨rfl, [], by simp, by simp⟩
  | _ => exact Or.inl ⟨rfl, _, rfl, by simp⟩

theorem HeardBefore.tagged {cfg : Cfg n} {v : View n} (ht : v.Tagged cfg) {p : Fin n} {m m' : Nat}
    (h : HeardBefore v.trace p m m') :
    (∃ r, v.issued[m]? = some r) ∧ ∃ r, v.issued[m']? = some r := by
  obtain ⟨c, c', h | h⟩ := h
  · obtain ⟨r, hr⟩ := ht.trace _ (h.subset (by simp : Event.received p m c ∈ _))
    obtain ⟨r', hr', -⟩ := ht.trace _ (h.subset (by simp : Event.issued p m' c' ∈ _))
    exact ⟨⟨r, hr⟩, r', hr'⟩
  · obtain ⟨r, hr, -⟩ := ht.trace _ (h.subset (by simp : Event.issued p m c ∈ _))
    obtain ⟨r', hr', -⟩ := ht.trace _ (h.subset (by simp : Event.issued p m' c' ∈ _))
    exact ⟨⟨r, hr⟩, r', hr'⟩

/-- What `p` heard, its clock dominates. -/
theorem Clocks.heard_le {cfg : Cfg n} {v : View n} (hv : Clocks v) (ht : v.Tagged cfg)
    {p : Fin n} {m : Nat} {c : UInt32} {r : Issued n}
    (h : .received p m c ∈ v.trace ∨ .issued p m c ∈ v.trace) (hr : v.issued[m]? = some r) :
    r.stamp.toNat ≤ (v.procs p).lc.toNat := by
  rcases h with h | h
  · exact hv.received_le p m c r h hr
  · obtain ⟨r0, hr0, rfl, -⟩ := ht.trace _ h
    obtain rfl := Option.some.inj (hr.symm.trans hr0)
    exact hv.issued_le m r hr

/-- A message keeps its record. -/
theorem ViewStep.record_eq {cfg : Cfg n} {v v' : View n} {a : Act n} (h : ViewStep cfg v a v')
    {m : Nat} {r r' : Issued n} (hr : v.issued[m]? = some r) (hr' : v'.issued[m]? = some r') :
    r = r' := by
  obtain ⟨more, hmore⟩ := h.issued_prefix
  rw [hmore, getElem?_append_of_eq_some hr] at hr'
  exact Option.some.inj hr'

/-- After a step the clocks still dominate the timestamps received. -/
theorem Clocks.received_step {cfg : Cfg n} {v v' : View n} {a : Act n} (hv : Clocks v)
    (ht : v.Tagged cfg) (h : ViewStep cfg v a v') (p : Fin n) (m : Nat) (c : UInt32)
    (r : Issued n) (he : .received p m c ∈ v'.trace) (hr : v'.issued[m]? = some r) :
    r.stamp.toNat ≤ (v'.procs p).lc.toNat := by
  -- what is received was issued before the step
  obtain ⟨r0, hr0⟩ : ∃ r0, v.issued[m]? = some r0 := by
    rcases h.issued_cases with ⟨hsame, -⟩ | ⟨q, message, -, -, htrace⟩
    · exact ⟨r, hsame ▸ hr⟩
    · rw [htrace] at he
      exact ht.trace (.received p m c) (by simpa using he)
  obtain rfl := h.record_eq hr0 hr
  obtain ⟨events, htrace, hle, hdom⟩ := h.clock ht (hv.bound p)
  rw [htrace] at he
  rcases List.mem_append.mp he with he | he
  · exact (hv.received_le p m c r0 he hr0).trans hle
  · exact hdom m c r0 he hr0

/-- Who issues nothing has heard of nothing new in time. -/
theorem HeardBefore.of_append {t events : List (Event n)} {p : Fin n} {m m' : Nat}
    (h : HeardBefore (t ++ events) p m m') (hnone : ∀ p m c, .issued p m c ∉ events) :
    HeardBefore t p m m' := by
  obtain ⟨c, c', h | h⟩ := h
  · exact ⟨c, c', Or.inl ((pair_sublist_append h).resolve_right (hnone _ _ _))⟩
  · exact ⟨c, c', Or.inr ((pair_sublist_append h).resolve_right (hnone _ _ _))⟩

/-- Heard of before an issue: before an old one, or up to now if it is the new one. -/
theorem HeardBefore.of_issue {t : List (Event n)} {p q : Fin n} {m m' k : Nat} {lc lc' : UInt32}
    (h : HeardBefore (t ++ [.issued p k lc, .broadcast p k lc']) q m m') :
    HeardBefore t q m m' ∨
      (q = p ∧ m' = k) ∧ ∃ c, .received p m c ∈ t ∨ .issued p m c ∈ t := by
  have happend : t ++ [.issued p k lc, .broadcast p k lc'] =
      t ++ [.issued p k lc] ++ [.broadcast p k lc'] := by simp
  obtain ⟨c, c', h⟩ := h
  rw [happend, pair_sublist_append_singleton, pair_sublist_append_singleton,
    pair_sublist_append_singleton, pair_sublist_append_singleton] at h
  simp only [reduceCtorEq, false_and, or_false] at h
  rcases h with (h | ⟨heq, hmem⟩) | (h | ⟨heq, hmem⟩)
  · exact Or.inl ⟨c, c', Or.inl h⟩
  · cases heq
    exact Or.inr ⟨⟨rfl, rfl⟩, c, Or.inl hmem⟩
  · exact Or.inl ⟨c, c', Or.inr h⟩
  · cases heq
    exact Or.inr ⟨⟨rfl, rfl⟩, c, Or.inr hmem⟩

theorem Clocks.step {cfg : Cfg n} {v v' : View n} {a : Act n} (hv : Clocks v)
    (ht : v.Tagged cfg) (h : ViewStep cfg v a v')
    (hbound : ∀ p, (v'.procs p).lc.toNat < 10000) : Clocks v' := by
  have hmono : ∀ p, (v.procs p).lc.toNat ≤ (v'.procs p).lc.toNat := fun p => by
    obtain ⟨-, -, hle, -⟩ := h.clock ht (hv.bound p)
    exact hle
  have hreceived := hv.received_step ht h
  rcases h.issued_cases with ⟨hsame, events, htrace, hnone⟩ | ⟨p, message, hissued, hlc, htrace⟩
  · refine ⟨hbound, fun m r hr => ?_, hreceived, fun i j r r' hij hi hj => ?_, ?_⟩
    · exact (hv.issued_le m r (hsame ▸ hr)).trans (hmono _)
    · exact hv.issued_lt i j r r' hij (hsame ▸ hi) (hsame ▸ hj)
    · intro p m m' r r' hr hr' hheard
      rw [htrace] at hheard
      exact hv.causal p m m' r r' (hsame ▸ hr) (hsame ▸ hr') (hheard.of_append hnone)
  · -- a new message: its timestamp exceeds the clock its issuer had
    have h1 := toNat_succ ((v.procs p).lc) (by have := hv.bound p; omega)
    have h2 := toNat_succ ((v.procs p).lc + 1) (by have := hv.bound p; omega)
    have hstamp : (issueRecord cfg p (v.procs p).lc message).stamp = (v'.procs p).lc := by
      rw [hlc]
      exact lcField_eq (by have := hbound p; rwa [hlc] at this)
    have hlc' : (v'.procs p).lc.toNat = (v.procs p).lc.toNat + 2 := by
      rw [hlc]
      omega
    have hcases : ∀ {m : Nat} {r : Issued n}, v'.issued[m]? = some r →
        v.issued[m]? = some r ∨
          m = v.issued.length ∧ r = issueRecord cfg p (v.procs p).lc message := by
      intro m r hr
      rw [hissued] at hr
      exact getElem?_append_singleton_cases hr
    refine ⟨hbound, fun m r hr => ?_, hreceived, fun i j r r' hij hi hj howner => ?_, ?_⟩
    · rcases hcases hr with hr | ⟨-, rfl⟩
      · exact (hv.issued_le m r hr).trans (hmono _)
      · rw [hstamp]
        exact le_rfl
    · rcases hcases hj with hj | ⟨hjl, rfl⟩
      · rcases hcases hi with hi | ⟨hil, -⟩
        · exact hv.issued_lt i j r r' hij hi hj howner
        · have := (List.getElem?_eq_some_iff.mp hj).1
          omega
      · rcases hcases hi with hi | ⟨hil, -⟩
        · have hle := hv.issued_le i r hi
          rw [howner] at hle
          change _ ≤ (v.procs p).lc.toNat at hle
          rw [hstamp]
          omega
        · omega
    · intro q m m' r r' hr hr' hheard
      rw [htrace] at hheard
      rcases hheard.of_issue with hpair | ⟨⟨rfl, rfl⟩, c, hmem⟩
      · obtain ⟨⟨r0, hr0⟩, r0', hr0'⟩ := hpair.tagged ht
        obtain rfl := h.record_eq hr0 hr
        obtain rfl := h.record_eq hr0' hr'
        exact hv.causal q m m' r0 r0' hr0 hr0' hpair
      · rcases hcases hr' with hr' | ⟨-, rfl⟩
        · have := (List.getElem?_eq_some_iff.mp hr').1
          omega
        · obtain ⟨r0, hr0⟩ : ∃ r0, v.issued[m]? = some r0 := by
            rcases hmem with hmem | hmem
            · exact ht.trace _ hmem
            · obtain ⟨r0, hr0, -⟩ := ht.trace _ hmem
              exact ⟨r0, hr0⟩
          obtain rfl := h.record_eq hr0 hr
          have := hv.heard_le ht hmem hr0
          rw [hstamp]
          omega

/-- No clock reaches `bound`. -/
def ClocksBelow (bound : Nat) (_ : State n) (_ : Act n) (s' : State n) : Prop :=
  ∀ p, (s'.procs p).lc.toNat < bound

instance (bound : Nat) (s : State n) (a : Act n) (s' : State n) :
    Decidable (ClocksBelow bound s a s') :=
  inferInstanceAs (Decidable (∀ p, (s'.procs p).lc.toNat < bound))

theorem reachable_clocks {cfg : Cfg n} {s : State n}
    (hs : (system cfg).ReachableVia (ClocksBelow 10000) s) : Clocks s.view := by
  refine Transition.System.ReachableVia.invariant (P := fun s => Clocks s.view) ?_ ?_ s hs
  · refine ⟨?_, ?_, ?_, ?_, ?_⟩
    · intro p
      simp [system, init, State.view, Proc.view]
    all_goals simp [system, init, State.view, HeardBefore]
  · intro s a s' hs hclocks hstep hbound
    obtain ⟨hsound, hled⟩ := reachable_ledgers hs.reachable
    obtain ⟨hview, -⟩ := step_view hsound hstep
    exact hclocks.step hled.tagged hview hbound

/-- **Below 10000 no two messages share timestamp and pid.** -/
theorem Clocks.keysDistinct {v : View n} (hv : Clocks v) (cfg : Cfg n) :
    KeysDistinct cfg v.issued := by
  rw [KeysDistinct, List.Nodup, List.pairwise_map, List.pairwise_iff_getElem]
  intro i j hi hj hij heq
  obtain ⟨hstamp, hpid⟩ := Prod.mk.inj heq
  have hlt := hv.issued_lt i j _ _ hij (List.getElem?_eq_getElem hi)
    (List.getElem?_eq_getElem hj) (cfg.pid_injective hpid)
  rw [hstamp] at hlt
  exact absurd hlt (lt_irrefl _)

/-- **All queues agree on one causal order.** As long as no clock exceeds 9999,
two messages that stand in the queues of two processes stand there in the same
order; and if the issuer of `m'` had handled the BROAD of `m`, or had issued
`m`, when it handled the ISSUE of `m'`, then `m` stands before `m'` in every
queue that holds both. -/
theorem queues_agree_causally (cfg : Cfg n) {s : State n}
    (hs : (system cfg).ReachableVia (ClocksBelow 10000) s) (m m' : Nat) :
    (∀ p q, m ∈ (s.view.procs p).mids → m' ∈ (s.view.procs p).mids →
      m ∈ (s.view.procs q).mids → m' ∈ (s.view.procs q).mids →
      ([m, m'].Sublist (s.view.procs p).mids ↔ [m, m'].Sublist (s.view.procs q).mids)) ∧
    ∀ r p, HeardBefore s.trace r m m' →
      m ∈ (s.view.procs p).mids → m' ∈ (s.view.procs p).mids →
      [m, m'].Sublist (s.view.procs p).mids := by
  obtain ⟨hsound, hled⟩ := reachable_ledgers hs.reachable
  have hclocks := reachable_clocks hs
  have hkeys := hclocks.keysDistinct cfg
  constructor
  · intro p q hmp hmp' hmq hmq'
    by_cases hne : m = m'
    · subst hne
      have hnone : ∀ p, ¬ [m, m].Sublist (s.view.procs p).mids := fun p h =>
        not_pair_sublist_swap (hled.nodup_mids p) h h
      exact iff_of_false (hnone p) (hnone q)
    · obtain ⟨r, hr⟩ := hled.tagged.issued_of_mem hmp
      obtain ⟨r', hr'⟩ := hled.tagged.issued_of_mem hmp'
      rw [hled.pair_sublist_iff hkeys (hsound p).2 hmp hmp' hr hr' hne,
        hled.pair_sublist_iff hkeys (hsound q).2 hmq hmq' hr hr' hne]
  · intro q p hheard hm hm'
    obtain ⟨r, hr⟩ := hled.tagged.issued_of_mem hm
    obtain ⟨r', hr'⟩ := hled.tagged.issued_of_mem hm'
    have hlt := hclocks.causal q m m' r r' hr hr' hheard
    have hne : m ≠ m' := by
      rintro rfl
      obtain rfl := Option.some.inj (hr.symm.trans hr')
      exact absurd hlt (lt_irrefl _)
    rw [hled.pair_sublist_iff hkeys (hsound p).2 hm hm' hr hr' hne]
    exact Or.inl (UInt32.lt_iff_toNat_lt.mpr hlt)

/-- When both processes of `orderlyRun` have handled the BROAD of message 1, it
stands behind message 0 in both queues. -/
theorem orderly_queues_agree :
    let s := endOf (orderlyRun.take 19)
    (s.view.procs 0).mids = [0, 1] ∧ HeardBefore s.trace 1 0 1 ∧
      ([0, 1].Sublist (s.view.procs 0).mids ↔ [0, 1].Sublist (s.view.procs 1).mids) ∧
      [0, 1].Sublist (s.view.procs 1).mids := by
  have h := queues_agree_causally twoProcs (s := endOf (orderlyRun.take 19))
    (endOf_reachableVia (by decide +kernel)) 0 1
  have hheard : HeardBefore (endOf (orderlyRun.take 19)).trace 1 0 1 :=
    ⟨2, 3, Or.inl (by decide +kernel)⟩
  exact ⟨by decide +kernel, hheard,
    h.1 0 1 (by decide +kernel) (by decide +kernel) (by decide +kernel) (by decide +kernel),
    h.2 1 1 hheard (by decide +kernel) (by decide +kernel)⟩

end DistKv.Tob
