import DistKv.Memcache.HandleClient

/-!
# The loop of `parse_body` (`server_mt.c`)

The loop asks for the value and the two bytes behind it, and stops as soon as it
has the value. It is therefore left with the whole body only if no `recv` ends
at the last byte of the value or one behind it. A peer that closes early leaves
it asking for ever.
-/

namespace DistKv.Memcache

open CText

theorem recv_append {s s' : Incoming} {len : Nat} {bytes : List UInt8}
    (h : s.recv len = (some bytes, s')) : bytes ++ s'.input = s.input := by
  unfold Incoming.recv at h
  rcases hr : s.recvs with _ | ⟨_ | k, rest⟩ <;> rw [hr] at h
  · obtain ⟨rfl, rfl⟩ := by simpa using h
    exact List.take_append_drop _ _
  · simp at h
  · obtain ⟨rfl, rfl⟩ := by simpa using h
    exact List.take_append_drop _ _

theorem length_le_of_recv {s s' : Incoming} {len : Nat} {bytes : List UInt8}
    (h : s.recv len = (some bytes, s')) : bytes.length ≤ len := by
  unfold Incoming.recv at h
  rcases hr : s.recvs with _ | ⟨_ | k, rest⟩ <;> rw [hr] at h
  · obtain ⟨rfl, -⟩ := by simpa using h
    rw [List.length_take]
    omega
  · simp at h
  · obtain ⟨rfl, -⟩ := by simpa using h
    rw [List.length_take]
    omega

/-- One turn of the loop, where it ends well. -/
theorem bodyLoop_succ {actualSize : Int} {fuel : Nat} {s s' : Incoming} {buffer got : List UInt8} :
    bodyLoop actualSize (fuel + 1) s buffer = some (some got, s') ↔
      actualSize ≤ buffer.length ∧ buffer = got ∧ s = s' ∨
      (buffer.length : Int) < actualSize ∧ ∃ bytes s₁,
        s.recv (actualSize + 2 - buffer.length).toNat = (some bytes, s₁) ∧
        bodyLoop actualSize fuel s₁ (buffer ++ bytes) = some (some got, s') := by
  rw [bodyLoop]
  by_cases hmore : (buffer.length : Int) < actualSize
  · rw [if_pos hmore]
    rcases s.recv (actualSize + 2 - buffer.length).toNat with ⟨_ | bytes, s₁⟩
    · simp [hmore]
    · simp [hmore]
  · rw [if_neg hmore]
    simp [hmore, Int.not_lt.mp hmore]

/-! ## What is in the buffer -/

/-- The loop moves bytes from the stream to the end of the buffer. -/
theorem bodyLoop_append {actualSize : Int} {fuel : Nat} {s s' : Incoming}
    {buffer got : List UInt8} (h : bodyLoop actualSize fuel s buffer = some (some got, s')) :
    got ++ s'.input = buffer ++ s.input := by
  induction fuel generalizing s buffer with
  | zero => simp [bodyLoop] at h
  | succ fuel ih =>
      rcases bodyLoop_succ.mp h with ⟨-, rfl, rfl⟩ | ⟨-, bytes, s₁, hrecv, hrest⟩
      · rfl
      · rw [ih hrest, List.append_assoc, recv_append hrecv]

theorem bodyRead_append {actualSize : Int} {s s' : Incoming} {buffer : List UInt8}
    (h : BodyRead actualSize s buffer s') : buffer ++ s'.input = s.input :=
  bodyLoop_append h.2.1

theorem bodyRead_eq {actualSize : Int} {s s' : Incoming} {buffer : List UInt8}
    (h : BodyRead actualSize s buffer s') : buffer = s.input.take (actualSize + 2).toNat := by
  rw [← bodyRead_append h, List.take_append_of_le_length (by have := h.2.2; omega),
    List.take_of_length_le (by have := h.2.2; omega)]

/-! ## How often it asks -/

/-- At the end of the stream the loop goes on. -/
theorem bodyLoop_stuck {actualSize : Int} {buffer : List UInt8}
    (hmore : (buffer.length : Int) < actualSize) (fuel : Nat) :
    bodyLoop actualSize fuel ⟨[], []⟩ buffer = none := by
  induction fuel with
  | zero => rfl
  | succ fuel ih =>
      unfold bodyLoop
      rw [if_pos hmore]
      simpa [Incoming.recv] using ih

/-- **Two calls after the listed ones are enough**: where the loop has no result by
then, it never has one. -/
theorem bodyLoop_of_fuel {actualSize : Int} {fuel : Nat} {s : Incoming} {buffer : List UInt8}
    {r : Option (List UInt8) × Incoming} (h : bodyLoop actualSize fuel s buffer = some r) :
    bodyLoop actualSize (s.recvs.length + 2) s buffer = some r := by
  induction fuel generalizing s buffer with
  | zero => simp [bodyLoop] at h
  | succ fuel ih =>
      unfold bodyLoop at h ⊢
      by_cases hmore : (buffer.length : Int) < actualSize
      · rw [if_pos hmore] at h ⊢
        obtain ⟨input, recvs⟩ := s
        rcases recvs with _ | ⟨_ | k, rest⟩
        · -- the rest of the body in one call, or a stream that ends before it
          simp only [Incoming.recv] at h ⊢
          generalize hlen : (actualSize + 2 - buffer.length).toNat = len at h ⊢
          by_cases hall : ((buffer ++ input.take len).length : Int) < actualSize
          · have hend : input.drop len = [] := by
              rw [List.length_append, List.length_take] at hall
              rw [List.drop_eq_nil_iff]
              omega
            rw [hend, bodyLoop_stuck hall] at h
            exact absurd h (by simp)
          · have hdone := ih h
            unfold bodyLoop at hdone ⊢
            rw [if_neg hall] at hdone ⊢
            exact hdone
        · simpa [Incoming.recv] using h
        · simp only [Incoming.recv] at h ⊢
          exact ih h
      · rw [if_neg hmore] at h ⊢
        exact h

/-! ## When it gets the body -/

/-- From `got` bytes on, the calls to `recv` end exactly at the end of the body. -/
inductive BodyArrives (actualSize : Int) : Incoming → Nat → Prop
  | whole {s : Incoming} {got : Nat} (h : (got : Int) = actualSize + 2) :
      BodyArrives actualSize s got
  | part {s s' : Incoming} {got : Nat} {bytes : List UInt8} (hmore : (got : Int) < actualSize)
      (hrecv : s.recv (actualSize + 2 - got).toNat = (some bytes, s'))
      (rest : BodyArrives actualSize s' (got + bytes.length)) : BodyArrives actualSize s got

theorem bodyArrives_of_bodyLoop {actualSize : Int} {fuel : Nat} {s s' : Incoming}
    {buffer got : List UInt8} (h : bodyLoop actualSize fuel s buffer = some (some got, s'))
    (hlen : (got.length : Int) = actualSize + 2) : BodyArrives actualSize s buffer.length := by
  induction fuel generalizing s buffer with
  | zero => simp [bodyLoop] at h
  | succ fuel ih =>
      rcases bodyLoop_succ.mp h with ⟨-, rfl, -⟩ | ⟨hmore, bytes, s₁, hrecv, hrest⟩
      · exact .whole hlen
      · have harrives := ih hrest
        rw [List.length_append] at harrives
        exact .part hmore hrecv harrives

theorem BodyArrives.bodyLoop {actualSize : Int} {s : Incoming} {n : Nat}
    (h : BodyArrives actualSize s n) {buffer : List UInt8} (hn : buffer.length = n) :
    ∃ fuel got s', DistKv.Memcache.bodyLoop actualSize fuel s buffer = some (some got, s') ∧
      (got.length : Int) = actualSize + 2 := by
  induction h generalizing buffer with
  | @whole s got hgot =>
      exact ⟨1, buffer, s, bodyLoop_succ.mpr (Or.inl ⟨by omega, rfl, rfl⟩), by rw [hn, hgot]⟩
  | @part s s' got bytes hmore hrecv _ ih =>
      subst hn
      have hmoved : (buffer ++ bytes).length = buffer.length + bytes.length := List.length_append
      obtain ⟨fuel, got, s', hloop, hlen⟩ := ih hmoved
      exact ⟨fuel + 1, got, s', bodyLoop_succ.mpr (Or.inr ⟨hmore, bytes, _, hrecv, hloop⟩), hlen⟩

/-- **`parse_body` gets the body if and only if the calls end with it.** -/
theorem bodyRead_iff {actualSize : Int} {s : Incoming} :
    (∃ buffer s', BodyRead actualSize s buffer s') ↔
      actualSize + 2 < 2 ^ 31 ∧ BodyArrives actualSize s 0 := by
  refine ⟨?_, ?_⟩
  · rintro ⟨buffer, s', hint, hloop, hlen⟩
    exact ⟨hint, bodyArrives_of_bodyLoop hloop hlen⟩
  · rintro ⟨hint, harrives⟩
    have hnil : ([] : List UInt8).length = 0 := rfl
    obtain ⟨fuel, got, s', hloop, hlen⟩ := harrives.bodyLoop hnil
    exact ⟨got, s', hint, bodyLoop_of_fuel hloop, hlen⟩

/-! ## Total and exact -/

/-- `len` bytes can be read before the first 0 or -1, asking for the rest each time. -/
inductive Readable : Incoming → Nat → Prop
  | done {s : Incoming} : Readable s 0
  | more {s s' : Incoming} {len : Nat} {bytes : List UInt8}
      (hrecv : s.recv len = (some bytes, s')) (hne : bytes ≠ [])
      (rest : Readable s' (len - bytes.length)) : Readable s len

/-- What a reader of `actual_size + 2` bytes does: it returns, and it returns 0 with
these bytes in its buffer if and only if they can be read. -/
structure ReadsBody (actualSize : Int) (c : Conn) : Prop where
  returns : ∃ fuel r, bodyLoop actualSize fuel c.incoming [] = some r
  exact : (∃ c', parseBody actualSize c =
      .ok (some (c.incoming.input.take (actualSize + 2).toNat), c')) ↔
    Readable c.incoming (actualSize + 2).toNat

/-- From `got` bytes on, the results of the calls suit the loop of `parse_body`. -/
inductive SuitsLoop (actualSize : Int) : Incoming → Nat → Prop
  /-- -1 comes before the value is there -/
  | failed {s s' : Incoming} {got : Nat} (hmore : (got : Int) < actualSize)
      (hrecv : s.recv (actualSize + 2 - got).toNat = (none, s')) : SuitsLoop actualSize s got
  | part {s s' : Incoming} {got : Nat} {bytes : List UInt8} (hmore : (got : Int) < actualSize)
      (hrecv : s.recv (actualSize + 2 - got).toNat = (some bytes, s'))
      (rest : SuitsLoop actualSize s' (got + bytes.length)) : SuitsLoop actualSize s got
  /-- with the value came the two bytes behind it, or they cannot be read -/
  | stop {s : Incoming} {got : Nat} (hvalue : actualSize ≤ got)
      (hend : (got : Int) = actualSize + 2 ∨ ¬ Readable s (actualSize + 2 - got).toNat) :
      SuitsLoop actualSize s got

theorem not_readable_of_recv_none {s s' : Incoming} {len : Nat} (hlen : 0 < len)
    (h : s.recv len = (none, s')) : ¬ Readable s len := by
  intro hread
  cases hread with
  | done => exact absurd hlen (Nat.lt_irrefl 0)
  | more hrecv _ _ => exact absurd (hrecv.symm.trans h) (by simp)

/-- Behind the end of the stream nothing can be read. -/
theorem not_readable_of_end {s : Incoming} {len : Nat} (hlen : 0 < len) (hend : s.input = []) :
    ¬ Readable s len := by
  intro hread
  cases hread with
  | done => exact absurd hlen (Nat.lt_irrefl 0)
  | more hrecv hne _ =>
      have happend := recv_append hrecv
      rw [hend, List.append_eq_nil_iff] at happend
      exact hne happend.1

/-- A call that returns 0 was made at the end of the stream. -/
theorem input_eq_nil_of_recv_nil {s s' : Incoming} {len : Nat} (hlen : 0 < len)
    (h : s.recv len = (some [], s')) : s'.input = [] := by
  have happend := recv_append h
  rw [List.nil_append] at happend
  rw [happend]
  unfold Incoming.recv at h
  rcases hr : s.recvs with _ | ⟨_ | k, rest⟩ <;> rw [hr] at h
  · have htake : s.input.take len = [] := (Prod.mk.inj h).1 |> Option.some.inj
    rcases List.take_eq_nil_iff.mp htake with h0 | hnil
    · omega
    · exact hnil
  · simp at h
  · have htake : s.input.take (min (k + 1) len) = [] := (Prod.mk.inj h).1 |> Option.some.inj
    rcases List.take_eq_nil_iff.mp htake with h0 | hnil
    · omega
    · exact hnil

theorem readable_part_iff {s s' : Incoming} {len : Nat} {bytes : List UInt8} (hlen : 0 < len)
    (hrecv : s.recv len = (some bytes, s')) :
    Readable s len ↔ Readable s' (len - bytes.length) := by
  constructor
  · intro h
    cases h with
    | done => exact absurd hlen (Nat.lt_irrefl 0)
    | more hrecv' _ rest =>
        obtain ⟨hbytes, rfl⟩ := Prod.mk.inj (hrecv.symm.trans hrecv')
        rw [Option.some.inj hbytes]
        exact rest
  · intro h
    by_cases hne : bytes = []
    · subst hne
      have hend := input_eq_nil_of_recv_nil hlen hrecv
      exact absurd h (not_readable_of_end (by simpa using hlen) hend)
    · exact .more hrecv hne h

section Turns

variable {actualSize : Int} {s s' : Incoming} {n : Nat} {bytes : List UInt8}

theorem bodyArrives_part_iff (hmore : (n : Int) < actualSize)
    (hrecv : s.recv (actualSize + 2 - n).toNat = (some bytes, s')) :
    BodyArrives actualSize s n ↔ BodyArrives actualSize s' (n + bytes.length) := by
  constructor
  · intro h
    cases h with
    | whole hn => omega
    | part _ hrecv' rest =>
        obtain ⟨hbytes, rfl⟩ := Prod.mk.inj (hrecv.symm.trans hrecv')
        rw [Option.some.inj hbytes]
        exact rest
  · exact .part hmore hrecv

theorem not_bodyArrives_of_failed (hmore : (n : Int) < actualSize)
    (hrecv : s.recv (actualSize + 2 - n).toNat = (none, s')) : ¬ BodyArrives actualSize s n := by
  intro h
  cases h with
  | whole hn => omega
  | part _ hrecv' _ => exact absurd (hrecv'.symm.trans hrecv) (by simp)

theorem bodyArrives_stop_iff (hvalue : actualSize ≤ n) :
    BodyArrives actualSize s n ↔ (n : Int) = actualSize + 2 := by
  constructor
  · intro h
    cases h with
    | whole hn => exact hn
    | part hmore _ _ => omega
  · exact .whole

/-- What is asked for after a part. -/
theorem rest_after_part (hrecv : s.recv (actualSize + 2 - n).toNat = (some bytes, s')) :
    (actualSize + 2 - n).toNat - bytes.length =
      (actualSize + 2 - ((n + bytes.length : Nat) : Int)).toNat := by
  have := length_le_of_recv hrecv
  omega

end Turns

/-- Where the results suit the loop, it ends, and with the body if that can be read. -/
theorem SuitsLoop.readsBody {actualSize : Int} {s : Incoming} {n : Nat}
    (h : SuitsLoop actualSize s n) {buffer : List UInt8} (hn : buffer.length = n) :
    (∃ fuel r, DistKv.Memcache.bodyLoop actualSize fuel s buffer = some r) ∧
      (BodyArrives actualSize s n ↔ Readable s (actualSize + 2 - n).toNat) := by
  induction h generalizing buffer with
  | @failed s s' got hmore hrecv =>
      subst hn
      refine ⟨⟨1, (none, s'), ?_⟩, ?_⟩
      · rw [DistKv.Memcache.bodyLoop, if_pos hmore, hrecv]
      · exact iff_of_false (not_bodyArrives_of_failed hmore hrecv)
          (not_readable_of_recv_none (by omega) hrecv)
  | @part s s' got bytes hmore hrecv _ ih =>
      subst hn
      have hmoved : (buffer ++ bytes).length = buffer.length + bytes.length := List.length_append
      obtain ⟨⟨fuel, r, hloop⟩, harrives⟩ := ih hmoved
      refine ⟨⟨fuel + 1, r, ?_⟩, ?_⟩
      · rw [DistKv.Memcache.bodyLoop, if_pos hmore, hrecv]
        exact hloop
      · rw [bodyArrives_part_iff hmore hrecv, harrives, readable_part_iff (by omega) hrecv,
          rest_after_part hrecv]
  | @stop s got hvalue hend =>
      subst hn
      refine ⟨⟨1, (some buffer, s), ?_⟩, ?_⟩
      · rw [DistKv.Memcache.bodyLoop, if_neg (by omega)]
      · rw [bodyArrives_stop_iff hvalue]
        rcases hend with heq | hnot
        · rw [heq, Int.sub_self]
          exact iff_of_true rfl .done
        · refine iff_of_false (fun heq => hnot ?_) hnot
          rw [heq, Int.sub_self]
          exact .done

theorem suitsLoop_of_readsBody {actualSize : Int} {fuel : Nat} {s : Incoming}
    {buffer : List UInt8} {r : Option (List UInt8) × Incoming}
    (hloop : bodyLoop actualSize fuel s buffer = some r)
    (hiff : BodyArrives actualSize s buffer.length ↔
      Readable s (actualSize + 2 - buffer.length).toNat) :
    SuitsLoop actualSize s buffer.length := by
  induction fuel generalizing s buffer with
  | zero => exact absurd hloop (by simp [bodyLoop])
  | succ fuel ih =>
      by_cases hmore : (buffer.length : Int) < actualSize
      · rw [bodyLoop, if_pos hmore] at hloop
        rcases hrecv : s.recv (actualSize + 2 - buffer.length).toNat with ⟨_ | bytes, s'⟩
        · exact .failed hmore hrecv
        · rw [hrecv] at hloop
          have hmoved : (buffer ++ bytes).length = buffer.length + bytes.length :=
            List.length_append
          refine .part hmore hrecv ?_
          rw [← hmoved]
          refine ih hloop ?_
          rw [hmoved, ← bodyArrives_part_iff hmore hrecv, hiff,
            readable_part_iff (by omega) hrecv, rest_after_part hrecv]
      · rw [bodyArrives_stop_iff (Int.not_lt.mp hmore)] at hiff
        refine .stop (Int.not_lt.mp hmore) ?_
        by_cases hread : Readable s (actualSize + 2 - buffer.length).toNat
        · exact Or.inl (hiff.mpr hread)
        · exact Or.inr hread

/-- Where `parse_body` returns 0, its buffer holds the bytes it was to read. -/
theorem parseBody_eq_ok_iff {actualSize : Int} (hint : actualSize + 2 < 2 ^ 31) (c : Conn) :
    (∃ c', parseBody actualSize c =
        .ok (some (c.incoming.input.take (actualSize + 2).toNat), c')) ↔
      BodyArrives actualSize c.incoming 0 := by
  have hread : (∃ buffer s', BodyRead actualSize c.incoming buffer s') ↔
      actualSize + 2 < 2 ^ 31 ∧ BodyArrives actualSize c.incoming 0 := bodyRead_iff
  rw [and_iff_right hint] at hread
  rw [← hread]
  constructor
  · rintro ⟨c', h⟩
    exact ⟨_, _, (parseBody_eq_ok.mp h).1⟩
  · rintro ⟨buffer, s', h⟩
    refine ⟨{ c with incoming := s' }, parseBody_eq_ok.mpr ⟨?_, rfl⟩⟩
    rw [← bodyRead_eq h]
    exact h

/-- **`parse_body` is total and exact** if and only if the results of its calls suit
its loop. -/
theorem parse_body_exact_iff {actualSize : Int} (hint : actualSize + 2 < 2 ^ 31) (c : Conn) :
    ReadsBody actualSize c ↔ SuitsLoop actualSize c.incoming 0 := by
  have hrest : (actualSize + 2 - ((0 : Nat) : Int)).toNat = (actualSize + 2).toNat := by omega
  constructor
  · rintro ⟨⟨fuel, r, hloop⟩, hexact⟩
    rw [parseBody_eq_ok_iff hint] at hexact
    exact suitsLoop_of_readsBody hloop (by rwa [List.length_nil, hrest])
  · intro h
    have hnil : ([] : List UInt8).length = 0 := rfl
    obtain ⟨hreturns, harrives⟩ := h.readsBody hnil
    refine ⟨hreturns, ?_⟩
    rw [parseBody_eq_ok_iff hint, harrives, hrest]

/-- A connection on which nothing fails. -/
def quietConn (incoming : Incoming) : Conn :=
  { incoming := incoming, mallocs := fun _ => true, erange := false, events := [] }

/-- A value of one byte that comes in one piece with the two bytes behind it. -/
theorem parse_body_exact_byte :
    (1 : Int) + 2 < 2 ^ 31 ∧ ReadsBody 1 (quietConn ⟨[120, 13, 10], []⟩) := by
  refine ⟨by decide, (parse_body_exact_iff (by decide) _).mpr ?_⟩
  have hrecv : (⟨[120, 13, 10], []⟩ : Incoming).recv 3 = (some [120, 13, 10], ⟨[], []⟩) := rfl
  exact .part (by decide) hrecv (.stop (by decide) (Or.inl (by decide)))

/-- The peer closes after one byte of a value of three. -/
theorem parse_body_never_returns : ¬ ReadsBody 3 (quietConn ⟨[120], []⟩) := by
  rintro ⟨⟨fuel, r, hloop⟩, -⟩
  have hresult := bodyLoop_of_fuel hloop
  exact absurd (hresult.symm.trans (show _ = none by decide)) (by simp)

/-! ## What is queued -/

/-- What is queued is the node of a request. -/
theorem NodeRead.request {erange : Bool} {s s' : Incoming} {node : KvNode}
    (h : NodeRead erange s node s') : ∃ r : Request, node = r.node := by
  cases h with
  | set _ _ _ hread =>
      obtain ⟨_, _, sizes, key, _, buffer, -, -, -, -, hbody, rfl⟩ := hread
      have hshort : (Str.ofBytes buffer).length < 2 ^ 64 := by
        have hle := Str.length_ofBytes_le buffer
        have := hbody.1
        have := hbody.2.2
        omega
      exact ⟨.set ⟨key, sizes.valueSize, Str.ofBytes buffer, hshort⟩, rfl⟩
  | get _ _ _ hread =>
      obtain ⟨_, token, -, -, rfl⟩ := hread
      exact ⟨.get (Str.ofBytes token), rfl⟩

/-- **`handle_client` queues the nodes of requests and nothing else.** -/
theorem handleClient_request {c c' : Conn} {item : WorkItem}
    (h : handleClient c = .ok (item, c')) : ∃ r : Request, item.node = r.node :=
  (handleClient_eq_ok.mp h).1.request

end DistKv.Memcache
