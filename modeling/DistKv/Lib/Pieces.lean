import DistKv.Lib.CString
import Mathlib.Algebra.Ring.Nat

/-!
# Transfers in pieces

A transfer of `left` items goes in calls that each move a part of what is left.
How the calls end is a list: `none` fails, `some k` moves `k + 1` items or what is
left, and the calls after those listed move everything.

A loop that looks in the wrong place for the next part is right for the first two
parts: with the size of the last part for an offset, the second part starts where
it should, and the third one does not.
-/

namespace Pieces

variable {α : Type}

/-- The sizes of the parts. -/
def parts : List (Option Nat) → Nat → List Nat
  | [], left => if left = 0 then [] else [left]
  | result :: rest, left =>
      if left = 0 then []
      else
        match result with
        | none => []
        | some k => min (k + 1) left :: parts rest (left - min (k + 1) left)

/-- A call fails before everything is moved. -/
def fails : List (Option Nat) → Nat → Bool
  | [], _ => false
  | result :: rest, left =>
      if left = 0 then false
      else
        match result with
        | none => true
        | some k => fails rest (left - min (k + 1) left)

theorem sum_parts_le (results : List (Option Nat)) (left : Nat) :
    (parts results left).sum ≤ left := by
  induction results generalizing left with
  | nil =>
      unfold parts
      split <;> simp
  | cons result rest ih =>
      unfold parts
      by_cases hleft : left = 0
      · simp [hleft]
      · cases result with
        | none => simp [hleft]
        | some k =>
            have := ih (left - min (k + 1) left)
            simp only [hleft, if_false, List.sum_cons]
            omega

/-- Without a failure everything is moved. -/
theorem sum_parts_of_not_fails {results : List (Option Nat)} {left : Nat}
    (h : fails results left = false) : (parts results left).sum = left := by
  induction results generalizing left with
  | nil =>
      unfold parts
      split <;> simp [*]
  | cons result rest ih =>
      unfold fails at h
      unfold parts
      by_cases hleft : left = 0
      · simp [hleft]
      · rw [if_neg hleft] at h
        cases result with
        | none => exact absurd h (by simp)
        | some k =>
            have := ih h
            simp only [hleft, if_false, List.sum_cons]
            omega

/-! ## Parts taken out of a buffer -/

/-- The parts of `l` behind each other, each taken from the place that `place` makes of
what was moved and of the size of the last part. -/
def cuts (place : Nat → Nat → Nat) (l : List α) : Nat → Nat → List Nat → List α
  | _, _, [] => []
  | total, last, p :: ps => (l.drop (place total last)).take p ++ cuts place l (total + p) p ps

/-- The items at the offset `last` are those that are due, for each part. -/
def InPlace (l : List α) : Nat → Nat → List Nat → Prop
  | _, _, [] => True
  | total, last, p :: ps =>
      (l.drop last).take p = (l.drop total).take p ∧ InPlace l (total + p) p ps

/-- Taken from behind what was moved, the parts are a prefix. -/
theorem cuts_total (l : List α) (total last : Nat) (ps : List Nat) :
    cuts (fun total _ => total) l total last ps = (l.drop total).take ps.sum := by
  induction ps generalizing total last with
  | nil => simp [cuts]
  | cons p ps ih => rw [cuts, ih, List.sum_cons, List.take_add, List.drop_drop]

/-- Taken from the size of the last part, they are one if they are in place. -/
theorem cuts_last_iff (l : List α) {total last : Nat} {ps : List Nat} (hlast : last ≤ total)
    (hsum : total + ps.sum ≤ l.length) :
    cuts (fun _ last => last) l total last ps = (l.drop total).take ps.sum ↔
      InPlace l total last ps := by
  induction ps generalizing total last with
  | nil => simp [cuts, InPlace]
  | cons p ps ih =>
      rw [List.sum_cons] at hsum
      have hlen : ((l.drop last).take p).length = ((l.drop total).take p).length := by
        simp only [List.length_take, List.length_drop]
        omega
      rw [cuts, InPlace, List.sum_cons, List.take_add, List.drop_drop,
        ← ih (Nat.le_add_left p total) (by omega)]
      exact List.append_eq_append_iff_of_size_eq_left hlen

/-- Two parts are always in place. -/
theorem inPlace_of_length_le_two (l : List α) {ps : List Nat} (h : ps.length ≤ 2) :
    InPlace l 0 0 ps := by
  match ps, h with
  | [], _ => trivial
  | [p], _ => exact ⟨rfl, trivial⟩
  | [p, q], _ => exact ⟨rfl, by rw [Nat.zero_add], trivial⟩

/-! ## Pieces put into a buffer -/

/-- The pieces of a stream of which `left` items are asked for. At its end there are none. -/
def pieces : List (Option Nat) → List α → Nat → List (List α)
  | [], stream, left => if left = 0 ∨ stream = [] then [] else [stream.take left]
  | result :: rest, stream, left =>
      if left = 0 ∨ stream = [] then []
      else
        match result with
        | none => []
        | some k =>
            let piece := stream.take (min (k + 1) left)
            piece :: pieces rest (stream.drop piece.length) (left - piece.length)

/-- A call fails before everything is there or the stream ends. -/
def stops : List (Option Nat) → List α → Nat → Bool
  | [], _, _ => false
  | result :: rest, stream, left =>
      if left = 0 then false
      else
        match result with
        | none => true
        | some k =>
            let piece := stream.take (min (k + 1) left)
            if piece = [] then false
            else stops rest (stream.drop piece.length) (left - piece.length)

theorem none_mem_of_stops {results : List (Option Nat)} {stream : List α} {left : Nat}
    (h : stops results stream left = true) : none ∈ results := by
  induction results generalizing stream left with
  | nil => cases h
  | cons result rest ih =>
      unfold stops at h
      split at h
      · cases h
      · cases result with
        | none => exact List.mem_cons_self
        | some k =>
            dsimp only at h
            split at h
            · cases h
            · exact List.mem_cons_of_mem _ (ih h)

theorem ne_nil_of_mem_pieces {results : List (Option Nat)} {stream : List α} {left : Nat}
    {piece : List α} (h : piece ∈ pieces results stream left) : piece ≠ [] := by
  induction results generalizing stream left with
  | nil =>
      unfold pieces at h
      by_cases hend : left = 0 ∨ stream = []
      · simp [hend] at h
      · rw [if_neg hend, List.mem_singleton] at h
        rw [h, ne_eq, List.take_eq_nil_iff]
        exact hend
  | cons result rest ih =>
      unfold pieces at h
      by_cases hend : left = 0 ∨ stream = []
      · simp [hend] at h
      · rw [if_neg hend] at h
        cases result with
        | none => simp at h
        | some k =>
            rcases List.mem_cons.mp h with rfl | h
            · rw [ne_eq, List.take_eq_nil_iff, Nat.min_eq_zero_iff]
              rintro ((hk | hleft) | hstream)
              · omega
              · exact hend (Or.inl hleft)
              · exact hend (Or.inr hstream)
            · exact ih h

/-- The pieces are a prefix of the stream. -/
theorem isPrefix_flatten_pieces (results : List (Option Nat)) (stream : List α) (left : Nat) :
    (pieces results stream left).flatten <+: stream.take left := by
  induction results generalizing stream left with
  | nil =>
      unfold pieces
      split
      · exact List.nil_prefix
      · simp
  | cons result rest ih =>
      unfold pieces
      by_cases hend : left = 0 ∨ stream = []
      · rw [if_pos hend]
        exact List.nil_prefix
      · rw [if_neg hend]
        cases result with
        | none => exact List.nil_prefix
        | some k =>
            show (stream.take (min (k + 1) left) :: pieces rest (stream.drop
              (stream.take (min (k + 1) left)).length)
                (left - (stream.take (min (k + 1) left)).length)).flatten <+: _
            have hle : (stream.take (min (k + 1) left)).length ≤ left := by
              rw [List.length_take]
              omega
            generalize hpiece : stream.take (min (k + 1) left) = piece at hle ⊢
            have hsplit : piece ++ stream.drop piece.length = stream := by
              rw [← List.prefix_iff_eq_append, ← hpiece]
              exact List.take_prefix _ _
            have htake : stream.take left =
                piece ++ (stream.drop piece.length).take (left - piece.length) := by
              rw [← hsplit, List.take_append, List.take_of_length_le hle, hsplit]
            rw [htake]
            exact (List.prefix_append_right_inj piece).mpr (ih _ _)

section Fill

open CText

/-- The pieces put into `buffer`, each at the size of the last one. -/
def fill : List UInt8 → Nat → List (List UInt8) → Option (List UInt8)
  | buffer, _, [] => some buffer
  | buffer, last, piece :: rest =>
      (store buffer last piece).bind fun buffer => fill buffer piece.length rest

/-- The pieces fit. -/
theorem fill_isSome {buffer : List UInt8} {last : Nat} {ps : List (List UInt8)}
    (h : last + ps.flatten.length ≤ buffer.length) : ∃ filled, fill buffer last ps = some filled ∧
      filled.length = buffer.length := by
  induction ps generalizing buffer last with
  | nil => exact ⟨buffer, rfl, rfl⟩
  | cons piece rest ih =>
      rw [List.flatten_cons, List.length_append] at h
      have hroom : last + piece.length ≤ buffer.length := by omega
      obtain ⟨stored, hstored⟩ : ∃ stored, store buffer last piece = some stored :=
        ⟨_, if_pos hroom⟩
      have hlen := length_of_store hstored
      obtain ⟨filled, hfilled, hsame⟩ := @ih stored piece.length (by omega)
      exact ⟨filled, by rw [fill, hstored, Option.bind_some, hfilled], hsame.trans hlen⟩

/-- A byte behind all pieces stays. -/
theorem getElem?_store {buffer bs stored : List UInt8} {off i : Nat}
    (h : store buffer off bs = some stored) (hi : off + bs.length ≤ i) :
    stored[i]? = buffer[i]? := by
  unfold store at h
  by_cases hroom : off + bs.length ≤ buffer.length
  · rw [if_pos hroom, Option.some.injEq] at h
    have hfront : (buffer.take off ++ bs).length = off + bs.length := by
      rw [List.length_append, List.length_take]
      omega
    rw [← h, List.getElem?_append_right (by omega), hfront, List.getElem?_drop]
    congr 1
    omega
  · rw [if_neg hroom] at h
    exact absurd h (by simp)

theorem getElem?_fill {buffer filled : List UInt8} {last i : Nat} {ps : List (List UInt8)}
    (h : fill buffer last ps = some filled) (hi : last + ps.flatten.length ≤ i) :
    filled[i]? = buffer[i]? := by
  induction ps generalizing buffer last with
  | nil => rw [Option.some.inj h]
  | cons piece rest ih =>
      rw [List.flatten_cons, List.length_append] at hi
      obtain ⟨stored, hstored, hrest⟩ := Option.bind_eq_some_iff.mp h
      rw [ih hrest (by omega), getElem?_store hstored (by omega)]

/-- Two pieces end up behind each other. -/
theorem fill_of_length_le_two {buffer filled : List UInt8} {ps : List (List UInt8)}
    (hlen : ps.length ≤ 2) (h : fill buffer 0 ps = some filled) :
    filled.take ps.flatten.length = ps.flatten := by
  have hstore : store buffer 0 ps.flatten = some filled := by
    match ps, hlen with
    | [], _ =>
        rw [← h]
        simp [store, fill]
    | [p], _ => simpa [fill] using h
    | [p, q], _ =>
        have htwo := store_store buffer p q 0
        rw [Nat.zero_add] at htwo
        simpa [fill, ← htwo] using h
  unfold store at hstore
  split at hstore
  · rw [← Option.some.inj hstore]
    simp
  · exact absurd hstore (by simp)

/-- With a third piece the last byte is never put into the buffer. -/
theorem getElem?_fill_of_two_lt {buffer filled : List UInt8} {ps : List (List UInt8)}
    (hlen : 2 < ps.length) (hne : ∀ p ∈ ps, p ≠ []) (h : fill buffer 0 ps = some filled) :
    filled[ps.flatten.length - 1]? = buffer[ps.flatten.length - 1]? := by
  obtain ⟨p, q, r, rest, rfl⟩ : ∃ p q r rest, ps = p :: q :: r :: rest := by
    match ps, hlen with
    | p :: q :: r :: rest, _ => exact ⟨p, q, r, rest, rfl⟩
  have hp : 0 < p.length := List.length_pos_iff.mpr (hne p (by simp))
  have hr : 0 < r.length := List.length_pos_iff.mpr (hne r (by simp))
  obtain ⟨first, hfirst, hrest⟩ := Option.bind_eq_some_iff.mp h
  obtain ⟨second, hsecond, hrest⟩ := Option.bind_eq_some_iff.mp hrest
  simp only [List.flatten_cons, List.length_append] at hrest ⊢
  rw [getElem?_fill hrest (by simp only [List.flatten_cons, List.length_append]; omega),
    getElem?_store hsecond (by omega), getElem?_store hfirst (by omega)]

/-- **Pieces put at the size of the last one** come out as the stream for every buffer
they are put into if and only if there are at most two of them. -/
theorem fill_iff {len : Nat} {ps : List (List UInt8)} (hne : ∀ p ∈ ps, p ≠ [])
    (hlen : ps.flatten.length ≤ len) :
    (∀ buffer : Vector UInt8 len, ∃ filled, fill buffer.toList 0 ps = some filled ∧
      filled.take ps.flatten.length = ps.flatten) ↔ ps.length ≤ 2 := by
  constructor
  · intro h
    by_contra htwo
    have htwo := Nat.lt_of_not_le htwo
    -- a buffer without the byte that comes last
    have hpos : 0 < ps.flatten.length := by
      match ps, htwo with
      | p :: q :: r :: rest, _ =>
          have := List.length_pos_iff.mpr (hne p (by simp))
          simp only [List.flatten_cons, List.length_append]
          omega
    generalize hlast : ps.flatten[ps.flatten.length - 1] = b
    obtain ⟨filled, hfilled, htake⟩ := h (Vector.replicate len (b + 1))
    have hkept := getElem?_fill_of_two_lt htwo hne hfilled
    rw [Vector.toList_replicate, List.getElem?_replicate, if_pos (by omega)] at hkept
    have hdue : filled[ps.flatten.length - 1]? = some b := by
      have := congrArg (fun l => l[ps.flatten.length - 1]?) htake
      simp only [List.getElem?_take] at this
      rw [if_pos (by omega)] at this
      rw [this, List.getElem?_eq_getElem (by omega), hlast]
    rw [hdue, Option.some.injEq] at hkept
    simp at hkept
  · intro h buffer
    obtain ⟨filled, hfilled, -⟩ := @fill_isSome buffer.toList 0 ps (by simpa using hlen)
    exact ⟨filled, hfilled, fill_of_length_le_two h hfilled⟩

end Fill

end Pieces
