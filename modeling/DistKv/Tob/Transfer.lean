import DistKv.Lib.Pieces
import DistKv.Tob.Broadcast

/-!
# Partial transfers (`send_buffer`, `recv_buffer`, `sendFullBuffer`)

The three loops transfer a buffer in as many calls as it takes. The client's
`sendFullBuffer` takes each part from behind what was sent. `send_buffer` and
`recv_buffer` go to the offset of the size of the last part, which is the right
place for the second part and for no other.
-/

namespace DistKv.Tob.Wire

open CText Pieces

/-- A buffer to send. Its length is counted in `int`s. -/
structure Buffer where
  bytes : Bytes
  int_length : bytes.length < 2 ^ 31

/-! ## Sending -/

/-- `sendFullBuffer`: `send(sfd, buf+total, bleft, 0)`. The result of the last call is not
set before the loop, so without a call it is what was there. -/
def sendFullBuffer (junk : Bool) (buffer : Buffer) (results : List (Option Nat)) : Sent :=
  let r := sendLoop (fun total _ => total) buffer.bytes results 0 0
  if buffer.bytes = [] then { r with failed := junk } else r

/-- The loop takes each part from its place, and counts them. -/
theorem sendLoop_eq (place : Nat → Nat → Nat) (buffer : Bytes) (results : List (Option Nat))
    {total : Nat} (bsent : Nat) (htotal : total ≤ buffer.length) :
    sendLoop place buffer results total bsent =
      ⟨fails results (buffer.length - total),
        cuts place buffer total bsent (parts results (buffer.length - total)),
        total + (parts results (buffer.length - total)).sum⟩ := by
  induction results generalizing total bsent with
  | nil =>
      unfold sendLoop parts fails
      by_cases hmore : total < buffer.length
      · rw [if_pos hmore, if_neg (by omega)]
        simp only [cuts, List.append_nil, List.sum_singleton]
        rw [Nat.add_sub_cancel' htotal]
      · rw [if_neg hmore, if_pos (by omega)]
        rfl
  | cons result rest ih =>
      unfold sendLoop parts fails
      by_cases hmore : total < buffer.length
      · have hleft : buffer.length - total ≠ 0 := by omega
        rw [if_pos hmore, if_neg hleft, if_neg hleft]
        cases result with
        | none => rfl
        | some k =>
            have hle : total + min (k + 1) (buffer.length - total) ≤ buffer.length := by omega
            have hrest := ih (min (k + 1) (buffer.length - total)) hle
            simp only [hrest, cuts, List.sum_cons, Nat.sub_add_eq, Nat.add_assoc]
      · have hleft : buffer.length - total = 0 := by omega
        rw [if_neg hmore, if_pos hleft, if_pos hleft]
        rfl

/-- What a loop of `send` is for: the bytes the calls took are on the connection, in order,
as the client's loop puts them there, and their number is stored. -/
structure SendsInOrder (buffer : Buffer) (results : List (Option Nat)) : Prop where
  counted : (sendBuffer buffer.bytes results).len = (parts results buffer.bytes.length).sum
  taken : (sendBuffer buffer.bytes results).put =
    buffer.bytes.take (sendBuffer buffer.bytes results).len
  whole : (sendBuffer buffer.bytes results).failed = false →
    (sendBuffer buffer.bytes results).put = buffer.bytes
  same : ∀ junk, (sendBuffer buffer.bytes results).put = (sendFullBuffer junk buffer results).put

theorem sendFullBuffer_put (junk : Bool) (buffer : Buffer) (results : List (Option Nat)) :
    (sendFullBuffer junk buffer results).put =
      buffer.bytes.take (parts results buffer.bytes.length).sum := by
  have hput : (sendFullBuffer junk buffer results).put =
      (sendLoop (fun total _ => total) buffer.bytes results 0 0).put := by
    unfold sendFullBuffer
    split <;> rfl
  rw [hput, sendLoop_eq _ _ _ _ (Nat.zero_le _), Nat.sub_zero, cuts_total, List.drop_zero]

theorem sendsInOrder_iff (buffer : Buffer) (results : List (Option Nat)) :
    SendsInOrder buffer results ↔
      InPlace buffer.bytes 0 0 (parts results buffer.bytes.length) := by
  have hsum := sum_parts_le results buffer.bytes.length
  have hplace := cuts_last_iff buffer.bytes (Nat.le_refl 0)
    (show 0 + (parts results buffer.bytes.length).sum ≤ buffer.bytes.length by omega)
  have hloop : sendBuffer buffer.bytes results = _ := sendLoop_eq _ _ _ _ (Nat.zero_le _)
  rw [Nat.sub_zero, Nat.zero_add] at hloop
  rw [← hplace, List.drop_zero]
  constructor
  · intro h
    have htaken := h.taken
    rwa [hloop] at htaken
  · intro h
    refine ⟨by rw [hloop], by rw [hloop]; exact h, fun hok => ?_, fun junk => ?_⟩
    · rw [hloop] at hok ⊢
      rw [h, sum_parts_of_not_fails hok, List.take_length]
    · rw [hloop, sendFullBuffer_put]
      exact h

/-- Two parts are always sent in order. -/
theorem sendsInOrder_of_two_parts {buffer : Buffer} {results : List (Option Nat)}
    (h : (parts results buffer.bytes.length).length ≤ 2) : SendsInOrder buffer results :=
  (sendsInOrder_iff buffer results).mpr (inPlace_of_length_le_two buffer.bytes h)

/-! ## Receiving -/

/-- What `recv_buffer` leaves: whether the last call failed, the buffer, the length it
stores, and the rest of the stream. -/
structure Received where
  failed : Bool
  buffer : Bytes
  len : Nat
  rest : Bytes

/-- The loop of `recv_buffer`; no result where it leaves the buffer. -/
def recvLoop (bufLen : Nat) :
    List (Option Nat) → Bytes → Bytes → Nat → Nat → Option Received
  | [], stream, buffer, total, brecv =>
      if total < bufLen then
        let piece := stream.take (bufLen - total)
        -- 0: the connection was closed
        if piece = [] then some ⟨false, buffer, total, stream⟩
        else
          (store buffer brecv piece).map fun buffer =>
            ⟨false, buffer, total + piece.length, stream.drop piece.length⟩
      else some ⟨false, buffer, total, stream⟩
  | result :: rest, stream, buffer, total, brecv =>
      if total < bufLen then
        match result with
        | none => some ⟨true, buffer, total, stream⟩
        | some k =>
            let piece := stream.take (min (k + 1) (bufLen - total))
            if piece = [] then some ⟨false, buffer, total, stream⟩
            else
              (store buffer brecv piece).bind fun buffer =>
                recvLoop bufLen rest (stream.drop piece.length) buffer (total + piece.length)
                  piece.length
      else some ⟨false, buffer, total, stream⟩

/-- `recv_buffer`, for what the buffer holds before. -/
def recvBuffer {bufLen : Nat} (results : List (Option Nat)) (stream : Bytes)
    (junk : Vector UInt8 bufLen) : Option Received :=
  recvLoop bufLen results stream junk.toList 0 0

/-- What a loop of `recv` is for: the bytes the calls gave are the first in the buffer, and
their number is stored. -/
def ReceivesInOrder {bufLen : Nat} (results : List (Option Nat)) (stream : Bytes)
    (junk : Vector UInt8 bufLen) : Prop :=
  ∃ r, recvBuffer results stream junk = some r ∧ stream.take r.len ++ r.rest = stream ∧
    r.buffer.take r.len = stream.take r.len ∧
    (r.failed = false → r.len = min bufLen stream.length)

/-- A call that asks for something gets nothing only at the end of the stream. -/
theorem take_ne_nil {stream : Bytes} {len : Nat} (hlen : len ≠ 0) (hend : stream ≠ []) :
    stream.take len ≠ [] := by
  rw [ne_eq, List.take_eq_nil_iff, not_or]
  exact ⟨hlen, hend⟩

/-- The loop puts the pieces into the buffer, each at the size of the last one. -/
theorem recvLoop_eq {bufLen : Nat} (results : List (Option Nat)) (stream buffer : Bytes)
    {total : Nat} (brecv : Nat) (htotal : total ≤ bufLen) :
    recvLoop bufLen results stream buffer total brecv =
      (fill buffer brecv (pieces results stream (bufLen - total))).map fun filled =>
        ⟨stops results stream (bufLen - total), filled,
          total + (pieces results stream (bufLen - total)).flatten.length,
          stream.drop (pieces results stream (bufLen - total)).flatten.length⟩ := by
  induction results generalizing stream buffer total brecv with
  | nil =>
      unfold recvLoop pieces stops
      by_cases hmore : total < bufLen
      · have hleft : bufLen - total ≠ 0 := by omega
        rw [if_pos hmore]
        by_cases hend : stream = []
        · subst hend
          simp [fill]
        · rw [if_neg (take_ne_nil hleft hend), if_neg (by simp [hleft, hend])]
          simp [fill]
      · have hleft : bufLen - total = 0 := by omega
        rw [if_neg hmore, if_pos (Or.inl hleft)]
        rfl
  | cons result rest ih =>
      unfold recvLoop pieces stops
      by_cases hmore : total < bufLen
      · have hleft : bufLen - total ≠ 0 := by omega
        rw [if_pos hmore, if_neg hleft]
        cases result with
        | none =>
            by_cases hend : stream = []
            · subst hend
              simp [fill]
            · rw [if_neg (by simp [hleft, hend])]
              rfl
        | some k =>
            by_cases hend : stream = []
            · subst hend
              simp [fill]
            · have hpiece : stream.take (min (k + 1) (bufLen - total)) ≠ [] :=
                take_ne_nil (by omega) hend
              have hle : (stream.take (min (k + 1) (bufLen - total))).length ≤ bufLen - total := by
                rw [List.length_take]
                omega
              simp only [hpiece, hleft, hend, or_false, if_false]
              generalize stream.take (min (k + 1) (bufLen - total)) = piece at hle
              have hrest : ∀ buffer, recvLoop bufLen rest (stream.drop piece.length) buffer
                  (total + piece.length) piece.length = _ := fun buffer =>
                @ih (stream.drop piece.length) buffer (total + piece.length) piece.length (by omega)
              simp only [hrest, fill, Option.map_bind, List.flatten_cons, List.length_append,
                List.drop_drop, Nat.sub_add_eq, Nat.add_assoc]
              rfl
      · have hleft : bufLen - total = 0 := by omega
        rw [if_neg hmore, if_pos (Or.inl hleft), if_pos hleft]
        rfl

/-- Without a failure the pieces go on to the end of the buffer or of the stream. -/
theorem length_pieces_of_not_stops {results : List (Option Nat)} {stream : Bytes} {left : Nat}
    (h : stops results stream left = false) :
    (pieces results stream left).flatten.length = min left stream.length := by
  induction results generalizing stream left with
  | nil =>
      unfold pieces
      by_cases hend : left = 0 ∨ stream = []
      · rw [if_pos hend]
        rcases hend with rfl | rfl <;> simp
      · rw [if_neg hend]
        simp
  | cons result rest ih =>
      unfold stops at h
      unfold pieces
      by_cases hleft : left = 0
      · simp [hleft]
      by_cases hend : stream = []
      · simp [hend]
      · rw [if_neg hleft] at h
        rw [if_neg (by simp [hleft, hend])]
        cases result with
        | none => exact absurd h (by simp)
        | some k =>
            have hpiece : stream.take (min (k + 1) left) ≠ [] := take_ne_nil (by omega) hend
            simp only [hpiece, if_false] at h
            have hrest := ih h
            rw [List.flatten_cons, List.length_append, hrest, List.length_drop, List.length_take]
            omega

/-- The pieces in the buffer are the stream, for every buffer, if there are at most two. -/
theorem receivesInOrder_iff (bufLen : Nat) (results : List (Option Nat)) (stream : Bytes) :
    (∀ junk : Vector UInt8 bufLen, ReceivesInOrder results stream junk) ↔
      (pieces results stream bufLen).length ≤ 2 := by
  have hprefix := isPrefix_flatten_pieces results stream bufLen
  have hlen : (pieces results stream bufLen).flatten.length ≤ bufLen :=
    hprefix.length_le.trans (List.length_take_le _ _)
  have hstream := hprefix.trans (List.take_prefix _ _)
  rw [← fill_iff (fun p hp => ne_nil_of_mem_pieces hp) hlen]
  refine forall_congr' fun junk => ?_
  have hloop := recvLoop_eq results stream junk.toList 0 (Nat.zero_le bufLen)
  simp only [Nat.sub_zero, Nat.zero_add] at hloop
  unfold ReceivesInOrder recvBuffer
  rw [hloop]
  constructor
  · rintro ⟨r, hr, -, htake, -⟩
    obtain ⟨filled, hfilled, rfl⟩ := Option.map_eq_some_iff.mp hr
    exact ⟨filled, hfilled, htake.trans (List.prefix_iff_eq_take.mp hstream).symm⟩
  · rintro ⟨filled, hfilled, htake⟩
    refine ⟨_, by rw [hfilled, Option.map_some], List.take_append_drop _ _, ?_, fun hok => ?_⟩
    · exact htake.trans (List.prefix_iff_eq_take.mp hstream)
    · exact length_pieces_of_not_stops hok

/-- **Partial transfers are reassembled** by `send_buffer` if and only if each part starts
with the bytes that are due, and by `recv_buffer`, whatever its buffer held, if and only
if they come in at most two pieces. -/
theorem transfers_reassembled_iff (buffer : Buffer) (bufLen : Nat) (results : List (Option Nat))
    (stream : Bytes) :
    (SendsInOrder buffer results ↔
      InPlace buffer.bytes 0 0 (parts results buffer.bytes.length)) ∧
    ((∀ junk : Vector UInt8 bufLen, ReceivesInOrder results stream junk) ↔
      (pieces results stream bufLen).length ≤ 2) :=
  ⟨sendsInOrder_iff buffer results, receivesInOrder_iff bufLen results stream⟩

/-- Three bytes, sent and received one by one. -/
theorem three_parts_misplaced :
    ¬ SendsInOrder ⟨[1, 2, 3], by decide⟩ [some 0, some 0] ∧
      ¬ ReceivesInOrder [some 0, some 0] [1, 2, 3] (Vector.replicate 3 0) := by
  refine ⟨fun h => ?_, ?_⟩
  · exact absurd h.taken (by decide)
  · rintro ⟨r, hr, -, htake, -⟩
    obtain rfl := Option.some.inj hr
    exact absurd htake (by decide)

end DistKv.Tob.Wire
