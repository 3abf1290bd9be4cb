import Mathlib.Data.List.TakeWhile

/-!
# C strings and buffers

A `Str` is what a `char *` to a NUL-terminated string stands for: its bytes up
to the NUL. Buffers are lists of bytes of a fixed length; a `store` outside the
buffer is undefined behaviour and has no result.
-/

namespace CText

/-- A NUL-terminated string, without its NUL. -/
@[ext] structure Str where
  bytes : List UInt8
  noNul : (0 : UInt8) ∉ bytes
deriving DecidableEq

namespace Str

/-- The string at the start of a buffer. -/
def ofBytes (l : List UInt8) : Str :=
  ⟨l.takeWhile (· ≠ 0), fun h => by simpa using List.mem_takeWhile_imp h⟩

/-- `strlen`. -/
def length (s : Str) : Nat := s.bytes.length

/-- `strndup(l, n)`. -/
def ofFirst (n : Nat) (l : List UInt8) : Str := ofBytes (l.take n)

/-- `strncmp(a, b, n) == 0`. -/
def eqFirst (n : Nat) (a b : Str) : Bool := a.bytes.take n = b.bytes.take n

theorem ofBytes_bytes_of_not_mem {l : List UInt8} (h : (0 : UInt8) ∉ l) :
    (ofBytes l).bytes = l := by
  show l.takeWhile _ = l
  rw [List.takeWhile_eq_self_iff]
  intro c hc
  simpa using fun h0 : c = 0 => h (h0 ▸ hc)

/-- A string ends at its first zero. -/
theorem ofBytes_append_zero {text rest : List UInt8} (h : (0 : UInt8) ∉ text) :
    (ofBytes (text ++ 0 :: rest)).bytes = text := by
  show (text ++ 0 :: rest).takeWhile _ = text
  rw [List.takeWhile_append_of_pos]
  · simp
  · intro c hc
    simpa using fun h0 : c = 0 => h (h0 ▸ hc)

theorem ofBytes_bytes (s : Str) : ofBytes s.bytes = s :=
  Str.ext (ofBytes_bytes_of_not_mem s.noNul)

theorem isPrefix_ofBytes (l : List UInt8) : (ofBytes l).bytes <+: l :=
  List.takeWhile_prefix _

theorem length_ofBytes_le (l : List UInt8) : (ofBytes l).length ≤ l.length :=
  (isPrefix_ofBytes l).length_le

theorem ofBytes_of_le_length {l : List UInt8} (h : l.length ≤ (ofBytes l).length) :
    (ofBytes l).bytes = l :=
  (isPrefix_ofBytes l).eq_of_length_le h

theorem length_ofFirst_le (n : Nat) (l : List UInt8) : (ofFirst n l).length ≤ n :=
  (length_ofBytes_le _).trans (List.length_take_le n l)

/-- Compared over the length of the second string, strings are equal if the
second is a prefix of the first. -/
theorem eqFirst_length {a b : Str} : eqFirst b.length a b = true ↔ b.bytes <+: a.bytes := by
  simp only [eqFirst, length, List.take_length, decide_eq_true_eq, List.prefix_iff_eq_take]
  exact eq_comm

end Str

/-- What `malloc(n)` returns: `n` bytes of whatever the heap held. -/
def malloc (n : Nat) (heap : List UInt8) : List UInt8 := (heap ++ List.replicate n 0).take n

@[simp] theorem length_malloc (n : Nat) (heap : List UInt8) : (malloc n heap).length = n := by
  simp [malloc]

/-- Write `bs` at offset `off`. -/
def store (buf : List UInt8) (off : Nat) (bs : List UInt8) : Option (List UInt8) :=
  if off + bs.length ≤ buf.length then
    some (buf.take off ++ bs ++ buf.drop (off + bs.length))
  else none

/-- `snprintf(buf + off, room, ...)` of a text: at most `room - 1` bytes of it and a NUL. -/
def snprintf (buf : List UInt8) (off room : Nat) (text : List UInt8) : Option (List UInt8) :=
  if room = 0 then some buf else store buf off (text.take (room - 1) ++ [0])

/-- `sprintf(buf + off, ...)` of a text: all of it and a NUL. -/
def sprintf (buf : List UInt8) (off : Nat) (text : List UInt8) : Option (List UInt8) :=
  store buf off (text ++ [0])

theorem store_append {before after bs : List UInt8} {off : Nat} (hoff : off = before.length) :
    store (before ++ after) off bs =
      if bs.length ≤ after.length then some (before ++ bs ++ after.drop bs.length) else none := by
  subst hoff
  unfold store
  simp only [List.length_append, Nat.add_le_add_iff_left, List.take_left, List.drop_append,
    Nat.add_sub_cancel_left]
  rw [List.drop_eq_nil_of_le (Nat.le_add_right _ _), List.nil_append]

theorem store_eq_none {buf bs : List UInt8} {off : Nat} (h : buf.length < off + bs.length) :
    store buf off bs = none := by
  rw [store, if_neg (by omega)]

theorem store_zero {buf bs : List UInt8} (h : bs.length ≤ buf.length) :
    store buf 0 bs = some (bs ++ buf.drop bs.length) := by
  simp [store, h]

/-- A text that fits is written whole, with its NUL. -/
theorem snprintf_append {before after text : List UInt8} {off room : Nat}
    (hoff : off = before.length) (hroom : text.length < room) (hfit : text.length < after.length) :
    snprintf (before ++ after) off room text =
      some (before ++ text ++ 0 :: after.drop (text.length + 1)) := by
  rw [snprintf, if_neg (by omega), List.take_of_length_le (by omega), store_append hoff,
    if_pos (by rw [List.length_append, List.length_singleton]; omega)]
  simp

/-- Two texts stored one behind the other. -/
theorem store_store (buf a b : List UInt8) (off : Nat) :
    ((store buf off a).bind fun buf => store buf (off + a.length) b) = store buf off (a ++ b) := by
  unfold store
  rw [List.length_append]
  by_cases ha : off + a.length ≤ buf.length
  · rw [if_pos ha]
    have hlen : (buf.take off ++ a ++ buf.drop (off + a.length)).length = buf.length := by
      simp only [List.length_append, List.length_take, List.length_drop]
      omega
    have hfront : (buf.take off ++ a).length = off + a.length := by
      simp only [List.length_append, List.length_take]
      omega
    simp only [Option.bind_some, hlen]
    rw [← Nat.add_assoc]
    by_cases hb : off + a.length + b.length ≤ buf.length
    · rw [if_pos hb, if_pos hb, ← hfront, List.take_left, List.drop_append, Nat.add_sub_cancel_left,
        List.drop_eq_nil_of_le (Nat.le_add_right _ _), List.nil_append, List.drop_drop,
        List.append_assoc _ a b]
    · rw [if_neg hb, if_neg hb]
  · rw [if_neg ha, if_neg (by omega)]
    rfl

theorem length_of_store {buf bs buf' : List UInt8} {off : Nat} (h : store buf off bs = some buf') :
    buf'.length = buf.length := by
  unfold store at h
  by_cases hroom : off + bs.length ≤ buf.length
  · rw [if_pos hroom, Option.some.injEq] at h
    subst h
    simp only [List.length_append, List.length_take, List.length_drop]
    omega
  · simp [hroom] at h

/-- The next text takes the place of the NUL behind the last one. -/
theorem sprintf_store (buf a : List UInt8) {b : List UInt8} (off : Nat) (hb : b ≠ []) :
    ((sprintf buf off a).bind fun buf => store buf (off + a.length) b) =
      store buf off (a ++ b) := by
  obtain ⟨c, t, rfl⟩ := List.exists_cons_of_ne_nil hb
  by_cases hroom : off + (a ++ c :: t).length ≤ buf.length
  · have hsplit := (List.take_append_drop off buf).symm
    have hoff : off = (buf.take off).length := by
      rw [List.length_take]
      omega
    have hlen : (buf.drop off).length = buf.length - off := List.length_drop
    generalize buf.take off = before at hsplit hoff
    generalize buf.drop off = after at hsplit hlen
    subst hsplit
    simp only [List.length_append, List.length_cons] at hroom hlen
    unfold sprintf
    rw [store_append hoff, if_pos (by simp; omega), Option.bind_some, store_append hoff,
      if_pos (by simp; omega)]
    have hmid : before ++ (a ++ [0]) ++ after.drop (a ++ [0]).length =
        (before ++ a) ++ 0 :: after.drop (a.length + 1) := by simp
    have hrest : (0 :: after.drop (a.length + 1)).drop (c :: t).length =
        after.drop (a ++ c :: t).length := by
      rw [List.length_cons, List.drop_succ_cons, List.drop_drop, List.length_append,
        List.length_cons]
      congr 1
      omega
    rw [hmid, store_append (by rw [List.length_append, hoff]), if_pos (by simp; omega), hrest,
      List.append_assoc before a]
  · rw [store_eq_none (by omega), Option.bind_eq_none_iff]
    intro buf' hbuf'
    apply store_eq_none
    rw [length_of_store hbuf']
    simp only [List.length_append] at hroom
    omega

theorem sprintf_sprintf (buf a b : List UInt8) (off : Nat) :
    ((sprintf buf off a).bind fun buf => sprintf buf (off + a.length) b) =
      sprintf buf off (a ++ b) := by
  have hb : b ++ [0] ≠ [] := by simp
  unfold sprintf
  rw [List.append_assoc, ← sprintf_store buf a off hb]
  rfl

theorem sprintf_nul (buf a : List UInt8) (off : Nat) :
    ((sprintf buf off a).bind fun buf => store buf (off + a.length) [0]) = sprintf buf off a :=
  sprintf_store buf a off (List.cons_ne_nil 0 [])

theorem length_of_snprintf {buf text buf' : List UInt8} {off room : Nat}
    (h : snprintf buf off room text = some buf') : buf'.length = buf.length := by
  unfold snprintf at h
  by_cases hroom : room = 0
  · rw [if_pos hroom, Option.some.injEq] at h
    rw [h]
  · rw [if_neg hroom] at h
    exact length_of_store h

end CText
