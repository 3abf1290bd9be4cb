import DistKv.Lib.Decimal
import Mathlib.Data.List.Infix
import Mathlib.Data.List.TakeWhile

/-!
# Reading text with C's stdio

`fgets` cuts a file at newlines and at the size of its buffer; `%s` and `%zu`
take a word and a number off the front of a line. The lemmas say where the
cuts fall: a text that ends in a newline is read on its own, whatever follows
it, and the first piece of a text is its first bytes.
-/

namespace CText

/-! ## `fgets` -/

/-- `fgets` with a buffer of `room + 1` bytes: what it reads, and what is left. -/
def fgets : Nat → List UInt8 → List UInt8 × List UInt8
  | 0, s => ([], s)
  | _ + 1, [] => ([], [])
  | room + 1, c :: s =>
      if c = 10 then ([10], s) else (c :: (fgets room s).1, (fgets room s).2)

/-- At most `fuel` calls of `fgets`, until the file is read. -/
def readLinesFuel (room : Nat) : Nat → List UInt8 → List (List UInt8)
  | 0, _ => []
  | _ + 1, [] => []
  | fuel + 1, s => (fgets room s).1 :: readLinesFuel room fuel (fgets room s).2

/-- The pieces that `while (fgets(...) != NULL)` goes through. -/
def readLines (room : Nat) (s : List UInt8) : List (List UInt8) :=
  readLinesFuel room s.length s

theorem fgets_append (room : Nat) (s : List UInt8) : (fgets room s).1 ++ (fgets room s).2 = s := by
  induction s generalizing room with
  | nil => cases room <;> rfl
  | cons c s ih =>
      cases room with
      | zero => rfl
      | succ room =>
          unfold fgets
          by_cases hc : c = 10
          · simp [hc]
          · simp [hc, ih]

theorem fgets_length_lt {room : Nat} (hroom : 0 < room) {s : List UInt8} (hs : s ≠ []) :
    (fgets room s).2.length < s.length := by
  obtain ⟨room, rfl⟩ := Nat.exists_eq_succ_of_ne_zero hroom.ne'
  cases s with
  | nil => exact absurd rfl hs
  | cons c s =>
      unfold fgets
      by_cases hc : c = 10
      · simp [hc]
      · have := congrArg List.length (fgets_append room s)
        simp only [List.length_append] at this
        simp only [if_neg hc, List.length_cons]
        omega

theorem readLinesFuel_eq {room : Nat} (hroom : 0 < room) {fuel : Nat} {s : List UInt8}
    (h : s.length ≤ fuel) : readLinesFuel room fuel s = readLines room s := by
  unfold readLines
  induction fuel using Nat.strong_induction_on generalizing s with
  | _ fuel ih =>
      cases s with
      | nil => cases fuel <;> rfl
      | cons c s =>
          cases fuel with
          | zero => simp at h
          | succ fuel =>
              have hlt := fgets_length_lt hroom (List.cons_ne_nil c s)
              simp only [List.length_cons] at h hlt ⊢
              simp only [readLinesFuel]
              rw [ih fuel (by omega) (by omega)]
              by_cases hfuel : s.length = fuel
              · rw [hfuel, ih fuel (by omega) (by omega)]
              · rw [ih s.length (by omega) (by omega)]

theorem readLines_nil (room : Nat) : readLines room [] = [] := rfl

/-- The next piece is what one `fgets` reads. -/
theorem readLines_of_ne_nil {room : Nat} (hroom : 0 < room) {s : List UInt8} (hs : s ≠ []) :
    readLines room s = (fgets room s).1 :: readLines room (fgets room s).2 := by
  cases s with
  | nil => exact absurd rfl hs
  | cons c s =>
      have hlt := fgets_length_lt hroom (List.cons_ne_nil c s)
      rw [← readLinesFuel_eq hroom (Nat.le_of_lt_succ hlt)]
      rfl

/-- The pieces make up the file. -/
theorem flatten_readLines {room : Nat} (hroom : 0 < room) (s : List UInt8) :
    (readLines room s).flatten = s := by
  induction hlen : s.length using Nat.strong_induction_on generalizing s with
  | _ len ih =>
      by_cases hs : s = []
      · rw [hs]
        rfl
      · have hlt := fgets_length_lt hroom hs
        rw [readLines_of_ne_nil hroom hs, List.flatten_cons, ih _ (hlen ▸ hlt) _ rfl, fgets_append]

theorem mem_of_mem_readLines {room : Nat} (hroom : 0 < room) {s line : List UInt8} {c : UInt8}
    (hline : line ∈ readLines room s) (hc : c ∈ line) : c ∈ s := by
  rw [← flatten_readLines hroom s]
  exact List.mem_flatten.mpr ⟨line, hline, hc⟩

theorem fgets_length_le (room : Nat) (s : List UInt8) : (fgets room s).1.length ≤ room := by
  induction s generalizing room with
  | nil => cases room <;> simp [fgets]
  | cons c s ih =>
      cases room with
      | zero => simp [fgets]
      | succ room =>
          unfold fgets
          by_cases hc : c = 10
          · simp [hc]
          · simpa [hc] using ih room

theorem length_of_mem_readLines {room : Nat} {s line : List UInt8}
    (hline : line ∈ readLines room s) : line.length ≤ room := by
  unfold readLines at hline
  generalize s.length = fuel at hline
  induction fuel generalizing s with
  | zero => simp [readLinesFuel] at hline
  | succ fuel ih =>
      cases s with
      | nil => simp [readLinesFuel] at hline
      | cons c s =>
          rcases List.mem_cons.mp hline with rfl | hline
          · exact fgets_length_le room _
          · exact ih hline

theorem mem_fgets_cons {room : Nat} (hroom : 0 < room) (c : UInt8) (s : List UInt8) :
    c ∈ (fgets room (c :: s)).1 := by
  obtain ⟨room, rfl⟩ := Nat.exists_eq_succ_of_ne_zero hroom.ne'
  unfold fgets
  by_cases hc : c = 10 <;> simp [hc]

/-- What follows a newline is not read together with what is before it. -/
theorem fgets_newline (room : Nat) (t r : List UInt8) :
    fgets room (t ++ 10 :: r) = ((fgets room (t ++ [10])).1, (fgets room (t ++ [10])).2 ++ r) ∧
      ((fgets room (t ++ [10])).2 = [] ∨ ∃ t', (fgets room (t ++ [10])).2 = t' ++ [10]) := by
  induction t generalizing room with
  | nil =>
      cases room with
      | zero => exact ⟨rfl, Or.inr ⟨[], rfl⟩⟩
      | succ room => exact ⟨rfl, Or.inl rfl⟩
  | cons c t ih =>
      cases room with
      | zero => exact ⟨by simp [fgets], Or.inr ⟨c :: t, rfl⟩⟩
      | succ room =>
          obtain ⟨hcut, hend⟩ := ih room
          simp only [List.cons_append, fgets]
          by_cases hc : c = 10
          · simp only [if_pos hc]
            exact ⟨by simp, Or.inr ⟨t, rfl⟩⟩
          · simp only [if_neg hc, hcut]
            exact ⟨trivial, hend⟩

/-- **A text that ends in a newline is read on its own.** -/
theorem readLines_append {room : Nat} (hroom : 0 < room) (t r : List UInt8) :
    readLines room (t ++ 10 :: r) = readLines room (t ++ [10]) ++ readLines room r := by
  induction hlen : t.length using Nat.strong_induction_on generalizing t with
  | _ len ih =>
      obtain ⟨hcut, hend⟩ := fgets_newline room t r
      have hlt := fgets_length_lt hroom (s := t ++ [10]) (by simp)
      rw [readLines_of_ne_nil hroom (by simp), readLines_of_ne_nil hroom (s := t ++ [10]) (by simp),
        hcut, List.cons_append]
      rcases hend with hnil | ⟨t', ht'⟩
      · rw [hnil, List.nil_append, readLines_nil, List.nil_append]
      · rw [ht'] at hlt ⊢
        simp only [List.length_append, List.length_singleton] at hlt
        rw [List.append_assoc, List.singleton_append, ih t'.length (by omega) t' rfl]

/-- A head without newlines that fits is the start of the piece. -/
theorem fgets_head {room : Nat} {head : List UInt8} (hnl : (10 : UInt8) ∉ head)
    (hlen : head.length ≤ room) (s : List UInt8) :
    fgets room (head ++ s) =
      (head ++ (fgets (room - head.length) s).1, (fgets (room - head.length) s).2) := by
  induction head generalizing room with
  | nil => rfl
  | cons c head ih =>
      cases room with
      | zero => simp at hlen
      | succ room =>
          rw [List.mem_cons, not_or] at hnl
          simp only [List.length_cons, Nat.add_le_add_iff_right] at hlen
          simp only [List.cons_append, fgets, if_neg (Ne.symm hnl.1), ih hnl.2 hlen,
            List.length_cons, Nat.add_sub_add_right]

/-! ## `%s` and `%zu` -/

/-- C's `isspace`. -/
def isSpace (c : UInt8) : Bool := c = 32 ∨ (9 ≤ c ∧ c ≤ 13)

/-- White space, then `%s`: the word, and what is left. -/
def scanWord (s : List UInt8) : Option (List UInt8 × List UInt8) :=
  let s := s.dropWhile isSpace
  if s = [] then none else some (s.takeWhile (!isSpace ·), s.dropWhile (!isSpace ·))

/-- An optional sign: whether it is a `-`, and what is left. -/
def scanSign : List UInt8 → Bool × List UInt8
  | 45 :: s => (true, s)
  | 43 :: s => (false, s)
  | s => (false, s)

/-- What `strtoul` makes of a sign and a number: the largest value if the number
is too large, and else the number, negated after a `-`. -/
def unsignedValue (negative : Bool) (v : Nat) : UInt64 :=
  if 2 ^ 64 ≤ v then UInt64.ofNat (2 ^ 64 - 1)
  else if negative then -UInt64.ofNat v
  else UInt64.ofNat v

/-- White space, then `%zu`: an optional sign and digits. -/
def scanSize (s : List UInt8) : Option (UInt64 × List UInt8) :=
  let t := scanSign (s.dropWhile isSpace)
  let ds := t.2.takeWhile Decimal.isDigit
  if ds = [] then none
  else some (unsignedValue t.1 (Decimal.value ds), t.2.dropWhile Decimal.isDigit)

/-- A word: at least one byte, and no white space. -/
def IsWord (w : List UInt8) : Prop := w ≠ [] ∧ ∀ c ∈ w, isSpace c = false

instance (w : List UInt8) : Decidable (IsWord w) := inferInstanceAs (Decidable (_ ∧ _))

theorem IsWord.dropWhile_isSpace {w : List UInt8} (hw : IsWord w) (s : List UInt8) :
    (w ++ s).dropWhile isSpace = w ++ s := by
  cases w with
  | nil => exact absurd rfl hw.1
  | cons c w => simp [hw.2 c List.mem_cons_self]

/-- A word is scanned off the text that a blank separates it from. -/
theorem scanWord_word {w : List UInt8} (hw : IsWord w) {c : UInt8} (hc : isSpace c = true)
    (s : List UInt8) : scanWord (32 :: w ++ c :: s) = some (w, c :: s) := by
  have hnot : ∀ b ∈ w, (!isSpace b) = true := fun b hb => by simp [hw.2 b hb]
  have hdrop : (32 :: w ++ c :: s).dropWhile isSpace = w ++ c :: s := by
    rw [List.cons_append, List.dropWhile_cons_of_pos (by decide), hw.dropWhile_isSpace]
  unfold scanWord
  simp only [hdrop]
  rw [if_neg (by simp), List.takeWhile_append_of_pos hnot, List.dropWhile_append_of_pos hnot]
  simp [hc]

theorem scanWord_eq_none_iff {s : List UInt8} : scanWord s = none ↔ ∀ c ∈ s, isSpace c = true := by
  unfold scanWord
  by_cases h : s.dropWhile isSpace = []
  · simp only [h, if_true, true_iff]
    exact List.dropWhile_eq_nil_iff.mp h
  · simp only [h, if_false, reduceCtorEq, false_iff]
    exact fun hall => h (List.dropWhile_eq_nil_iff.mpr hall)

/-- What is scanned is a word, and its text is made of it and white space. -/
theorem isWord_of_scanWord {s w r : List UInt8} (h : scanWord s = some (w, r)) :
    IsWord w ∧ ∃ blank, s = blank ++ w ++ r ∧
      (r = [] ∨ ∃ c r', r = c :: r' ∧ isSpace c = true) := by
  unfold scanWord at h
  by_cases hs : s.dropWhile isSpace = []
  · simp [hs] at h
  · simp only [hs, if_false, Option.some.injEq, Prod.mk.injEq] at h
    obtain ⟨rfl, rfl⟩ := h
    refine ⟨⟨?_, ?_⟩, s.takeWhile isSpace, ?_, ?_⟩
    · intro hnil
      have hhead := List.head_dropWhile_not isSpace hs
      cases hcons : s.dropWhile isSpace with
      | nil => exact hs hcons
      | cons c t =>
          simp only [hcons, List.head_cons] at hhead
          simp [hcons, hhead] at hnil
    · intro c hc
      simpa using List.mem_takeWhile_imp hc
    · rw [List.append_assoc, List.takeWhile_append_dropWhile, List.takeWhile_append_dropWhile]
    · cases hcons : (s.dropWhile isSpace).dropWhile (!isSpace ·) with
      | nil => exact Or.inl rfl
      | cons c t =>
          have hhead := List.head_dropWhile_not (!isSpace ·) (l := s.dropWhile isSpace)
            (by rw [hcons]; exact List.cons_ne_nil c t)
          simp only [hcons, List.head_cons, Bool.not_eq_false'] at hhead
          exact Or.inr ⟨c, t, rfl, hhead⟩

theorem suffix_of_scanWord {s w r : List UInt8} (h : scanWord s = some (w, r)) : r <:+ s := by
  obtain ⟨-, blank, hs, -⟩ := isWord_of_scanWord h
  exact ⟨blank ++ w, hs.symm⟩

theorem suffix_scanSign (s : List UInt8) : (scanSign s).2 <:+ s := by
  unfold scanSign
  split
  · exact List.suffix_cons _ _
  · exact List.suffix_cons _ _
  · exact List.suffix_rfl

/-- A digit is no sign. -/
theorem scanSign_of_isDigit {c : UInt8} (hc : Decimal.isDigit c = true) (s : List UInt8) :
    scanSign (c :: s) = (false, c :: s) := by
  unfold scanSign
  split
  · rename_i heq
    rw [(List.cons.inj heq).1] at hc
    exact absurd hc (by decide)
  · rename_i heq
    rw [(List.cons.inj heq).1] at hc
    exact absurd hc (by decide)
  · rfl

theorem suffix_of_scanSize {s r : List UInt8} {u : UInt64} (h : scanSize s = some (u, r)) :
    r <:+ s := by
  unfold scanSize at h
  by_cases hnil : (scanSign (s.dropWhile isSpace)).2.takeWhile Decimal.isDigit = []
  · simp [hnil] at h
  · simp only [hnil, if_false, Option.some.injEq, Prod.mk.injEq] at h
    rw [← h.2]
    exact (List.dropWhile_suffix _).trans ((suffix_scanSign _).trans (List.dropWhile_suffix _))

/-- There is no number in white space. -/
theorem scanSize_eq_none {s : List UInt8} (h : ∀ c ∈ s, isSpace c = true) : scanSize s = none := by
  unfold scanSize
  rw [List.dropWhile_eq_nil_iff.mpr h]
  rfl

theorem isSpace_of_isDigit {c : UInt8} (h : Decimal.isDigit c = true) : isSpace c = false := by
  simp only [Decimal.isDigit, isSpace, Bool.and_eq_true, decide_eq_true_eq, decide_eq_false_iff_not,
    UInt8.le_iff_toNat_le, ← UInt8.toNat_inj] at *
  simp only [UInt8.reduceToNat] at *
  omega

theorem isWord_digits (u : Nat) : IsWord (Decimal.digits u) :=
  ⟨Decimal.digits_ne_nil u, fun _ hc => isSpace_of_isDigit (Decimal.isDigit_of_mem_digits hc)⟩

/-- **A printed number is read back.** -/
theorem scanSize_digits {u : Nat} (hu : u < 2 ^ 64) {c : UInt8} (hc : Decimal.isDigit c = false)
    (s : List UInt8) :
    scanSize (32 :: Decimal.digits u ++ c :: s) = some (UInt64.ofNat u, c :: s) := by
  have hdigit : ∀ b ∈ Decimal.digits u, Decimal.isDigit b = true :=
    fun b hb => Decimal.isDigit_of_mem_digits hb
  have hdrop : (32 :: Decimal.digits u ++ c :: s).dropWhile isSpace =
      Decimal.digits u ++ c :: s := by
    rw [List.cons_append, List.dropWhile_cons_of_pos (by decide),
      (isWord_digits u).dropWhile_isSpace]
  have htake : (Decimal.digits u ++ c :: s).takeWhile Decimal.isDigit = Decimal.digits u := by
    rw [List.takeWhile_append_of_pos hdigit]
    simp [hc]
  have hrest : (Decimal.digits u ++ c :: s).dropWhile Decimal.isDigit = c :: s := by
    rw [List.dropWhile_append_of_pos hdigit]
    simp [hc]
  unfold scanSize
  rw [hdrop]
  obtain ⟨b, t, hd⟩ := List.exists_cons_of_ne_nil (Decimal.digits_ne_nil u)
  have hsign : scanSign (Decimal.digits u ++ c :: s) = (false, Decimal.digits u ++ c :: s) := by
    rw [hd]
    exact scanSign_of_isDigit (hdigit b (by rw [hd]; exact List.mem_cons_self)) _
  rw [hsign]
  simp only [htake, hrest, Decimal.digits_ne_nil, if_false, Decimal.value_digits, unsignedValue]
  rw [if_neg (by omega)]
  rfl

end CText
