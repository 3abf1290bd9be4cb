import Mathlib.Data.List.Induction
import Mathlib.Data.Nat.Digits.Defs
import Mathlib.Tactic.Ring

/-!
# Decimal print and parse on bytes

What C's `%u` writes (`digits`), what a digit string is worth (`value`), and
a zero-padded field of fixed width that is cut off when the number does not
fit (`field`, `cut`). The round trips hold for every number, the field's for
every number below `10 ^ w`.
-/

namespace Decimal

/-- The decimal digits of `n`, as C's `%u` writes them. -/
def digits (n : Nat) : List UInt8 := (Nat.toDigits 10 n).map fun c => UInt8.ofNat c.toNat

/-- C's `isdigit`. -/
def isDigit (b : UInt8) : Bool := 48 ≤ b && b ≤ 57

/-- The number a string of digits spells. -/
def value (bs : List UInt8) : Nat := bs.foldl (fun acc b => 10 * acc + (b.toNat - 48)) 0

/-- `%0wu`: at least `w` digits. -/
def zeroPad (w n : Nat) : List UInt8 := List.replicate (w - (digits n).length) 48 ++ digits n

/-- `%wu`: at least `w` characters, blanks in front. -/
def spacePad (w n : Nat) : List UInt8 := List.replicate (w - (digits n).length) 32 ++ digits n

/-- `%-wu`: at least `w` characters, blanks behind. -/
def padRight (w n : Nat) : List UInt8 := digits n ++ List.replicate (w - (digits n).length) 32

/-- A `%0wu` field written through a temporary that holds `w` characters. -/
def field (w n : Nat) : List UInt8 := (zeroPad w n).take w

/-- The number read back from a field of width `w`. -/
def cut (w n : Nat) : Nat := value (field w n)

theorem digits_eq (n : Nat) :
    digits n = if n < 10 then [UInt8.ofNat (48 + n)]
      else digits (n / 10) ++ [UInt8.ofNat (48 + n % 10)] := by
  have digitChar_eq : ∀ m < 10, UInt8.ofNat (Nat.digitChar m).toNat = UInt8.ofNat (48 + m) := by
    decide
  unfold digits
  rw [Nat.toDigits_eq_if (by decide)]
  by_cases h : n < 10
  · simp [h, digitChar_eq n h]
  · simp [h, digitChar_eq _ (Nat.mod_lt n (by decide : 10 > 0))]

theorem digit_toNat {m : Nat} (h : m < 10) : (UInt8.ofNat (48 + m)).toNat = 48 + m := by
  rw [UInt8.toNat_ofNat']
  omega

theorem value_append (xs ys : List UInt8) :
    value (xs ++ ys) = value xs * 10 ^ ys.length + value ys := by
  induction ys using List.reverseRec with
  | nil => simp [value]
  | append_singleton rest b ih =>
      have snoc : ∀ (zs : List UInt8), value (zs ++ [b]) = 10 * value zs + (b.toNat - 48) := by
        intro zs
        simp [value, List.foldl_append]
      rw [← List.append_assoc, snoc, snoc, ih, List.length_append, List.length_singleton, pow_succ]
      ring

/-- Printing and parsing a number gives it back. -/
@[simp] theorem value_digits (n : Nat) : value (digits n) = n := by
  induction n using Nat.strong_induction_on with
  | _ n ih =>
      rw [digits_eq]
      by_cases h : n < 10
      · rw [if_pos h]
        simp only [value, List.foldl_cons, List.foldl_nil, digit_toNat h]
        omega
      · rw [if_neg h, value_append, ih (n / 10) (by omega)]
        have := digit_toNat (Nat.mod_lt n (by decide : 10 > 0))
        simp only [value, List.foldl_cons, List.foldl_nil, List.length_singleton, this]
        omega

theorem isDigit_of_mem_digits {n : Nat} {b : UInt8} (hb : b ∈ digits n) : isDigit b = true := by
  have ok : ∀ m < 10, isDigit (UInt8.ofNat (48 + m)) = true := by decide
  induction n using Nat.strong_induction_on with
  | _ n ih =>
      rw [digits_eq] at hb
      by_cases h : n < 10
      · rw [if_pos h, List.mem_singleton] at hb
        exact hb ▸ ok n h
      · rw [if_neg h, List.mem_append, List.mem_singleton] at hb
        rcases hb with hb | rfl
        · exact ih (n / 10) (by omega) hb
        · exact ok _ (Nat.mod_lt n (by decide))

theorem not_mem_digits {c : UInt8} (hc : isDigit c = false) (n : Nat) : c ∉ digits n := by
  intro h
  rw [isDigit_of_mem_digits h] at hc
  cases hc

theorem zero_not_mem_digits (n : Nat) : (0 : UInt8) ∉ digits n := not_mem_digits rfl n

theorem digits_ne_nil (n : Nat) : digits n ≠ [] := by
  unfold digits
  simp [Nat.toDigits_ne_nil]

theorem length_digits_le_iff {n k : Nat} (hk : 0 < k) : (digits n).length ≤ k ↔ n < 10 ^ k := by
  unfold digits
  rw [List.length_map, Nat.length_toDigits_le_iff (by decide) hk]

/-- Leading zeros do not count. -/
@[simp] theorem value_zeroPad (w n : Nat) : value (zeroPad w n) = n := by
  have zeros : ∀ k, value (List.replicate k 48) = 0 := by
    intro k
    induction k with
    | zero => rfl
    | succ k ih =>
        rw [List.replicate_succ', value_append, ih]
        rfl
  rw [zeroPad, value_append, zeros, value_digits]
  omega

/-- **A number that fits its field is read back unchanged.** -/
theorem cut_of_lt {w n : Nat} (hw : 0 < w) (h : n < 10 ^ w) : cut w n = n := by
  have hlen : (digits n).length ≤ w := (length_digits_le_iff hw).mpr h
  have htake : field w n = zeroPad w n := by
    unfold field
    rw [List.take_of_length_le]
    simp only [zeroPad, List.length_append, List.length_replicate]
    omega
  rw [cut, htake, value_zeroPad]

/-! ## What does not fit -/

theorem length_zeroPad (w n : Nat) : (zeroPad w n).length = max w (digits n).length := by
  simp only [zeroPad, List.length_append, List.length_replicate]
  omega

theorem length_spacePad (w n : Nat) : (spacePad w n).length = max w (digits n).length := by
  simp only [spacePad, List.length_append, List.length_replicate]
  omega

theorem length_padRight (w n : Nat) : (padRight w n).length = max w (digits n).length := by
  simp only [padRight, List.length_append, List.length_replicate]
  omega

@[simp] theorem length_field (w n : Nat) : (field w n).length = w := by
  rw [field, List.length_take, length_zeroPad]
  omega

theorem isDigit_of_mem_field {w n : Nat} {b : UInt8} (hb : b ∈ field w n) : isDigit b = true := by
  rcases List.mem_append.mp (List.mem_of_mem_take hb) with hb | hb
  · rw [List.eq_of_mem_replicate hb]
    decide
  · exact isDigit_of_mem_digits hb

/-- `w` digits spell a number below `10 ^ w`. -/
theorem value_lt {bs : List UInt8} (h : ∀ b ∈ bs, isDigit b = true) :
    value bs < 10 ^ bs.length := by
  induction bs using List.reverseRec with
  | nil => simp [value]
  | append_singleton rest b ih =>
      have hrest := ih fun c hc => h c (List.mem_append_left _ hc)
      have hb : b.toNat - 48 < 10 := by
        have hdigit := h b (by simp)
        simp only [isDigit, Bool.and_eq_true, decide_eq_true_eq, UInt8.le_iff_toNat_le] at hdigit
        have h57 : b.toNat ≤ 57 := hdigit.2
        omega
      rw [value_append, List.length_append, List.length_singleton, pow_add, pow_one]
      have hval : value [b] = b.toNat - 48 := by simp [value]
      rw [hval]
      omega

theorem cut_lt (w n : Nat) : cut w n < 10 ^ w := by
  have hdigits : ∀ b ∈ field w n, isDigit b = true := fun b hb => isDigit_of_mem_field hb
  have hlt := value_lt hdigits
  rwa [length_field] at hlt

/-- **A number is read back from its field exactly if it fits.** -/
theorem cut_eq_iff {w n : Nat} (hw : 0 < w) : cut w n = n ↔ n < 10 ^ w := by
  refine ⟨fun h => ?_, cut_of_lt hw⟩
  rw [← h]
  exact cut_lt w n

/-- Some of the digits in front spell a smaller number. -/
theorem value_take_digits_lt {n j : Nat} (hj : 0 < j) (hlt : j < (digits n).length) :
    value ((digits n).take j) < n := by
  have hdigits : ∀ b ∈ (digits n).take j, isDigit b = true := fun b hb =>
    isDigit_of_mem_digits (List.mem_of_mem_take hb)
  have hsmall : value ((digits n).take j) < 10 ^ j := by
    have hlt := value_lt hdigits
    rwa [List.length_take, Nat.min_eq_left (by omega)] at hlt
  have hlong : 10 ^ j ≤ n := by
    rw [← Nat.not_lt, ← length_digits_le_iff hj]
    omega
  omega

/-! ## Padding behind the number -/

theorem padRight_ne_nil (w n : Nat) : padRight w n ≠ [] := by
  rw [padRight, ne_eq, List.append_eq_nil_iff, not_and_or]
  exact Or.inl (digits_ne_nil n)

theorem mem_padRight {w n : Nat} {b : UInt8} (hb : b ∈ padRight w n) :
    isDigit b = true ∨ b = 32 := by
  rcases List.mem_append.mp hb with hb | hb
  · exact Or.inl (isDigit_of_mem_digits hb)
  · exact Or.inr (List.eq_of_mem_replicate hb)

end Decimal
