import DistKv.Lib.Horner
import DistKv.Memcache.HashMap
import Mathlib.Data.UInt
import Mathlib.Tactic.IntervalCases

/-!
# Which bytes of a key count in the hash (`hash_string`)

The comment on the loop names the recurrence `hash * 33 + c`; the code runs
`(hash << 5) + c`, which is `hash * 32 + c`. Since `32 ^ 7` is `0` in 32 bits,
only the last seven bytes of a key are left in the accumulator, and of the
sixth and seventh from the end only the low bits.
-/

namespace DistKv.Memcache

open CText Horner
open scoped UInt32.CommRing

/-- The recurrence of the comment, `hash * 33 + c`. -/
def djb2 (hash : UInt32) : List UInt8 → UInt32
  | [] => hash
  | c :: str => djb2 (hash * 33 + charValue c) str

theorem shiftLeft_five (hash : UInt32) : hash <<< 5 = hash * 32 := by
  apply UInt32.toNat_inj.mp
  rw [UInt32.toNat_shiftLeft, UInt32.toNat_mul, Nat.shiftLeft_eq]
  rfl

theorem hashAccumulator_eq_horner (hash : UInt32) (str : List UInt8) :
    hashAccumulator hash str = horner 32 hash (str.map charValue) := by
  induction str generalizing hash with
  | nil => rfl
  | cons c str ih =>
    show hashAccumulator ((hash <<< 5) + charValue c) str = _
    rw [ih, shiftLeft_five]
    rfl

theorem djb2_eq_horner (hash : UInt32) (str : List UInt8) :
    djb2 hash str = horner 33 hash (str.map charValue) := by
  induction str generalizing hash with
  | nil => rfl
  | cons c str ih => exact ih (hash * 33 + charValue c)

theorem toNat_charValue (c : UInt8) :
    (charValue c).toNat = if c.toNat < 128 then c.toNat else 2 ^ 32 - 256 + c.toNat := by
  have hlt := c.toNat_lt
  unfold charValue
  by_cases hc : c < 128
  · have hc' : c.toNat < 128 := hc
    rw [if_pos hc, if_pos hc', UInt8.toNat_toUInt32]
  · have hc' : ¬ c.toNat < 128 := hc
    rw [if_neg hc, if_neg hc', UInt32.toNat_sub, UInt8.toNat_toUInt32]
    show (2 ^ 32 - 256 + c.toNat) % 2 ^ 32 = _
    omega

theorem toNat_two_pow (j : Nat) : ((2 : UInt32) ^ j).toNat = 2 ^ j % 2 ^ 32 := by
  induction j with
  | zero => rfl
  | succ j ih =>
    rw [pow_succ, UInt32.toNat_mul, ih, Nat.pow_succ 2 j]
    show 2 ^ j % 2 ^ 32 * (2 % 2 ^ 32) % 2 ^ 32 = _
    rw [← Nat.mul_mod]

/-- A product with a power of two is zero when the other factor has the rest
of the 32 twos. -/
theorem mul_two_pow_eq_zero (x : UInt32) {j : Nat} (hj : j ≤ 32) :
    x * 2 ^ j = 0 ↔ 2 ^ (32 - j) ∣ x.toNat := by
  have hsplit : (2 : Nat) ^ 32 = 2 ^ (32 - j) * 2 ^ j := by
    rw [← pow_add]
    congr 1
    omega
  rw [← UInt32.toNat_inj, UInt32.toNat_mul, toNat_two_pow]
  show x.toNat * (2 ^ j % 2 ^ 32) % 2 ^ 32 = 0 ↔ _
  rw [Nat.mul_mod_mod, ← Nat.dvd_iff_mod_eq_zero, hsplit]
  exact Nat.mul_dvd_mul_iff_right (by positivity)

/-- `32 ^ k` is `0` in 32 bits from the seventh power on. -/
theorem pow_seven_eq_zero : (32 : UInt32) ^ 7 = 0 := by
  decide

/-- The weight `32 ^ k` of a byte with `k` bytes behind it keeps the
difference of two bytes for `k ≤ 4`, only its low seven bits for `5`, its low
two for `6`, and nothing from `7` on. -/
def Counts (a b : UInt8) (behind : Nat) : Prop :=
  behind ≤ 4 ∨ behind = 5 ∧ a % 128 ≠ b % 128 ∨ behind = 6 ∧ a % 4 ≠ b % 4

instance (a b : UInt8) (behind : Nat) : Decidable (Counts a b behind) :=
  inferInstanceAs (Decidable (_ ∨ _ ∨ _))

theorem two_pow_of_behind (k : Nat) : (32 : UInt32) ^ k = 2 ^ (5 * k) := by
  rw [pow_mul]
  congr 1

/-- The difference of two bytes as the accumulator sees it. -/
theorem toNat_charValue_sub (a b : UInt8) :
    (charValue a - charValue b).toNat =
      (2 ^ 32 - (charValue b).toNat + (charValue a).toNat) % 2 ^ 32 :=
  UInt32.toNat_sub _ _

theorem weighted_eq_zero_iff {a b : UInt8} (hne : a ≠ b) (k : Nat) :
    (charValue a - charValue b) * 32 ^ k = 0 ↔ ¬ Counts a b k := by
  have hne' : a.toNat ≠ b.toNat := fun h => hne (UInt8.toNat_inj.mp h)
  have ha := a.toNat_lt
  have hb := b.toNat_lt
  by_cases hk : k < 7
  · rw [two_pow_of_behind, mul_two_pow_eq_zero _ (by omega), toNat_charValue_sub,
      toNat_charValue, toNat_charValue, Nat.dvd_iff_mod_eq_zero]
    unfold Counts
    rw [← UInt8.toNat_inj.ne, ← UInt8.toNat_inj.ne]
    simp only [UInt8.toNat_mod]
    show _ ↔ ¬ (k ≤ 4 ∨ k = 5 ∧ a.toNat % 128 ≠ b.toNat % 128 ∨
      k = 6 ∧ a.toNat % 4 ≠ b.toNat % 4)
    interval_cases k <;> norm_num <;> split <;> split <;> omega
  · rw [pow_eq_zero_of_le (by omega) pow_seven_eq_zero, mul_zero]
    apply iff_of_true rfl
    unfold Counts
    rintro (h | ⟨h, -⟩ | ⟨h, -⟩) <;> omega

/-! ## Keys -/

/-- The accumulators of two keys that differ in one byte only. -/
theorem hashAccumulator_sub (hash : UInt32) (a b : UInt8) (front back : List UInt8) :
    hashAccumulator hash (front ++ a :: back) - hashAccumulator hash (front ++ b :: back) =
      (charValue a - charValue b) * 32 ^ back.length := by
  rw [hashAccumulator_eq_horner, hashAccumulator_eq_horner, List.map_append, List.map_append,
    List.map_cons, List.map_cons, horner_sub_of_differ, List.length_map]

theorem charValue_injective : Function.Injective charValue := by
  intro a b h
  have hab : (charValue a).toNat = (charValue b).toNat := by rw [h]
  have ha := a.toNat_lt
  have hb := b.toNat_lt
  rw [toNat_charValue, toNat_charValue] at hab
  apply UInt8.toNat_inj.mp
  split at hab <;> split at hab <;> omega

/-- `33` is odd, so it has an inverse in 32 bits. -/
theorem isUnit_thirty_three : IsUnit (33 : UInt32) :=
  IsUnit.of_mul_eq_one 1041204193 (by decide)

/-- **The recurrence of the comment tells any two such keys apart.** -/
theorem djb2_ne (hash : UInt32) {a b : UInt8} (hne : a ≠ b) (front back : List UInt8) :
    djb2 hash (front ++ a :: back) ≠ djb2 hash (front ++ b :: back) := by
  rw [djb2_eq_horner, djb2_eq_horner, List.map_append, List.map_append, List.map_cons,
    List.map_cons]
  exact horner_ne_of_isUnit isUnit_thirty_three (charValue_injective.ne hne) _ _ _

/-- Seven bytes decide the accumulator, whatever was in front of them. -/
theorem hashAccumulator_eq_of_ending (hash : UInt32) (front front' : List UInt8)
    (back : List UInt8) (hback : 7 ≤ back.length) :
    hashAccumulator hash (front ++ back) = hashAccumulator hash (front' ++ back) := by
  rw [hashAccumulator_eq_horner, hashAccumulator_eq_horner, List.map_append, List.map_append]
  apply horner_eq_of_pow_eq_zero pow_seven_eq_zero
  rwa [List.length_map]

/-- **Keys with the same last seven bytes share a chain**, however long they
are. -/
theorem hashString_eq_of_ending {key key' : Str} {front front' back : List UInt8}
    (hkey : key.bytes = front ++ back) (hkey' : key'.bytes = front' ++ back)
    (hback : 7 ≤ back.length) : hashString key = hashString key' := by
  unfold hashString
  congr 2
  rw [hkey, hkey', hashAccumulator_eq_of_ending 5381 front front' back hback]

/-- **Which byte counts.** Two keys that differ in exactly one byte have
different accumulators when `Counts` holds of the two bytes and the number of
bytes behind them, and only then; the recurrence of the comment always tells
them apart. -/
theorem hashAccumulator_ne_iff (key key' : Str) (a b : UInt8) (front back : List UInt8)
    (hkey : key.bytes = front ++ a :: back) (hkey' : key'.bytes = front ++ b :: back)
    (hne : a ≠ b) :
    (hashAccumulator 5381 key.bytes ≠ hashAccumulator 5381 key'.bytes ↔
      Counts a b back.length) ∧
    djb2 5381 key.bytes ≠ djb2 5381 key'.bytes := by
  rw [hkey, hkey']
  constructor
  · show ¬ hashAccumulator 5381 (front ++ a :: back) = hashAccumulator 5381 (front ++ b :: back) ↔ _
    rw [← sub_eq_zero, hashAccumulator_sub, weighted_eq_zero_iff hne, not_not]
  · exact djb2_ne 5381 hne front back

/-- `"a1"` and `"b1"`. -/
theorem hashAccumulator_ne_short :
    (hashAccumulator 5381 [97, 49] ≠ hashAccumulator 5381 [98, 49] ↔ Counts 97 98 1) ∧
    djb2 5381 [97, 49] ≠ djb2 5381 [98, 49] :=
  hashAccumulator_ne_iff ⟨[97, 49], by decide⟩ ⟨[98, 49], by decide⟩ 97 98 [] [49] rfl rfl
    (by decide)

/-- `"a1234567"` and `"b1234567"` have one accumulator. -/
theorem hashAccumulator_blind :
    ¬ ∀ (key key' : Str) (a b : UInt8) (front back : List UInt8),
      key.bytes = front ++ a :: back → key'.bytes = front ++ b :: back → a ≠ b →
      hashAccumulator 5381 key.bytes ≠ hashAccumulator 5381 key'.bytes := by
  intro h
  refine h ⟨[97, 49, 50, 51, 52, 53, 54, 55], by decide⟩
    ⟨[98, 49, 50, 51, 52, 53, 54, 55], by decide⟩ 97 98 [] [49, 50, 51, 52, 53, 54, 55]
    rfl rfl (by decide) ?_
  exact hashAccumulator_eq_of_ending 5381 [97] [98] [49, 50, 51, 52, 53, 54, 55] (by decide)

end DistKv.Memcache
