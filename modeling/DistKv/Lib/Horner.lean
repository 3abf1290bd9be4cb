import Mathlib.Algebra.Ring.Commute
import Mathlib.Algebra.Ring.Units
import Mathlib.Tactic.Ring

/-!
# A polynomial accumulator over a commutative ring

`horner m acc cs` runs `acc := acc * m + c` over the list. What one term
contributes is its multiple of a power of `m`, so two lists that differ in one
term differ by `(a - b) * m ^ k` with `k` terms behind it. With a unit `m`
every term counts; with a nilpotent one only the last few do.
-/

namespace Horner

variable {R : Type*} [CommRing R]

def horner (m acc : R) : List R → R
  | [] => acc
  | c :: cs => horner m (acc * m + c) cs

theorem horner_append (m acc : R) (cs ds : List R) :
    horner m acc (cs ++ ds) = horner m (horner m acc cs) ds := by
  induction cs generalizing acc with
  | nil => rfl
  | cons c cs ih =>
    show horner m (acc * m + c) (cs ++ ds) = _
    rw [ih]
    rfl

/-- The start value is one more term in front. -/
theorem horner_sub_horner (m acc acc' : R) (cs : List R) :
    horner m acc cs - horner m acc' cs = (acc - acc') * m ^ cs.length := by
  induction cs generalizing acc acc' with
  | nil => show acc - acc' = _; rw [List.length_nil, pow_zero, mul_one]
  | cons c cs ih =>
    show horner m (acc * m + c) cs - horner m (acc' * m + c) cs = _
    rw [ih, List.length_cons, pow_succ]
    ring

/-- **Two lists that differ in one term.** -/
theorem horner_sub_of_differ (m acc a b : R) (cs ds : List R) :
    horner m acc (cs ++ a :: ds) - horner m acc (cs ++ b :: ds) = (a - b) * m ^ ds.length := by
  rw [horner_append, horner_append]
  show horner m (horner m acc cs * m + a) ds - horner m (horner m acc cs * m + b) ds = _
  rw [horner_sub_horner]
  ring

/-- With a unit as multiplier no term is lost. -/
theorem horner_ne_of_isUnit {m : R} (hm : IsUnit m) {a b : R} (hne : a ≠ b) (acc : R)
    (cs ds : List R) : horner m acc (cs ++ a :: ds) ≠ horner m acc (cs ++ b :: ds) := by
  intro h
  have hzero : (a - b) * m ^ ds.length = 0 := by
    rw [← horner_sub_of_differ m acc a b cs ds, h, sub_self]
  have hab : a - b = 0 := (hm.pow ds.length).mul_left_eq_zero.mp hzero
  exact hne (sub_eq_zero.mp hab)

/-- With a multiplier whose `n`-th power is zero, `n` terms decide. -/
theorem horner_eq_of_pow_eq_zero {m : R} {n : Nat} (hm : m ^ n = 0) (acc acc' : R)
    (cs cs' ds : List R) (hn : n ≤ ds.length) :
    horner m acc (cs ++ ds) = horner m acc' (cs' ++ ds) := by
  apply sub_eq_zero.mp
  rw [horner_append, horner_append, horner_sub_horner, pow_eq_zero_of_le hn hm, mul_zero]

end Horner
