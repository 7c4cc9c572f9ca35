import Mathlib.Data.Nat.ModEq
import Mathlib.Data.Nat.Prime.Basic
import Mathlib.Logic.Function.Iterate
import Mathlib.Tactic.Ring

/-!
# Linear congruential generators

The map `x ↦ a * x + c` on the natural numbers and its iterates modulo a power of two.

* `affine_iterate`: how far `k` steps lead does not depend on where they start, but for a factor.
* `iterate_modEq` and `not_iterate_modEq`: if `a - 1` is a multiple of four and `c` is odd, then
  `2 ^ n` steps lead back modulo `2 ^ n`, and half as many do not.
-/

namespace Xv6

/-- One step of the generator. -/
def affine (a c x : ℕ) : ℕ := a * x + c

/-- The steps from `x`, as steps of the generator with increment 1 from 0. -/
theorem affine_iterate (b c x k : ℕ) :
    (affine (b + 1) c)^[k] x = x + (affine (b + 1) 1)^[k] 0 * (b * x + c) := by
  induction k with
  | zero => simp
  | succ k ih =>
    rw [Function.iterate_succ_apply', Function.iterate_succ_apply', ih, affine, affine]
    ring

/-- From 0, `2 ^ j` steps lead to an odd multiple of `2 ^ j`. -/
theorem affine_two_pow (q j : ℕ) : ∃ m, (affine (4 * q + 1) 1)^[2 ^ j] 0 = 2 ^ j * (2 * m + 1) := by
  induction j with
  | zero => exact ⟨0, by simp [affine]⟩
  | succ j ih =>
    obtain ⟨m, hm⟩ := ih
    refine ⟨m + q * (2 ^ j * (2 * m + 1)) * (2 * m + 1), ?_⟩
    rw [pow_succ, mul_two, Function.iterate_add_apply, hm, affine_iterate, hm]
    ring

section Period

variable {q c x n : ℕ}

/-- `2 ^ n` steps lead back. -/
theorem iterate_modEq : (affine (4 * q + 1) c)^[2 ^ n] x ≡ x [MOD 2 ^ n] := by
  obtain ⟨m, hm⟩ := affine_two_pow q n
  rw [affine_iterate, hm, mul_assoc]
  exact Nat.add_modEq_left_iff.mpr (Nat.dvd_mul_right ..)

/-- Half as many do not, if the increment is odd. -/
theorem not_iterate_modEq (hc : c % 2 = 1) :
    ¬(affine (4 * q + 1) c)^[2 ^ n] x ≡ x [MOD 2 ^ (n + 1)] := by
  obtain ⟨m, hm⟩ := affine_two_pow q n
  rw [affine_iterate, hm, mul_assoc, pow_succ]
  intro h
  have hdvd : 2 ^ n * 2 ∣ 2 ^ n * ((2 * m + 1) * (4 * q * x + c)) := Nat.add_modEq_left_iff.mp h
  have htwo := Nat.dvd_of_mul_dvd_mul_left (Nat.two_pow_pos n) hdvd
  -- both factors are odd
  rcases (Nat.Prime.dvd_mul Nat.prime_two).mp htwo with h1 | h1
  · omega
  · have : 4 * q * x = 2 * (2 * q * x) := by ring
    omega

end Period

end Xv6
