import Mathlib.Data.Nat.Basic
import Mathlib.Order.Basic
import Mathlib.Tactic.Common

/-!
# Going round a ring

Indexes count up without end and fall on `n` slots in turn.
-/

namespace LockFree.RingLaps

def laps (n i k : ℕ) : ℕ := (k + n - 1 - i) / n

variable {n i j k l q : ℕ}

theorem lt_laps_iff (hi : i < n) : q < laps n i k ↔ q * n + i < k := by
  have hn : 0 < n := by omega
  rw [laps, ← Nat.succ_le_iff, Nat.le_div_iff_mul_le hn, Nat.succ_mul]
  omega

theorem lt_laps_mod_iff (hn : 0 < n) : j / n < laps n (j % n) k ↔ j < k := by
  rw [lt_laps_iff (Nat.mod_lt j hn), Nat.div_add_mod']

theorem laps_zero (hi : i < n) : laps n i 0 = 0 :=
  Nat.div_eq_of_lt (by omega)

theorem laps_le_laps (hi : i < n) (hkl : k ≤ l) : laps n i k ≤ laps n i l := by
  apply Nat.div_le_div_right
  omega

theorem laps_le_laps_zero : laps n i k ≤ laps n 0 k := by
  apply Nat.div_le_div_right
  omega

theorem succ_div_eq (k : ℕ) (hn : 0 < n) : (k + 1) / n = k / n + (k % n + 1) / n := by
  have hk : k + 1 = k % n + 1 + k / n * n := by
    have := Nat.div_add_mod' k n
    omega
  rw [hk, Nat.add_mul_div_right _ _ hn, Nat.add_comm]

theorem eq_of_forall_lt_iff {a b : ℕ} (h : ∀ q, q < a ↔ q < b) : a = b :=
  le_antisymm (le_of_not_gt fun hlt => lt_irrefl b ((h b).mp hlt))
    (le_of_not_gt fun hlt => lt_irrefl a ((h a).mpr hlt))

theorem laps_mod_self (hn : 0 < n) : laps n (k % n) k = k / n := by
  refine eq_of_forall_lt_iff fun q => ?_
  have hk := Nat.div_add_mod' k n
  calc q < laps n (k % n) k
      ↔ q * n + k % n < k := lt_laps_iff (Nat.mod_lt k hn)
    _ ↔ q * n < k / n * n := by omega
    _ ↔ q < k / n := Nat.mul_lt_mul_right hn

theorem laps_succ_self (hn : 0 < n) : laps n (k % n) (k + 1) = k / n + 1 := by
  refine eq_of_forall_lt_iff fun q => ?_
  have hk := Nat.div_add_mod' k n
  calc q < laps n (k % n) (k + 1)
      ↔ q * n + k % n < k + 1 := lt_laps_iff (Nat.mod_lt k hn)
    _ ↔ q * n ≤ k / n * n := by omega
    _ ↔ q ≤ k / n := Nat.mul_le_mul_right_iff hn
    _ ↔ q < k / n + 1 := Nat.lt_succ_iff.symm

theorem laps_succ_of_ne (hi : i < n) (hne : i ≠ k % n) : laps n i (k + 1) = laps n i k := by
  refine eq_of_forall_lt_iff fun q => ?_
  rw [lt_laps_iff hi, lt_laps_iff hi]
  refine ⟨fun hlt => ?_, fun hlt => by omega⟩
  rcases Nat.lt_or_ge (q * n + i) k with h | h
  · exact h
  · have heq : k = q * n + i := by omega
    rw [heq, Nat.mul_add_mod', Nat.mod_eq_of_lt hi] at hne
    exact absurd rfl hne

end LockFree.RingLaps
