import LockFree.SpscQueueSize

/-!
# Capacities and buffer sizes

A ring is a power of two with room for more than `Capacity` elements, so that one slot can
stay empty, except that the largest value of `size_t` has no successor.
-/

namespace LockFree.BufferSize
open SpscQueue

def Sound (capacity : ℕ) : Prop :=
  ∀ R : Ring, R.capacity = capacity →
    (∃ k, R.size = 2 ^ k) ∧ capacity < R.size ∧ R.size ≤ 2 * max 4 (capacity + 1) ∧
    (∀ x, x &&& R.getIndexMask = x % R.size) ∧
    ∀ (T : Type) (leave : T → T) buffer, capacity ∈ Sizes R leave buffer

theorem Ring.size_le_of_capacity (R : Ring) (h : R.capacity + 1 < 2 ^ 64) :
    R.size ≤ 2 * max 4 (R.capacity + 1) := by
  have hlog := Nat.log2_self_le (n := max 4 (R.capacity + 1)) (by omega)
  rw [R.size_eq_of_capacity, Nat.mod_eq_of_lt h, Nat.pow_succ']
  exact Nat.mul_le_mul_left 2 hlog

theorem Ring.sizes_of_lt {R : Ring} {n : ℕ} (hn : n < R.size) {T : Type} (leave : T → T)
    (buffer : Fin R.size → T) : n ∈ Sizes R leave buffer := by
  obtain ⟨es, s, hr, -, -, hsize⟩ := exists_run_of_size leave buffer hn
  exact ⟨es, s, hr, (length_stored s).trans hsize⟩

theorem sound_of_lt {capacity : ℕ} (h : capacity + 1 < 2 ^ 64) : Sound capacity := by
  rintro R rfl
  obtain ⟨k, -, -, hk⟩ := R.size_eq_two_pow
  have hlt : R.capacity < R.size := Nat.lt_of_succ_lt (R.capacity_lt_size h)
  exact ⟨⟨k, hk⟩, hlt, R.size_le_of_capacity h, R.and_getIndexMask,
    fun T leave buffer => Ring.sizes_of_lt hlt leave buffer⟩

theorem accepted_iff {capacity : ℕ} (h : capacity < 2 ^ 64) :
    (∃ R : Ring, R.capacity = capacity) ↔ capacity + 1 < 2 ^ 30 ∨ capacity + 1 = 2 ^ 64 := by
  constructor
  · rintro ⟨R, rfl⟩
    have hlog := Nat.lt_log2_self (n := max 4 ((R.capacity + 1) % 2 ^ 64))
    rw [← R.size_eq_of_capacity] at hlog
    have hsize := R.size_le
    omega
  · intro hcapacity
    have hmax : (if (capacity + 1) % 2 ^ 64 < 4 then 4 else (capacity + 1) % 2 ^ 64) =
        max 4 ((capacity + 1) % 2 ^ 64) := by
      split <;> omega
    have hlog : Nat.log2 (max 4 ((capacity + 1) % 2 ^ 64)) < 30 :=
      (Nat.log2_lt (by omega)).mpr (by omega)
    have hshift : 63 - clzll (max 4 ((capacity + 1) % 2 ^ 64)) + 1 < 31 := by
      unfold clzll
      omega
    refine ⟨⟨capacity, 2 ^ (63 - clzll (max 4 ((capacity + 1) % 2 ^ 64)) + 1), ?_⟩, rfl⟩
    simp only [getBufferSize, hmax, shiftOne, if_pos hshift, Nat.and_two_pow_sub_one_eq_mod,
      Nat.mod_self, if_true]

theorem not_sound_of_wraps {capacity : ℕ} (h : capacity + 1 = 2 ^ 64) : ¬ Sound capacity := by
  intro hsound
  obtain ⟨R, rfl⟩ := (accepted_iff (show capacity < 2 ^ 64 by omega)).mpr (.inr h)
  obtain ⟨-, hlt, -⟩ := hsound R rfl
  rw [R.size_of_largest h] at hlt
  omega

/-- Every capacity of type `size_t` but the one whose successor is 0. -/
theorem sound_iff {capacity : ℕ} (h : capacity < 2 ^ 64) :
    Sound capacity ↔ capacity ≠ 2 ^ 64 - 1 := by
  constructor
  · rintro hsound rfl
    exact not_sound_of_wraps rfl hsound
  · intro hne
    exact sound_of_lt (by omega)

theorem sound_iff_smallest : Sound 3 ↔ 3 ≠ 2 ^ 64 - 1 := sound_iff (by decide)

theorem not_sound_largest :
    ¬ Sound (2 ^ 64 - 1) ∧ getBufferSize (2 ^ 64 - 1) = some 8 :=
  ⟨not_sound_of_wraps rfl, by decide⟩

end LockFree.BufferSize
