import Mathlib.Data.Nat.Bitwise
import Mathlib.Data.Nat.Log
import Mathlib.Data.Nat.ModEq
import Mathlib.Tactic.IntervalCases
import Mathlib.Tactic.Common

/-!
# The buffer size of the ring queues

`GetBufferSize` and `GetIndexMask` are the same computation in the three ring
queues. `size_t` arithmetic is taken modulo `2^64`; the shift of the literal `1`
is a shift of the 32-bit type `int`. A capacity whose constant evaluation is
rejected has no queue, so every queue below is built over a `Ring`.
-/

namespace LockFree.BufferSize

def clzll (x : ℕ) : ℕ := 63 - Nat.log2 x

/-- `1 << k` in `int`, converted to `size_t`. A shift by the width of `int` or
more is not a constant expression. -/
def shiftOne (k : ℕ) : Option ℕ :=
  if k < 31 then some (2 ^ k) else if k = 31 then some (2 ^ 64 - 2 ^ 31) else none

def getBufferSize (capacity : ℕ) : Option ℕ :=
  let capacity := (capacity + 1) % 2 ^ 64
  let capacity := if capacity < 4 then 4 else capacity
  let maxBitsNumber := 63
  match shiftOne (maxBitsNumber - clzll capacity + 1) with
  | none => none
  | some capacity => if capacity &&& (capacity - 1) = 0 then some capacity else none

/-- A value of the template argument `Capacity` that the compiler accepts. -/
structure Ring where
  capacity : ℕ
  size : ℕ
  accepted : getBufferSize capacity = some size

def Ring.smallest : Ring := ⟨3, 8, by decide⟩

theorem shiftOne_eq_some {k n : ℕ} (h : shiftOne k = some n) (hn : n &&& (n - 1) = 0) :
    k < 31 ∧ n = 2 ^ k := by
  unfold shiftOne at h
  split at h
  · rename_i hk
    exact ⟨hk, (Option.some.inj h).symm⟩
  · split at h
    · cases h
      exact absurd hn (by decide)
    · cases h

theorem two_le_log2 {x : ℕ} (h : 4 ≤ x) : 2 ≤ Nat.log2 x :=
  (Nat.le_log2 (by omega)).mpr h

theorem log2_le_63 {x : ℕ} (h : x < 2 ^ 64) : Nat.log2 x ≤ 63 := by
  rcases Nat.eq_zero_or_pos x with rfl | hx
  · simp
  · exact Nat.le_of_lt_succ ((Nat.log2_lt (by omega)).mpr h)

theorem sub_mod_of_window {n head tail : ℕ} (hle : head ≤ tail) (hlt : tail < head + n) :
    (tail % n + n - head % n) % n = tail - head := by
  have hh := Nat.mod_lt head (show 0 < n by omega)
  have hmod : (tail % n + n - head % n) + head ≡ tail - head + head [MOD n] := by
    calc (tail % n + n - head % n) + head
        ≡ (tail % n + n - head % n) + head % n [MOD n] :=
          Nat.ModEq.add_left _ (Nat.mod_modEq head n).symm
      _ = tail % n + n := by omega
      _ ≡ tail % n [MOD n] := Nat.add_mod_right _ _
      _ ≡ tail [MOD n] := Nat.mod_modEq tail n
      _ = tail - head + head := by omega
  have hcancel := Nat.ModEq.add_right_cancel' head hmod
  rw [hcancel, Nat.mod_eq_of_lt (by omega)]

namespace Ring

theorem size_eq_two_pow (R : Ring) : ∃ k, 3 ≤ k ∧ k ≤ 30 ∧ R.size = 2 ^ k := by
  have h := R.accepted
  simp only [getBufferSize] at h
  generalize hc : (if (R.capacity + 1) % 2 ^ 64 < 4 then 4 else (R.capacity + 1) % 2 ^ 64) = c at h
  have hlow : 4 ≤ c := by split at hc <;> omega
  have hhigh : c < 2 ^ 64 := by split at hc <;> omega
  split at h
  · cases h
  · rename_i n hn
    split at h
    · rename_i hp
      obtain ⟨hk, rfl⟩ := shiftOne_eq_some hn hp
      have h2 := two_le_log2 hlow
      have h63 := log2_le_63 hhigh
      unfold clzll at hk
      refine ⟨63 - clzll c + 1, ?_, by unfold clzll; omega, (Option.some.inj h).symm⟩
      unfold clzll
      omega
    · cases h

theorem size_eq_of_capacity (R : Ring) :
    R.size = 2 ^ (Nat.log2 (max 4 ((R.capacity + 1) % 2 ^ 64)) + 1) := by
  have h := R.accepted
  simp only [getBufferSize] at h
  have hmax : (if (R.capacity + 1) % 2 ^ 64 < 4 then 4 else (R.capacity + 1) % 2 ^ 64) =
      max 4 ((R.capacity + 1) % 2 ^ 64) := by
    split <;> omega
  rw [hmax] at h
  have h63 := log2_le_63 (x := max 4 ((R.capacity + 1) % 2 ^ 64)) (by omega)
  split at h
  · cases h
  · rename_i n hn
    split at h
    · rename_i hp
      obtain ⟨-, rfl⟩ := shiftOne_eq_some hn hp
      rw [← Option.some.inj h, clzll]
      congr 1
      omega
    · cases h

theorem capacity_lt_size (R : Ring) (h : R.capacity + 1 < 2 ^ 64) : R.capacity + 1 < R.size := by
  have hlog := Nat.lt_log2_self (n := max 4 ((R.capacity + 1) % 2 ^ 64))
  rw [R.size_eq_of_capacity]
  rw [Nat.mod_eq_of_lt h] at hlog ⊢
  omega

theorem size_of_largest (R : Ring) (h : R.capacity + 1 = 2 ^ 64) : R.size = 8 := by
  rw [R.size_eq_of_capacity, h]
  decide

theorem eight_le_size (R : Ring) : 8 ≤ R.size := by
  obtain ⟨k, hk, -, hs⟩ := R.size_eq_two_pow
  rw [hs]
  exact Nat.pow_le_pow_right (n := 2) (by omega) hk

theorem size_le (R : Ring) : R.size ≤ 2 ^ 30 := by
  obtain ⟨k, -, hk, hs⟩ := R.size_eq_two_pow
  rw [hs]
  exact Nat.pow_le_pow_right (by omega) hk

theorem size_dvd (R : Ring) : R.size ∣ 2 ^ 64 := by
  obtain ⟨k, -, hk, hs⟩ := R.size_eq_two_pow
  rw [hs]
  exact pow_dvd_pow 2 (by omega)

def getIndexMask (R : Ring) : ℕ := R.size - 1

theorem and_getIndexMask (R : Ring) (i : ℕ) : i &&& R.getIndexMask = i % R.size := by
  obtain ⟨k, -, -, hs⟩ := R.size_eq_two_pow
  rw [getIndexMask, hs]
  exact Nat.and_two_pow_sub_one_eq_mod i k

def index (R : Ring) (i : ℕ) : Fin R.size :=
  ⟨i &&& R.getIndexMask, by
    rw [R.and_getIndexMask]
    exact Nat.mod_lt _ (by have := R.eight_le_size; omega)⟩

@[simp] theorem index_val (R : Ring) (i : ℕ) : (R.index i).val = i % R.size :=
  R.and_getIndexMask i

theorem index_eq_iff (R : Ring) {i j : ℕ} : R.index i = R.index j ↔ i % R.size = j % R.size := by
  simp [Fin.ext_iff]

@[simp] theorem index_mod (R : Ring) (i : ℕ) : R.index (i % 2 ^ 64) = R.index i := by
  rw [index_eq_iff, Nat.mod_mod_of_dvd _ R.size_dvd]

@[simp] theorem index_add_size (R : Ring) (i : ℕ) : R.index (i + R.size) = R.index i := by
  rw [index_eq_iff, Nat.add_mod_right]

theorem index_inj (R : Ring) {h i j : ℕ} (hi : h ≤ i) (hi' : i < h + R.size) (hj : h ≤ j)
    (hj' : j < h + R.size) : R.index i = R.index j ↔ i = j := by
  rw [index_eq_iff]
  constructor
  · intro heq
    have hpos : 0 < R.size := by have := R.eight_le_size; omega
    have key : ∀ {a b : ℕ}, a ≤ b → b < a + R.size → a % R.size = b % R.size → a = b := by
      intro a b hab hlt heq
      have hdvd : R.size ∣ b - a := Nat.dvd_of_mod_eq_zero (Nat.sub_mod_eq_zero_of_mod_eq heq.symm)
      have := Nat.eq_zero_of_dvd_of_lt hdvd (by omega)
      omega
    rcases Nat.le_total i j with hij | hji
    · exact key hij (by omega) heq
    · exact (key hji (by omega) heq.symm).symm
  · intro heq
    rw [heq]

end Ring

example : getBufferSize 400 = some 512 := by decide
example : getBufferSize (2 ^ 30) = none := by decide

end LockFree.BufferSize
