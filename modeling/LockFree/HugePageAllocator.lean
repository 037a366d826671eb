import Mathlib.Algebra.Group.Nat.Defs
import Mathlib.Tactic.Common

/-!
# HugePageAllocator

`size_t` arithmetic is modulo `2^64`. `mmap` is a parameter: it takes a length and may
fail, and it fails for length 0.
-/

namespace LockFree.HugePageAllocator

def kHugePageSize : ℕ := 2 ^ 21

/-- `n - 1u` is `2^64 - 1` for `n = 0`. -/
def getHugePageSize (n : ℕ) : ℕ :=
  ((n + 2 ^ 64 - 1) % 2 ^ 64 / kHugePageSize + 1) % 2 ^ 64 * kHugePageSize % 2 ^ 64

structure Mapping where
  address : ℕ
  length : ℕ

def allocateLength (size n : ℕ) : ℕ := getHugePageSize (n * size % 2 ^ 64)

/-- `none` is `MAP_FAILED` for `mmap` and `std::bad_alloc` for `allocate`. -/
def allocate (size : ℕ) (mmap : ℕ → Option Mapping) (n : ℕ) : Option Mapping :=
  mmap (allocateLength size n)

/-- What is known about `mmap`. -/
structure IsMmap (mmap : ℕ → Option Mapping) : Prop where
  zero : mmap 0 = none
  length : ∀ {length : ℕ} {m : Mapping}, mmap length = some m → m.length = length

theorem getHugePageSize_of_pos {n : ℕ} (hpos : 0 < n) (hle : n ≤ 2 ^ 64 - 2 ^ 21) :
    getHugePageSize n = ((n - 1) / kHugePageSize + 1) * kHugePageSize := by
  rw [getHugePageSize, kHugePageSize]
  omega

theorem getHugePageSize_bounds {n : ℕ} (hpos : 0 < n) (hle : n ≤ 2 ^ 64 - 2 ^ 21) :
    n ≤ getHugePageSize n ∧ getHugePageSize n < n + kHugePageSize := by
  rw [getHugePageSize_of_pos hpos hle, kHugePageSize]
  omega

theorem getHugePageSize_eq_zero {n : ℕ} (hn : n < 2 ^ 64) :
    getHugePageSize n = 0 ↔ n = 0 ∨ 2 ^ 64 - 2 ^ 21 < n := by
  rw [getHugePageSize, kHugePageSize]
  omega

theorem kHugePageSize_dvd (n : ℕ) : getHugePageSize n % kHugePageSize = 0 := by
  rw [getHugePageSize, kHugePageSize]
  omega

theorem getHugePageSize_lt (n : ℕ) : getHugePageSize n < 2 ^ 64 :=
  Nat.mod_lt _ (by decide)

/-- Whatever `mmap` does, a mapping that is returned has room for `n` elements and less
than one huge page to spare. -/
def Sufficient (size n : ℕ) : Prop :=
  ∀ mmap, IsMmap mmap → ∀ m, allocate size mmap n = some m →
    m.length % kHugePageSize = 0 ∧ n * size ≤ m.length ∧ m.length < n * size + kHugePageSize

theorem allocateLength_of_lt {size n : ℕ} (h : n * size < 2 ^ 64) :
    allocateLength size n = getHugePageSize (n * size) := by
  rw [allocateLength, Nat.mod_eq_of_lt h]

theorem sufficient_of_lt {size n : ℕ} (h : n * size < 2 ^ 64) : Sufficient size n := by
  intro mmap hmmap m hm
  have hlength : m.length = getHugePageSize (n * size) := by
    rw [← allocateLength_of_lt h]
    exact hmmap.length hm
  have hpos : getHugePageSize (n * size) ≠ 0 := by
    intro hzero
    rw [allocate, allocateLength_of_lt h, hzero, hmmap.zero] at hm
    cases hm
  rw [Ne, getHugePageSize_eq_zero h, not_or, Nat.not_lt] at hpos
  rw [hlength]
  exact ⟨kHugePageSize_dvd _, getHugePageSize_bounds (Nat.pos_of_ne_zero hpos.1) hpos.2⟩

theorem not_sufficient {size n : ℕ} (hwraps : 2 ^ 64 ≤ n * size)
    (hlength : allocateLength size n ≠ 0) : ¬ Sufficient size n := by
  intro h
  have hmmap : IsMmap fun length => if length = 0 then none else some ⟨kHugePageSize, length⟩ := by
    refine ⟨rfl, fun {length m} hm => ?_⟩
    simp only [Option.ite_none_left_eq_some, Option.some.injEq] at hm
    rw [← hm.2]
  obtain ⟨-, hle, -⟩ := h _ hmmap ⟨kHugePageSize, allocateLength size n⟩ (if_neg hlength)
  have hlt : n * size < 2 ^ 64 := Nat.lt_of_le_of_lt hle (getHugePageSize_lt _)
  exact absurd hlt (Nat.not_lt.mpr hwraps)

/-- The product may wrap around only if what is left of it makes `mmap` fail. -/
theorem sufficient_iff (size n : ℕ) :
    Sufficient size n ↔
      n * size < 2 ^ 64 ∨ n * size % 2 ^ 64 = 0 ∨ 2 ^ 64 - 2 ^ 21 < n * size % 2 ^ 64 := by
  rw [← getHugePageSize_eq_zero (Nat.mod_lt _ (by decide))]
  constructor
  · intro h
    by_contra hcond
    rw [not_or, Nat.not_lt] at hcond
    exact not_sufficient hcond.1 hcond.2 h
  · rintro (hlt | hzero)
    · exact sufficient_of_lt hlt
    · intro mmap hmmap m hm
      rw [allocate, allocateLength, hzero, hmmap.zero] at hm
      cases hm

theorem not_sufficient_wrapped :
    ¬ Sufficient 8 (2 ^ 61 + 1) ∧ allocateLength 8 (2 ^ 61 + 1) = kHugePageSize :=
  ⟨not_sufficient (by decide) (by decide), by decide⟩

end LockFree.HugePageAllocator
