import Mathlib.Data.List.Range
import Mathlib.Tactic.Common

/-!
# atomic_memcpy

A copy is a list of separate accesses, each to the bytes from one offset to another:
whole words first, then the bytes that are left. Other threads may act between two of
them.
-/

namespace LockFree.AtomicMemcpy

abbrev Memory := ℕ → UInt8

/-- `details::atomic_memcpy_load<T>` and `_store<T>` with a `T` of `width` bytes. -/
def accesses (width first last : ℕ) : List (ℕ × ℕ) :=
  (List.range' first (last - first)).map fun i => (i * width, (i + 1) * width)

def maxBitsTypeSize : ℕ := 8

def atomicMemcpy (count : ℕ) : List (ℕ × ℕ) :=
  accesses maxBitsTypeSize 0 (count / maxBitsTypeSize) ++
    accesses 1 (count / maxBitsTypeSize * maxBitsTypeSize) count

def copy (access : ℕ × ℕ) (src dest : Memory) : Memory := fun i =>
  if access.1 ≤ i ∧ i < access.2 then src i else dest i

def contents (count : ℕ) (m : Memory) : List UInt8 := (List.range count).map m

theorem contents_congr {count : ℕ} {m m' : Memory} (h : ∀ i < count, m i = m' i) :
    contents count m = contents count m' :=
  List.map_congr_left fun i hi => h i (List.mem_range.mp hi)

/-- Accesses that cover `[lo, hi)`, each starting where the one before it ends. -/
inductive Tiles : ℕ → List (ℕ × ℕ) → ℕ → Prop where
  | nil (m : ℕ) : Tiles m [] m
  | cons {lo mid hi : ℕ} {rest : List (ℕ × ℕ)} :
      lo ≤ mid → Tiles mid rest hi → Tiles lo ((lo, mid) :: rest) hi

theorem Tiles.append {lo mid hi : ℕ} {xs ys : List (ℕ × ℕ)} (hx : Tiles lo xs mid)
    (hy : Tiles mid ys hi) : Tiles lo (xs ++ ys) hi := by
  induction hx with
  | nil => exact hy
  | cons hle _ ih => exact .cons hle (ih hy)

theorem tiles_accesses (width first : ℕ) {last : ℕ} (hle : first ≤ last) :
    Tiles (first * width) (accesses width first last) (last * width) := by
  obtain ⟨n, rfl⟩ := Nat.exists_eq_add_of_le hle
  rw [accesses, Nat.add_sub_cancel_left]
  clear hle
  induction n generalizing first with
  | zero => exact .nil _
  | succ n ih =>
    rw [List.range'_succ, List.map_cons]
    refine .cons (Nat.mul_le_mul_right width (Nat.le_succ first)) ?_
    rw [← Nat.add_assoc, Nat.add_right_comm]
    exact ih (first + 1)

theorem tiles_atomicMemcpy (count : ℕ) : Tiles 0 (atomicMemcpy count) count := by
  have hwords := tiles_accesses maxBitsTypeSize 0 (Nat.zero_le (count / maxBitsTypeSize))
  have hbytes := tiles_accesses 1 _ (Nat.div_mul_le_self count maxBitsTypeSize)
  rw [Nat.mul_one, Nat.mul_one] at hbytes
  rw [Nat.zero_mul] at hwords
  exact hwords.append hbytes

theorem Tiles.head {lo hi : ℕ} {access : ℕ × ℕ} {rest : List (ℕ × ℕ)}
    (h : Tiles lo (access :: rest) hi) :
    access.1 = lo ∧ lo ≤ access.2 ∧ Tiles access.2 rest hi := by
  cases h with
  | cons hle hrest => exact ⟨rfl, hle, hrest⟩

theorem Tiles.eq_of_nil {lo hi : ℕ} (h : Tiles lo [] hi) : lo = hi := by
  cases h
  rfl

theorem Tiles.le_last {lo hi : ℕ} {accesses : List (ℕ × ℕ)} (h : Tiles lo accesses hi) :
    lo ≤ hi ∧ ∀ access ∈ accesses, access.2 ≤ hi := by
  induction h with
  | nil => exact ⟨le_rfl, fun access hmem => by cases hmem⟩
  | cons hle _ ih =>
    refine ⟨Nat.le_trans hle ih.1, fun access hmem => ?_⟩
    rcases List.mem_cons.mp hmem with rfl | hmem
    · exact ih.1
    · exact ih.2 access hmem

theorem copy_of_prefix {lo i : ℕ} {access : ℕ × ℕ} {src dest : Memory} (hlo : access.1 = lo)
    (h : ∀ i < lo, dest i = src i) (hi : i < access.2) : copy access src dest i = src i := by
  unfold copy
  split
  · rfl
  · exact h i (by omega)

end LockFree.AtomicMemcpy
