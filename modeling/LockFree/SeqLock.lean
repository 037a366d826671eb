import Mathlib.Algebra.Group.Nat.Defs
import LockFree.AtomicMemcpy

/-!
# SeqLock

The counter is odd while somebody holds the lock. A reader takes no lock: it reads the
counter before and after its copy and asks for the same even value.
-/

namespace LockFree.SeqLock

def counterSize : ℕ := 2 ^ 32

def isLocked (seq : ℕ) : Bool := seq &&& 1 != 0

inductive Locking
  | load
  | exchange (seq : ℕ)
  | locked (seq : ℕ)

def Locking.read (seq : ℕ) : Locking :=
  if isLocked seq then .load else .exchange seq

def lock (counter : ℕ) (spurious : Bool) : Locking → ℕ × Locking
  | .load => (counter, .read counter)
  | .exchange seq =>
    if counter = seq ∧ ¬ spurious then ((seq + 1) % counterSize, .locked seq)
    else (counter, .read counter)
  | .locked seq => (counter, .locked seq)

def unlock (seq : ℕ) : ℕ := (seq + 2) % counterSize

theorem isLocked_eq (seq : ℕ) : isLocked seq = decide (seq % 2 = 1) := by
  rw [isLocked, Nat.and_one_is_mod]
  rcases Nat.mod_two_eq_zero_or_one seq with h | h <;> rw [h] <;> rfl

theorem isLocked_false {seq : ℕ} : isLocked seq = false ↔ seq % 2 = 0 := by
  rw [isLocked_eq, decide_eq_false_iff_not]
  omega

theorem isLocked_true {seq : ℕ} : isLocked seq = true ↔ seq % 2 = 1 := by
  rw [isLocked_eq, decide_eq_true_iff]

/-- `Lock` compares with an unlocked value only. -/
def Locking.Waits (p : Locking) : Prop :=
  p = .load ∨ ∃ seq, p = .exchange seq ∧ isLocked seq = false

theorem Locking.waits_read (counter : ℕ) : (Locking.read counter).Waits := by
  rw [read]
  cases h : isLocked counter with
  | true => exact .inl rfl
  | false => exact .inr ⟨counter, rfl, h⟩

theorem lock_cases (counter : ℕ) (spurious : Bool) {p : Locking} (hp : p.Waits) :
    lock counter spurious p = (counter, .read counter) ∨
      (isLocked counter = false ∧
        lock counter spurious p = ((counter + 1) % counterSize, .locked counter)) := by
  rcases hp with rfl | ⟨seq, rfl, hseq⟩
  · exact .inl rfl
  · rw [lock]
    split
    · rename_i h
      exact .inr ⟨h.1 ▸ hseq, by rw [h.1]⟩
    · exact .inl rfl

def Counts (counter n : ℕ) : Prop :=
  counter = (2 * n + (isLocked counter).toNat) % counterSize

theorem counts_zero : Counts 0 0 := by
  rw [Counts]
  decide

theorem isLocked_mod (n : ℕ) : isLocked (2 * n % counterSize) = false := by
  rw [isLocked_false, counterSize]
  omega

theorem Counts.lock {counter n : ℕ} (h : Counts counter n) (hfree : isLocked counter = false) :
    counter = 2 * n % counterSize ∧ isLocked ((counter + 1) % counterSize) = true ∧
      Counts ((counter + 1) % counterSize) n := by
  rw [Counts, hfree] at h
  have hlocked : isLocked ((counter + 1) % counterSize) = true := by
    rw [isLocked_false] at hfree
    rw [isLocked_true, counterSize]
    omega
  refine ⟨h, hlocked, ?_⟩
  rw [Counts, hlocked]
  simp only [counterSize, Bool.toNat_true, Bool.toNat_false] at h ⊢
  omega

theorem unlock_eq (n : ℕ) : unlock (2 * n % counterSize) = 2 * (n + 1) % counterSize := by
  rw [unlock, counterSize]
  omega

theorem counts_unlock (n : ℕ) : Counts (unlock (2 * n % counterSize)) (n + 1) := by
  rw [Counts, unlock_eq, isLocked_mod]
  rfl

/-- A reader read `seq0` when at least `n₀` of the by now `n` critical sections had ended,
and knows `P` unless another one has begun since. -/
def Snapshot (n₀ n counter seq0 : ℕ) (P : Prop) : Prop :=
  ∃ k b, n₀ ≤ k ∧ k ≤ n ∧ b ≤ 1 ∧ seq0 = (2 * k + b) % counterSize ∧
    (n = k → isLocked counter = false → P)

section
variable {n₀ n n' counter counter' seq0 : ℕ} {P Q : Prop}

theorem Snapshot.take (hle : n₀ ≤ n) (h : Counts counter n) (hP : P) :
    Snapshot n₀ n counter counter P :=
  ⟨n, _, hle, le_rfl, Bool.toNat_le _, h, fun _ _ => hP⟩

theorem Snapshot.le (h : Snapshot n₀ n counter seq0 P) : n₀ ≤ n := by
  obtain ⟨k, b, hk, hkn, -⟩ := h
  exact Nat.le_trans hk hkn

theorem Snapshot.of_le {n₁ : ℕ} (h : Snapshot n₁ n counter seq0 P) (hle : n₀ ≤ n₁) :
    Snapshot n₀ n counter seq0 P := by
  obtain ⟨k, b, hk, hrest⟩ := h
  exact ⟨k, b, Nat.le_trans hle hk, hrest⟩

theorem Snapshot.imp (h : Snapshot n₀ n counter seq0 P) (hPQ : P → Q) :
    Snapshot n₀ n counter seq0 Q := by
  obtain ⟨k, b, hk, hkn, hb, hseq, hP⟩ := h
  exact ⟨k, b, hk, hkn, hb, hseq, fun heq hfree => hPQ (hP heq hfree)⟩

theorem Snapshot.mono (h : Snapshot n₀ n counter seq0 P) (hle : n ≤ n')
    (hsame : n' = n → isLocked counter' = false → isLocked counter = false ∧ (P → Q)) :
    Snapshot n₀ n' counter' seq0 Q := by
  obtain ⟨k, b, hk, hkn, hb, hseq, hP⟩ := h
  refine ⟨k, b, hk, Nat.le_trans hkn hle, hb, hseq, fun heq hfree => ?_⟩
  obtain ⟨hfree, hPQ⟩ := hsame (by omega) hfree
  exact hPQ (hP (by omega) hfree)

/-- The counter has come back to `seq0` only if no critical section went by, as long as it
has not gone all the way round. -/
theorem Snapshot.settle (h : Snapshot n₀ n counter seq0 P) (hc : Counts counter n)
    (hfree : isLocked seq0 = false) (heq : seq0 = counter) (hfew : n < n₀ + 2 ^ 31) : P := by
  subst heq
  obtain ⟨k, b, hk, hkn, hb, hseq, hP⟩ := h
  rw [Counts, hfree, Bool.toNat_false] at hc
  refine hP ?_ hfree
  rw [isLocked_false] at hfree
  rw [counterSize] at hc hseq
  omega

end
end LockFree.SeqLock
