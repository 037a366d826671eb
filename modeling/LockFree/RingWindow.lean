import LockFree.BufferSize

/-!
# The window of a ring between a producer and a consumer

Counters that never wrap follow the wrapped indices of a ring queue: the elements
ever given back and ever published, and the values at which the producer last saw the
first and the consumer last saw the second.
-/

namespace LockFree.RingWindow
open BufferSize

def nextIndex {R : Ring} (i : Fin R.size) : Fin R.size := R.index ((i + 1) % 2 ^ 64)

@[simp] theorem nextIndex_index {R : Ring} (i : ℕ) : nextIndex (R.index i) = R.index (i + 1) := by
  rw [nextIndex, Ring.index_mod, Ring.index_eq_iff, Ring.index_val, Nat.mod_add_mod]

structure Window (R : Ring) (seenHead head seenTail tail : ℕ) : Prop where
  seenHead_le : seenHead ≤ head
  le_seenTail : head ≤ seenTail
  seenTail_le : seenTail ≤ tail
  lt_seenHead : tail < seenHead + R.size

namespace Window
variable {R : Ring} {seenHead head seenTail tail : ℕ}

theorem empty (R : Ring) : Window R 0 0 0 0 where
  seenHead_le := le_rfl
  le_seenTail := le_rfl
  seenTail_le := le_rfl
  lt_seenHead := by
    have := R.eight_le_size
    omega

theorem head_le (h : Window R seenHead head seenTail tail) : head ≤ tail :=
  h.le_seenTail.trans h.seenTail_le

theorem lt_head (h : Window R seenHead head seenTail tail) : tail < head + R.size :=
  h.lt_seenHead.trans_le (Nat.add_le_add_right h.seenHead_le _)

theorem index_inj (h : Window R seenHead head seenTail tail) {k l : ℕ} (hk : head ≤ k)
    (hk' : k ≤ tail) (hl : head ≤ l) (hl' : l ≤ tail) : R.index k = R.index l ↔ k = l := by
  have := h.lt_head
  exact R.index_inj hk (by omega) hl (by omega)

theorem index_ne_tail (h : Window R seenHead head seenTail tail) {k : ℕ} (hk : head ≤ k)
    (hk' : k < tail) : R.index k ≠ R.index tail := by
  rw [Ne, h.index_inj hk hk'.le h.head_le le_rfl]
  exact hk'.ne

/-- `next_tail != cached_head_` leaves room for one more element. -/
theorem room (h : Window R seenHead head seenTail tail)
    (hne : R.index (tail + 1) ≠ R.index seenHead) : tail + 1 < seenHead + R.size := by
  refine lt_of_le_of_ne h.lt_seenHead fun heq => hne ?_
  rw [heq, R.index_add_size]

/-- `next_tail == head_` says that one slot is left. -/
theorem full (h : Window R seenHead head seenTail tail)
    (heq : R.index (tail + 1) = R.index head) : tail + 1 = head + R.size := by
  have := h.head_le
  have := h.lt_head
  have := R.eight_le_size
  rw [← R.index_add_size head] at heq
  exact (R.index_inj (h := head + 1) (by omega) (by omega) (by omega) (by omega)).mp heq

theorem seen_ne (h : Window R seenHead head seenTail tail)
    (hne : R.index head ≠ R.index seenTail) : head < seenTail :=
  lt_of_le_of_ne h.le_seenTail fun heq => hne (by rw [heq])

theorem eq_of_index (h : Window R seenHead head seenTail tail)
    (heq : R.index head = R.index tail) : head = tail :=
  (h.index_inj le_rfl h.head_le h.head_le le_rfl).mp heq

theorem loadHead (h : Window R seenHead head seenTail tail) : Window R head head seenTail tail :=
  ⟨le_rfl, h.le_seenTail, h.seenTail_le, h.lt_head⟩

theorem loadTail (h : Window R seenHead head seenTail tail) : Window R seenHead head tail tail :=
  ⟨h.seenHead_le, h.head_le, le_rfl, h.lt_seenHead⟩

theorem storeTail (h : Window R seenHead head seenTail tail)
    (hroom : tail + 1 < seenHead + R.size) : Window R seenHead head seenTail (tail + 1) :=
  ⟨h.seenHead_le, h.le_seenTail, h.seenTail_le.trans (Nat.le_succ tail), hroom⟩

theorem storeHead (h : Window R seenHead head seenTail tail) (hlt : head < seenTail) :
    Window R seenHead (head + 1) seenTail tail :=
  ⟨h.seenHead_le.trans (Nat.le_succ head), hlt, h.seenTail_le, h.lt_seenHead⟩

end Window
end LockFree.RingWindow
