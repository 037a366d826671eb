import LockFree.BoundedMulticastQueue
import LockFree.RingLaps

/-!
# The slots of BoundedMulticastQueue

The counter of a slot counts the messages it has held, and the slot the writer is not
in holds the last of them.
-/

namespace LockFree.BoundedMulticastQueue
open AtomicMemcpy SeqLock RingLaps TransitionRuns

variable {P : Params} {slot slot' : Slot} {w w' : Writer} {ws : List (List UInt8)} {i : ℕ}

theorem getBufferSize_pos (P : Params) : 0 < P.getBufferSize := Nat.two_pow_pos _

theorem and_getIndexMask (P : Params) (k : ℕ) : k &&& P.getIndexMask = k % P.getBufferSize :=
  Nat.and_two_pow_sub_one_eq_mod k _

theorem add_one_mod (k n : ℕ) : (k % n + 1) % n = (k + 1) % n :=
  Nat.mod_add_mod k n 1

def Store.holds : Store → Bool
  | .copying _ _ _ | .unlocking _ _ => true
  | _ => false

def Store.pending : Store → ℕ
  | .idle => 0
  | _ => 1

def Store.Progress (k : ℕ) (slot : Slot) : Store → Prop
  | .idle => True
  | .locking _ p => p.Waits
  | .copying desired seq rest =>
    seq = 2 * k % counterSize ∧ ∃ m, Tiles m rest desired.size ∧
      ∀ i < m, slot.data i = desired.data i
  | .unlocking desired seq =>
    seq = 2 * k % counterSize ∧ slot.messageSize = desired.size ∧
      ∀ i < desired.size, slot.data i = desired.data i

/-- Slot `i` after the messages `ws`; the writer is in it or not. -/
structure SlotInv (n i : ℕ) (ws : List (List UInt8)) (slot : Slot) (busy : Bool) : Prop where
  counter : Counts slot.counter (laps n i ws.length)
  locked : isLocked slot.counter = busy
  last : busy = false → ∀ q, laps n i ws.length = q + 1 →
    ws[q * n + i]? = some (contents slot.messageSize slot.data)

structure StoreInv (P : Params) (ws : List (List UInt8)) (slot : Slot) (w : Writer) : Prop where
  tail : w.tail = ws.length % P.getBufferSize
  own : SlotInv P.getBufferSize w.tail ws slot w.pc.holds
  progress : w.pc.Progress (ws.length / P.getBufferSize) slot

def WriterEvent.written? : WriterEvent → Option (List UInt8)
  | .written m => some m
  | _ => none

theorem StoreInv.counter (h : StoreInv P ws slot w) :
    Counts slot.counter (ws.length / P.getBufferSize) := by
  have hc := h.own.counter
  rwa [h.tail, laps_mod_self (getBufferSize_pos P)] at hc

theorem SlotInv.append {n : ℕ} {m : List UInt8} {busy : Bool} (h : SlotInv n i ws slot busy)
    (hi : i < n) (hne : i ≠ ws.length % n) : SlotInv n i (ws ++ [m]) slot busy := by
  have hlaps : laps n i (ws ++ [m]).length = laps n i ws.length := by
    rw [List.length_append, List.length_singleton, laps_succ_of_ne hi hne]
  constructor
  · rw [hlaps]
    exact h.counter
  · exact h.locked
  · intro hfree q hq
    rw [hlaps] at hq
    have hlt : q * n + i < ws.length := (lt_laps_iff hi).mp (by omega)
    rw [List.getElem?_append_left hlt]
    exact h.last hfree q hq

theorem StoreInv.store {spurious : Bool} {e : WriterEvent} (h : StoreInv P ws slot w)
    (hs : store P slot w spurious = some (slot', w', e)) :
    (e = .silent ∧ StoreInv P ws slot' w' ∧ w'.tail = w.tail ∧ w'.pc.pending = w.pc.pending ∧
      (isLocked slot'.counter = false → slot' = slot)) ∨
    ∃ m, e = .written m ∧ w.pc.pending = 1 ∧ w'.pc = .idle ∧
      w'.tail = (ws.length + 1) % P.getBufferSize ∧
      SlotInv P.getBufferSize w.tail (ws ++ [m]) slot' false := by
  obtain ⟨tail, pc⟩ := w
  have hcounter := h.counter
  have hlocked := h.own.locked
  have hprogress := h.progress
  have hlast := h.own.last
  -- a step that keeps the counter keeps all but the bytes of a locked slot
  have keep : ∀ {data size pc'}, pc.holds = true → pc'.holds = true →
      pc'.Progress (ws.length / P.getBufferSize) ⟨data, size, slot.counter⟩ →
      StoreInv P ws ⟨data, size, slot.counter⟩ ⟨tail, pc'⟩ := by
    intro data size pc' hpc hpc' hp
    refine ⟨h.tail, ⟨h.own.counter, ?_, fun hb => ?_⟩, hp⟩
    · exact h.own.locked.trans (hpc.trans hpc'.symm)
    · exact absurd (hpc'.symm.trans hb) Bool.noConfusion
  cases pc with
  | idle => cases hs
  | locking desired p =>
    rcases lock_cases slot.counter spurious hprogress with hlock | ⟨hfree, hlock⟩ <;>
      simp only [BoundedMulticastQueue.store, hlock] at hs
    · refine .inl ?_
      rcases Locking.waits_read slot.counter with hread | ⟨seq, hread, hseq⟩ <;>
        simp only [hread] at hs <;> cases hs
      · exact ⟨rfl, ⟨h.tail, h.own, .inl rfl⟩, rfl, rfl, fun _ => rfl⟩
      · exact ⟨rfl, ⟨h.tail, h.own, .inr ⟨seq, rfl, hseq⟩⟩, rfl, rfl, fun _ => rfl⟩
    · cases hs
      obtain ⟨hseq, hlocked', hcounts⟩ := hcounter.lock hfree
      have hlaps := h.own.counter.lock hfree
      refine .inl ⟨rfl, ⟨h.tail, ⟨hlaps.2.2, hlocked', fun hb => ?_⟩, hseq, 0,
        tiles_atomicMemcpy _, fun i hi => absurd hi (Nat.not_lt_zero i)⟩, rfl, rfl, fun hfree' => ?_⟩
      · cases hb
      · exact absurd (hlocked'.symm.trans hfree') Bool.noConfusion
  | copying desired seq rest =>
    obtain ⟨hseq, m, htiles, hdone⟩ := hprogress
    cases rest with
    | cons access rest =>
      cases hs
      obtain ⟨hlo, -, htiles⟩ := htiles.head
      refine .inl ⟨rfl, keep rfl rfl ⟨hseq, access.2, htiles, fun i hi => ?_⟩, rfl, rfl,
        fun hfree => ?_⟩
      · exact copy_of_prefix hlo hdone hi
      · exact absurd (hlocked.symm.trans hfree) Bool.noConfusion
    | nil =>
      cases hs
      obtain rfl := htiles.eq_of_nil
      refine .inl ⟨rfl, keep rfl rfl ⟨hseq, rfl, hdone⟩, rfl, rfl, fun hfree => ?_⟩
      exact absurd (hlocked.symm.trans hfree) Bool.noConfusion
  | unlocking desired seq =>
    cases hs
    obtain ⟨rfl, hsize, hdone⟩ := hprogress
    have htail : tail = ws.length % P.getBufferSize := h.tail
    refine .inr ⟨_, rfl, rfl, rfl, ?_, ?_⟩
    · dsimp only
      rw [and_getIndexMask, htail, add_one_mod]
    · dsimp only
      rw [htail]
      have hlaps := laps_succ_self (k := ws.length) (getBufferSize_pos P)
      refine ⟨?_, ?_, fun _ q hq => ?_⟩
      · rw [List.length_append, List.length_singleton, hlaps]
        exact counts_unlock _
      · dsimp only
        rw [unlock_eq]
        exact isLocked_mod _
      · rw [List.length_append, List.length_singleton, hlaps] at hq
        obtain rfl : ws.length / P.getBufferSize = q := by omega
        rw [Nat.div_add_mod', List.getElem?_concat_length]
        dsimp only
        rw [hsize, Message.contents, contents_congr hdone]

structure Inv (P : Params) (ws : List (List UInt8)) (buffer : ℕ → Slot) (w : Writer) : Prop where
  writer : StoreInv P ws (buffer w.tail) w
  slots : ∀ i < P.getBufferSize, i ≠ w.tail → SlotInv P.getBufferSize i ws (buffer i) false

variable {buffer : ℕ → Slot}

theorem SlotInv.empty {n : ℕ} (hi : i < n) : SlotInv n i [] ⟨fun _ => 0, 0, 0⟩ false where
  counter := by
    rw [List.length_nil, laps_zero hi]
    exact counts_zero
  locked := by decide
  last _ q hq := by
    rw [List.length_nil, laps_zero hi] at hq
    omega

theorem Inv.empty (P : Params) : Inv P [] (fun _ => ⟨fun _ => 0, 0, 0⟩) ⟨0, .idle⟩ where
  writer := ⟨(Nat.zero_mod _).symm, .empty (getBufferSize_pos P), trivial⟩
  slots _ hi _ := .empty hi

theorem Inv.exists_slot (h : Inv P ws buffer w) (hi : i < P.getBufferSize) :
    ∃ busy, SlotInv P.getBufferSize i ws (buffer i) busy := by
  by_cases hit : i = w.tail
  · subst hit
    exact ⟨_, h.writer.own⟩
  · exact ⟨_, h.slots i hi hit⟩

theorem Inv.silent (h : Inv P ws buffer w) (hw : StoreInv P ws slot' w')
    (htail : w'.tail = w.tail) : Inv P ws (Function.update buffer w.tail slot') w' := by
  constructor
  · rw [htail, Function.update_self]
    exact hw
  · intro i hi hne
    rw [htail] at hne
    rw [Function.update_of_ne hne]
    exact h.slots i hi hne

theorem Inv.written {m : List UInt8} (h : Inv P ws buffer w) (hpc : w'.pc = .idle)
    (htail : w'.tail = (ws.length + 1) % P.getBufferSize)
    (hslot : SlotInv P.getBufferSize w.tail (ws ++ [m]) slot' false) :
    Inv P (ws ++ [m]) (Function.update buffer w.tail slot') w' := by
  have hall : ∀ i < P.getBufferSize,
      SlotInv P.getBufferSize i (ws ++ [m]) (Function.update buffer w.tail slot' i) false := by
    intro i hi
    by_cases hit : i = w.tail
    · subst hit
      rw [Function.update_self]
      exact hslot
    · rw [Function.update_of_ne hit]
      exact (h.slots i hi hit).append hi (h.writer.tail ▸ hit)
  constructor
  · constructor
    · rw [htail, List.length_append, List.length_singleton]
    · rw [hpc]
      exact hall _ (htail ▸ Nat.mod_lt _ (getBufferSize_pos P))
    · rw [hpc]
      trivial
  · intro i hi _
    exact hall i hi

end LockFree.BoundedMulticastQueue
