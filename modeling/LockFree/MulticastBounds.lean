import LockFree.MulticastTypes

/-!
# The bytes of a message

`data_` has `MaxMessageSize` bytes. `Load` trusts the size that it reads, validated or not,
and `Get` the size of its own type, so all depends on the types that are put in.
-/

namespace LockFree.BoundedMulticastQueue
open AtomicMemcpy SeqLock RingLaps TransitionRuns

variable {P : Params} {T : Types} {capacity : ℕ} {slot slot' : Slot} {x x' : Reader}

/-- No byte beyond the storage is touched. -/
def Bytes.Within (capacity : ℕ) : Bytes → Prop
  | .stored access | .loaded access _ => ∀ i, access.1 ≤ i → i < access.2 → i < capacity
  | .got size _ => ∀ i < size, i < capacity
  | .none | .called | .sequence => True

structure InBounds {Rid : Type*} (P : Params) (es : List (TypedEvent Rid)) (s : TypedState Rid) :
    Prop where
  bytes : ∀ e ∈ es, e.bytes.Within P.maxMessageSize
  messageSize : ∀ i, (s.queue.buffer i).messageSize ≤ P.maxMessageSize

def Store.Fits (capacity : ℕ) : Store → Prop
  | .idle => True
  | .locking desired _ | .unlocking desired _ => desired.size ≤ capacity
  | .copying desired _ rest => desired.size ≤ capacity ∧ ∀ access ∈ rest, access.2 ≤ capacity

def Load.Fits (capacity : ℕ) : Load → Prop
  | .copying _ rest => ∀ access ∈ rest, access.2 ≤ capacity
  | _ => True

def Reading.Fits (capacity : ℕ) : Reading → Prop
  | .loading _ _ p => p.Fits capacity
  | _ => True

theorem atomicMemcpy_fits {count : ℕ} (h : count ≤ capacity) :
    ∀ access ∈ atomicMemcpy count, access.2 ≤ capacity := fun access hmem =>
  Nat.le_trans ((tiles_atomicMemcpy count).le_last.2 access hmem) h

theorem store_fits {w w' : Writer} {spurious : Bool} {e : WriterEvent}
    (hw : w.pc.Fits capacity) (hslot : slot.messageSize ≤ capacity)
    (hs : store P slot w spurious = some (slot', w', e)) :
    slot'.messageSize ≤ capacity ∧ w'.pc.Fits capacity ∧ w.pc.bytes.Within capacity := by
  obtain ⟨tail, pc⟩ := w
  cases pc with
  | idle => cases hs
  | locking desired p =>
    simp only [store] at hs
    split at hs <;> cases hs
    · exact ⟨hslot, ⟨hw, atomicMemcpy_fits hw⟩, trivial⟩
    · exact ⟨hslot, hw, trivial⟩
  | copying desired seq rest =>
    obtain ⟨hsize, hrest⟩ := hw
    cases rest with
    | cons access rest =>
      cases hs
      refine ⟨hslot, ⟨hsize, fun a ha => hrest a (List.mem_cons_of_mem _ ha)⟩, ?_⟩
      exact fun i _ hi => Nat.lt_of_lt_of_le hi (hrest access List.mem_cons_self)
    | nil =>
      cases hs
      exact ⟨hsize, hsize, trivial⟩
  | unlocking desired seq =>
    cases hs
    exact ⟨hslot, trivial, trivial⟩

theorem load_fits {m m' : Message} {p p' : Load} (hp : p.Fits capacity)
    (hslot : slot.messageSize ≤ capacity) (hl : load slot m p = (m', p')) :
    p'.Fits capacity := by
  cases p with
  | loadSeq0 =>
    cases hl
    trivial
  | messageSize seq0 =>
    cases hl
    exact atomicMemcpy_fits hslot
  | copying seq0 rest =>
    cases rest with
    | cons access rest =>
      cases hl
      exact fun a ha => hp a (List.mem_cons_of_mem _ ha)
    | nil =>
      simp only [load] at hl
      split at hl <;> cases hl <;> trivial
  | returned seq =>
    cases hl
    trivial

theorem Reader.finish_fits {c : ReadCall} {m : Message} {seq : ℕ} {e : ReaderEvent}
    (hf : x.finish P c m seq = (x', e)) : x'.pc.Fits capacity := by
  simp only [Reader.finish] at hf
  generalize int32 seq - int32 x.expectedSeq = result at hf
  cases c with
  | tryRead =>
    cases hf
    dsimp only
    split <;> trivial
  | read =>
    dsimp only at hf
    split at hf
    · cases hf
      trivial
    · split at hf <;> cases hf <;> trivial

theorem Reader.next_fits {c : ReaderChoice} {e : ReaderEvent} (hx : x.pc.Fits capacity)
    (hslot : slot.messageSize ≤ capacity) (hn : x.next P slot c = some (x', e)) :
    x'.pc.Fits capacity := by
  cases c with
  | call c m =>
    cases hpc : x.pc with
    | loading => simp only [Reader.next, hpc, reduceCtorEq] at hn
    | idle | ready =>
      simp only [Reader.next, hpc] at hn
      cases hn
      trivial
  | update =>
    cases hpc : x.pc with
    | idle | loading => simp only [Reader.next, hpc, reduceCtorEq] at hn
    | ready =>
      simp only [Reader.next, hpc] at hn
      cases hn
      trivial
  | step =>
    cases hpc : x.pc with
    | idle | ready => simp only [Reader.next, hpc, reduceCtorEq] at hn
    | loading c m p =>
      rw [hpc] at hx
      cases hl : load slot m p with
      | mk m' p' =>
        have hp' := load_fits hx hslot hl
        simp only [Reader.next, hpc, hl] at hn
        cases p' with
        | returned seq => exact finish_fits (Option.some.inj hn)
        | loadSeq0 | messageSize | copying =>
          cases hn
          exact hp'

theorem Reader.bytes_within {size : Option ℕ} {e : ReaderEvent} (hx : x.pc.Fits capacity)
    (hsize : ∀ n, size = some n → n ≤ capacity) : (x.bytes slot size e).Within capacity := by
  rw [Reader.bytes]
  split
  · trivial
  · rename_i access rest hpc
    rw [hpc] at hx
    exact fun i _ hi => Nat.lt_of_lt_of_le hi (hx access List.mem_cons_self)
  · split
    · trivial
    · trivial
    · rename_i n _
      exact fun i hi => Nat.lt_of_lt_of_le hi (hsize n rfl)
  · trivial

section
variable {Rid : Type*} [DecidableEq Rid] {es : List (TypedEvent Rid)} {s s' : TypedState Rid}

structure Fits (capacity : ℕ) (s : TypedState Rid) : Prop where
  slots : ∀ i, (s.queue.buffer i).messageSize ≤ capacity
  writer : s.queue.writer.pc.Fits capacity
  readers : ∀ r x, s.queue.readers r = some x → x.pc.Fits capacity
  size : ∀ r n, s.size r = some n → n ≤ capacity

theorem forall_setReader {q : State Rid} {r : Rid} (h : ∀ u y, q.readers u = some y →
    y.pc.Fits capacity) (hx : x.pc.Fits capacity) :
    ∀ u y, (q.setReader r x).readers u = some y → y.pc.Fits capacity := by
  intro u y hy
  dsimp only [State.setReader] at hy
  by_cases hu : u = r
  · subst hu
    rw [Function.update_self] at hy
    exact Option.some.inj hy ▸ hx
  · rw [Function.update_of_ne hu] at hy
    exact h u y hy

theorem Fits.moves {e : TypedEvent Rid} (h : Fits capacity s) (hm : TypedMoves P T s s' e)
    (hwrite : ∀ n ∈ T.write, n ≤ capacity) (hread : ∀ n ∈ T.read, n ≤ capacity) :
    Fits capacity s' ∧ e.bytes.Within capacity := by
  cases hm with
  | write _ hsize => exact ⟨⟨h.slots, hwrite _ hsize, h.readers, h.size⟩, trivial⟩
  | store hstore =>
    obtain ⟨hslot, hw, hbytes⟩ := store_fits h.writer (h.slots _) hstore
    refine ⟨⟨fun i => ?_, hw, h.readers, h.size⟩, hbytes⟩
    dsimp only
    by_cases hi : i = s.queue.writer.tail
    · subst hi
      rwa [Function.update_self]
    · rw [Function.update_of_ne hi]
      exact h.slots i
  | create _ => exact ⟨⟨h.slots, h.writer, forall_setReader h.readers trivial, h.size⟩, trivial⟩
  | copy _ _ => exact ⟨⟨h.slots, h.writer, forall_setReader h.readers trivial, h.size⟩, trivial⟩
  | @reader r x x' c size e bytes hr hx htouches =>
    have hfits := h.readers r x hr
    have hsize : ∀ n, size = some n → n ≤ capacity := by
      intro n hn
      cases htouches with
      | call hcall => exact hread n (hcall n hn).1
      | step => exact h.size r n hn
      | update => cases hn
    refine ⟨⟨h.slots, h.writer, forall_setReader h.readers ?_, ?_⟩, ?_⟩
    · exact Reader.next_fits hfits (h.slots _) hx
    · intro u n hn
      dsimp only at hn
      by_cases hu : u = r
      · subst hu
        rw [Function.update_self] at hn
        exact hsize n hn
      · rw [Function.update_of_ne hu] at hn
        exact h.size u n hn
    · cases htouches with
      | call _ => trivial
      | step => exact Reader.bytes_within hfits (h.size r)
      | update => trivial

theorem InBounds.of_run (h : (typed P T Rid).Run es s)
    (hwrite : ∀ n ∈ T.write, n ≤ P.maxMessageSize) (hread : ∀ n ∈ T.read, n ≤ P.maxMessageSize) :
    InBounds P es s := by
  have hinv : (∀ e ∈ es, e.bytes.Within P.maxMessageSize) ∧ Fits P.maxMessageSize s := by
    apply h.invariant
      (I := fun es s => (∀ e ∈ es, e.bytes.Within P.maxMessageSize) ∧ Fits P.maxMessageSize s)
    · exact ⟨nofun, fun _ => Nat.zero_le _, trivial, nofun, nofun⟩
    · intro es s e s' _ hi hs
      obtain ⟨hfits, hbytes⟩ := hi.2.moves (.of_step hs) hwrite hread
      refine ⟨fun e' he' => ?_, hfits⟩
      rcases List.mem_append.mp he' with hmem | hmem
      · exact hi.1 e' hmem
      · exact List.mem_singleton.mp hmem ▸ hbytes
  exact ⟨hinv.1, hinv.2.slots⟩

theorem copying_run {desired : Message} {seq : ℕ} {rest : List (ℕ × ℕ)}
    (h : (typed P T Rid).Run es s) (hpc : s.queue.writer.pc = .copying desired seq rest) :
    ∃ es s, (typed P T Rid).Run es s ∧ s.queue.writer.pc = .copying desired seq [] := by
  induction rest generalizing es s with
  | nil => exact ⟨es, s, h, hpc⟩
  | cons access rest ih =>
    obtain ⟨⟨buffer, ⟨tail, pc⟩, readers⟩, size⟩ := s
    dsimp only at hpc
    subst hpc
    exact ih (h.snoc ⟨.store false, rfl⟩) rfl

theorem write_beyond {n : ℕ} (hn : n ∈ T.write) (hlarge : P.maxMessageSize < n) :
    ∃ es s, (typed P T Rid).Run es s ∧ ¬ InBounds P es s := by
  have hrun : (typed P T Rid).Run
      [⟨.writer (.writing (contents n fun _ => 0)), .none⟩, ⟨.writer .silent, .none⟩,
        ⟨.writer .silent, .none⟩]
      ⟨⟨Function.update (fun _ => emptySlot) 0 ⟨fun _ => 0, 0, 1⟩,
        ⟨0, .copying ⟨fun _ => 0, n⟩ 0 (atomicMemcpy n)⟩, fun _ => none⟩, fun _ => none⟩ := by
    refine Machine.Path.of_exec [.write ⟨fun _ => 0, n⟩, .store false, .store false] ?_
    simp [Machine.exec, typed, typedNext, machine, next, store, lock, Locking.read, isLocked_zero,
      hn, counterSize, Store.bytes, Message.contents, emptySlot]
  obtain ⟨es, ⟨⟨buffer, ⟨tail, pc⟩, readers⟩, size⟩, hcopied, hpc⟩ := copying_run hrun rfl
  dsimp only at hpc
  subst hpc
  refine ⟨_, _, hcopied.snoc ⟨.store false, rfl⟩, fun hbounds => ?_⟩
  have hsize := hbounds.messageSize tail
  dsimp only at hsize
  rw [Function.update_self] at hsize
  exact Nat.not_lt.mpr hsize hlarge

theorem read_beyond {n : ℕ} (r : Rid) (hn : n ∈ T.read) (hlarge : P.maxMessageSize < n) :
    ∃ es s, (typed P T Rid).Run es s ∧ ¬ InBounds P es s := by
  have hresult : int32 0 - int32 2 = -2 := by decide
  have hrun : (typed P T Rid).Run
      [⟨.reader r .created, .none⟩, ⟨.reader r .silent, .called⟩, ⟨.reader r .silent, .sequence⟩,
        ⟨.reader r .silent, .none⟩, ⟨.reader r (.tried (-2) []), .got n (contents n fun _ => 0)⟩]
      ⟨(machine P Rid).start.setReader r ⟨0, 2, .idle⟩,
        Function.update (fun _ => none) r (some n)⟩ := by
    apply Machine.Path.of_exec [.create r, .callTyped r .tryRead n, .step r, .step r, .step r]
    simp [Machine.exec, typed, typedNext, TypedState.reader, machine, next, State.setReader,
      Reader.next, load, hn, isLocked_zero, freshMessage, atomicMemcpy_zero, Reader.finish,
      hresult, Reader.bytes, Message.contents, contents]
  refine ⟨_, _, hrun, fun hbounds => ?_⟩
  have hwithin : ∀ i < n, i < P.maxMessageSize := hbounds.bytes
    ⟨.reader r (.tried (-2) []), .got n (contents n fun _ => 0)⟩ (by simp)
  exact Nat.lt_irrefl _ (hwithin P.maxMessageSize hlarge)

theorem in_bounds_iff (P : Params) (T : Types) (r : Rid) :
    (∀ es s, (typed P T Rid).Run es s → InBounds P es s) ↔
      (∀ n ∈ T.write, n ≤ P.maxMessageSize) ∧ ∀ n ∈ T.read, n ≤ P.maxMessageSize := by
  constructor
  · intro hall
    constructor
    · intro n hn
      by_contra hlarge
      have hbeyond : ∃ es s, (typed P T Rid).Run es s ∧ ¬ InBounds P es s :=
        write_beyond hn (Nat.lt_of_not_le hlarge)
      obtain ⟨es, s, hrun, hnot⟩ := hbeyond
      exact hnot (hall es s hrun)
    · intro n hn
      by_contra hlarge
      obtain ⟨es, s, hrun, hnot⟩ := read_beyond (P := P) r hn (Nat.lt_of_not_le hlarge)
      exact hnot (hall es s hrun)
  · rintro ⟨hwrite, hread⟩ es s hrun
    exact .of_run hrun hwrite hread

end

/-- A type of 16 bytes where a message has 8. -/
theorem not_in_bounds : ¬ ∀ es s, (typed ⟨4, 8, 0⟩ ⟨[16], []⟩ Unit).Run es s →
    InBounds ⟨4, 8, 0⟩ es s := by
  intro hall
  have hbeyond : ∃ es s, (typed ⟨4, 8, 0⟩ ⟨[16], []⟩ Unit).Run es s ∧
      ¬ InBounds ⟨4, 8, 0⟩ es s := write_beyond List.mem_cons_self (by decide)
  obtain ⟨es, s, hrun, hnot⟩ := hbeyond
  exact hnot (hall es s hrun)

end LockFree.BoundedMulticastQueue
