import LockFree.MulticastDelivery

/-!
# The shift of UpdateIndexes

`__builtin_ctz` takes an `unsigned int`. From `2^32` on the buffer size is lost in the
conversion and the shift is whatever comes out for zero.
-/

namespace LockFree.BoundedMulticastQueue
open AtomicMemcpy SeqLock RingLaps TransitionRuns

variable {P : Params}

theorem builtinCtz_two_pow {k : ℕ} (hk : k < 32) : P.builtinCtz (2 ^ k) = k := by
  have hfind : ((List.range 32).find? fun i => (2 ^ k).testBit i) = some k := by
    rw [List.find?_range_eq_some]
    refine ⟨by simp, List.mem_range.mpr hk, fun j hj => ?_⟩
    simp [hj.ne']
  rw [Params.builtinCtz, hfind]
  rfl

theorem builtinCtz_zero : P.builtinCtz 0 = P.ctzZero := by
  have hfind : ((List.range 32).find? fun i => Nat.testBit 0 i) = none := by
    rw [List.find?_eq_none]
    simp
  rw [Params.builtinCtz, hfind]
  rfl

theorem getSeqRightShiftValue_of_lt (h : P.getBufferSize < 2 ^ 32) :
    2 ^ P.getSeqRightShiftValue = P.getBufferSize := by
  rw [Params.getSeqRightShiftValue, Nat.mod_eq_of_lt h, Params.getBufferSize, bitCeil] at *
  rw [builtinCtz_two_pow ((Nat.pow_lt_pow_iff_right (by decide)).mp h)]

theorem getSeqRightShiftValue_of_ge (h : 2 ^ 32 ≤ P.getBufferSize) :
    P.getSeqRightShiftValue = P.ctzZero := by
  have hdvd : 2 ^ 32 ∣ P.getBufferSize :=
    Nat.pow_dvd_pow 2 ((Nat.pow_le_pow_iff_right (by decide)).mp h)
  rw [Params.getSeqRightShiftValue, Nat.mod_eq_zero_of_dvd hdvd, builtinCtz_zero]

section
variable {Rid : Type*} [DecidableEq Rid] {s : State Rid} {r : Rid} {x x' : Reader}

def emptySlot : Slot := ⟨fun _ => 0, 0, 0⟩

def writtenSlot : Slot := ⟨fun _ => 0, 0, 2⟩

def emptyMessage : Message := ⟨fun _ => 0, 0⟩

omit [DecidableEq Rid] in
def writeEvents : List (Event Rid) :=
  [.writer (.writing []), .writer .silent, .writer .silent, .writer .silent,
    .writer (.written [])]

theorem atomicMemcpy_zero : atomicMemcpy 0 = [] := by decide

theorem isLocked_zero : isLocked 0 = false := by decide

theorem isLocked_two : isLocked 2 = false := by decide

theorem write_path {seq : ℕ} (hpc : s.writer.pc = .idle)
    (hslot : s.buffer s.writer.tail = ⟨fun _ => 0, 0, seq⟩) (hfree : isLocked seq = false) :
    (machine P Rid).Path s writeEvents
      ⟨Function.update s.buffer s.writer.tail ⟨fun _ => 0, 0, unlock seq⟩,
        ⟨(s.writer.tail + 1) &&& P.getIndexMask, .idle⟩, s.readers⟩ := by
  obtain ⟨buffer, ⟨tail, pc⟩, readers⟩ := s
  dsimp only at hpc hslot
  subst hpc
  refine Machine.Path.of_exec [.write emptyMessage, .store false, .store false, .store false,
    .store false] ?_
  simp [Machine.exec, machine, next, store, lock, Locking.read, emptyMessage, hslot,
    writeEvents, hfree, atomicMemcpy_zero, Message.contents, contents]

theorem load_path {seq : ℕ} {c : ReadCall} (hr : s.readers r = some x) (hpc : x.pc = .idle)
    (hslot : s.buffer x.head = ⟨fun _ => 0, 0, seq⟩) :
    (machine P Rid).Path s [.reader r .silent, .reader r .silent, .reader r .silent]
      (s.setReader r { x with pc := .loading c emptyMessage (.copying seq []) }) := by
  obtain ⟨buffer, w, readers⟩ := s
  obtain ⟨head, expectedSeq, pc⟩ := x
  dsimp only at hpc hslot hr
  subst hpc
  refine Machine.Path.of_exec [.reader r (.call c emptyMessage), .reader r .step,
    .reader r .step] ?_
  simp [Machine.exec, machine, next, Reader.next, load, hr, hslot, emptyMessage,
    State.setReader, atomicMemcpy_zero]

theorem read_path {seq : ℕ} {c : ReadCall} {e : ReaderEvent} (hr : s.readers r = some x)
    (hpc : x.pc = .idle) (hslot : s.buffer x.head = ⟨fun _ => 0, 0, seq⟩)
    (hfree : isLocked seq = false) (hf : x.finish P c emptyMessage seq = (x', e)) :
    (machine P Rid).Path s
      [.reader r .silent, .reader r .silent, .reader r .silent, .reader r e]
      (s.setReader r x') := by
  have hload := load_path (P := P) (c := c) hr hpc hslot
  refine hload.snoc ⟨.reader r .step, ?_⟩
  have hfinish : ∀ pc', Reader.finish P { x with pc := pc' } c emptyMessage seq = (x', e) := by
    intro pc'
    rw [← hf]
    cases c <;> rfl
  simp [machine, next, Reader.next, load, State.setReader, hslot, hfree, hfinish]

def lapState (P : Params) (r : Rid) (j : ℕ) : State Rid where
  buffer i := if i < j then writtenSlot else emptySlot
  writer := ⟨j % P.getBufferSize, .idle⟩
  readers := Function.update (fun _ => none) r
    (some ⟨j % P.getBufferSize, 2 + 2 * (j / 2 ^ P.getSeqRightShiftValue), .idle⟩)

omit [DecidableEq Rid] in
def lapEvents (r : Rid) : ℕ → List (Event Rid)
  | 0 => [.reader r .created]
  | j + 1 => lapEvents r j ++ writeEvents ++
    [.reader r .silent, .reader r .silent, .reader r .silent, .reader r (.read [])]

theorem lap_run {j : ℕ} (hsize : j ≤ P.getBufferSize) (hshift : j ≤ 2 ^ P.getSeqRightShiftValue) :
    (machine P Rid).Run (lapEvents r j) (lapState P r j) := by
  induction j with
  | zero =>
    apply Machine.Path.of_exec [.create r]
    simp [Machine.exec, machine, next, lapState, lapEvents, State.setReader, emptySlot]
  | succ j ih =>
    have hlt : j % P.getBufferSize = j := Nat.mod_eq_of_lt hsize
    have hzero : j / 2 ^ P.getSeqRightShiftValue = 0 := Nat.div_eq_of_lt hshift
    have hone : (j + 1) / 2 ^ P.getSeqRightShiftValue ≤ 1 :=
      Nat.div_le_of_le_mul (by rwa [Nat.mul_one])
    have hwrite := write_path (P := P) (s := lapState P r j) rfl
      (by simp [lapState, hlt, emptySlot]) isLocked_zero
    have hf : Reader.finish P
        ⟨j % P.getBufferSize, 2 + 2 * (j / 2 ^ P.getSeqRightShiftValue), .idle⟩ .read
        emptyMessage 2 =
        (⟨(j + 1) % P.getBufferSize, 2 + 2 * ((j + 1) / 2 ^ P.getSeqRightShiftValue), .idle⟩,
          .read []) := by
      have hmod : (2 + (j + 1) / 2 ^ P.getSeqRightShiftValue * 2) % 2 ^ 64 =
          2 + 2 * ((j + 1) / 2 ^ P.getSeqRightShiftValue) := by omega
      rw [hzero, hlt]
      simp only [Reader.finish, Reader.updateIndexes, Nat.mul_zero, Nat.add_zero, Int.sub_self,
        if_true, and_getIndexMask, Nat.shiftRight_eq_div_pow, Nat.shiftLeft_eq, Nat.pow_one, hmod]
      rfl
    have hread := read_path (P := P) (r := r)
      (s := ⟨Function.update (lapState P r j).buffer (j % P.getBufferSize) writtenSlot,
        ⟨(j % P.getBufferSize + 1) &&& P.getIndexMask, .idle⟩, (lapState P r j).readers⟩)
      (by simp [lapState]) rfl (Function.update_self ..) isLocked_two hf
    have hnext := ((ih (by omega) (by omega)).trans hwrite).trans hread
    have hstate : lapState P r (j + 1) = State.setReader
        ⟨Function.update (lapState P r j).buffer (j % P.getBufferSize) writtenSlot,
          ⟨(j % P.getBufferSize + 1) &&& P.getIndexMask, .idle⟩, (lapState P r j).readers⟩ r
        ⟨(j + 1) % P.getBufferSize, 2 + 2 * ((j + 1) / 2 ^ P.getSeqRightShiftValue), .idle⟩ := by
      simp only [lapState, State.setReader, Function.update_idem, and_getIndexMask, add_one_mod,
        State.mk.injEq, and_true]
      funext i
      rw [hlt]
      by_cases hij : i = j
      · subst hij
        rw [Function.update_self, if_pos (Nat.lt_succ_self i)]
      · rw [Function.update_of_ne hij]
        have hiff : i < j + 1 ↔ i < j := by omega
        simp only [hiff]
    rw [hstate]
    exact hnext

omit [DecidableEq Rid] in
theorem written_lapEvents (j : ℕ) : written (lapEvents r j) = List.replicate j [] := by
  induction j with
  | zero => rfl
  | succ j ih =>
    have hnew : written (lapEvents r (j + 1)) = written (lapEvents r j) ++ [[]] := by
      rw [written, lapEvents, List.append_assoc, List.filterMap_append]
      rfl
    rw [hnew, ih, List.replicate_succ']

omit [DecidableEq Rid] in
theorem begun_lapEvents (j : ℕ) : begun (lapEvents r j) = j := by
  induction j with
  | zero => rfl
  | succ j ih =>
    have hnew : begun (lapEvents r (j + 1)) = begun (lapEvents r j) + 1 := by
      rw [begun, lapEvents, List.append_assoc, List.filterMap_append, List.length_append]
      rfl
    rw [hnew, ih]

theorem position_lapEvents (j : ℕ) : position (lapEvents r j) r = j := by
  induction j with
  | zero => simp [position, lapEvents, positionAfter]
  | succ j ih =>
    have hnew : position (lapEvents r (j + 1)) r = position (lapEvents r j) r + 1 := by
      simp [position, lapEvents, writeEvents, positionAfter]
    rw [hnew, ih]

omit [DecidableEq Rid] in
theorem lapsBegun_lt {es : List (Event Rid)} (h : begun es ≤ P.getBufferSize) :
    lapsBegun P es < 2 ^ 29 := by
  have hlaps : lapsBegun P es ≤ 1 := by
    rw [lapsBegun]
    refine Nat.le_of_lt_succ ((Nat.div_lt_iff_lt_mul (getBufferSize_pos P)).mpr ?_)
    have := getBufferSize_pos P
    rw [begun] at h
    omega
  omega

/-- A shift that is too small moves the reader to the next lap too early: it does not find
the message that is there. -/
theorem not_delivers_of_shift_lt (h : 2 ^ P.getSeqRightShiftValue < P.getBufferSize) (r : Rid) :
    ∃ es s, (machine P Rid).Run es s ∧ lapsBegun P es < 2 ^ 29 ∧ ¬ Delivers P es := by
  obtain ⟨j, hj⟩ : ∃ j, j = 2 ^ P.getSeqRightShiftValue := ⟨_, rfl⟩
  have hlap : j / 2 ^ P.getSeqRightShiftValue = 1 := by
    rw [hj, Nat.div_self (Nat.two_pow_pos _)]
  have hrun := lap_run (r := r) (hj ▸ h.le) hj.le
  rw [← hj] at h
  have hhead : j % P.getBufferSize = j := Nat.mod_eq_of_lt h
  have hwrite := write_path (P := P) (s := lapState P r j) rfl
    (by simp [lapState, hhead, emptySlot]) isLocked_zero
  have hresult : int32 2 - int32 4 = -2 := by decide
  have hf : Reader.finish P ⟨j % P.getBufferSize, 4, .idle⟩ .tryRead emptyMessage 2 =
      (⟨j % P.getBufferSize, 4, .idle⟩, .tried (-2) []) := by
    simp only [Reader.finish, hresult]
    rfl
  have hread := read_path (P := P) (r := r)
    (s := ⟨Function.update (lapState P r j).buffer (j % P.getBufferSize) writtenSlot,
      ⟨(j % P.getBufferSize + 1) &&& P.getIndexMask, .idle⟩, (lapState P r j).readers⟩)
    (by simp [lapState, hlap]) rfl (Function.update_self ..) isLocked_two hf
  refine ⟨_, _, (hrun.trans hwrite).trans hread, lapsBegun_lt ?_, fun hd => ?_⟩
  · rw [begun, List.append_assoc, List.filterMap_append, List.length_append]
    exact (congrArg (· + 1) (begun_lapEvents j)).trans_le h
  · have hle := hd.tried (lapEvents r j ++ (writeEvents ++ [.reader r .silent, .reader r .silent,
      .reader r .silent])) [] r (-2) [] (by simp) (by decide)
    have hposition : position (lapEvents r j ++ (writeEvents ++ [.reader r .silent,
        .reader r .silent, .reader r .silent])) r = j := by
      rw [position, List.foldl_append]
      exact position_lapEvents j
    have hwritten : (written (lapEvents r j ++ (writeEvents ++ [.reader r .silent,
        .reader r .silent, .reader r .silent]))).length = j + 1 := by
      rw [written, List.filterMap_append, List.length_append]
      exact congrArg (· + 1)
        ((congrArg List.length (written_lapEvents j)).trans List.length_replicate)
    omega

/-- A shift that is too large never moves it: it finds the message of the lap before. -/
theorem not_delivers_of_lt_shift (h : P.getBufferSize < 2 ^ P.getSeqRightShiftValue) (r : Rid) :
    ∃ es s, (machine P Rid).Run es s ∧ lapsBegun P es < 2 ^ 29 ∧ ¬ Delivers P es := by
  have hrun := lap_run (r := r) le_rfl h.le
  have hzero : P.getBufferSize / 2 ^ P.getSeqRightShiftValue = 0 := Nat.div_eq_of_lt h
  have hf : ∃ x', Reader.finish P ⟨0, 2, .idle⟩ .read emptyMessage 2 = (x', .read []) := by
    simp [Reader.finish, Message.contents, contents, emptyMessage]
  obtain ⟨x', hf⟩ := hf
  have hread := read_path (P := P) (r := r) (s := lapState P r P.getBufferSize)
    (x := ⟨0, 2, .idle⟩) (by simp [lapState, hzero]) rfl
    (by simp [lapState, getBufferSize_pos, writtenSlot]) isLocked_two hf
  refine ⟨_, _, hrun.trans hread, lapsBegun_lt ?_, fun hd => ?_⟩
  · rw [begun, List.filterMap_append, List.length_append]
    exact (begun_lapEvents P.getBufferSize).le
  · have hmem := hd.read (lapEvents r P.getBufferSize ++ [.reader r .silent, .reader r .silent,
      .reader r .silent]) [] r [] (by simp)
    have hposition : position (lapEvents r P.getBufferSize ++ [.reader r .silent,
        .reader r .silent, .reader r .silent]) r = P.getBufferSize := by
      rw [position, List.foldl_append]
      exact position_lapEvents _
    have hwritten : written (lapEvents r P.getBufferSize ++ [.reader r .silent,
        .reader r .silent, .reader r .silent]) = List.replicate P.getBufferSize [] := by
      rw [written, List.filterMap_append, ← written, written_lapEvents]
      exact List.append_nil _
    rw [hposition, hwritten] at hmem
    simp at hmem

/-- The delivery of every run, up to the 32-bit counters. -/
theorem delivers_iff_shift (r : Rid) :
    (∀ es s, (machine P Rid).Run es s → lapsBegun P es < 2 ^ 29 → Delivers P es) ↔
      P.getBufferSize < 2 ^ 32 ∨ 2 ^ P.ctzZero = P.getBufferSize := by
  constructor
  · intro hall
    by_contra hnot
    simp only [not_or, Nat.not_lt] at hnot
    obtain ⟨hge, hne⟩ := hnot
    rw [← getSeqRightShiftValue_of_ge hge] at hne
    have hbad : ∃ es s, (machine P Rid).Run es s ∧ lapsBegun P es < 2 ^ 29 ∧
        ¬ Delivers P es := by
      rcases Nat.lt_or_gt_of_ne hne with hlt | hgt
      · exact not_delivers_of_shift_lt hlt r
      · exact not_delivers_of_lt_shift hgt r
    obtain ⟨es, s, hr, hlaps, hd⟩ := hbad
    exact hd (hall es s hr hlaps)
  · intro hcond es s hr hlaps
    refine delivers_of_shift hr ?_ hlaps
    by_cases hlt : P.getBufferSize < 2 ^ 32
    · exact getSeqRightShiftValue_of_lt hlt
    · rw [getSeqRightShiftValue_of_ge (Nat.le_of_not_lt hlt)]
      exact hcond.resolve_left hlt

end

/-- Half of `2^33` messages go by, and `__builtin_ctz` gives 32 for zero. -/
theorem not_delivers_two_pow_33 :
    ∃ es s, (machine ⟨2 ^ 33, 8, 32⟩ Unit).Run es s ∧ lapsBegun ⟨2 ^ 33, 8, 32⟩ es < 2 ^ 29 ∧
      ¬ Delivers ⟨2 ^ 33, 8, 32⟩ es := by
  have hsize : Params.getBufferSize ⟨2 ^ 33, 8, 32⟩ = 2 ^ 33 := by
    rw [Params.getBufferSize, bitCeil, Nat.clog_pow _ _ (by decide)]
  have hshift : Params.getSeqRightShiftValue ⟨2 ^ 33, 8, 32⟩ = 32 :=
    getSeqRightShiftValue_of_ge (by rw [hsize]; decide)
  refine not_delivers_of_shift_lt ?_ ()
  rw [hsize, hshift]
  decide

end LockFree.BoundedMulticastQueue
