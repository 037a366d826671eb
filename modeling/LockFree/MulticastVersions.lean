import LockFree.MulticastShiftValue

/-!
# The version comparison of TryRead

The counter of a slot and the sequence a reader expects are cut to 32 bits, read as signed
numbers and subtracted. Both count up without end, so the two may fall on different sides
of the place where the signed number jumps.
-/

namespace LockFree.BoundedMulticastQueue
open AtomicMemcpy SeqLock RingLaps TransitionRuns

variable {P : Params} {slot : Slot} {x x' : Reader}

/-- What `TryRead` promises about its result when the slot holds version `real`. -/
structure Compares (real expected : ℕ) (result : ℤ) : Prop where
  inRange : -2 ^ 31 ≤ result ∧ result < 2 ^ 31
  older : result < 0 ↔ real < expected
  same : result = 0 ↔ real = expected
  newer : 0 < result ↔ expected < real

/-- The stretch of `2^31` versions in which the signed numbers do not jump. -/
def stretch (version : ℕ) : ℕ := (version + 2 ^ 30) / 2 ^ 31

theorem bmod_of_quotient {x q : ℤ} {n : ℕ} (hlo : -(n / 2 : ℤ) ≤ x - n * q)
    (hhi : x - n * q < (n + 1) / 2) : Int.bmod x n = x - n * q := by
  rw [← Int.sub_mul_bmod_self_left x n q]
  exact Int.bmod_eq_of_le hlo hhi

theorem int32_two_mul (version : ℕ) :
    int32 (2 * version) = 2 * (version : ℤ) - 2 ^ 32 * (stretch version : ℤ) := by
  have hdiv : 2 ^ 31 * stretch version ≤ version + 2 ^ 30 := Nat.mul_div_le _ _
  have hlt : version + 2 ^ 30 < 2 ^ 31 * (stretch version + 1) := Nat.lt_mul_div_succ _ (by decide)
  refine bmod_of_quotient ?_ ?_ <;> omega

theorem bmod_mod {x m n : ℕ} (h : n ∣ m) : Int.bmod (x % m : ℕ) n = Int.bmod x n := by
  rw [Int.natCast_mod, ← Int.emod_bmod, Int.emod_emod_of_dvd _ (Int.natCast_dvd_natCast.mpr h),
    Int.emod_bmod]

theorem int32_mod {k x : ℕ} (hk : 32 ≤ k) : int32 (x % 2 ^ k) = int32 x :=
  bmod_mod (Nat.pow_dvd_pow 2 hk)

theorem compares_iff {real expected : ℕ} (hnear : real < expected + 2 ^ 30)
    (hnear' : expected < real + 2 ^ 30) :
    Compares real expected (int32 (2 * real) - int32 (2 * expected)) ↔
      stretch real = stretch expected := by
  have hdifference : int32 (2 * real) - int32 (2 * expected) =
      2 * ((real : ℤ) - expected) - 2 ^ 32 * ((stretch real : ℤ) - stretch expected) := by
    rw [int32_two_mul, int32_two_mul]
    omega
  rw [hdifference]
  constructor
  · intro h
    obtain ⟨hlo, hhi⟩ := h.inRange
    omega
  · intro h
    rw [h]
    constructor <;> omega

def Reading.Runs : Reading → Prop
  | .loading _ _ p => ∀ seq, p ≠ .returned seq
  | _ => True

def ReaderEvent.advance : ReaderEvent → ℕ
  | .read _ | .updated => 1
  | _ => 0

inductive Reader.Goes (P : Params) (x : Reader) : Reader → ReaderEvent → Prop where
  | stay {pc : Reading} {e : ReaderEvent} : pc.Runs → e ≠ .created → e.advance = 0 →
      Goes P x { x with pc := pc } e
  | update {e : ReaderEvent} : e ≠ .created → e.advance = 1 → Goes P x (x.updateIndexes P) e

theorem Reader.finish_goes {c : ReadCall} {m : Message} {seq : ℕ} {e : ReaderEvent}
    (hf : x.finish P c m seq = (x', e)) : x.Goes P x' e := by
  simp only [Reader.finish] at hf
  generalize int32 seq - int32 x.expectedSeq = result at hf
  cases c with
  | tryRead =>
    cases hf
    refine .stay ?_ (by simp) rfl
    split <;> trivial
  | read =>
    dsimp only at hf
    split at hf
    · cases hf
      exact .update (by simp) rfl
    · split at hf
      · cases hf
        exact .stay trivial (by simp) rfl
      · cases hf
        exact .stay (fun seq => by simp) (by simp) rfl

theorem Reader.next_goes {c : ReaderChoice} {e : ReaderEvent}
    (hx : x.next P slot c = some (x', e)) : x.Goes P x' e := by
  cases c with
  | call c m =>
    cases hpc : x.pc with
    | loading => simp only [Reader.next, hpc, reduceCtorEq] at hx
    | idle | ready =>
      simp only [Reader.next, hpc] at hx
      cases hx
      exact .stay (fun seq => by simp) (by simp) rfl
  | update =>
    cases hpc : x.pc with
    | idle | loading => simp only [Reader.next, hpc, reduceCtorEq] at hx
    | ready =>
      simp only [Reader.next, hpc] at hx
      cases hx
      exact .update (by simp) rfl
  | step =>
    cases hpc : x.pc with
    | idle | ready => simp only [Reader.next, hpc, reduceCtorEq] at hx
    | loading c m p =>
      cases hl : load slot m p with
      | mk m' p' =>
        simp only [Reader.next, hpc, hl] at hx
        cases p' with
        | returned seq => exact finish_goes (Option.some.inj hx)
        | loadSeq0 | messageSize | copying =>
          cases hx
          exact .stay (fun seq => by simp) (by simp) rfl

theorem load_returned {m m' : Message} {p : Load} {seq : ℕ} (hp : ∀ q, p ≠ .returned q)
    (hl : load slot m p = (m', .returned seq)) :
    p = .copying seq [] ∧ m' = m ∧ isLocked seq = false ∧ seq = slot.counter := by
  cases p with
  | loadSeq0 | messageSize => cases hl
  | returned q => exact absurd rfl (hp q)
  | copying seq0 rest =>
    cases rest with
    | cons access rest => cases hl
    | nil =>
      simp only [load] at hl
      split at hl
      · cases hl
      · rename_i hpass
        cases hl
        obtain ⟨hfree, hsame⟩ : isLocked seq = false ∧ seq = slot.counter := by
          simpa using hpass
        exact ⟨rfl, rfl, hfree, hsame⟩

def Params.expectedVersion (P : Params) : ℕ → ℕ
  | 0 => 1
  | pos + 1 =>
    P.expectedVersion pos + (pos % P.getBufferSize + 1) >>> P.getSeqRightShiftValue

theorem expectedVersion_eq (hshift : 2 ^ P.getSeqRightShiftValue = P.getBufferSize) (pos : ℕ) :
    P.expectedVersion pos = pos / P.getBufferSize + 1 := by
  induction pos with
  | zero =>
    rw [Nat.zero_div]
    rfl
  | succ pos ih =>
    rw [Params.expectedVersion, ih, Nat.shiftRight_eq_div_pow, hshift,
      succ_div_eq pos (getBufferSize_pos P)]
    omega

structure Indexed (P : Params) (pos : ℕ) (x : Reader) : Prop where
  head : x.head = pos % P.getBufferSize
  expectedSeq : x.expectedSeq = 2 * P.expectedVersion pos % 2 ^ 64
  runs : x.pc.Runs

theorem Indexed.goes {pos : ℕ} {e : ReaderEvent} (h : Indexed P pos x) (hx : x.Goes P x' e) :
    Indexed P (pos + e.advance) x' := by
  cases hx with
  | stay hruns _ hadvance =>
    rw [hadvance]
    exact ⟨h.head, h.expectedSeq, hruns⟩
  | update _ hadvance =>
    rw [hadvance]
    constructor
    · rw [Reader.updateIndexes, h.head, and_getIndexMask, add_one_mod]
    · dsimp only [Reader.updateIndexes, Params.expectedVersion]
      rw [h.head, h.expectedSeq, Nat.shiftLeft_eq, Nat.pow_one, Nat.mod_add_mod, Nat.mul_add,
        Nat.mul_comm 2 (_ >>> _)]
    · trivial

theorem Reader.Goes.ne_created {e : ReaderEvent} (hx : x.Goes P x' e) : e ≠ .created := by
  cases hx with
  | stay _ hne _ => exact hne
  | update hne _ => exact hne

section
variable {Rid : Type*} [DecidableEq Rid] {es : List (Event Rid)} {s s' : State Rid} {r : Rid}

structure Located (P : Params) (es : List (Event Rid)) (s : State Rid) : Prop where
  slots : Inv P (written es) s.buffer s.writer
  readers : ∀ r x, s.readers r = some x → Indexed P (position es r) x

theorem Located.start : Located P [] (machine P Rid).start where
  slots := .empty P
  readers r x hx := by cases hx

omit [DecidableEq Rid] in
theorem store_slots {spurious : Bool} {slot' : Slot} {w' : Writer} {e : WriterEvent}
    (h : Inv P (written es) s.buffer s.writer)
    (hs : store P (s.buffer s.writer.tail) s.writer spurious = some (slot', w', e)) :
    Inv P (written (es ++ [.writer e])) (Function.update s.buffer s.writer.tail slot') w' := by
  rcases h.writer.store hs with ⟨rfl, hw, htail, -, -⟩ | ⟨m, rfl, -, hpc, htail, hslot⟩
  · have hwritten : written (es ++ [.writer .silent]) = written es :=
      (written_snoc _).trans (List.append_nil _)
    rw [hwritten]
    exact h.silent hw htail
  · have hwritten : written (es ++ [.writer (.written m)]) = written es ++ [m] := written_snoc _
    rw [hwritten]
    exact h.written hpc htail hslot

theorem Located.setReader {e : Event Rid} (h : Located P es s) (hwritten : e.written? = none)
    (hpos : ∀ r', r' ≠ r → position (es ++ [e]) r' = position es r')
    (hx : Indexed P (position (es ++ [e]) r) x) : Located P (es ++ [e]) (s.setReader r x) := by
  constructor
  · rw [written_snoc, hwritten]
    exact (List.append_nil (written es)).symm ▸ h.slots
  · intro r' x' hx'
    dsimp only [State.setReader] at hx'
    by_cases hr : r' = r
    · subst hr
      rw [Function.update_self] at hx'
      cases hx'
      exact hx
    · rw [Function.update_of_ne hr] at hx'
      rw [hpos r' hr]
      exact h.readers r' x' hx'

theorem position_reader {e : ReaderEvent} (he : e ≠ .created) :
    position (es ++ [.reader r e]) =
      Function.update (position es) r (position es r + e.advance) := by
  rw [position_snoc]
  cases e with
  | created => exact absurd rfl he
  | read | updated => rfl
  | tried | late | silent => exact (Function.update_eq_self r _).symm

theorem Located.moves {e : Event Rid} (h : Located P es s) (hm : Moves P s s' e) :
    Located P (es ++ [e]) s' := by
  cases hm with
  | @write desired hpc =>
    have hwritten : written (es ++ [.writer (.writing desired.contents)]) = written es :=
      (written_snoc _).trans (List.append_nil _)
    have hown := h.slots.writer.own
    rw [hpc] at hown
    constructor
    · rw [hwritten]
      exact ⟨⟨h.slots.writer.tail, hown, .inl rfl⟩, h.slots.slots⟩
    · intro r x hx
      rw [position_snoc]
      exact h.readers r x hx
  | store hstore =>
    constructor
    · exact store_slots h.slots hstore
    · intro r x hx
      rw [position_snoc]
      exact h.readers r x hx
  | @create r hr =>
    have hpos : position (es ++ [.reader r .created]) = Function.update (position es) r 0 :=
      position_snoc _
    refine h.setReader rfl (fun r' hne => ?_) ?_
    · rw [hpos, Function.update_of_ne hne]
    · rw [hpos, Function.update_self]
      exact ⟨(Nat.zero_mod _).symm, rfl, trivial⟩
  | @copy r other x hr hother =>
    have hpos : position (es ++ [.copied r other]) =
        Function.update (position es) r (position es other) := position_snoc _
    have hx := h.readers other x hother
    refine h.setReader rfl (fun r' hne => ?_) ?_
    · rw [hpos, Function.update_of_ne hne]
    · rw [hpos, Function.update_self]
      exact ⟨hx.head, hx.expectedSeq, trivial⟩
  | @reader r x x' c e hr hx =>
    have hgoes := Reader.next_goes hx
    have hpos : position (es ++ [.reader r e]) = _ := position_reader hgoes.ne_created
    refine h.setReader rfl (fun r' hne => ?_) ?_
    · rw [hpos, Function.update_of_ne hne]
    · rw [hpos, Function.update_self]
      exact (h.readers r x hr).goes hgoes

theorem Located.of_run (h : (machine P Rid).Run es s) : Located P es s := by
  apply h.invariant (I := Located P)
  · exact .start
  · exact fun es s e s' _ hi hs => hi.moves (.of_step hs)

/-- The number of messages that the reader's slot has held. -/
def realVersion (P : Params) (es : List (Event Rid)) (r : Rid) : ℕ :=
  laps P.getBufferSize (position es r % P.getBufferSize) (written es).length

theorem Located.compared {c : ReadCall} {m m' : Message} {p : Load} {realSeq : ℕ}
    (h : Located P es s) (hr : s.readers r = some x) (hpc : x.pc = .loading c m p)
    (hl : load (s.buffer x.head) m p = (m', .returned realSeq)) :
    int32 realSeq - int32 x.expectedSeq =
      int32 (2 * realVersion P es r) - int32 (2 * P.expectedVersion (position es r)) := by
  have hx := h.readers r x hr
  have hruns : (Reading.loading c m p).Runs := hpc ▸ hx.runs
  obtain ⟨-, -, hfree, hsame⟩ := load_returned hruns hl
  have hlt : x.head < P.getBufferSize := hx.head ▸ Nat.mod_lt _ (getBufferSize_pos P)
  obtain ⟨busy, hslot⟩ := h.slots.exists_slot hlt
  have hreal : realSeq = 2 * realVersion P es r % 2 ^ 32 := by
    rw [realVersion, ← hx.head]
    rw [hsame] at hfree ⊢
    exact (hslot.counter.lock hfree).1
  rw [hreal, hx.expectedSeq, int32_mod le_rfl, int32_mod (by decide)]

/-- `TryRead` keeps its promise as long as the signed numbers do not jump between the two
versions. -/
theorem compares_iff_stretch {c : ReadCall} {m m' : Message} {p : Load} {realSeq : ℕ}
    (h : (machine P Rid).Run es s) (hr : s.readers r = some x) (hpc : x.pc = .loading c m p)
    (hl : load (s.buffer x.head) m p = (m', .returned realSeq))
    (hnear : realVersion P es r < P.expectedVersion (position es r) + 2 ^ 30)
    (hnear' : P.expectedVersion (position es r) < realVersion P es r + 2 ^ 30) :
    Compares (realVersion P es r) (P.expectedVersion (position es r))
        (int32 realSeq - int32 x.expectedSeq) ↔
      stretch (realVersion P es r) = stretch (P.expectedVersion (position es r)) := by
  rw [(Located.of_run h).compared hr hpc hl]
  exact compares_iff hnear hnear'

def singleSlot (j : ℕ) : Slot := ⟨fun _ => 0, 0, 2 * j % counterSize⟩

def singleState (r : Rid) (j : ℕ) : State Rid where
  buffer := Function.update (fun _ => emptySlot) 0 (singleSlot j)
  writer := ⟨0, .idle⟩
  readers := Function.update (fun _ => none) r (some ⟨0, 2 * (j + 1) % 2 ^ 64, .idle⟩)

theorem single_run (hsize : P.getBufferSize = 1) (hshift : P.getSeqRightShiftValue = 0) (j : ℕ) :
    (machine P Rid).Run (lapEvents r j) (singleState r j) := by
  have hindex : ∀ k, k &&& P.getIndexMask = 0 := by
    intro k
    rw [and_getIndexMask, hsize, Nat.mod_one]
  induction j with
  | zero =>
    apply Machine.Path.of_exec [.create r]
    simp [Machine.exec, machine, next, singleState, lapEvents, State.setReader, emptySlot,
      singleSlot]
  | succ j ih =>
    have hslot : (singleState r j).buffer 0 = singleSlot j := by simp [singleState]
    have hwrite := write_path (P := P) (s := singleState r j) rfl hslot (isLocked_mod j)
    rw [unlock_eq] at hwrite
    have hf : Reader.finish P ⟨0, 2 * (j + 1) % 2 ^ 64, .idle⟩ .read emptyMessage
        (2 * (j + 1) % counterSize) = (⟨0, 2 * (j + 1 + 1) % 2 ^ 64, .idle⟩, .read []) := by
      have hzero : int32 (2 * (j + 1) % counterSize) - int32 (2 * (j + 1) % 2 ^ 64) = 0 := by
        rw [counterSize, int32_mod le_rfl, int32_mod (by decide), Int.sub_self]
      simp only [Reader.finish, hzero, if_true, Reader.updateIndexes, hindex, hshift,
        Nat.zero_add, Nat.shiftRight_zero, Nat.shiftLeft_eq, Nat.pow_one, Nat.one_mul,
        Nat.mod_add_mod]
      rfl
    have hread := read_path (P := P) (r := r)
      (s := ⟨Function.update (singleState r j).buffer 0 (singleSlot (j + 1)),
        ⟨(0 + 1) &&& P.getIndexMask, .idle⟩, (singleState r j).readers⟩)
      (by simp [singleState]) rfl (by simp [singleSlot]) (isLocked_mod (j + 1)) hf
    have hnext := (ih.trans hwrite).trans hread
    simp only [State.setReader, singleState, Function.update_idem, hindex] at hnext
    exact hnext

theorem single_load (hsize : P.getBufferSize = 1) (hshift : P.getSeqRightShiftValue = 0)
    (j : ℕ) : ∃ es s, (machine P Rid).Run es s ∧
      s.readers r = some ⟨0, 2 * (j + 1) % 2 ^ 64,
        .loading .tryRead emptyMessage (.copying (2 * j % counterSize) [])⟩ ∧
      load (s.buffer 0) emptyMessage (.copying (2 * j % counterSize) []) =
        (emptyMessage, .returned (2 * j % counterSize)) ∧
      realVersion P es r = j ∧ P.expectedVersion (position es r) = j + 1 := by
  have hslot : (singleState r j).buffer 0 = singleSlot j := by simp [singleState]
  have hload := load_path (P := P) (r := r) (s := singleState r j) (c := .tryRead)
    (x := ⟨0, 2 * (j + 1) % 2 ^ 64, .idle⟩) (by simp [singleState]) rfl hslot
  refine ⟨_, _, (single_run (r := r) hsize hshift j).trans hload, Function.update_self .., ?_, ?_,
    ?_⟩
  · simp [load, State.setReader, singleState, singleSlot, isLocked_mod]
  · have hwritten : (written (lapEvents r j ++ [.reader r .silent, .reader r .silent,
        .reader r .silent])).length = j := by
      rw [written, List.filterMap_append, ← written, written_lapEvents, List.length_append,
        List.length_replicate]
      rfl
    rw [realVersion, hwritten, hsize, Nat.mod_one, laps, Nat.div_one]
    omega
  · have hposition : position (lapEvents r j ++ [.reader r .silent, .reader r .silent,
        .reader r .silent]) r = j := by
      rw [position, List.foldl_append]
      exact position_lapEvents j
    rw [hposition, expectedVersion_eq (by rw [hshift, hsize]; rfl), hsize, Nat.div_one]

end

theorem getBufferSize_one : Params.getBufferSize ⟨1, 8, 0⟩ = 1 := by
  rw [Params.getBufferSize, bitCeil, Nat.clog_one_right, Nat.pow_zero]

theorem getSeqRightShiftValue_one : Params.getSeqRightShiftValue ⟨1, 8, 0⟩ = 0 := by
  rw [Params.getSeqRightShiftValue, getBufferSize_one]
  decide

theorem compares_iff_stretch_fifth : ∃ (es : List (Event Unit)) (s : State Unit) (x : Reader)
    (realSeq : ℕ), (machine ⟨1, 8, 0⟩ Unit).Run es s ∧
      realVersion ⟨1, 8, 0⟩ es () = 4 ∧ Params.expectedVersion ⟨1, 8, 0⟩ (position es ()) = 5 ∧
      (Compares (realVersion ⟨1, 8, 0⟩ es ()) (Params.expectedVersion ⟨1, 8, 0⟩ (position es ()))
          (int32 realSeq - int32 x.expectedSeq) ↔
        stretch (realVersion ⟨1, 8, 0⟩ es ()) =
          stretch (Params.expectedVersion ⟨1, 8, 0⟩ (position es ()))) := by
  obtain ⟨es, s, hrun, hr, hl, hreal, hexpected⟩ :=
    single_load (r := ()) getBufferSize_one getSeqRightShiftValue_one 4
  exact ⟨es, s, _, _, hrun, hreal, hexpected,
    compares_iff_stretch hrun hr rfl hl (by omega) (by omega)⟩

/-- The reader waits for version `2^30`: the two numbers are `2^31 - 2` and `-2^31`. -/
theorem not_compares : ¬ ∀ (es : List (Event Unit)) (s : State Unit) (x : Reader) (c : ReadCall)
    (m m' : Message) (p : Load) (realSeq : ℕ), (machine ⟨1, 8, 0⟩ Unit).Run es s →
    s.readers () = some x → x.pc = .loading c m p →
    load (s.buffer x.head) m p = (m', .returned realSeq) →
    realVersion ⟨1, 8, 0⟩ es () < Params.expectedVersion ⟨1, 8, 0⟩ (position es ()) + 2 ^ 30 →
    Params.expectedVersion ⟨1, 8, 0⟩ (position es ()) < realVersion ⟨1, 8, 0⟩ es () + 2 ^ 30 →
    Compares (realVersion ⟨1, 8, 0⟩ es ())
      (Params.expectedVersion ⟨1, 8, 0⟩ (position es ())) (int32 realSeq - int32 x.expectedSeq) := by
  intro hall
  obtain ⟨es, s, hrun, hr, hl, hreal, hexpected⟩ :=
    single_load (r := ()) getBufferSize_one getSeqRightShiftValue_one (2 ^ 30 - 1)
  have hnear : realVersion ⟨1, 8, 0⟩ es () <
      Params.expectedVersion ⟨1, 8, 0⟩ (position es ()) + 2 ^ 30 := by omega
  have hnear' : Params.expectedVersion ⟨1, 8, 0⟩ (position es ()) <
      realVersion ⟨1, 8, 0⟩ es () + 2 ^ 30 := by omega
  have hcompares := hall es s _ _ _ _ _ _ hrun hr rfl hl hnear hnear'
  rw [(Located.of_run hrun).compared hr rfl hl, compares_iff hnear hnear', hreal, hexpected]
    at hcompares
  exact absurd hcompares (by decide)

end LockFree.BoundedMulticastQueue
