import LockFree.MulticastSlots

/-!
# BoundedMulticastQueue delivers every message in order

A reader at position `p` waits at slot `p mod n` for the counter `2 * (p / n + 1)`: less
means that its message is not there yet, more that it has been overwritten. The shift
in `UpdateIndexes` has to be the logarithm of the buffer size for this.
-/

namespace LockFree.BoundedMulticastQueue
open AtomicMemcpy SeqLock RingLaps TransitionRuns

variable {P : Params} {slot slot' : Slot} {ws ws' : List (List UInt8)} {buffer buffer' : ℕ → Slot}
  {w : Writer} {x x' : Reader}

def Load.Reads (n : ℕ) (slot : Slot) (m : Message) : Load → Prop
  | .loadSeq0 => True
  | .messageSize seq0 => Snapshot 0 n slot.counter seq0 True
  | .copying seq0 rest =>
    Snapshot 0 n slot.counter seq0 (m.size = slot.messageSize ∧
      ∃ k, Tiles k rest m.size ∧ ∀ i < k, m.data i = slot.data i)
  | .returned _ => False

def Load.ReadsSince (n₀ n : ℕ) (slot : Slot) (m : Message) : Load → Prop
  | .loadSeq0 => True
  | .messageSize seq0 => Snapshot n₀ n slot.counter seq0 True
  | .copying seq0 rest =>
    Snapshot n₀ n slot.counter seq0 (m.size = slot.messageSize ∧
      ∃ k, Tiles k rest m.size ∧ ∀ i < k, m.data i = slot.data i)
  | .returned _ => False

theorem Load.reads_iff {n : ℕ} {m : Message} {p : Load} :
    p.Reads n slot m ↔ p.ReadsSince 0 n slot m := by
  cases p <;> exact Iff.rfl

theorem Load.ReadsSince.mono {n₀ n n' : ℕ} {m : Message} {p : Load}
    (h : p.ReadsSince n₀ n slot m) (hle : n ≤ n')
    (hsame : n' = n → isLocked slot'.counter = false → slot' = slot) :
    p.ReadsSince n₀ n' slot' m := by
  cases p with
  | loadSeq0 => trivial
  | messageSize seq0 =>
    refine Snapshot.mono h hle fun heq hfree => ?_
    obtain rfl := hsame heq hfree
    exact ⟨hfree, id⟩
  | copying seq0 rest =>
    refine Snapshot.mono h hle fun heq hfree => ?_
    obtain rfl := hsame heq hfree
    exact ⟨hfree, id⟩
  | returned seq0 => exact h

theorem Load.ReadsSince.of_le {n₀ n₁ n : ℕ} {m : Message} {p : Load}
    (h : p.ReadsSince n₁ n slot m) (hle : n₀ ≤ n₁) : p.ReadsSince n₀ n slot m := by
  cases p with
  | loadSeq0 => trivial
  | messageSize seq0 => exact Snapshot.of_le h hle
  | copying seq0 rest => exact Snapshot.of_le h hle
  | returned seq0 => exact h

def Load.since (n₀ n : ℕ) : Load → ℕ
  | .loadSeq0 => n
  | _ => n₀

/-- A load goes on, or returns the counter of an unlocked slot and, unless the counter has
gone all the way round, what the slot holds. -/
theorem Load.ReadsSince.load {n₀ n : ℕ} {m m' : Message} {p p' : Load}
    (h : p.ReadsSince n₀ n slot m) (hc : Counts slot.counter n) (hl : load slot m p = (m', p')) :
    p'.ReadsSince (p.since n₀ n) n slot m' ∨ (p' = .returned slot.counter ∧
      isLocked slot.counter = false ∧
      (n < n₀ + 2 ^ 31 → m'.contents = contents slot.messageSize slot.data)) := by
  cases p with
  | loadSeq0 =>
    cases hl
    exact .inl (.take le_rfl hc trivial)
  | messageSize seq0 =>
    cases hl
    refine .inl (Snapshot.imp h fun _ => ⟨rfl, 0, tiles_atomicMemcpy _, fun i hi => ?_⟩)
    exact absurd hi (Nat.not_lt_zero i)
  | copying seq0 rest =>
    cases rest with
    | cons access rest =>
      cases hl
      refine .inl (Snapshot.imp h ?_)
      rintro ⟨hsize, k, htiles, hcopied⟩
      obtain ⟨hlo, -, htiles⟩ := htiles.head
      exact ⟨hsize, access.2, htiles, fun i hi => copy_of_prefix hlo hcopied hi⟩
    | nil =>
      simp only [BoundedMulticastQueue.load] at hl
      split at hl <;> cases hl
      · exact .inl trivial
      · rename_i hpass
        obtain ⟨hfree, rfl⟩ : isLocked seq0 = false ∧ seq0 = slot.counter := by
          simpa using hpass
        refine .inr ⟨rfl, hfree, fun hfew => ?_⟩
        obtain ⟨hsize, k, htiles, hcopied⟩ := Snapshot.settle h hc hfree rfl hfew
        rw [Message.contents, ← hsize]
        exact contents_congr fun i hi => hcopied i (htiles.eq_of_nil ▸ hi)
  | returned seq0 => cases h

theorem Load.Reads.mono {n n' : ℕ} {m : Message} {p : Load} (h : p.Reads n slot m) (hle : n ≤ n')
    (hsame : n' = n → isLocked slot'.counter = false → slot' = slot) : p.Reads n' slot' m :=
  reads_iff.mpr ((reads_iff.mp h).mono hle hsame)

theorem load_cases {n : ℕ} {m m' : Message} {p p' : Load} (h : p.Reads n slot m)
    (hc : Counts slot.counter n) (hfew : n < 2 ^ 31) (hl : load slot m p = (m', p')) :
    p'.Reads n slot m' ∨ (p' = .returned slot.counter ∧ isLocked slot.counter = false ∧
      m'.contents = contents slot.messageSize slot.data) := by
  rcases (Load.reads_iff.mp h).load hc hl with hreads | ⟨hreturned, hfree, hm⟩
  · exact .inl (Load.reads_iff.mpr (hreads.of_le (Nat.zero_le _)))
  · exact .inr ⟨hreturned, hfree, hm (by omega)⟩

/-- A reader that has gone past `pos` of `k` messages. -/
structure Stands (P : Params) (k pos : ℕ) (buffer : ℕ → Slot) (x : Reader) : Prop where
  head : x.head = pos % P.getBufferSize
  expectedSeq : x.expectedSeq = 2 * (pos / P.getBufferSize + 1)
  le : pos ≤ k
  ready : x.pc = .ready → pos < k
  loading : ∀ c m p, x.pc = .loading c m p →
    p.Reads (laps P.getBufferSize x.head k) (buffer x.head) m

def Few (P : Params) (k : ℕ) : Prop := laps P.getBufferSize 0 k < 2 ^ 29

theorem int32_eq {n : ℕ} (h : n < 2 ^ 31) : int32 n = n :=
  Int.bmod_eq_of_le (by omega) (by omega)

theorem Few.div_lt {k pos : ℕ} (h : Few P k) (hle : pos ≤ k) :
    pos / P.getBufferSize < 2 ^ 29 := by
  calc pos / P.getBufferSize
      ≤ k / P.getBufferSize := Nat.div_le_div_right hle
    _ = laps P.getBufferSize (k % P.getBufferSize) k := (laps_mod_self (getBufferSize_pos P)).symm
    _ ≤ laps P.getBufferSize 0 k := laps_le_laps_zero
    _ < 2 ^ 29 := h

theorem tryRead_sign {k pos l : ℕ} (hfew : Few P k) (hle : pos ≤ k) (hl : l < 2 ^ 29) :
    int32 (2 * l % counterSize) - int32 (2 * (pos / P.getBufferSize + 1)) =
      2 * ((l : ℤ) - (pos / P.getBufferSize + 1 : ℕ)) := by
  have hpos := hfew.div_lt hle
  have hmod : 2 * l % counterSize = 2 * l := by
    rw [counterSize]
    omega
  rw [hmod, int32_eq (by omega), int32_eq (by omega)]
  push_cast
  omega

theorem Stands.updateIndexes {k pos : ℕ} (h : Stands P k pos buffer x) (hlt : pos < k)
    (hfew : Few P k) (hshift : 2 ^ P.getSeqRightShiftValue = P.getBufferSize) :
    Stands P k (pos + 1) buffer (x.updateIndexes P) := by
  have hdiv := succ_div_eq pos (getBufferSize_pos P)
  have hnext : (pos + 1) / P.getBufferSize < 2 ^ 29 := hfew.div_lt hlt
  constructor
  · rw [Reader.updateIndexes, h.head, and_getIndexMask, add_one_mod]
  · dsimp only [Reader.updateIndexes]
    rw [h.head, h.expectedSeq, Nat.shiftRight_eq_div_pow, hshift, Nat.shiftLeft_eq]
    omega
  · exact hlt
  · intro hready
    cases hready
  · intro c m p hloading
    cases hloading

inductive Stands.Next (P : Params) (ws : List (List UInt8)) (pos : ℕ) (buffer : ℕ → Slot)
    (x x' : Reader) : ReaderEvent → Prop where
  | silent : Stands P ws.length pos buffer x' → x'.pc ≠ .ready → Next P ws pos buffer x x' .silent
  | read {m : List UInt8} : Stands P ws.length (pos + 1) buffer x' → ws[pos]? = some m →
      ws.length ≤ pos + P.getBufferSize → Next P ws pos buffer x x' (.read m)
  | late : Stands P ws.length pos buffer x' → x'.pc ≠ .ready →
      pos + P.getBufferSize < ws.length → Next P ws pos buffer x x' .late
  | tried {result : ℤ} {m : List UInt8} : Stands P ws.length pos buffer x' →
      (result < 0 → ws.length ≤ pos) →
      (x'.pc = .ready → ws.length ≤ pos + P.getBufferSize) →
      Next P ws pos buffer x x' (.tried result m)
  | updated : Stands P ws.length (pos + 1) buffer x' → x.pc = .ready →
      Next P ws pos buffer x x' .updated

theorem position_cases (hn : 0 < P.getBufferSize) (pos k : ℕ) :
    (laps P.getBufferSize (pos % P.getBufferSize) k < pos / P.getBufferSize + 1 ∧ k ≤ pos) ∨
    (laps P.getBufferSize (pos % P.getBufferSize) k = pos / P.getBufferSize + 1 ∧ pos < k ∧
      k ≤ pos + P.getBufferSize) ∨
    (pos / P.getBufferSize + 1 < laps P.getBufferSize (pos % P.getBufferSize) k ∧
      pos + P.getBufferSize < k) := by
  have hthis := lt_laps_mod_iff (j := pos) (k := k) hn
  have hnext := lt_laps_mod_iff (j := pos + P.getBufferSize) (k := k) hn
  rw [Nat.add_mod_right, Nat.add_div_right _ hn] at hnext
  omega

theorem Stands.finish {pos : ℕ} {c : ReadCall} {m : Message} {e : ReaderEvent}
    (h : Stands P ws.length pos buffer x) (hi : Inv P ws buffer w) (hfew : Few P ws.length)
    (hshift : 2 ^ P.getSeqRightShiftValue = P.getBufferSize)
    (hfree : isLocked (buffer x.head).counter = false)
    (hm : m.contents = contents (buffer x.head).messageSize (buffer x.head).data)
    (hf : x.finish P c m (buffer x.head).counter = (x', e)) :
    Next P ws pos buffer x x' e := by
  have hn := getBufferSize_pos P
  have hlt : x.head < P.getBufferSize := h.head ▸ Nat.mod_lt _ hn
  obtain ⟨busy, hslot⟩ := hi.exists_slot hlt
  have hcounter := (hslot.counter.lock hfree).1
  obtain rfl : busy = false := hslot.locked.symm.trans hfree
  have hlaps : laps P.getBufferSize x.head ws.length < 2 ^ 29 :=
    Nat.lt_of_le_of_lt laps_le_laps_zero hfew
  have hsign := tryRead_sign hfew h.le hlaps
  rw [← hcounter, ← h.expectedSeq] at hsign
  have hcases := position_cases hn pos ws.length
  rw [← h.head] at hcases
  -- the message at the position is in the slot when the result is zero
  have hmine : laps P.getBufferSize x.head ws.length = pos / P.getBufferSize + 1 →
      ws[pos]? = some m.contents := by
    intro heq
    have := hslot.last rfl _ heq
    rwa [h.head, Nat.div_add_mod', ← h.head, ← hm] at this
  have hmove : ∀ {pc : Reading}, (pc = .ready → pos < ws.length) →
      (∀ c m p, pc = .loading c m p → p = .loadSeq0) →
      Stands P ws.length pos buffer { x with pc := pc } := by
    intro pc hready hloading
    refine ⟨h.head, h.expectedSeq, h.le, hready, fun c m p hp => ?_⟩
    rw [hloading c m p hp]
    trivial
  cases c with
  | tryRead =>
    cases hf
    refine .tried (hmove ?_ ?_) ?_ ?_
    · intro hready
      split at hready
      · omega
      · cases hready
    · intro c m p hp
      split at hp <;> cases hp
    · omega
    · intro hready
      dsimp only at hready
      split at hready
      · omega
      · cases hready
  | read =>
    simp only [Reader.finish] at hf
    split at hf
    · cases hf
      have heq : laps P.getBufferSize x.head ws.length = pos / P.getBufferSize + 1 := by omega
      exact .read (h.updateIndexes (by omega) hfew hshift) (hmine heq) (by omega)
    · split at hf
      · cases hf
        refine .late (hmove ?_ ?_) ?_ (by omega)
        · exact fun hready => by cases hready
        · exact fun _ _ _ hp => by cases hp
        · exact fun hready => by cases hready
      · cases hf
        refine .silent (hmove ?_ ?_) ?_
        · exact fun hready => by cases hready
        · exact fun _ _ _ hp => by cases hp; rfl
        · exact fun hready => by cases hready

theorem Stands.next {pos : ℕ} {c : ReaderChoice} {e : ReaderEvent}
    (h : Stands P ws.length pos buffer x) (hi : Inv P ws buffer w) (hfew : Few P ws.length)
    (hshift : 2 ^ P.getSeqRightShiftValue = P.getBufferSize)
    (hx : x.next P (buffer x.head) c = some (x', e)) : Next P ws pos buffer x x' e := by
  have hlt : x.head < P.getBufferSize := h.head ▸ Nat.mod_lt _ (getBufferSize_pos P)
  obtain ⟨busy, hslot⟩ := hi.exists_slot hlt
  cases c with
  | call c m =>
    cases hpc : x.pc with
    | loading => simp only [Reader.next, hpc, reduceCtorEq] at hx
    | idle | ready =>
      simp only [Reader.next, hpc] at hx
      cases hx
      refine .silent ⟨h.head, h.expectedSeq, h.le, ?_, ?_⟩ ?_
      · exact fun hready => by cases hready
      · exact fun _ _ _ hp => by cases hp; trivial
      · exact fun hready => by cases hready
  | update =>
    cases hpc : x.pc with
    | ready =>
      simp only [Reader.next, hpc] at hx
      cases hx
      exact .updated (h.updateIndexes (h.ready hpc) hfew hshift) hpc
    | idle | loading => simp only [Reader.next, hpc, reduceCtorEq] at hx
  | step =>
    cases hpc : x.pc with
    | idle | ready => simp only [Reader.next, hpc, reduceCtorEq] at hx
    | loading c m p =>
      have hlaps : laps P.getBufferSize x.head ws.length < 2 ^ 31 :=
        Nat.lt_of_le_of_lt laps_le_laps_zero (Nat.lt_trans hfew (by decide))
      cases hl : load (buffer x.head) m p with
      | mk m' p' =>
        simp only [Reader.next, hpc, hl] at hx
        rcases load_cases (h.loading c m p hpc) hslot.counter hlaps hl with
          hreads | ⟨rfl, hfree, hm⟩
        · cases p' with
          | returned seq0 => cases hreads
          | loadSeq0 | messageSize | copying =>
            cases hx
            refine .silent ⟨h.head, h.expectedSeq, h.le, ?_, ?_⟩ ?_
            · exact fun hready => by cases hready
            · exact fun _ _ _ hp => by cases hp; exact hreads
            · exact fun hready => by cases hready
        · exact h.finish hi hfew hshift hfree hm (Option.some.inj hx)

theorem Stands.mono {k k' pos : ℕ} (h : Stands P k pos buffer x) (hle : k ≤ k')
    (hsame : ∀ i < P.getBufferSize, laps P.getBufferSize i k' = laps P.getBufferSize i k →
      isLocked (buffer' i).counter = false → buffer' i = buffer i) :
    Stands P k' pos buffer' x := by
  have hlt : x.head < P.getBufferSize := h.head ▸ Nat.mod_lt _ (getBufferSize_pos P)
  refine ⟨h.head, h.expectedSeq, Nat.le_trans h.le hle, ?_, fun c m p hp => ?_⟩
  · exact fun hready => Nat.lt_of_lt_of_le (h.ready hready) hle
  · exact (h.loading c m p hp).mono (laps_le_laps hlt hle) (hsame _ hlt)

section
variable {Rid : Type*} [DecidableEq Rid] {es : List (Event Rid)} {s s' : State Rid} {r : Rid}

omit [DecidableEq Rid] in
def begun (es : List (Event Rid)) : ℕ := (es.filterMap Event.writing?).length

structure RunInv (P : Params) (es : List (Event Rid)) (s : State Rid) : Prop where
  slots : Inv P (written es) s.buffer s.writer
  begun : begun es = (written es).length + s.writer.pc.pending
  readers : ∀ r x, s.readers r = some x →
    Stands P (written es).length (position es r) s.buffer x

theorem position_snoc (e : Event Rid) : position (es ++ [e]) = positionAfter (position es) e := by
  rw [position, List.foldl_append]
  rfl

omit [DecidableEq Rid] in
theorem written_snoc (e : Event Rid) :
    written (es ++ [e]) = written es ++ e.written?.toList := by
  rw [written, List.filterMap_append]
  cases h : e.written? <;> simp [written, h]

omit [DecidableEq Rid] in
theorem begun_snoc (e : Event Rid) :
    BoundedMulticastQueue.begun (es ++ [e]) =
      BoundedMulticastQueue.begun es + e.writing?.toList.length := by
  rw [BoundedMulticastQueue.begun, List.filterMap_append, List.length_append]
  cases h : e.writing? <;> simp [BoundedMulticastQueue.begun, h]

theorem RunInv.few (h : RunInv P es s) (hlaps : lapsBegun P es < 2 ^ 29) :
    Few P (written es).length := by
  have hle : (written es).length ≤ BoundedMulticastQueue.begun es := by
    rw [h.begun]
    exact Nat.le_add_right _ _
  exact Nat.lt_of_le_of_lt (laps_le_laps (getBufferSize_pos P) hle) hlaps

theorem RunInv.start : RunInv P [] (machine P Rid).start where
  slots := .empty P
  begun := rfl
  readers r x hx := by cases hx

theorem RunInv.store {spurious : Bool} {w' : Writer} {e : WriterEvent} (h : RunInv P es s)
    (hs : store P (s.buffer s.writer.tail) s.writer spurious = some (slot', w', e)) :
    RunInv P (es ++ [.writer e])
      { s with buffer := Function.update s.buffer s.writer.tail slot', writer := w' } := by
  have hpos : position (es ++ [.writer e]) = position es := by
    rw [position_snoc]
    rfl
  rcases h.slots.writer.store hs with ⟨rfl, hw, htail, hpending, hsame⟩ |
    ⟨m, rfl, hpending, hpc, htail, hslot⟩
  · have hwritten : written (es ++ [.writer .silent]) = written es := by
      rw [written_snoc]
      exact List.append_nil _
    constructor
    · rw [hwritten]
      exact h.slots.silent hw htail
    · rw [begun_snoc, hwritten, h.begun]
      exact congrArg _ hpending.symm
    · intro r x hx
      rw [hwritten, hpos]
      refine (h.readers r x hx).mono le_rfl fun i hi _ hfree => ?_
      by_cases hit : i = s.writer.tail
      · subst hit
        dsimp only at hfree ⊢
        rw [Function.update_self] at hfree ⊢
        exact hsame hfree
      · exact Function.update_of_ne hit _ _
  · have hwritten : written (es ++ [.writer (.written m)]) = written es ++ [m] := written_snoc _
    have hlength : (written (es ++ [.writer (.written m)])).length = (written es).length + 1 := by
      rw [hwritten, List.length_append, List.length_singleton]
    constructor
    · rw [hwritten]
      exact h.slots.written hpc htail hslot
    · rw [begun_snoc, hlength, h.begun, hpending, hpc]
      rfl
    · intro r x hx
      rw [hlength, hpos]
      refine (h.readers r x hx).mono (Nat.le_succ _) fun i hi hlaps _ => ?_
      by_cases hit : i = s.writer.tail
      · subst hit
        rw [h.slots.writer.tail, laps_succ_self (getBufferSize_pos P),
          laps_mod_self (getBufferSize_pos P)] at hlaps
        omega
      · exact Function.update_of_ne hit _ _

theorem RunInv.setReader {e : Event Rid} (h : RunInv P es s) (hwriting : e.writing? = none)
    (hwritten : e.written? = none)
    (hpos : ∀ r', r' ≠ r → position (es ++ [e]) r' = position es r')
    (hx : Stands P (written es).length (position (es ++ [e]) r) s.buffer x) :
    RunInv P (es ++ [e]) (s.setReader r x) := by
  have hsame : written (es ++ [e]) = written es := by
    rw [written_snoc, hwritten]
    exact List.append_nil _
  constructor
  · rw [hsame]
    exact h.slots
  · rw [begun_snoc, hsame, hwriting]
    exact h.begun
  · intro r' x' hx'
    rw [hsame]
    dsimp only [State.setReader] at hx'
    by_cases hr : r' = r
    · subst hr
      rw [Function.update_self] at hx'
      cases hx'
      exact hx
    · rw [Function.update_of_ne hr] at hx'
      rw [hpos r' hr]
      exact h.readers r' x' hx'

theorem RunInv.reader {c : ReaderChoice} {e : ReaderEvent} (h : RunInv P es s)
    (hfew : Few P (written es).length) (hshift : 2 ^ P.getSeqRightShiftValue = P.getBufferSize)
    (hr : s.readers r = some x) (hx : x.next P (s.buffer x.head) c = some (x', e)) :
    RunInv P (es ++ [.reader r e]) (s.setReader r x') ∧
      Stands.Next P (written es) (position es r) s.buffer x x' e := by
  have hnext := (h.readers r x hr).next h.slots hfew hshift hx
  refine ⟨?_, hnext⟩
  have hkeep : ∀ r', r' ≠ r → position (es ++ [.reader r e]) r' = position es r' := by
    intro r' hne
    rw [position_snoc]
    cases e <;> first | rfl | exact Function.update_of_ne hne _ _
  apply h.setReader rfl rfl hkeep
  rw [position_snoc]
  cases hnext with
  | silent hstands => exact hstands
  | late hstands => exact hstands
  | tried hstands => exact hstands
  | read hstands | updated hstands =>
    dsimp only [positionAfter]
    rwa [Function.update_self]

theorem RunInv.create (h : RunInv P es s) :
    RunInv P (es ++ [.reader r .created]) (s.setReader r ⟨0, 2, .idle⟩) := by
  have hpos : position (es ++ [.reader r .created]) = Function.update (position es) r 0 :=
    position_snoc _
  refine h.setReader rfl rfl (fun r' hne => ?_) ?_
  · rw [hpos, Function.update_of_ne hne]
  · rw [hpos, Function.update_self]
    refine ⟨(Nat.zero_mod _).symm, by rw [Nat.zero_div], Nat.zero_le _, ?_, ?_⟩
    · exact fun hready => by cases hready
    · exact fun _ _ _ hp => by cases hp

theorem RunInv.copy {other : Rid} (h : RunInv P es s) (hother : s.readers other = some x) :
    RunInv P (es ++ [.copied r other]) (s.setReader r { x with pc := .idle }) := by
  have hpos : position (es ++ [.copied r other]) =
      Function.update (position es) r (position es other) := position_snoc _
  have hx := h.readers other x hother
  refine h.setReader rfl rfl (fun r' hne => ?_) ?_
  · rw [hpos, Function.update_of_ne hne]
  · rw [hpos, Function.update_self]
    refine ⟨hx.head, hx.expectedSeq, hx.le, ?_, ?_⟩
    · exact fun hready => by cases hready
    · exact fun _ _ _ hp => by cases hp

theorem RunInv.write {desired : Message} (h : RunInv P es s) (hpc : s.writer.pc = .idle) :
    RunInv P (es ++ [.writer (.writing desired.contents)])
      { s with writer := { s.writer with pc := .locking desired .load } } := by
  have hwritten : written (es ++ [.writer (.writing desired.contents)]) = written es := by
    rw [written_snoc]
    exact List.append_nil _
  have hown := h.slots.writer.own
  rw [hpc] at hown
  constructor
  · rw [hwritten]
    exact ⟨⟨h.slots.writer.tail, hown, .inl rfl⟩, h.slots.slots⟩
  · rw [begun_snoc, hwritten, h.begun, hpc]
    rfl
  · intro r x hx
    rw [hwritten, position_snoc]
    exact h.readers r x hx

inductive Moves (P : Params) (s : State Rid) : State Rid → Event Rid → Prop where
  | write {desired : Message} : s.writer.pc = .idle →
      Moves P s { s with writer := { s.writer with pc := .locking desired .load } }
        (.writer (.writing desired.contents))
  | store {spurious : Bool} {slot : Slot} {w : Writer} {e : WriterEvent} :
      store P (s.buffer s.writer.tail) s.writer spurious = some (slot, w, e) →
      Moves P s { s with buffer := Function.update s.buffer s.writer.tail slot, writer := w }
        (.writer e)
  | create {r : Rid} : s.readers r = none →
      Moves P s (s.setReader r ⟨0, 2, .idle⟩) (.reader r .created)
  | copy {r other : Rid} {x : Reader} : s.readers r = none → s.readers other = some x →
      Moves P s (s.setReader r { x with pc := .idle }) (.copied r other)
  | reader {r : Rid} {x x' : Reader} {c : ReaderChoice} {e : ReaderEvent} :
      s.readers r = some x → x.next P (s.buffer x.head) c = some (x', e) →
      Moves P s (s.setReader r x') (.reader r e)

theorem Moves.of_step {e : Event Rid} (hs : (machine P Rid).Step s e s') : Moves P s s' e := by
  obtain ⟨c, hn⟩ := hs
  change next P s c = some (s', e) at hn
  cases c <;> simp only [BoundedMulticastQueue.next] at hn
  case write desired =>
    split at hn
    · rename_i hpc
      split at hn <;> cases hn
      exact .write hpc
    · cases hn
  case store spurious =>
    split at hn <;> cases hn
    exact .store ‹_›
  case create r =>
    split at hn <;> cases hn
    exact .create ‹_›
  case copy r other =>
    split at hn <;> cases hn
    exact .copy ‹_› ‹_›
  case reader r c =>
    split at hn
    · cases hn
    · split at hn <;> cases hn
      exact .reader ‹_› ‹_›

theorem RunInv.step {e : Event Rid} (h : RunInv P es s) (hfew : Few P (written es).length)
    (hshift : 2 ^ P.getSeqRightShiftValue = P.getBufferSize)
    (hs : (machine P Rid).Step s e s') : RunInv P (es ++ [e]) s' := by
  cases Moves.of_step hs with
  | write hpc => exact h.write hpc
  | store hstore => exact h.store hstore
  | create _ => exact h.create
  | copy _ hother => exact h.copy hother
  | reader hr hx => exact (h.reader hfew hshift hr hx).1

omit [DecidableEq Rid] in
theorem lapsBegun_le (es fs : List (Event Rid)) : lapsBegun P es ≤ lapsBegun P (es ++ fs) := by
  apply laps_le_laps (getBufferSize_pos P)
  rw [List.filterMap_append, List.length_append]
  exact Nat.le_add_right _ _

theorem RunInv.of_run (h : (machine P Rid).Run es s)
    (hshift : 2 ^ P.getSeqRightShiftValue = P.getBufferSize) (hlaps : lapsBegun P es < 2 ^ 29) :
    RunInv P es s := by
  refine h.invariant (I := fun es s => lapsBegun P es < 2 ^ 29 → RunInv P es s) (fun _ => .start)
    (fun es s e s' _ hi hs hlaps => ?_) hlaps
  have hlaps' := Nat.lt_of_le_of_lt (lapsBegun_le es [e]) hlaps
  exact (hi hlaps').step ((hi hlaps').few hlaps') hshift hs

def Overtaken (P : Params) (es : List (Event Rid)) (s : State Rid) (r : Rid) : Prop :=
  position es r + P.getBufferSize < (written es).length ∧
    ∃ x, s.readers r = some x ∧ x.pc ≠ .ready

omit [DecidableEq Rid] in
theorem written_length_le (es fs : List (Event Rid)) :
    (written es).length ≤ (written (es ++ fs)).length := by
  rw [written, written, List.filterMap_append, List.length_append]
  exact Nat.le_add_right _ _

theorem RunInv.overtaken_step {e : Event Rid} (h : RunInv P es s)
    (hfew : Few P (written es).length) (hshift : 2 ^ P.getSeqRightShiftValue = P.getBufferSize)
    (hr : Overtaken P es s r) (hs : (machine P Rid).Step s e s') :
    Overtaken P (es ++ [e]) s' r ∧ ∀ m, e ≠ .reader r (.read m) := by
  obtain ⟨hlate, x, hx, hpc⟩ := hr
  have hlate' := Nat.lt_of_lt_of_le hlate (written_length_le es [e])
  -- the steps that move neither the reader nor its position
  have other : position (es ++ [e]) r = position es r → s'.readers r = s.readers r →
      Overtaken P (es ++ [e]) s' r := fun hpos hsame =>
    ⟨hpos ▸ hlate', x, hsame ▸ hx, hpc⟩
  cases Moves.of_step hs with
  | write _ => exact ⟨other (by rw [position_snoc]; rfl) rfl, fun m => by simp⟩
  | store _ => exact ⟨other (by rw [position_snoc]; rfl) rfl, fun m => by simp⟩
  | @create u hu =>
    have hne : r ≠ u := fun heq => by simp [← heq, hx] at hu
    refine ⟨other ?_ (Function.update_of_ne hne _ _), fun m => by simp⟩
    rw [position_snoc]
    exact Function.update_of_ne hne _ _
  | @copy u v y hu _ =>
    have hne : r ≠ u := fun heq => by simp [← heq, hx] at hu
    refine ⟨other ?_ (Function.update_of_ne hne _ _), fun m => by simp⟩
    rw [position_snoc]
    exact Function.update_of_ne hne _ _
  | @reader u y y' c e hu hy =>
    by_cases hru : r = u
    · subst hru
      obtain rfl : x = y := Option.some.inj (hx.symm.trans hu)
      have hset : (s.setReader r y').readers r = some y' := Function.update_self ..
      cases (h.reader hfew hshift hu hy).2 with
      | silent _ hpc' =>
        refine ⟨⟨?_, y', hset, hpc'⟩, fun m => by simp⟩
        rw [position_snoc]
        exact hlate'
      | late _ hpc' _ =>
        refine ⟨⟨?_, y', hset, hpc'⟩, fun m => by simp⟩
        rw [position_snoc]
        exact hlate'
      | tried _ _ hready =>
        refine ⟨⟨?_, y', hset, fun heq => ?_⟩, fun m => by simp⟩
        · rw [position_snoc]
          exact hlate'
        · have := hready heq
          omega
      | read _ _ hle => omega
      | updated _ hready => exact absurd hready hpc
    · refine ⟨other ?_ (Function.update_of_ne hru _ _), fun m => by simp [Ne.symm hru]⟩
      rw [position_snoc]
      cases e <;> first | rfl | exact Function.update_of_ne hru _ _

theorem overtaken_of_path {fs : List (Event Rid)} (h : (machine P Rid).Run es s)
    (hshift : 2 ^ P.getSeqRightShiftValue = P.getBufferSize)
    (hr : Overtaken P es s r) (hp : (machine P Rid).Path s fs s')
    (hlaps : lapsBegun P (es ++ fs) < 2 ^ 29) :
    Overtaken P (es ++ fs) s' r ∧ ∀ m, .reader r (.read m) ∉ fs := by
  induction hp with
  | nil =>
    rw [List.append_nil]
    exact ⟨hr, fun m hm => by cases hm⟩
  | @snoc u u' fs e hp hs ih =>
    rw [← List.append_assoc] at hlaps ⊢
    have hlaps' := Nat.lt_of_le_of_lt (lapsBegun_le (es ++ fs) [e]) hlaps
    obtain ⟨hu, hfs⟩ := ih hlaps'
    have hi := RunInv.of_run (Machine.Path.trans h hp) hshift hlaps'
    obtain ⟨hu', he⟩ := hi.overtaken_step (hi.few hlaps') hshift hu hs
    refine ⟨hu', fun m hm => ?_⟩
    rcases List.mem_append.mp hm with hm | hm
    · exact hfs m hm
    · exact he m (List.mem_singleton.mp hm).symm

theorem delivers_of_shift (h : (machine P Rid).Run es s)
    (hshift : 2 ^ P.getSeqRightShiftValue = P.getBufferSize) (hlaps : lapsBegun P es < 2 ^ 29) :
    Delivers P es := by
  -- every event of a reader comes from a step out of a state with the invariant
  have at_reader : ∀ {es₁ es₂ : List (Event Rid)} {r : Rid} {e : ReaderEvent},
      es = es₁ ++ .reader r e :: es₂ → e ≠ .created →
      ∃ (u u' : State Rid) (x x' : Reader), (machine P Rid).Run (es₁ ++ [.reader r e]) u' ∧
        (machine P Rid).Path u' es₂ s ∧ u'.readers r = some x' ∧
        Stands.Next P (written es₁) (position es₁ r) u.buffer x x' e := by
    intro es₁ es₂ r e hes he
    subst hes
    obtain ⟨u, u', hr, hs, hp⟩ := h.at_event
    have hlaps' := Nat.lt_of_le_of_lt (lapsBegun_le es₁ _) hlaps
    have hi := RunInv.of_run hr hshift hlaps'
    have hrun := hr.snoc hs
    cases Moves.of_step hs with
    | create _ => exact absurd rfl he
    | reader hur hx =>
      exact ⟨u, _, _, _, hrun, hp, Function.update_self .., (hi.reader (hi.few hlaps') hshift hur hx).2⟩
  constructor
  · intro es₁ es₂ r m hes
    obtain ⟨u, u', x, x', -, -, -, hnext⟩ := at_reader hes (by simp)
    cases hnext with
    | read _ hm _ => exact hm
  · intro es₁ es₂ r hes
    obtain ⟨u, u', x, x', -, -, -, hnext⟩ := at_reader hes (by simp)
    cases hnext with
    | late _ _ hlt => exact hlt
  · intro es₁ es₂ r result m hes hneg
    obtain ⟨u, u', x, x', -, -, -, hnext⟩ := at_reader hes (by simp)
    cases hnext with
    | tried _ hle _ => exact hle hneg
  · intro es₁ es₂ r m hes
    obtain ⟨u, u', x, x', hrun, hp, hx', hnext⟩ := at_reader hes (by simp)
    cases hnext with
    | late _ hpc hlt =>
      have hover : Overtaken P (es₁ ++ [.reader r .late]) u' r := by
        refine ⟨?_, x', hx', hpc⟩
        rw [position_snoc]
        exact Nat.lt_of_lt_of_le hlt (written_length_le _ _)
      refine (overtaken_of_path hrun hshift hover hp ?_).2 m
      rwa [List.append_assoc, List.singleton_append, ← hes]

end
end LockFree.BoundedMulticastQueue
