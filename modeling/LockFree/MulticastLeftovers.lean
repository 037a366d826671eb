import Mathlib.Data.List.GetD
import LockFree.MulticastResidue

/-!
# A message that shows through

After `2^31` laps the counters of all slots are 0 again. A new reader copies the message in
its slot then, takes it for an empty slot and waits for another message, which it copies
over the first one.
-/

namespace LockFree.BoundedMulticastQueue
open AtomicMemcpy SeqLock RingLaps TransitionRuns

variable {P : Params} {T : Types}

theorem copy_copy {lo mid hi : ℕ} (hlo : lo ≤ mid) (hhi : mid ≤ hi) (src dest : Memory) :
    copy (mid, hi) src (copy (lo, mid) src dest) = copy (lo, hi) src dest := by
  funext i
  simp only [copy]
  split
  · rw [if_pos (by omega)]
  · split
    · rw [if_pos (by omega)]
    · rw [if_neg (by omega)]

def Message.ofBytes (m : List UInt8) : Message := ⟨fun i => m.getD i 0, m.length⟩

theorem contents_ofBytes (m : List UInt8) : (Message.ofBytes m).contents = m := by
  apply List.ext_getElem
  · simp [Message.ofBytes, Message.contents, contents]
  · intro i _ hi
    simp [Message.ofBytes, Message.contents, contents, hi]

section
variable {Rid : Type*} [DecidableEq Rid] {s : TypedState Rid} {es fs : List (TypedEvent Rid)}
  {r : Rid} {x : Reader} {c : ReadCall} {m m' : Message} {p p' : Load}

structure Writes (es : List (TypedEvent Rid)) (ms ns : List (List UInt8)) : Prop where
  begun : begunTyped es = ms
  written : writtenTyped es = ns
  writer : ∀ e ∈ es, ∃ w, e.queue = .writer w

omit [DecidableEq Rid] in
theorem begunTyped_append (es fs : List (TypedEvent Rid)) :
    begunTyped (es ++ fs) = begunTyped es ++ begunTyped fs :=
  List.filterMap_append

omit [DecidableEq Rid] in
theorem writtenTyped_append (es fs : List (TypedEvent Rid)) :
    writtenTyped (es ++ fs) = writtenTyped es ++ writtenTyped fs := by
  rw [writtenTyped, List.map_append, written, List.filterMap_append]
  rfl

omit [DecidableEq Rid] in
theorem Writes.append {ms ms' ns ns' : List (List UInt8)} (h : Writes es ms ns)
    (h' : Writes fs ms' ns') : Writes (es ++ fs) (ms ++ ms') (ns ++ ns') where
  begun := by rw [begunTyped_append, h.begun, h'.begun]
  written := by rw [writtenTyped_append, h.written, h'.written]
  writer e he := (List.mem_append.mp he).elim (h.writer e) (h'.writer e)

omit [DecidableEq Rid] in
theorem Writes.nil : Writes ([] : List (TypedEvent Rid)) [] [] :=
  ⟨rfl, rfl, fun e he => by cases he⟩

omit [DecidableEq Rid] in
theorem Writes.cons {w : WriterEvent} {bytes : Bytes} {ms ns : List (List UInt8)}
    (h : Writes es ms ns) : Writes (⟨.writer w, bytes⟩ :: es)
      ((Event.writing? (.writer w : Event Rid)).toList ++ ms) (w.written?.toList ++ ns) := by
  have hsingle : Writes ([⟨.writer w, bytes⟩] : List (TypedEvent Rid))
      (Event.writing? (.writer w : Event Rid)).toList w.written?.toList := by
    refine ⟨?_, ?_, fun e he => ⟨w, ?_⟩⟩
    · cases w <;> rfl
    · cases w <;> rfl
    · rw [List.mem_singleton.mp he]
  exact hsingle.append h

def TypedState.setWriter (s : TypedState Rid) (slot : Slot) (w : Writer) : TypedState Rid :=
  ⟨⟨Function.update s.queue.buffer s.queue.writer.tail slot, w, s.queue.readers⟩, s.size⟩

theorem store_step {slot : Slot} {w : Writer} {e : WriterEvent}
    (hs : store P (s.queue.buffer s.queue.writer.tail) s.queue.writer false = some (slot, w, e)) :
    (typed P T Rid).Step s ⟨.writer e, s.queue.writer.pc.bytes⟩ (s.setWriter slot w) := by
  refine ⟨.store false, ?_⟩
  simp only [typed, typedNext, next, hs]
  rfl

theorem store_copies {lo hi : ℕ} {rest : List (ℕ × ℕ)} (h : Tiles lo rest hi)
    (s : TypedState Rid) (m : Message) (data : Memory) (n seq counter : ℕ) :
    ∃ es, (typed P T Rid).Path
      (s.setWriter ⟨data, n, counter⟩ ⟨s.queue.writer.tail, .copying m seq rest⟩) es
      (s.setWriter ⟨copy (lo, hi) m.data data, n, counter⟩
        ⟨s.queue.writer.tail, .copying m seq []⟩) ∧ Writes es [] [] := by
  induction h generalizing data with
  | nil lo =>
    have hsame : copy (lo, lo) m.data data = data := by
      funext i
      exact if_neg (by omega)
    rw [hsame]
    exact ⟨[], .nil _, .nil⟩
  | @cons lo mid hi rest hle hrest ih =>
    obtain ⟨es, hpath, hwrites⟩ := ih (copy (lo, mid) m.data data)
    rw [copy_copy hle hrest.le_last.1] at hpath
    have hstore : store P ⟨data, n, counter⟩
        ⟨s.queue.writer.tail, .copying m seq ((lo, mid) :: rest)⟩ false =
        some (⟨copy (lo, mid) m.data data, n, counter⟩,
          ⟨s.queue.writer.tail, .copying m seq rest⟩, .silent) := rfl
    have hstep := store_step (P := P) (T := T) (s := s.setWriter ⟨data, n, counter⟩
      ⟨s.queue.writer.tail, .copying m seq ((lo, mid) :: rest)⟩)
      (by simpa only [TypedState.setWriter, Function.update_self] using hstore)
    simp only [TypedState.setWriter, Function.update_idem] at hstep hpath ⊢
    exact ⟨_, (Machine.Path.single hstep).trans hpath, hwrites.cons⟩

theorem write_typed (hpc : s.queue.writer.pc = .idle) (hm : m.size ∈ T.write)
    (hfree : isLocked (s.queue.buffer s.queue.writer.tail).counter = false) :
    ∃ es, (typed P T Rid).Path s es (s.setWriter
      ⟨copy (0, m.size) m.data (s.queue.buffer s.queue.writer.tail).data, m.size,
        unlock (s.queue.buffer s.queue.writer.tail).counter⟩
      ⟨(s.queue.writer.tail + 1) &&& P.getIndexMask, .idle⟩) ∧
        Writes es [m.contents] [m.contents] := by
  obtain ⟨⟨buffer, ⟨tail, pc⟩, readers⟩, size⟩ := s
  dsimp only at hpc hfree
  subst hpc
  generalize hslot : buffer tail = slot at hfree
  obtain ⟨data, n, counter⟩ := slot
  have hlock : (typed P T Rid).Path ⟨⟨buffer, ⟨tail, .idle⟩, readers⟩, size⟩
      [⟨.writer (.writing m.contents), .none⟩, ⟨.writer .silent, .none⟩,
        ⟨.writer .silent, .none⟩]
      (TypedState.setWriter ⟨⟨buffer, ⟨tail, .idle⟩, readers⟩, size⟩
        ⟨data, n, (counter + 1) % counterSize⟩
        ⟨tail, .copying m counter (atomicMemcpy m.size)⟩) := by
    refine Machine.Path.of_exec [.write m, .store false, .store false] ?_
    simp [Machine.exec, typed, typedNext, next, store, lock, Locking.read, hm, hfree, hslot,
      TypedState.setWriter, Store.bytes]
  obtain ⟨es, hcopies, hwrites⟩ := store_copies (P := P) (T := T) (tiles_atomicMemcpy m.size)
    ⟨⟨buffer, ⟨tail, .idle⟩, readers⟩, size⟩ m data n counter ((counter + 1) % counterSize)
  have hunlock : (typed P T Rid).Path (TypedState.setWriter ⟨⟨buffer, ⟨tail, .idle⟩, readers⟩, size⟩
        ⟨copy (0, m.size) m.data data, n, (counter + 1) % counterSize⟩ ⟨tail, .copying m counter []⟩)
      [⟨.writer .silent, .none⟩, ⟨.writer (.written m.contents), .none⟩]
      (TypedState.setWriter ⟨⟨buffer, ⟨tail, .idle⟩, readers⟩, size⟩
        ⟨copy (0, m.size) m.data data, m.size, unlock counter⟩
        ⟨(tail + 1) &&& P.getIndexMask, .idle⟩) := by
    refine Machine.Path.of_exec [.store false, .store false] ?_
    simp [Machine.exec, typed, typedNext, next, store, TypedState.setWriter, Store.bytes]
  dsimp only
  rw [hslot]
  exact ⟨_, (hlock.trans hcopies).trans hunlock,
    ((Writes.nil.cons.cons.cons).append hwrites).append Writes.nil.cons.cons⟩

variable (Rid) in
theorem writes_run (hm : m.size ∈ T.write) (k : ℕ) :
    ∃ es s, (typed P T Rid).Run es s ∧ s.queue.writer.pc = .idle ∧
      (∀ r, s.queue.readers r = none) ∧
      Writes es (List.replicate k m.contents) (List.replicate k m.contents) := by
  induction k with
  | zero => exact ⟨[], _, .nil _, rfl, fun r => rfl, .nil⟩
  | succ k ih =>
    obtain ⟨es, s, hrun, hpc, hnone, hwrites⟩ := ih
    have hlocked := (Located.of_typed hrun).slots.writer.own.locked
    rw [hpc] at hlocked
    obtain ⟨fs, hpath, hwrites'⟩ := write_typed (P := P) hpc hm hlocked
    refine ⟨es ++ fs, _, hrun.trans hpath, rfl, hnone, ?_⟩
    rw [List.replicate_succ']
    exact hwrites.append hwrites'

def TypedState.setLoading (s : TypedState Rid) (r : Rid) (x : Reader) (c : ReadCall) (m : Message)
    (p : Load) : TypedState Rid :=
  ⟨s.queue.setReader r { x with pc := .loading c m p }, s.size⟩

theorem load_step (hr : s.queue.readers r = some { x with pc := .loading c m p })
    (hl : load (s.queue.buffer x.head) m p = (m', p')) (hp' : ∀ seq, p' ≠ .returned seq) :
    (typed P T Rid).Step s ⟨.reader r .silent, p.bytes (s.queue.buffer x.head)⟩
      (s.setLoading r x c m' p') := by
  refine ⟨.step r, ?_⟩
  have hx : Reader.next P (s.queue.buffer x.head) { x with pc := .loading c m p } .step =
      some ({ x with pc := .loading c m' p' }, .silent) := by
    simp only [Reader.next, hl]
  simp only [typed, typedNext, TypedState.reader, hr, hx, Function.update_eq_self]
  rw [Reader.bytes_silent rfl]
  rfl

def Accesses (r : Rid) (es : List (TypedEvent Rid)) : Prop :=
  ∀ e ∈ es, e.queue = .reader r .silent ∧ (e.bytesOf r).isSequence = false

theorem load_copies {lo hi : ℕ} {rest : List (ℕ × ℕ)} (h : Tiles lo rest hi) (s : TypedState Rid)
    (r : Rid) (x : Reader) (c : ReadCall) (data : Memory) (n seq : ℕ) :
    ∃ es, (typed P T Rid).Path (s.setLoading r x c ⟨data, n⟩ (.copying seq rest)) es
      (s.setLoading r x c ⟨copy (lo, hi) (s.queue.buffer x.head).data data, n⟩ (.copying seq [])) ∧
      Accesses r es := by
  induction h generalizing data with
  | nil lo =>
    have hsame : copy (lo, lo) (s.queue.buffer x.head).data data = data := by
      funext i
      exact if_neg (by omega)
    rw [hsame]
    exact ⟨[], .nil _, fun e he => by cases he⟩
  | @cons lo mid hi rest hle hrest ih =>
    obtain ⟨es, hpath, haccesses⟩ := ih (copy (lo, mid) (s.queue.buffer x.head).data data)
    rw [copy_copy hle hrest.le_last.1] at hpath
    have hl : load (s.queue.buffer x.head) ⟨data, n⟩ (.copying seq ((lo, mid) :: rest)) =
      (⟨copy (lo, mid) (s.queue.buffer x.head).data data, n⟩, .copying seq rest) := rfl
    have hstep := load_step (P := P) (T := T) (r := r) (c := c)
      (s := s.setLoading r x c ⟨data, n⟩ (.copying seq ((lo, mid) :: rest)))
      (Function.update_self ..) hl (by simp)
    simp only [TypedState.setLoading, State.setReader, Function.update_idem] at hstep hpath ⊢
    refine ⟨_, (Machine.Path.single hstep).trans hpath, fun e he => ?_⟩
    rcases List.mem_append.mp he with he | he
    · rw [List.mem_singleton.mp he]
      exact ⟨rfl, by simp [TypedEvent.bytesOf, Load.bytes, Bytes.isSequence]⟩
    · exact haccesses e he

theorem attempt_path (s : TypedState Rid) (r : Rid) (x : Reader) (c : ReadCall) (m : Message) :
    ∃ e es, (typed P T Rid).Path (s.setLoading r x c m .loadSeq0) (e :: es) (s.setLoading r x c
      ⟨copy (0, (s.queue.buffer x.head).messageSize) (s.queue.buffer x.head).data m.data,
        (s.queue.buffer x.head).messageSize⟩
      (.copying (s.queue.buffer x.head).counter [])) ∧
      e.queue = .reader r .silent ∧ (e.bytesOf r).isSequence = true ∧ Accesses r es := by
  generalize hslot : s.queue.buffer x.head = slot
  have hcounter : load (s.queue.buffer x.head) m .loadSeq0 = (m, .messageSize slot.counter) := by
    rw [hslot]
    rfl
  have hsize : load (s.queue.buffer x.head) m (.messageSize slot.counter) =
      (⟨m.data, slot.messageSize⟩, .copying slot.counter (atomicMemcpy slot.messageSize)) := by
    rw [hslot]
    rfl
  have hfirst := load_step (P := P) (T := T) (r := r) (c := c)
    (s := s.setLoading r x c m .loadSeq0) (Function.update_self ..) hcounter (by simp)
  have hsecond := load_step (P := P) (T := T) (r := r) (c := c)
    (s := s.setLoading r x c m (.messageSize slot.counter)) (Function.update_self ..) hsize
    (by simp)
  obtain ⟨es, hcopies, haccesses⟩ := load_copies (P := P) (T := T)
    (tiles_atomicMemcpy slot.messageSize) s r x c m.data slot.messageSize slot.counter
  rw [hslot] at hcopies
  simp only [TypedState.setLoading, State.setReader, Function.update_idem] at hfirst hsecond hcopies ⊢
  refine ⟨_, _ :: es, ((Machine.Path.single hfirst).trans (.single hsecond)).trans hcopies, rfl, ?_,
    fun e he => ?_⟩
  · simp [TypedEvent.bytesOf, Load.bytes, Bytes.isSequence]
  · rcases List.mem_cons.mp he with rfl | he
    · exact ⟨rfl, by simp [TypedEvent.bytesOf, Load.bytes, Bytes.isSequence]⟩
    · exact haccesses e he

def Reads (r : Rid) (es : List (TypedEvent Rid)) : Prop :=
  ∀ e ∈ es, ∃ f, e.queue = .reader r f

theorem Accesses.reads (h : Accesses r es) : Reads r es := fun e he => ⟨.silent, (h e he).1⟩

omit [DecidableEq Rid] in
theorem Reads.begun_eq (h : Reads r fs) : begunTyped fs = [] := by
  rw [begunTyped, List.filterMap_eq_nil_iff]
  intro e he
  obtain ⟨f, hf⟩ := h e he
  rw [hf]
  rfl

omit [DecidableEq Rid] in
theorem Reads.written_eq (h : Reads r fs) : writtenTyped fs = [] := by
  rw [writtenTyped, written, List.filterMap_map, List.filterMap_eq_nil_iff]
  intro e he
  obtain ⟨f, hf⟩ := h e he
  rw [Function.comp_apply, hf]
  rfl

omit [DecidableEq Rid] in
theorem Reads.append (h : Reads r es) (h' : Reads r fs) : Reads r (es ++ fs) :=
  fun e he => (List.mem_append.mp he).elim (h e) (h' e)

omit [DecidableEq Rid] in
theorem Reads.cons {e : TypedEvent Rid} {f : ReaderEvent} (he : e.queue = .reader r f)
    (h : Reads r es) : Reads r (e :: es) := by
  intro e' he'
  rcases List.mem_cons.mp he' with rfl | he'
  · exact ⟨f, he⟩
  · exact h e' he'

theorem Accesses.beforeAttempt_eq (h : Accesses r fs) :
    beforeAttempt r (es ++ fs) = beforeAttempt r es := by
  induction fs using List.reverseRecOn with
  | nil => rw [List.append_nil]
  | append_singleton fs e ih =>
    rw [← List.append_assoc, beforeAttempt_snoc (h e (by simp)).2]
    exact ih fun f hf => h f (List.mem_append_left _ hf)

theorem brief_of_accesses {e : TypedEvent Rid} (he : (e.bytesOf r).isSequence = true)
    (h : Accesses r fs) : Brief P (es ++ e :: fs) r := by
  have hsame : writtenTyped (beforeAttempt r (es ++ e :: fs)) = writtenTyped (es ++ e :: fs) := by
    rw [List.append_cons, h.beforeAttempt_eq, beforeAttempt_sequence he,
      writtenTyped_append (es ++ [e]), h.reads.written_eq, List.append_nil]
  rw [Brief, hsame]
  exact Nat.lt_add_of_pos_right (by decide)

theorem getD_of_contents {n i : ℕ} {data : Memory} {m : List UInt8} (h : contents n data = m) :
    n = m.length ∧ (i < n → data i = m.getD i 0) := by
  subst h
  refine ⟨by simp [contents], fun hi => ?_⟩
  rw [contents_getD, if_pos hi]

variable (Rid) in
theorem full_laps (hm : m.size ∈ T.write) :
    ∃ es s data, (typed P T Rid).Run es s ∧ s.queue.writer = ⟨0, .idle⟩ ∧
      (∀ r, s.queue.readers r = none) ∧ s.queue.buffer 0 = ⟨data, m.contents.length, 0⟩ ∧
      (∀ i < m.contents.length, data i = m.contents.getD i 0) ∧
      Writes es (List.replicate (2 ^ 31 * P.getBufferSize) m.contents)
        (List.replicate (2 ^ 31 * P.getBufferSize) m.contents) := by
  obtain ⟨es, s, hrun, hpc, hnone, hwrites⟩ :=
    writes_run (P := P) Rid hm (2 ^ 31 * P.getBufferSize)
  have hn := getBufferSize_pos P
  have hslots := (Located.of_typed hrun).slots
  have hwritten : written (es.map TypedEvent.queue) = _ := hwrites.written
  rw [hwritten] at hslots
  have hlaps : laps P.getBufferSize 0 (2 ^ 31 * P.getBufferSize) = 2 ^ 31 := by
    have hself := laps_mod_self (k := 2 ^ 31 * P.getBufferSize) hn
    rwa [Nat.mul_mod_left, Nat.mul_div_cancel _ hn] at hself
  have htail : s.queue.writer.tail = 0 := by
    rw [hslots.writer.tail, List.length_replicate, Nat.mul_mod_left]
  have hown := hslots.writer.own
  rw [hpc, htail] at hown
  have hfree : isLocked (s.queue.buffer 0).counter = false := hown.locked
  have hcounter := hown.counter
  rw [Counts, hfree, List.length_replicate, hlaps] at hcounter
  have hlast := hown.last rfl (2 ^ 31 - 1) (by rw [List.length_replicate, hlaps]; decide)
  have hrounds : (2 ^ 31 - 1) * P.getBufferSize + 0 < 2 ^ 31 * P.getBufferSize := by
    rw [Nat.add_zero]
    exact (Nat.mul_lt_mul_right hn).mpr (by decide)
  rw [List.getElem?_replicate, if_pos hrounds, Option.some.injEq] at hlast
  refine ⟨es, s, (s.queue.buffer 0).data, hrun, ?_, hnone, ?_, fun i hi => ?_, hwrites⟩
  · cases hw : s.queue.writer
    rw [hw] at htail hpc
    dsimp only at htail hpc
    rw [htail, hpc]
  · have hsize := (getD_of_contents (i := 0) hlast.symm).1
    cases hslot : s.queue.buffer 0
    rw [hslot] at hsize hcounter
    dsimp only at hsize hcounter
    rw [hsize, hcounter]
    rfl
  · obtain ⟨hsize, hdata⟩ := getD_of_contents (i := i) hlast.symm
    exact hdata (hsize ▸ hi)

theorem finish_step {x' : Reader} {e : ReaderEvent}
    (hfree : isLocked (s.queue.buffer x.head).counter = false)
    (hf : x.finish P c m (s.queue.buffer x.head).counter = (x', e)) :
    (typed P T Rid).Step
      (s.setLoading r x c m (.copying (s.queue.buffer x.head).counter []))
      ⟨.reader r e, Reader.bytes (s.queue.buffer x.head) (s.size r)
        { x with pc := .loading c m (.copying (s.queue.buffer x.head).counter []) } e⟩
      ⟨s.queue.setReader r x', s.size⟩ := by
  refine ⟨.step r, ?_⟩
  have hfinish : Reader.finish P
      { x with pc := .loading c m (.copying (s.queue.buffer x.head).counter []) } c m
      (s.queue.buffer x.head).counter = (x', e) := by
    rw [← hf]
    cases c <;> rfl
  simp [typed, typedNext, TypedState.reader, TypedState.setLoading, State.setReader, Reader.next,
    load, hfree, hfinish]

theorem waits_path {n : ℕ} (hn : n ∈ T.read) (hr : s.queue.readers r = none)
    (hcounter : (s.queue.buffer 0).counter = 0) :
    ∃ fs, (typed P T Rid).Path s fs
      (TypedState.setLoading ⟨s.queue, Function.update s.size r (some n)⟩ r ⟨0, 2, .idle⟩ .read
        ⟨copy (0, (s.queue.buffer 0).messageSize) (s.queue.buffer 0).data freshMessage.data,
          (s.queue.buffer 0).messageSize⟩ .loadSeq0) ∧ Reads r fs := by
  have hcall : (typed P T Rid).Path s
      [⟨.reader r .created, .none⟩, ⟨.reader r .silent, .called⟩]
      (TypedState.setLoading ⟨s.queue, Function.update s.size r (some n)⟩ r ⟨0, 2, .idle⟩ .read
        freshMessage .loadSeq0) := by
    refine Machine.Path.of_exec [.create r, .callTyped r .read n] ?_
    simp [Machine.exec, typed, typedNext, next, hr, hn, TypedState.reader, State.setReader,
      Reader.next, TypedState.setLoading]
  obtain ⟨e, fs, hattempt, he, -, haccesses⟩ := attempt_path (P := P) (T := T)
    ⟨s.queue, Function.update s.size r (some n)⟩ r ⟨0, 2, .idle⟩ .read freshMessage
  have hnegative : int32 0 - int32 2 = -2 := by decide
  have hwait := finish_step (P := P) (T := T) (r := r) (c := .read) (x := ⟨0, 2, .idle⟩)
    (s := ⟨s.queue, Function.update s.size r (some n)⟩)
    (m := ⟨copy (0, (s.queue.buffer 0).messageSize) (s.queue.buffer 0).data freshMessage.data,
      (s.queue.buffer 0).messageSize⟩) (by dsimp only; rw [hcounter]; exact isLocked_zero)
    (by simp [Reader.finish, hcounter, hnegative]; exact ⟨rfl, rfl⟩)
  refine ⟨_, (hcall.trans hattempt).snoc hwait, ?_⟩
  refine Reads.append (Reads.append ?_ (haccesses.reads.cons he)) ?_
  · exact Reads.cons rfl (Reads.cons rfl fun e he => by cases he)
  · exact Reads.cons rfl fun e he => by cases he

theorem delivers_path {n : ℕ} (hsize : s.size r = some n)
    (hcounter : (s.queue.buffer 0).counter = 2) :
    ∃ e fs d u u' x, (typed P T Rid).Path (s.setLoading r ⟨0, 2, .idle⟩ .read m .loadSeq0)
        (e :: fs) u ∧
      (typed P T Rid).Step u ⟨.reader r (.read d), .got n (contents n
        (copy (0, (s.queue.buffer 0).messageSize) (s.queue.buffer 0).data m.data))⟩ u' ∧
      u.queue.readers r = some x ∧ x.head = 0 ∧
      e.queue = .reader r .silent ∧ (e.bytesOf r).isSequence = true ∧ Accesses r fs := by
  obtain ⟨e, fs, hattempt, he, hsequence, haccesses⟩ := attempt_path (P := P) (T := T) s r
    ⟨0, 2, .idle⟩ .read m
  have hread := finish_step (P := P) (T := T) (r := r) (c := .read) (x := ⟨0, 2, .idle⟩) (s := s)
    (m := ⟨copy (0, (s.queue.buffer 0).messageSize) (s.queue.buffer 0).data m.data,
      (s.queue.buffer 0).messageSize⟩) (by dsimp only; rw [hcounter]; exact isLocked_two)
    (by simp [Reader.finish, hcounter]; exact ⟨rfl, rfl⟩)
  simp only [Reader.bytes, hsize] at hread
  exact ⟨e, fs, _, _, _, _, hattempt, hread, Function.update_self .., rfl, he, hsequence,
    haccesses⟩

theorem copy_of_lt {k i : ℕ} {src dest : Memory} (hi : i < k) : copy (0, k) src dest i = src i :=
  if_pos ⟨Nat.zero_le i, hi⟩

theorem copy_of_ge {k i : ℕ} {src dest : Memory} (hi : k ≤ i) : copy (0, k) src dest i = dest i :=
  if_neg fun h => Nat.not_lt.mpr hi h.2

theorem held_last {n k : ℕ} (hn : 0 < n) (m d : List UInt8) :
    held n 0 (List.replicate (k * n) m ++ [d]) = some d := by
  have hself := laps_succ_self (k := k * n) hn
  rw [Nat.mul_mod_left, Nat.mul_div_cancel _ hn] at hself
  rw [BoundedMulticastQueue.held, List.length_append, List.length_replicate, List.length_singleton,
    hself]
  simp

omit [DecidableEq Rid] in
theorem messages_of_parts {es₁ es₂ es₃ es₄ : List (TypedEvent Rid)} {ms ns : List (List UInt8)}
    (h₁ : Writes es₁ ms ms) (h₂ : Reads r es₂) (h₃ : Writes es₃ ns ns) (h₄ : Reads r es₄) :
    begunTyped (es₁ ++ es₂ ++ es₃ ++ es₄) = ms ++ ns ∧
      writtenTyped (es₁ ++ es₂ ++ es₃ ++ es₄) = ms ++ ns := by
  constructor
  · rw [begunTyped_append, begunTyped_append, begunTyped_append, h₁.begun, h₂.begun_eq, h₃.begun,
      h₄.begun_eq, List.append_nil, List.append_nil]
  · rw [writtenTyped_append, writtenTyped_append, writtenTyped_append, h₁.written, h₂.written_eq,
      h₃.written, h₄.written_eq, List.append_nil, List.append_nil]

/-- Two messages of which the second, when it is delivered, shows the end of the first. -/
theorem exists_leftover (P : Params) (r : Rid) (m d : List UInt8) (n : ℕ) :
    ∃ T es object, (∀ x ∈ begunTyped es, x = m ∨ x = d) ∧
      ReadDelivers P T es r n d object ∧ Brief P es r ∧
      ∀ i, d.length ≤ i → i < n → object.getD i 0 = m.getD i 0 := by
  have hpos := getBufferSize_pos P
  obtain ⟨es₁, s₁, data, hrun₁, hwriter₁, hnone₁, hslot₁, hdata, hwrites₁⟩ :=
    full_laps (P := P) (T := ⟨[m.length, d.length], [n]⟩) Rid (m := .ofBytes m)
      List.mem_cons_self
  rw [contents_ofBytes] at hslot₁ hdata hwrites₁
  obtain ⟨es₂, hpath₂, hreads₂⟩ := waits_path (P := P) (T := ⟨[m.length, d.length], [n]⟩)
    (s := s₁) (r := r) (n := n) (List.mem_singleton.mpr rfl) (hnone₁ r)
    (congrArg Slot.counter hslot₁)
  rw [hslot₁] at hpath₂
  obtain ⟨es₃, hpath₃, hwrites₃⟩ := write_typed (P := P) (T := ⟨[m.length, d.length], [n]⟩)
    (s := TypedState.setLoading ⟨s₁.queue, Function.update s₁.size r (some n)⟩ r ⟨0, 2, .idle⟩ .read
      ⟨copy (0, m.length) data freshMessage.data, m.length⟩ .loadSeq0) (m := .ofBytes d)
    (by simp [TypedState.setLoading, State.setReader, hwriter₁]) (by simp [Message.ofBytes])
    (by simp [TypedState.setLoading, State.setReader, hwriter₁, hslot₁, isLocked_zero])
  rw [contents_ofBytes] at hwrites₃
  change (typed P _ Rid).Path _ es₃ (TypedState.setLoading (TypedState.setWriter
    ⟨s₁.queue, Function.update s₁.size r (some n)⟩
    ⟨copy (0, d.length) (Message.ofBytes d).data (s₁.queue.buffer s₁.queue.writer.tail).data,
      d.length, unlock (s₁.queue.buffer s₁.queue.writer.tail).counter⟩
    ⟨(s₁.queue.writer.tail + 1) &&& P.getIndexMask, .idle⟩) r ⟨0, 2, .idle⟩ .read _ .loadSeq0)
    at hpath₃
  rw [hwriter₁, hslot₁] at hpath₃
  obtain ⟨e, fs, d', u, u', x, hpath₄, hstep, hx, hhead, he, hsequence, haccesses⟩ :=
    delivers_path (P := P) (T := ⟨[m.length, d.length], [n]⟩) (r := r) (n := n)
      (m := ⟨copy (0, m.length) data freshMessage.data, m.length⟩)
      (s := TypedState.setWriter ⟨s₁.queue, Function.update s₁.size r (some n)⟩
        ⟨copy (0, d.length) (Message.ofBytes d).data data, d.length, unlock 0⟩
        ⟨(0 + 1) &&& P.getIndexMask, .idle⟩)
      (Function.update_self ..) (by simp [TypedState.setWriter, hwriter₁, unlock, counterSize])
  have hrun := ((hrun₁.trans hpath₂).trans hpath₃).trans hpath₄
  obtain ⟨hbegun, hwritten⟩ := messages_of_parts hwrites₁ hreads₂ hwrites₃ (haccesses.reads.cons he)
  have hslot : slotOf P (es₁ ++ es₂ ++ es₃ ++ e :: fs) r = 0 :=
    ((Located.of_typed hrun).readers r x hx).head.symm.trans hhead
  refine ⟨_, _, _, fun y hy => ?_, ⟨⟨d', u', hrun.snoc hstep⟩, ?_⟩,
    brief_of_accesses hsequence haccesses, fun i hle hlt => ?_⟩
  · rw [hbegun, List.mem_append, List.mem_replicate, List.mem_singleton] at hy
    exact hy.imp_left And.right
  · rw [hslot, hwritten]
    exact held_last hpos m d
  · rw [contents_getD, if_pos hlt]
    simp only [TypedState.setWriter, hwriter₁, Function.update_self]
    rw [copy_of_ge hle]
    rcases Nat.lt_or_ge i m.length with hi | hi
    · rw [copy_of_lt hi, hdata i hi]
    · rw [copy_of_ge hi, List.getD_eq_default _ _ hi]
      rfl

end

theorem fit_getD {size i : ℕ} {d : List UInt8} (hle : d.length ≤ i) : (fit size d).getD i 0 = 0 := by
  rw [fit, contents_getD, List.getD_eq_default _ _ hle, ite_self]

/-- What a `Read` of `size` bytes returns depends on its message only just if no message has a
byte other than zero, among the first `size` ones, beyond the end of another. -/
theorem dependsOnMessage_iff (P : Params) {Rid : Type*} [DecidableEq Rid] (r : Rid)
    (M : Set (List UInt8)) (size : ℕ) :
    DependsOnMessage P Rid M size ↔
      ∀ m ∈ M, ∀ d ∈ M, ∀ i, d.length ≤ i → i < size → m.getD i 0 = 0 := by
  refine ⟨fun h m hm d hd i hle hlt => ?_, dependsOnMessage_of_zero⟩
  obtain ⟨T, es, object, hbegun, hdelivers, hbrief, hshows⟩ := exists_leftover P r m d size
  have hM : ∀ x ∈ begunTyped es, x ∈ M := by
    intro x hx
    rcases hbegun x hx with rfl | rfl
    · exact hm
    · exact hd
  have hfit := (h T T es es r r d object object hM hM hdelivers hdelivers hbrief hbrief).2
  rw [← hshows i hle hlt, hfit, fit_getD hle]

end LockFree.BoundedMulticastQueue
