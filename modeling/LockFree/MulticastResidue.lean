import Mathlib.Data.List.DropRight
import LockFree.MulticastTypes

/-!
# What a typed Read returns

One message is used for all attempts of a call, and an attempt overwrites as many bytes as
the size it reads. What an earlier attempt copied beyond the size of the message that is
delivered in the end stays there, and `Get` copies it along. It is a byte of another
message, so nothing shows when none has anything there.
-/

namespace LockFree.BoundedMulticastQueue
open AtomicMemcpy SeqLock RingLaps TransitionRuns

variable {P : Params} {T : Types} {slot slot' : Slot} {x x' : Reader}

def fit (size : ℕ) (d : List UInt8) : List UInt8 := contents size fun i => d.getD i 0

def held (n i : ℕ) (ws : List (List UInt8)) : Option (List UInt8) :=
  match laps n i ws.length with
  | 0 => none
  | q + 1 => ws[q * n + i]?

def Bytes.isSequence : Bytes → Bool
  | .sequence => true
  | _ => false

section
variable {Rid : Type*} [DecidableEq Rid]

def TypedEvent.bytesOf (r : Rid) (e : TypedEvent Rid) : Bytes :=
  match e.queue with
  | .reader u _ => if u = r then e.bytes else .none
  | _ => .none

def beforeAttempt (r : Rid) (es : List (TypedEvent Rid)) : List (TypedEvent Rid) :=
  es.rdropWhile fun e => !(e.bytesOf r).isSequence

def writtenTyped (es : List (TypedEvent Rid)) : List (List UInt8) :=
  written (es.map TypedEvent.queue)

def begunTyped (es : List (TypedEvent Rid)) : List (List UInt8) :=
  es.filterMap fun e => e.queue.writing?

def positionTyped (es : List (TypedEvent Rid)) : Rid → ℕ := position (es.map TypedEvent.queue)

def slotOf (P : Params) (es : List (TypedEvent Rid)) (r : Rid) : ℕ :=
  positionTyped es r % P.getBufferSize

/-- After the events `es` of a run a `Read<T>` with `size` bytes returns true and `object`; the
message it delivers is `d`. -/
structure ReadDelivers (P : Params) (T : Types) (es : List (TypedEvent Rid)) (r : Rid) (size : ℕ)
    (d object : List UInt8) : Prop where
  run : ∃ m s, (typed P T Rid).Run (es ++ [⟨.reader r (.read m), .got size object⟩]) s
  held : held P.getBufferSize (slotOf P es r) (writtenTyped es) = some d

/-- During the last attempt the counter of the slot does not go all the way round. -/
def Brief (P : Params) (es : List (TypedEvent Rid)) (r : Rid) : Prop :=
  laps P.getBufferSize (slotOf P es r) (writtenTyped es).length <
    laps P.getBufferSize (slotOf P es r) (writtenTyped (beforeAttempt r es)).length + 2 ^ 31

/-- Where only messages of `M` are written, what a `Read` of `size` bytes returns depends on
the message that it delivers only. -/
def DependsOnMessage (P : Params) (Rid : Type*) [DecidableEq Rid] (M : Set (List UInt8))
    (size : ℕ) : Prop :=
  ∀ (T T' : Types) (es es' : List (TypedEvent Rid)) (r r' : Rid) (d object object' : List UInt8),
    (∀ m ∈ begunTyped es, m ∈ M) → (∀ m ∈ begunTyped es', m ∈ M) →
    ReadDelivers P T es r size d object → ReadDelivers P T' es' r' size d object' →
    Brief P es r → Brief P es' r' → object = object' ∧ object = fit size d

variable {es : List (TypedEvent Rid)} {e : TypedEvent Rid} {r : Rid} {s s' : TypedState Rid}

omit [DecidableEq Rid] in
theorem writtenTyped_snoc (e : TypedEvent Rid) :
    writtenTyped (es ++ [e]) = writtenTyped es ++ e.queue.written?.toList := by
  rw [writtenTyped, List.map_append]
  exact written_snoc _

omit [DecidableEq Rid] in
theorem begunTyped_snoc (e : TypedEvent Rid) :
    begunTyped (es ++ [e]) = begunTyped es ++ e.queue.writing?.toList := by
  rw [begunTyped, List.filterMap_append]
  cases h : e.queue.writing? <;> simp [begunTyped, h]

omit [DecidableEq Rid] in
theorem begunTyped_subset (es : List (TypedEvent Rid)) (e : TypedEvent Rid) :
    begunTyped es ⊆ begunTyped (es ++ [e]) := by
  rw [begunTyped_snoc]
  exact List.subset_append_left _ _

theorem beforeAttempt_sequence (he : (e.bytesOf r).isSequence = true) :
    beforeAttempt r (es ++ [e]) = es ++ [e] := by
  apply List.rdropWhile_concat_neg _ _ _
  simp [he]

theorem beforeAttempt_snoc (he : (e.bytesOf r).isSequence = false) :
    beforeAttempt r (es ++ [e]) = beforeAttempt r es := by
  apply List.rdropWhile_concat_pos _ _ _
  simp [he]

def Sourced (ms : List (List UInt8)) (data : Memory) : Prop :=
  ∀ i, data i = 0 ∨ ∃ m ∈ ms, data i = m.getD i 0

variable {ms ms' : List (List UInt8)} {data dest : Memory}

theorem Sourced.mono (h : Sourced ms data) (hsub : ms ⊆ ms') : Sourced ms' data :=
  fun i => (h i).imp_right fun ⟨m, hm, hbyte⟩ => ⟨m, hsub hm, hbyte⟩

theorem Sourced.copy {access : ℕ × ℕ}
    (h : ∀ i < access.2, data i = 0 ∨ ∃ m ∈ ms, data i = m.getD i 0) (hdest : Sourced ms dest) :
    Sourced ms (copy access data dest) := by
  intro i
  rw [AtomicMemcpy.copy]
  split
  · rename_i hi
    exact h i hi.2
  · exact hdest i

theorem contents_getD {size i : ℕ} :
    (contents size data).getD i 0 = if i < size then data i else 0 := by
  rw [contents, List.getD_eq_getElem?_getD, List.getElem?_map]
  split
  · rename_i hi
    rw [List.getElem?_range hi]
    rfl
  · rename_i hi
    rw [List.getElem?_eq_none (by simpa using hi)]
    rfl

def Store.desired : Store → Option Message
  | .idle => none
  | .locking desired _ | .copying desired _ _ | .unlocking desired _ => some desired

theorem store_sourced {w w' : Writer} {spurious : Bool} {e : WriterEvent} {k : ℕ}
    (hslot : Sourced ms slot.data) (hw : ∀ m, w.pc.desired = some m → m.contents ∈ ms)
    (hprogress : w.pc.Progress k slot) (hs : store P slot w spurious = some (slot', w', e)) :
    Sourced ms slot'.data ∧ (∀ m, w'.pc.desired = some m → m.contents ∈ ms) ∧
      ∀ m, e.written? = some m → m ∈ ms := by
  obtain ⟨tail, pc⟩ := w
  cases pc with
  | idle => cases hs
  | locking desired p =>
    simp only [store] at hs
    split at hs <;> cases hs
    · exact ⟨hslot, fun m hm => hw m hm, fun m hm => by cases hm⟩
    · exact ⟨hslot, fun m hm => hw m hm, fun m hm => by cases hm⟩
  | copying desired seq rest =>
    obtain ⟨-, k', htiles, -⟩ := hprogress
    cases rest with
    | nil =>
      cases hs
      exact ⟨hslot, fun m hm => hw m hm, fun m hm => by cases hm⟩
    | cons access rest =>
      cases hs
      refine ⟨.copy (fun i hi => .inr ⟨desired.contents, hw _ rfl, ?_⟩) hslot, fun m hm => hw m hm,
        fun m hm => by cases hm⟩
      have hle := htiles.le_last.2 access List.mem_cons_self
      rw [Message.contents, contents_getD, if_pos (by omega)]
  | unlocking desired seq =>
    cases hs
    refine ⟨hslot, fun m hm => (by cases hm), fun m hm => ?_⟩
    cases hm
    exact hw _ rfl

structure Provenance (es : List (TypedEvent Rid)) (s : TypedState Rid) : Prop where
  slots : ∀ i, Sourced (begunTyped es) (s.queue.buffer i).data
  desired : ∀ m, s.queue.writer.pc.desired = some m → m.contents ∈ begunTyped es
  written : ∀ m ∈ writtenTyped es, m ∈ begunTyped es

omit [DecidableEq Rid] in
theorem Provenance.keep (h : Provenance es s) (hslots : s'.queue.buffer = s.queue.buffer)
    (hwriter : s'.queue.writer = s.queue.writer)
    (hwritten : writtenTyped (es ++ [e]) = writtenTyped es) : Provenance (es ++ [e]) s' where
  slots i := hslots ▸ (h.slots i).mono (begunTyped_subset es e)
  desired m hm := begunTyped_subset es e (h.desired m (hwriter ▸ hm))
  written m hm := begunTyped_subset es e (h.written m (hwritten ▸ hm))

omit [DecidableEq Rid] in
theorem writtenTyped_reader {u : Rid} {e : ReaderEvent} {bytes : Bytes} :
    writtenTyped (es ++ [⟨.reader u e, bytes⟩]) = writtenTyped es := by
  rw [writtenTyped_snoc]
  exact List.append_nil _

theorem Provenance.moves (h : Provenance es s) (hi : Located P (es.map TypedEvent.queue) s.queue)
    (hm : TypedMoves P T s s' e) : Provenance (es ++ [e]) s' := by
  cases hm with
  | @write desired hpc _ =>
    have hsub := begunTyped_subset es ⟨.writer (.writing desired.contents), .none⟩
    refine ⟨fun i => (h.slots i).mono hsub, fun m hm => ?_, fun m hm => ?_⟩
    · cases hm
      rw [begunTyped_snoc]
      exact List.mem_append_right _ (List.mem_singleton.mpr rfl)
    · rw [writtenTyped_snoc, List.mem_append] at hm
      exact hsub (h.written m (hm.resolve_right List.not_mem_nil))
  | @store spurious slot w e hstore =>
    obtain ⟨hslot, hdesired, hwritten⟩ := store_sourced (h.slots _) h.desired
      hi.slots.writer.progress hstore
    have hsub := begunTyped_subset es ⟨.writer e, s.queue.writer.pc.bytes⟩
    refine ⟨fun i => ?_, fun m hm => hsub (hdesired m hm), fun m hm => ?_⟩
    · by_cases hit : i = s.queue.writer.tail
      · subst hit
        dsimp only
        rw [Function.update_self]
        exact hslot.mono hsub
      · dsimp only
        rw [Function.update_of_ne hit]
        exact (h.slots i).mono hsub
    · rw [writtenTyped_snoc, List.mem_append, Option.mem_toList] at hm
      rcases hm with hm | hm
      · exact hsub (h.written m hm)
      · refine hsub (hwritten m ?_)
        cases e <;> exact hm
  | create | reader => exact h.keep rfl rfl writtenTyped_reader
  | copy => exact h.keep rfl rfl ((writtenTyped_snoc _).trans (List.append_nil _))

theorem Provenance.of_run (h : (typed P T Rid).Run es s) : Provenance es s := by
  apply h.invariant (I := Provenance)
  · exact ⟨fun _ _ => .inl rfl, fun m hm => (by cases hm), fun m hm => by cases hm⟩
  · exact fun es s e s' hr hi hs => hi.moves (.of_typed hr) (.of_step hs)

structure Attempts (P : Params) (es : List (TypedEvent Rid)) (r : Rid) (slot : Slot)
    (size : Option ℕ) (head : ℕ) (m : Message) (p : Load) : Prop where
  sourced : size ≠ none → Sourced (begunTyped es) m.data
  reads : p.ReadsSince
    (laps P.getBufferSize head (writtenTyped (beforeAttempt r es)).length)
    (laps P.getBufferSize head (writtenTyped es).length) slot m

variable {size : Option ℕ} {head : ℕ} {m m' : Message} {p p' : Load}

theorem Attempts.mono (h : Attempts P es r slot size head m p) (he : e.bytesOf r = .none)
    (hle : laps P.getBufferSize head (writtenTyped es).length ≤
      laps P.getBufferSize head (writtenTyped (es ++ [e])).length)
    (hsame : laps P.getBufferSize head (writtenTyped (es ++ [e])).length =
        laps P.getBufferSize head (writtenTyped es).length →
      isLocked slot'.counter = false → slot' = slot) :
    Attempts P (es ++ [e]) r slot' size head m p := by
  refine ⟨fun hsize => (h.sourced hsize).mono (begunTyped_subset es e), ?_⟩
  rw [beforeAttempt_snoc (by rw [he]; rfl)]
  exact h.reads.mono hle hsame

theorem Attempts.call (hm : ∀ n, size = some n → m = freshMessage) :
    Attempts P (es ++ [e]) r slot size head m .loadSeq0 := by
  refine ⟨fun hsize i => .inl ?_, trivial⟩
  obtain ⟨n, hn⟩ := Option.ne_none_iff_exists'.mp hsize
  rw [hm n hn]
  rfl

def Load.bytes (slot : Slot) : Load → Bytes
  | .loadSeq0 => .sequence
  | .copying _ (access :: _) => .loaded access slot.data
  | _ => .none

theorem load_sourced (hslot : Sourced ms slot.data) (hm : Sourced ms m.data)
    (hl : load slot m p = (m', p')) : Sourced ms m'.data := by
  cases p with
  | loadSeq0 | messageSize | returned =>
    cases hl
    exact hm
  | copying seq0 rest =>
    cases rest with
    | cons access rest =>
      cases hl
      exact .copy (fun i _ => hslot i) hm
    | nil =>
      simp only [BoundedMulticastQueue.load] at hl
      split at hl <;> cases hl <;> exact hm

theorem Attempts.load (h : Attempts P es r slot size head m p)
    (hslot : Sourced (begunTyped es) slot.data)
    (hc : Counts slot.counter (laps P.getBufferSize head (writtenTyped es).length))
    (hl : load slot m p = (m', p')) (hp' : ∀ seq, p' ≠ .returned seq)
    (he : e.bytesOf r = p.bytes slot) (hw : writtenTyped (es ++ [e]) = writtenTyped es) :
    Attempts P (es ++ [e]) r slot size head m' p' := by
  have hreads := (h.reads.load hc hl).resolve_right fun hreturned => hp' _ hreturned.1
  refine ⟨fun hsize => ?_, ?_⟩
  · exact (load_sourced hslot (h.sourced hsize) hl).mono (begunTyped_subset es e)
  · rw [hw]
    cases p with
    | loadSeq0 =>
      rw [beforeAttempt_sequence (by rw [he]; rfl), hw]
      exact hreads
    | messageSize | returned =>
      rw [beforeAttempt_snoc (by rw [he]; rfl)]
      exact hreads
    | copying seq0 rest =>
      rw [beforeAttempt_snoc (by rw [he]; cases rest <;> rfl)]
      exact hreads

theorem Attempts.retry (h : Attempts P es r slot size head m p) :
    Attempts P (es ++ [e]) r slot size head m .loadSeq0 :=
  ⟨fun hsize => (h.sourced hsize).mono (begunTyped_subset es e), trivial⟩

theorem Reader.finish_loading {c c' : ReadCall} {seq : ℕ} {e : ReaderEvent}
    (hf : x.finish P c m seq = (x', e)) (hpc : x'.pc = .loading c' m' p) :
    e = .silent ∧ x'.head = x.head ∧ m' = m ∧ p = .loadSeq0 := by
  simp only [Reader.finish] at hf
  generalize int32 seq - int32 x.expectedSeq = result at hf
  cases c with
  | tryRead =>
    cases hf
    dsimp only at hpc
    split at hpc <;> cases hpc
  | read =>
    dsimp only at hf
    split at hf
    · cases hf
      cases hpc
    · split at hf <;> cases hf <;> cases hpc
      exact ⟨rfl, rfl, rfl, rfl⟩

theorem Reader.bytes_silent {c : ReadCall} (hpc : x.pc = .loading c m p) :
    x.bytes slot size .silent = p.bytes slot := by
  rw [Reader.bytes, hpc]
  cases p with
  | copying seq0 rest => cases rest <;> rfl
  | loadSeq0 | messageSize | returned => rfl

def Tracks (P : Params) (es : List (TypedEvent Rid)) (s : TypedState Rid) : Prop :=
  ∀ r x c m p, s.queue.readers r = some x → x.pc = .loading c m p →
    Attempts P es r (s.queue.buffer x.head) (s.size r) x.head m p

theorem bytesOf_other {u : Rid} {e : ReaderEvent} {bytes : Bytes} (hu : u ≠ r) :
    (⟨.reader u e, bytes⟩ : TypedEvent Rid).bytesOf r = .none :=
  if_neg hu

theorem store_same {ws : List (List UInt8)} {buffer : ℕ → Slot} {w w' : Writer} {spurious : Bool}
    {e : WriterEvent} (h : Inv P ws buffer w)
    (hs : store P (buffer w.tail) w spurious = some (slot', w', e)) {i : ℕ}
    (hi : i < P.getBufferSize) :
    laps P.getBufferSize i ws.length ≤
        laps P.getBufferSize i (ws ++ e.written?.toList).length ∧
      (laps P.getBufferSize i (ws ++ e.written?.toList).length =
          laps P.getBufferSize i ws.length →
        isLocked (Function.update buffer w.tail slot' i).counter = false →
        Function.update buffer w.tail slot' i = buffer i) := by
  have hle : ws.length ≤ (ws ++ e.written?.toList).length := by
    rw [List.length_append]
    exact Nat.le_add_right _ _
  refine ⟨laps_le_laps hi hle, fun hlaps hfree => ?_⟩
  by_cases hit : i = w.tail
  · subst hit
    rw [Function.update_self] at hfree ⊢
    rcases h.writer.store hs with ⟨-, -, -, -, hsame⟩ | ⟨m, rfl, -⟩
    · exact hsame hfree
    · have hlength : (ws ++ (WriterEvent.written m).written?.toList).length = ws.length + 1 :=
        List.length_append
      rw [hlength, h.writer.tail, laps_succ_self (getBufferSize_pos P),
        laps_mod_self (getBufferSize_pos P)] at hlaps
      omega
  · exact Function.update_of_ne hit _ _

theorem Tracks.setReader {u : Rid} (h : Tracks P es s)
    (he : ∀ r, r ≠ u → e.bytesOf r = .none) (hw : writtenTyped (es ++ [e]) = writtenTyped es)
    (hx : ∀ c m p, x.pc = .loading c m p →
      Attempts P (es ++ [e]) u (s.queue.buffer x.head) size x.head m p) :
    Tracks P (es ++ [e]) ⟨s.queue.setReader u x, Function.update s.size u size⟩ := by
  intro r y c m p hy hpc
  dsimp only [State.setReader] at hy ⊢
  by_cases hr : r = u
  · subst hr
    rw [Function.update_self] at hy ⊢
    cases hy
    exact hx c m p hpc
  · rw [Function.update_of_ne hr] at hy ⊢
    refine (h r y c m p hy hpc).mono (he r hr) ?_ fun _ _ => rfl
    rw [hw]

theorem Tracks.own {c : ReaderChoice} {size : Option ℕ} {e : ReaderEvent} {bytes : Bytes}
    (h : Tracks P es s) (hi : Located P (es.map TypedEvent.queue) s.queue) (hs : Provenance es s)
    (hr : s.queue.readers r = some x) (hx : x.next P (s.queue.buffer x.head) c = some (x', e))
    (htouches : Touches T (s.queue.buffer x.head) x (s.size r) c size e bytes) :
    ∀ c m p, x'.pc = .loading c m p →
      Attempts P (es ++ [⟨.reader r e, bytes⟩]) r (s.queue.buffer x'.head) size x'.head m p := by
  intro c' m' p' hpc'
  have hself : (⟨.reader r e, bytes⟩ : TypedEvent Rid).bytesOf r = bytes := if_pos rfl
  cases htouches with
  | @call c m size' e hcall =>
    cases hpc : x.pc with
    | loading => simp only [Reader.next, hpc, reduceCtorEq] at hx
    | idle | ready =>
      simp only [Reader.next, hpc] at hx
      cases hx
      cases hpc'
      exact .call fun n hn => (hcall n hn).2
  | update =>
    cases hpc : x.pc with
    | idle | loading => simp only [Reader.next, hpc, reduceCtorEq] at hx
    | ready =>
      simp only [Reader.next, hpc] at hx
      cases hx
      cases hpc'
  | step =>
    cases hpc : x.pc with
    | idle | ready => simp only [Reader.next, hpc, reduceCtorEq] at hx
    | loading c m p =>
      have hattempts := h r x c m p hr hpc
      have hruns : (Reading.loading c m p).Runs := hpc ▸ (hi.readers r x hr).runs
      cases hl : load (s.queue.buffer x.head) m p with
      | mk m₁ p₁ =>
        simp only [Reader.next, hpc, hl] at hx
        cases p₁ with
        | returned seq =>
          obtain ⟨rfl, rfl, -, -⟩ := load_returned hruns hl
          obtain ⟨rfl, hhead, rfl, rfl⟩ := Reader.finish_loading (Option.some.inj hx) hpc'
          rw [Reader.bytes_silent hpc] at hself ⊢
          rw [hhead]
          exact hattempts.retry
        | loadSeq0 | messageSize | copying =>
          have hlt : x.head < P.getBufferSize := by
            rw [(hi.readers r x hr).head]
            exact Nat.mod_lt _ (getBufferSize_pos P)
          obtain ⟨busy, hslot⟩ := hi.slots.exists_slot hlt
          cases hx
          cases hpc'
          rw [Reader.bytes_silent hpc] at hself ⊢
          exact hattempts.load (hs.slots _) hslot.counter hl (by simp) hself writtenTyped_reader

theorem Tracks.moves (h : Tracks P es s) (hi : Located P (es.map TypedEvent.queue) s.queue)
    (hs : Provenance es s) (hm : TypedMoves P T s s' e) : Tracks P (es ++ [e]) s' := by
  cases hm with
  | @write desired _ _ =>
    intro r x c m p hr hpc
    have hw : writtenTyped (es ++ [⟨.writer (.writing desired.contents), .none⟩]) =
        writtenTyped es := (writtenTyped_snoc _).trans (List.append_nil _)
    refine (h r x c m p hr hpc).mono rfl ?_ fun _ _ => rfl
    rw [hw]
  | @store spurious slot w e hstore =>
    intro r x c m p hr hpc
    have hlt : x.head < P.getBufferSize := by
      rw [(hi.readers r x hr).head]
      exact Nat.mod_lt _ (getBufferSize_pos P)
    obtain ⟨hle, hsame⟩ := store_same hi.slots hstore hlt
    have hw : writtenTyped (es ++ [⟨.writer e, s.queue.writer.pc.bytes⟩]) =
        writtenTyped es ++ e.written?.toList := by
      rw [writtenTyped_snoc]
      cases e <;> rfl
    refine (h r x c m p hr hpc).mono rfl ?_ ?_
    · rw [hw]
      exact hle
    · rw [hw]
      exact hsame
  | @create r hr =>
    have hset : Tracks P (es ++ [⟨.reader r .created, .none⟩])
        ⟨s.queue.setReader r ⟨0, 2, .idle⟩, Function.update s.size r (s.size r)⟩ :=
      h.setReader (fun _ hne => bytesOf_other (Ne.symm hne)) writtenTyped_reader nofun
    rwa [Function.update_eq_self] at hset
  | @copy r other x hr hother =>
    have hset : Tracks P (es ++ [⟨.copied r other, .none⟩])
        ⟨s.queue.setReader r { x with pc := .idle }, Function.update s.size r (s.size r)⟩ :=
      h.setReader (fun _ _ => rfl) ((writtenTyped_snoc _).trans (List.append_nil _)) nofun
    rwa [Function.update_eq_self] at hset
  | reader hr hx htouches =>
    exact h.setReader (fun _ hne => bytesOf_other (Ne.symm hne)) writtenTyped_reader
      (h.own hi hs hr hx htouches)

theorem Tracks.of_run (h : (typed P T Rid).Run es s) : Tracks P es s := by
  apply h.invariant (I := fun es s => Tracks P es s)
  · intro r x c m p hr
    cases hr
  · exact fun es s e s' hr hi hs => hi.moves (.of_typed hr) (.of_run hr) (.of_step hs)

theorem contents_eq_fit {size n : ℕ} (h : ∀ i, n ≤ i → i < size → data i = 0) :
    contents size data = fit size (contents n data) := by
  rw [fit]
  apply contents_congr
  intro i hi
  rw [contents_getD]
  split
  · rfl
  · exact h i (Nat.le_of_not_lt ‹_›) hi

theorem Reader.bytes_got {size : Option ℕ} {n : ℕ} {object : List UInt8} {e : ReaderEvent}
    (hb : x.bytes slot size e = .got n object) :
    ∃ c m seq, x.pc = .loading c m (.copying seq []) ∧ size = some n ∧ e ≠ .silent ∧
      object = contents n m.data := by
  rw [Reader.bytes] at hb
  split at hb
  · cases hb
  · cases hb
  · rename_i c m seq hpc
    split at hb
    · cases hb
    · cases hb
    · rename_i k he
      cases hb
      exact ⟨c, m, seq, hpc, rfl, he, rfl⟩
  · cases hb

theorem held_eq {n i : ℕ} {ws : List (List UInt8)} {d : List UInt8} {busy : Bool}
    (h : SlotInv n i ws slot busy) (hfree : isLocked slot.counter = false)
    (hheld : held n i ws = some d) : d = contents slot.messageSize slot.data := by
  obtain rfl : busy = false := h.locked.symm.trans hfree
  rw [held] at hheld
  split at hheld
  · cases hheld
  · rename_i q hq
    rw [h.last rfl q hq] at hheld
    exact (Option.some.inj hheld).symm

/-- The object is a copy of the message in which the load has left what the slot holds. -/
theorem ReadDelivers.exists_message {size : ℕ} {d object : List UInt8}
    (h : ReadDelivers P T es r size d object) (hbrief : Brief P es r) :
    ∃ m : Message, object = contents size m.data ∧ d = m.contents ∧
      Sourced (begunTyped es) m.data := by
  obtain ⟨⟨m₀, s', hrun⟩, hheld⟩ := h
  obtain ⟨s, hrun, hstep⟩ := hrun.last
  have hlocated := Located.of_typed hrun
  have htracks := Tracks.of_run hrun
  generalize he : (⟨.reader r (.read m₀), .got size object⟩ : TypedEvent Rid) = e at hstep
  cases TypedMoves.of_step hstep with
  | write | store | create | copy => cases he
  | @reader u x x' c size' e bytes hr hx htouches =>
    cases he
    generalize hb : Bytes.got size object = bytes at htouches
    cases htouches with
    | call | update => cases hb
    | step =>
      obtain ⟨c, m, seq, hpc, hsize, -, hobject⟩ := Reader.bytes_got hb.symm
      have hindexed := hlocated.readers r x hr
      have hattempts := htracks r x c m _ hr hpc
      have hlt : x.head < P.getBufferSize := hindexed.head ▸ Nat.mod_lt _ (getBufferSize_pos P)
      obtain ⟨busy, hslot⟩ := hlocated.slots.exists_slot hlt
      cases hl : load (s.queue.buffer x.head) m (.copying seq []) with
      | mk m' p' =>
        simp only [Reader.next, hpc, hl] at hx
        have hcases := hattempts.reads.load hslot.counter hl
        cases p' with
        | loadSeq0 | messageSize | copying => cases hx
        | returned seq' =>
          obtain ⟨-, rfl, -, -⟩ := load_returned (p := .copying seq []) (by simp) hl
          obtain ⟨-, hfree, hcontents⟩ := hcases.resolve_left id
          have hhead : slotOf P es r = x.head := hindexed.head.symm
          rw [Brief, hhead] at hbrief
          rw [hhead] at hheld
          refine ⟨m', hobject, ?_, hattempts.sourced (by simp [hsize])⟩
          rw [hcontents hbrief]
          exact held_eq hslot hfree hheld

omit [DecidableEq Rid] in
theorem held_mem {n i : ℕ} {ws : List (List UInt8)} {d : List UInt8} (h : held n i ws = some d) :
    d ∈ ws := by
  rw [BoundedMulticastQueue.held] at h
  split at h
  · cases h
  · exact List.mem_of_getElem? h

theorem ReadDelivers.fit {size : ℕ} {d object : List UInt8}
    (h : ReadDelivers P T es r size d object) (hbrief : Brief P es r)
    (hzero : ∀ m ∈ begunTyped es, ∀ i, d.length ≤ i → i < size → m.getD i 0 = 0) :
    object = fit size d := by
  obtain ⟨m, rfl, rfl, hsourced⟩ := h.exists_message hbrief
  have hlength : m.contents.length = m.size := by simp [Message.contents, contents]
  rw [hlength] at hzero
  refine contents_eq_fit fun i hle hlt => ?_
  rcases hsourced i with hbyte | ⟨m', hm', hbyte⟩
  · exact hbyte
  · exact hbyte.trans (hzero m' hm' i hle hlt)

theorem ReadDelivers.begun {size : ℕ} {d object : List UInt8}
    (h : ReadDelivers P T es r size d object) : d ∈ begunTyped es := by
  obtain ⟨⟨m, s, hrun⟩, hheld⟩ := h
  obtain ⟨u, hrun, -⟩ := hrun.last
  exact (Provenance.of_run hrun).written d (held_mem hheld)

theorem dependsOnMessage_of_zero {M : Set (List UInt8)} {size : ℕ}
    (hzero : ∀ m ∈ M, ∀ d ∈ M, ∀ i, d.length ≤ i → i < size → m.getD i 0 = 0) :
    DependsOnMessage P Rid M size := by
  intro T T' es es' r r' d object object' hes hes' h h' hbrief hbrief'
  have hd := hes d h.begun
  have hfit := h.fit hbrief fun m hm => hzero m (hes m hm) d hd
  have hfit' := h'.fit hbrief' fun m hm => hzero m (hes' m hm) d hd
  exact ⟨hfit.trans hfit'.symm, hfit⟩

end

def pairParams : Params := ⟨1, 2, 0⟩

def sevens : Memory := copy (1, 2) (fun _ => 7) (copy (0, 1) (fun _ => 7) fun _ => 0)

def freshEvents : List (TypedEvent Unit) :=
  [⟨.reader () .created, .none⟩, ⟨.writer (.writing [5]), .none⟩, ⟨.writer .silent, .none⟩,
    ⟨.writer .silent, .none⟩, ⟨.writer .silent, .stored (0, 1)⟩, ⟨.writer .silent, .none⟩,
    ⟨.writer (.written [5]), .none⟩, ⟨.reader () .silent, .called⟩,
    ⟨.reader () .silent, .sequence⟩, ⟨.reader () .silent, .none⟩,
    ⟨.reader () .silent, .loaded (0, 1) (copy (0, 1) (fun _ => 5) fun _ => 0)⟩]

def staleEvents : List (TypedEvent Unit) :=
  [⟨.reader () .created, .none⟩, ⟨.writer (.writing [7, 7]), .none⟩, ⟨.writer .silent, .none⟩,
    ⟨.writer .silent, .none⟩, ⟨.writer .silent, .stored (0, 1)⟩,
    ⟨.writer .silent, .stored (1, 2)⟩, ⟨.writer .silent, .none⟩,
    ⟨.writer (.written [7, 7]), .none⟩] ++
  [⟨.reader () .silent, .called⟩, ⟨.reader () .silent, .sequence⟩, ⟨.reader () .silent, .none⟩,
    ⟨.reader () .silent, .loaded (0, 1) sevens⟩, ⟨.reader () .silent, .loaded (1, 2) sevens⟩,
    ⟨.reader () (.read [7, 7]), .got 2 [7, 7]⟩] ++
  [⟨.reader () .silent, .called⟩, ⟨.reader () .silent, .sequence⟩, ⟨.reader () .silent, .none⟩,
    ⟨.reader () .silent, .loaded (0, 1) sevens⟩, ⟨.reader () .silent, .loaded (1, 2) sevens⟩,
    ⟨.reader () .silent, .none⟩] ++
  [⟨.writer (.writing [5]), .none⟩, ⟨.writer .silent, .none⟩, ⟨.writer .silent, .none⟩,
    ⟨.writer .silent, .stored (0, 1)⟩, ⟨.writer .silent, .none⟩, ⟨.writer (.written [5]), .none⟩] ++
  [⟨.reader () .silent, .sequence⟩, ⟨.reader () .silent, .none⟩,
    ⟨.reader () .silent, .loaded (0, 1) (copy (0, 1) (fun _ => 5) sevens)⟩]

theorem pairParams_size : pairParams.getBufferSize = 1 := by
  rw [Params.getBufferSize, bitCeil, pairParams, Nat.clog_one_right, Nat.pow_zero]

theorem pairParams_shift : pairParams.getSeqRightShiftValue = 0 := by
  rw [Params.getSeqRightShiftValue, pairParams_size]
  decide

theorem pairParams_index (k : ℕ) : k &&& pairParams.getIndexMask = 0 := by
  rw [and_getIndexMask, pairParams_size, Nat.mod_one]

theorem fresh_delivers : ReadDelivers pairParams ⟨[1], [2]⟩ freshEvents () 2 [5] [5, 0] := by
  have hone : atomicMemcpy 1 = [(0, 1)] := by decide
  constructor
  · refine ⟨[5], ⟨⟨Function.update (fun _ => emptySlot) 0
      ⟨copy (0, 1) (fun _ => 5) fun _ => 0, 1, 2⟩, ⟨0, .idle⟩,
      Function.update (fun _ => none) () (some ⟨0, 4, .idle⟩)⟩,
      Function.update (fun _ => none) () (some 2)⟩, ?_⟩
    refine Machine.Path.of_exec [.create (), .write ⟨fun _ => 5, 1⟩, .store false, .store false,
      .store false, .store false, .store false, .callTyped () .read 2, .step (), .step (),
      .step (), .step ()] ?_
    simp [Machine.exec, typed, typedNext, TypedState.reader, machine, next, State.setReader,
      Reader.next, load, store, lock, Locking.read, Store.bytes, Reader.bytes, isLocked_eq, hone,
      unlock, counterSize, Message.contents, contents, freshMessage, Reader.finish,
      Reader.updateIndexes, pairParams_index, pairParams_shift, freshEvents, emptySlot]
    decide
  · rw [slotOf, pairParams_size, Nat.mod_one]
    rfl

theorem stale_delivers : ReadDelivers pairParams ⟨[2, 1], [2]⟩ staleEvents () 2 [5] [5, 7] := by
  have hone : atomicMemcpy 1 = [(0, 1)] := by decide
  have htwo : atomicMemcpy 2 = [(0, 1), (1, 2)] := by decide
  have hwait : int32 2 - int32 4 = -2 := by decide
  constructor
  · refine ⟨[5], ⟨⟨Function.update (fun _ => emptySlot) 0
      ⟨copy (0, 1) (fun _ => 5) sevens, 1, 4⟩, ⟨0, .idle⟩,
      Function.update (fun _ => none) () (some ⟨0, 6, .idle⟩)⟩,
      Function.update (fun _ => none) () (some 2)⟩, ?_⟩
    refine Machine.Path.of_exec [.create (), .write ⟨fun _ => 7, 2⟩, .store false, .store false,
      .store false, .store false, .store false, .store false,
      .callTyped () .read 2, .step (), .step (), .step (), .step (), .step (),
      .callTyped () .read 2, .step (), .step (), .step (), .step (), .step (),
      .write ⟨fun _ => 5, 1⟩, .store false, .store false, .store false, .store false,
      .store false, .step (), .step (), .step (), .step ()] ?_
    simp [Machine.exec, typed, typedNext, TypedState.reader, machine, next, State.setReader,
      Reader.next, load, store, lock, Locking.read, Store.bytes, Reader.bytes, isLocked_eq, hone,
      htwo, hwait, unlock, counterSize, Message.contents, contents, freshMessage, Reader.finish,
      Reader.updateIndexes, pairParams_index, pairParams_shift, staleEvents, emptySlot, sevens]
    decide
  · rw [slotOf, pairParams_size, Nat.mod_one]
    rfl

theorem not_read_eq : ¬ ∀ (T T' : Types) (es es' : List (TypedEvent Unit))
    (object object' : List UInt8), ReadDelivers pairParams T es () 2 [5] object →
    ReadDelivers pairParams T' es' () 2 [5] object' →
    object = object' ∧ object = fit 2 [5] := by
  intro hall
  exact absurd (hall _ _ _ _ _ _ fresh_delivers stale_delivers).1 (by decide)

end LockFree.BoundedMulticastQueue
