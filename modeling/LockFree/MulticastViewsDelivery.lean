import LockFree.MulticastResidue
import LockFree.MulticastViews

/-!
# BoundedMulticastQueue delivers every message in order, whatever stale values are read

The stores of the writer go round, so version `k + 1` of slot `i` is message `k * n + i`. A
load that is not repeated returns one of the versions of its slot with its number, by the
`SeqLock`; the reader knows from the number whether it is the one that it waits for.
-/

namespace LockFree.MulticastViews
open BoundedMulticastQueue RingLaps SeqLock TransitionRuns ViewMemory
open SeqLockViews (Location Shared Plan Local Thread Evaluates Ledger ledger ledger_snoc consistent)

section
variable {m : List UInt8} {i k : ℕ} {got : List ℕ} {φ : Part → ℕ}

theorem evaluates_eq (h : Evaluates plan φ got) :
    got = φ .size :: (List.range (φ .size)).map fun j => φ (.byte j) := by
  cases got with
  | nil => exact absurd h.complete (by simp [plan])
  | cons n bytes =>
    obtain ⟨d, hd, rfl⟩ := h.values [] n bytes rfl
    cases hd
    -- the bytes are read in order, and no more of them than the size says
    have hbyte : ∀ j, (hj : j < bytes.length) → j < φ .size ∧ bytes[j] = φ (.byte j) := by
      intro j hj
      obtain ⟨d, hd, hval⟩ := h.values (φ .size :: bytes.take j) bytes[j] (bytes.drop (j + 1))
        (by simp)
      rw [plan, List.length_take, Nat.min_eq_left hj.le] at hd
      split at hd
      · cases hd
        exact ⟨by assumption, hval⟩
      · cases hd
    have hlength : bytes.length = φ .size := by
      apply le_antisymm
      · by_contra hlt
        exact absurd (hbyte (φ .size) (by omega)).1 (lt_irrefl _)
      · have hcomplete := h.complete
        rw [plan] at hcomplete
        split at hcomplete
        · cases hcomplete
        · omega
    congr 1
    apply List.ext_getElem
    · simpa using hlength
    · intro j hj _
      rw [(hbyte j hj).2, List.getElem_map, List.getElem_range]

theorem contents_loadedMessage (h : Evaluates plan φ got) (hsize : φ .size = m.length)
    (hbytes : ∀ j < m.length, φ (.byte j) = (m.getD j 0).toNat) :
    (loadedMessage got).contents = m := by
  rw [evaluates_eq h, hsize]
  apply List.ext_getElem
  · simp [loadedMessage, Message.contents, AtomicMemcpy.contents]
  · intro j _ hj
    simp [loadedMessage, Message.contents, AtomicMemcpy.contents, hj, hbytes j hj]

theorem contents_of_stores {Tid : Type*} {l : Ledger ℕ Part ℕ Tid} {data : ℕ → Part → ℕ}
    (hm : (l.stores i)[k]? = some (writes m))
    (h : Evaluates plan (l.contents data i (k + 1)) got) : (loadedMessage got).contents = m := by
  apply contents_loadedMessage h
  · exact SeqLockViews.contents_of_store hm (d := .size) (by simp)
  · intro j hj
    exact SeqLockViews.contents_of_store hm (d := .byte j) (by simpa using hj)

end

section
variable {P : Params} {ws : List (List UInt8)} {pos k : ℕ} {x x' : Reader} {c : ReadCall}
  {m : Message}

theorem compares {real expected : ℕ} (hreal : real < 2 ^ 29) (hexpected : expected ≤ 2 ^ 29) :
    Compares real expected (int32 (2 * real % counterSize) - int32 (2 * expected % 2 ^ 64)) := by
  have hcounter : int32 (2 * real % counterSize) = int32 (2 * real) := int32_mod le_rfl
  rw [hcounter, int32_mod (by decide)]
  refine (compares_iff (by omega) (by omega)).mpr ?_
  rw [stretch, stretch, Nat.div_eq_of_lt (by omega), Nat.div_eq_of_lt (by omega)]

inductive Finishes (P : Params) (ws : List (List UInt8)) (pos k : ℕ) (x : Reader) :
    Reader → ReaderEvent → Prop where
  | read {m : List UInt8} : ws[pos]? = some m → k = pos / P.getBufferSize + 1 →
      Finishes P ws pos k x (x.updateIndexes P) (.read m)
  | late : pos + P.getBufferSize < ws.length → pos / P.getBufferSize + 1 < k →
      Finishes P ws pos k x { x with pc := .idle } .late
  | wait {c : ReadCall} {m : Message} :
      Finishes P ws pos k x { x with pc := .loading c m .loadSeq0 } .silent
  | current {m : List UInt8} : ws[pos]? = some m → k = pos / P.getBufferSize + 1 →
      Finishes P ws pos k x { x with pc := .ready } (.tried 0 m)
  | newer {result : ℤ} {m : List UInt8} : 0 < result → pos + P.getBufferSize < ws.length →
      pos / P.getBufferSize + 1 < k →
      Finishes P ws pos k x { x with pc := .idle } (.tried result m)
  | older {result : ℤ} {m : List UInt8} : result < 0 → k ≤ pos / P.getBufferSize →
      Finishes P ws pos k x { x with pc := .idle } (.tried result m)

theorem finish_cases (hx : Indexed P pos x)
    (hshift : 2 ^ P.getSeqRightShiftValue = P.getBufferSize) (hfew : Few P ws.length)
    (hpos : pos ≤ ws.length) (hk : k ≤ laps P.getBufferSize x.head ws.length)
    (hm : k = pos / P.getBufferSize + 1 → ws[pos]? = some m.contents) :
    Finishes P ws pos k x (x.finish P c m (2 * k % counterSize)).1
      (x.finish P c m (2 * k % counterSize)).2 := by
  have hn := getBufferSize_pos P
  have hdiv := hfew.div_lt hpos
  have hlaps : laps P.getBufferSize x.head ws.length < 2 ^ 29 :=
    Nat.lt_of_le_of_lt laps_le_laps_zero hfew
  have hcompares : Compares k (pos / P.getBufferSize + 1)
      (int32 (2 * k % counterSize) - int32 x.expectedSeq) := by
    rw [hx.expectedSeq, expectedVersion_eq hshift]
    exact compares (by omega) (by omega)
  -- a later version than the one expected is a message a whole lap ahead
  have hlate : pos / P.getBufferSize + 1 < k → pos + P.getBufferSize < ws.length := by
    intro hlt
    have hnext := lt_laps_mod_iff (j := pos + P.getBufferSize) (k := ws.length) hn
    rw [Nat.add_mod_right, Nat.add_div_right _ hn, ← hx.head] at hnext
    omega
  simp only [Reader.finish]
  generalize int32 (2 * k % counterSize) - int32 x.expectedSeq = result at hcompares
  obtain ⟨-, holder, hsame, hnewer⟩ := hcompares
  cases c with
  | tryRead =>
    dsimp only
    split
    · rename_i hzero
      subst hzero
      exact .current (hm (hsame.mp rfl)) (hsame.mp rfl)
    · rcases lt_or_gt_of_ne ‹_› with hneg | hpositive
      · exact .older hneg (by omega)
      · exact .newer hpositive (hlate (hnewer.mp hpositive)) (hnewer.mp hpositive)
  | read =>
    dsimp only
    split
    · rename_i hzero
      exact .read (hm (hsame.mp hzero)) (hsame.mp hzero)
    · split
      · rename_i hpositive
        exact .late (hlate (hnewer.mp hpositive)) (hnewer.mp hpositive)
      · exact .wait

end

section
variable {P : Params} {Rid : Type*} [DecidableEq Rid] {s s' : State Rid} {es : List (Event Rid)}
  {e : Event Rid} {r : Rid} {x : Reader} {g g' : Memory Rid} {a : Tid Rid}

structure Calls (s : State Rid) : Prop where
  writer : ∀ c, (s.memory.threads .writer).pc.call? = some c →
    c = .store s.tail (writes s.desired)
  reader : ∀ r c, (s.memory.threads (.reader r)).pc.call? = some c →
    ∃ x, s.readers r = some x ∧ (∃ c m p, x.pc = .loading c m p) ∧ c = .load x.head plan

abbrev MemoryStep (g : Memory Rid) (e : MemoryEvent Rid) (g' : Memory Rid) : Prop :=
  (memoryMachine Rid).Step g e g'

inductive Moves (P : Params) (s : State Rid) : State Rid → Event Rid → Prop where
  | write {desired : List UInt8} {g : Memory Rid} :
      MemoryStep s.memory (.writer, .called (.store s.tail (writes desired))) g →
      Moves P s { s with memory := g, desired := desired } ⟨.writer (.writing desired),
        some (.writer, .called (.store s.tail (writes desired)))⟩
  | stored {g : Memory Rid} :
      MemoryStep s.memory (.writer, .stored s.tail (writes s.desired)) g →
      Moves P s { s with memory := g, tail := (s.tail + 1) &&& P.getIndexMask }
        ⟨.writer (.written s.desired), some (.writer, .stored s.tail (writes s.desired))⟩
  | create {r : Rid} : s.readers r = none →
      Moves P s (s.setReader r ⟨0, 2, .idle⟩) ⟨.reader r .created, none⟩
  | copy {r other : Rid} {x : Reader} {g : Memory Rid} :
      s.readers r = none → s.readers other = some x →
      MemoryStep s.memory (.reader r, .synchronized (.reader other)) g →
      Moves P s ({ s with memory := g }.setReader r { x with pc := .idle })
        ⟨.copied r other, some (.reader r, .synchronized (.reader other))⟩
  | call {r : Rid} {x : Reader} {c : ReadCall} {m : Message} :
      s.readers r = some x → (∀ c m p, x.pc ≠ .loading c m p) →
      Moves P s (s.setReader r { x with pc := .loading c m .loadSeq0 }) ⟨.reader r .silent, none⟩
  | load {r : Rid} {x : Reader} {g : Memory Rid} :
      s.readers r = some x → (∃ c m p, x.pc = .loading c m p) →
      MemoryStep s.memory (.reader r, .called (.load x.head plan)) g →
      Moves P s { s with memory := g }
        ⟨.reader r .silent, some (.reader r, .called (.load x.head plan))⟩
  | update {r : Rid} {x : Reader} : s.readers r = some x → x.pc = .ready →
      Moves P s (s.setReader r (x.updateIndexes P)) ⟨.reader r .updated, none⟩
  | loaded {r : Rid} {x : Reader} {c : ReadCall} {m : Message} {p : Load} {seq0 t₀ t₁ : ℕ}
      {got : List ℕ} {g : Memory Rid} :
      s.readers r = some x → x.pc = .loading c m p →
      (s.memory.threads (.reader r)).pc = .loadSeq1 x.head plan seq0 t₀ got →
      MemoryStep s.memory (.reader r, .loaded x.head plan t₀ t₁ got) g →
      Moves P s
        ({ s with memory := g }.setReader r (x.finish P c (loadedMessage got) seq0).1)
        ⟨.reader r (x.finish P c (loadedMessage got) seq0).2,
          some (.reader r, .loaded x.head plan t₀ t₁ got)⟩
  | quiet {a : Tid Rid} {me : SeqLockViews.Event ℕ Part ℕ (Tid Rid)} {g : Memory Rid} :
      MemoryStep s.memory (a, me) g → me.call? = none → (∀ c, me ≠ .called c) →
      Moves P s { s with memory := g } ⟨quiet a, some (a, me)⟩

theorem step_of_next {c : Tid Rid × SeqLockViews.Choice ℕ Part ℕ (Tid Rid)} {f : MemoryEvent Rid}
    (hn : SeqLockViews.next g c = some (g', f)) : MemoryStep g f g' := ⟨c, hn⟩

theorem memoryStep_of_next {c : SeqLockViews.Choice ℕ Part ℕ (Tid Rid)} {f : MemoryEvent Rid}
    (hn : SeqLockViews.next g (a, c) = some (g', f)) : ∃ me, f = (a, me) ∧
      MemoryStep g (a, me) g' := by
  have hstep := step_of_next hn
  suffices hf : f.1 = a by
    obtain ⟨b, me⟩ := f
    obtain rfl : b = a := hf
    exact ⟨me, rfl, hstep⟩
  cases c with
  | call | synchronize =>
    simp only [SeqLockViews.next] at hn
    split at hn <;> cases hn
    rfl
  | step =>
    simp only [SeqLockViews.next] at hn
    split at hn <;> cases hn
    rfl

theorem called_of_next {c : SeqLockViews.Call ℕ Part ℕ} {f : MemoryEvent Rid}
    (hn : SeqLockViews.next g (a, .call c) = some (g', f)) : f = (a, .called c) := by
  simp only [SeqLockViews.next] at hn
  split at hn <;> cases hn
  rfl

theorem synchronized_of_next {u : Tid Rid} {f : MemoryEvent Rid}
    (hn : SeqLockViews.next g (a, .synchronize u) = some (g', f)) :
    f = (a, .synchronized u) := by
  simp only [SeqLockViews.next] at hn
  split at hn <;> cases hn
  rfl

theorem not_called_of_next {t : ℕ} {spurious : Bool} {me : SeqLockViews.Event ℕ Part ℕ (Tid Rid)}
    (hn : SeqLockViews.next g (a, .step t spurious) = some (g', a, me)) : ∀ c, me ≠ .called c := by
  simp only [SeqLockViews.next] at hn
  split at hn
  · cases hn
  · rename_i hstep
    cases hn
    exact (SeqLockViews.threadNext_call hstep).1

theorem call_of_step {me : SeqLockViews.Event ℕ Part ℕ (Tid Rid)} {c : SeqLockViews.Call ℕ Part ℕ}
    (hs : MemoryStep g (a, me) g') (hme : me.call? = some c) :
    (g.threads a).pc.call? = some c := by
  rcases (SeqLockViews.step_call hs).2 with ⟨c, rfl, -⟩ | ⟨-, ⟨-, hnone⟩ | ⟨-, hcall⟩⟩
  · cases hme
  · cases hnone.symm.trans hme
  · exact hcall ▸ hme

theorem loaded_of_loadSeq1 {c : ReadCall} {i j seq0 t₀ t₀' t₁ : ℕ} {p p' : Plan Part ℕ}
    {got got' : List ℕ}
    (hlocal : (s.memory.threads (.reader r)).pc = .loadSeq1 i p seq0 t₀ got) :
    loaded P s r x c g (a, .loaded j p' t₀' t₁ got') =
      ({ s with memory := g }.setReader r (x.finish P c (loadedMessage got') seq0).1,
        ⟨.reader r (x.finish P c (loadedMessage got') seq0).2,
          some (a, .loaded j p' t₀' t₁ got')⟩) := by
  rw [loaded, hlocal]

theorem Moves.of_writer_step (hc : Calls s) {t : ℕ} {spurious : Bool}
    (hn : next P s (.step .writer t spurious) = some (s', e)) : Moves P s s' e := by
  simp only [next, Option.map_eq_some_iff] at hn
  obtain ⟨⟨g, f⟩, hmemory, hn⟩ := hn
  obtain ⟨me, rfl, hstep⟩ := memoryStep_of_next hmemory
  have hcalled := not_called_of_next hmemory
  cases me with
  | stored i ws =>
    obtain ⟨rfl, rfl⟩ : i = s.tail ∧ ws = writes s.desired := by
      simpa using hc.writer _ (call_of_step hstep rfl)
    cases hn
    exact .stored hstep
  | loaded => cases hc.writer _ (call_of_step hstep rfl)
  | called c => exact absurd rfl (hcalled c)
  | synchronized | silent | unordered =>
    cases hn
    exact .quiet (a := .writer) hstep rfl hcalled

theorem Moves.of_reader_step (hc : Calls s) {t : ℕ} {spurious : Bool}
    (hn : next P s (.step (.reader r) t spurious) = some (s', e)) : Moves P s s' e := by
  simp only [next] at hn
  split at hn
  · cases hn
  rename_i x hr
  split at hn
  · rename_i c m p hpc
    simp only [Option.map_eq_some_iff] at hn
    obtain ⟨⟨g, f⟩, hmemory, hn⟩ := hn
    obtain ⟨me, rfl, hstep⟩ := memoryStep_of_next hmemory
    have hcalled := not_called_of_next hmemory
    cases me with
    | loaded i p' t₀ t₁ got =>
      obtain ⟨y, hy, -, hcall⟩ := hc.reader r _ (call_of_step hstep rfl)
      obtain rfl : x = y := Option.some.inj (hr.symm.trans hy)
      cases hcall
      obtain ⟨seq0, u, hlocal, -⟩ := SeqLockViews.step_loaded hstep
      rw [loaded_of_loadSeq1 hlocal] at hn
      cases hn
      exact .loaded hr hpc hlocal hstep
    | stored =>
      obtain ⟨y, -, -, hcall⟩ := hc.reader r _ (call_of_step hstep rfl)
      cases hcall
    | called c => exact absurd rfl (hcalled c)
    | synchronized | silent | unordered =>
      cases hn
      exact .quiet (a := .reader r) hstep rfl hcalled
  · cases hn

theorem Moves.of_step (hc : Calls s) (hs : (machine P Rid).Step s e s') : Moves P s s' e := by
  obtain ⟨choice, hn⟩ := hs
  change next P s choice = some (s', e) at hn
  rcases choice with desired | r | ⟨r, other⟩ | ⟨r, c, m⟩ | r | r | ⟨a, t, spurious⟩ | ⟨a, u⟩
  case step =>
    cases a with
    | writer => exact .of_writer_step hc hn
    | reader r => exact .of_reader_step hc hn
  all_goals simp only [next] at hn
  case write =>
    split at hn
    · split at hn <;> cases hn
      rename_i hmemory
      obtain rfl := called_of_next hmemory
      exact .write (step_of_next hmemory)
    · cases hn
  case create =>
    split at hn <;> cases hn
    exact .create ‹_›
  case copy =>
    split at hn <;> cases hn
    rename_i hr hother hmemory
    obtain rfl := synchronized_of_next hmemory
    exact .copy hr hother (step_of_next hmemory)
  case call =>
    split at hn
    · cases hn
    · split at hn <;> cases hn
      exact .call ‹_› ‹_›
  case load =>
    split at hn
    · cases hn
    · rename_i x hr
      split at hn <;> cases hn
      rename_i hpc hmemory
      obtain rfl := called_of_next hmemory
      exact .load hr ⟨_, _, _, hpc⟩ (step_of_next hmemory)
  case update =>
    split at hn
    · cases hn
    · split at hn <;> cases hn
      exact .update ‹_› ‹_›
  case synchronize =>
    obtain ⟨⟨g, f⟩, hmemory, hn⟩ := Option.map_eq_some_iff.mp hn
    obtain rfl := synchronized_of_next hmemory
    cases hn
    exact .quiet (step_of_next hmemory) rfl (by simp)

structure Placed (P : Params) (k pos : ℕ) (x : Reader) : Prop where
  indexed : Indexed P pos x
  le : pos ≤ k
  ready : x.pc = .ready → pos < k

structure Inv (P : Params) (es : List (Event Rid)) (s : State Rid) : Prop extends Calls s where
  tail : s.tail = (written (queueEvents es)).length % P.getBufferSize
  stores : ∀ i < P.getBufferSize, ∀ k, ((ledger (memoryEvents es)).stores i)[k]? =
    (written (queueEvents es))[k * P.getBufferSize + i]?.map writes
  readers : ∀ r x, s.readers r = some x →
    Placed P (written (queueEvents es)).length (position (queueEvents es) r) x

omit [DecidableEq Rid] in
theorem queueEvents_snoc : queueEvents (es ++ [e]) = queueEvents es ++ [e.queue] := by
  rw [queueEvents, List.map_append]
  rfl

omit [DecidableEq Rid] in
theorem memoryEvents_snoc : memoryEvents (es ++ [e]) = memoryEvents es ++ e.memory.toList := by
  rw [memoryEvents, List.filterMap_append]
  cases h : e.memory <;> simp [memoryEvents, h]

omit [DecidableEq Rid] in
theorem written_snoc_of_none (h : e.queue.written? = none) :
    written (queueEvents (es ++ [e])) = written (queueEvents es) := by
  rw [queueEvents_snoc, BoundedMulticastQueue.written_snoc, h]
  exact List.append_nil _

theorem ledger_memoryEvents_snoc {me : MemoryEvent Rid} (h : e.memory = some me) :
    ledger (memoryEvents (es ++ [e])) = (ledger (memoryEvents es)).step me := by
  rw [memoryEvents_snoc, h]
  exact ledger_snoc _ _

theorem ledger_memoryEvents_none (h : e.memory = none) :
    ledger (memoryEvents (es ++ [e])) = ledger (memoryEvents es) := by
  rw [memoryEvents_snoc, h]
  exact congrArg _ (List.append_nil _)

theorem stores_step {l : Ledger ℕ Part ℕ (Tid Rid)} {me : SeqLockViews.Event ℕ Part ℕ (Tid Rid)}
    (h : ∀ i ws, me ≠ .stored i ws) : (l.step (a, me)).stores = l.stores := by
  cases me with
  | stored i ws => exact absurd rfl (h i ws)
  | _ => rfl

theorem Inv.length_stores (h : Inv P es s) {i : ℕ} (hi : i < P.getBufferSize) :
    ((ledger (memoryEvents es)).stores i).length =
      laps P.getBufferSize i (written (queueEvents es)).length := by
  refine RingLaps.eq_of_forall_lt_iff fun q => ?_
  have hq : ((ledger (memoryEvents es)).stores i).length ≤ q ↔
      (written (queueEvents es)).length ≤ q * P.getBufferSize + i := by
    rw [← List.getElem?_eq_none_iff, h.stores i hi q, Option.map_eq_none_iff,
      List.getElem?_eq_none_iff]
  rw [lt_laps_iff hi]
  omega

theorem Calls.writer_step (h : Calls s) {me : SeqLockViews.Event ℕ Part ℕ (Tid Rid)} {tail : ℕ}
    {desired : List UInt8} (hs : MemoryStep s.memory (.writer, me) g)
    (hw : ∀ c, (g.threads .writer).pc.call? = some c → c = .store tail (writes desired)) :
    Calls ⟨g, tail, desired, s.readers⟩ where
  writer := hw
  reader r c hc := by
    refine h.reader r c ?_
    rwa [(SeqLockViews.step_call hs).1 (.reader r) (by simp)] at hc

theorem Calls.reader_step (h : Calls s) {me : SeqLockViews.Event ℕ Part ℕ (Tid Rid)}
    {readers : Rid → Option Reader} (hs : MemoryStep s.memory (.reader r, me) g)
    (hreaders : ∀ u, u ≠ r → readers u = s.readers u)
    (hr : ∀ c, (g.threads (.reader r)).pc.call? = some c →
      ∃ x, readers r = some x ∧ (∃ c m p, x.pc = .loading c m p) ∧ c = .load x.head plan) :
    Calls ⟨g, s.tail, s.desired, readers⟩ where
  writer c hc := by
    refine h.writer c ?_
    rwa [(SeqLockViews.step_call hs).1 .writer (by simp)] at hc
  reader u c hc := by
    by_cases hu : u = r
    · subst hu
      exact hr c hc
    · rw [(SeqLockViews.step_call hs).1 (.reader u) (by simp [hu])] at hc
      obtain ⟨x, hx, hrest⟩ := h.reader u c hc
      exact ⟨x, (hreaders u hu).trans hx, hrest⟩

omit [DecidableEq Rid] in
theorem Calls.call_eq_none (h : Calls s)
    (hx : ∀ x, s.readers r = some x → ∀ c m p, x.pc ≠ .loading c m p) :
    (s.memory.threads (.reader r)).pc.call? = none := by
  cases hcall : (s.memory.threads (.reader r)).pc.call? with
  | none => rfl
  | some c =>
    obtain ⟨x, hr, ⟨c, m, p, hpc⟩, -⟩ := h.reader r c hcall
    exact absurd hpc (hx x hr c m p)

theorem Calls.setReader (h : Calls s)
    (hx : ∀ x, s.readers r = some x → ∀ c m p, x.pc ≠ .loading c m p) :
    Calls (s.setReader r x) where
  writer := h.writer
  reader u c hc := by
    by_cases hu : u = r
    · subst hu
      have hnone := h.call_eq_none hx
      exact absurd (hnone.symm.trans hc) (by simp)
    · obtain ⟨y, hy, hrest⟩ := h.reader u c hc
      exact ⟨y, (Function.update_of_ne hu ..).trans hy, hrest⟩

theorem Calls.quiet (h : Calls s) {me : SeqLockViews.Event ℕ Part ℕ (Tid Rid)}
    (hs : MemoryStep s.memory (a, me) g) (hme : me.call? = none) (hcalled : ∀ c, me ≠ .called c) :
    Calls { s with memory := g } := by
  have hcall : ∀ b c, (g.threads b).pc.call? = some c →
      (s.memory.threads b).pc.call? = some c := by
    intro b c hc
    obtain ⟨hothers, hmine⟩ := SeqLockViews.step_call hs
    by_cases hb : b = a
    · subst hb
      rcases hmine with ⟨c, rfl, -⟩ | ⟨-, ⟨hsame, -⟩ | ⟨hnone, -⟩⟩
      · exact absurd rfl (hcalled c)
      · exact hsame ▸ hc
      · simp [hnone] at hc
    · rwa [hothers b hb] at hc
  exact ⟨fun c hc => h.writer c (hcall _ c hc), fun r c hc => h.reader r c (hcall _ c hc)⟩

theorem call_of_called {c c' : SeqLockViews.Call ℕ Part ℕ}
    (hs : MemoryStep g (a, .called c) g') (hc : (g'.threads a).pc.call? = some c') : c' = c := by
  rcases (SeqLockViews.step_call hs).2 with ⟨d, hd, -, hcall⟩ | ⟨hcalled, -⟩
  · cases hd
    exact (Option.some.inj (hcall.symm.trans hc)).symm
  · exact absurd rfl (hcalled c)

theorem call_eq_none_of_ended {me : SeqLockViews.Event ℕ Part ℕ (Tid Rid)}
    {c : SeqLockViews.Call ℕ Part ℕ} (hs : MemoryStep g (a, me) g') (hme : me.call? = some c) :
    (g'.threads a).pc.call? = none := by
  rcases (SeqLockViews.step_call hs).2 with ⟨d, rfl, -⟩ | ⟨-, ⟨-, hnone⟩ | ⟨hnone, -⟩⟩
  · cases hme
  · cases hnone.symm.trans hme
  · exact hnone

theorem Calls.moves (h : Calls s) (hm : Moves P s s' e) : Calls s' := by
  cases hm with
  | write hs => exact h.writer_step hs fun c hc => call_of_called hs hc
  | stored hs =>
    refine h.writer_step hs fun c hc => ?_
    simp [call_eq_none_of_ended hs rfl] at hc
  | create hr => exact h.setReader fun x hx => by simp [hr] at hx
  | @copy r other x g hr hother hs =>
    have hcalls : Calls { s with memory := g } := h.quiet hs rfl (by simp)
    exact hcalls.setReader fun x hx => by simp [hr] at hx
  | call hr hpc =>
    refine h.setReader fun y hy => ?_
    obtain rfl := Option.some.inj (hr.symm.trans hy)
    exact hpc
  | @load r x g hr hpc hs =>
    refine h.reader_step hs (fun u _ => rfl) fun c hc => ⟨x, hr, hpc, call_of_called hs hc⟩
  | update hr hpc =>
    refine h.setReader fun y hy => ?_
    obtain rfl := Option.some.inj (hr.symm.trans hy)
    simp [hpc]
  | loaded hr hpc _ hs =>
    refine h.reader_step hs (fun u hu => Function.update_of_ne hu ..) fun c hc => ?_
    simp [call_eq_none_of_ended hs rfl] at hc
  | quiet hs hme hcalled => exact h.quiet hs hme hcalled

theorem Calls.of_run (hr : (machine P Rid).Run es s) : Calls s := by
  refine Machine.Run.invariant (I := fun _ s => Calls s) ⟨fun c hc => ?_, fun r c hc => ?_⟩
    (fun es s e s' _ h hs => h.moves (.of_step h hs)) hr
  · cases hc
  · cases hc

theorem memory_of_run (hr : (machine P Rid).Run es s) :
    (memoryMachine Rid).Run (memoryEvents es) s.memory := by
  refine Machine.Run.simulate (N := memoryMachine Rid) (f := State.memory) (g := Event.memory) rfl
    (fun es s e s' hr hs => ?_) hr
  cases Moves.of_step (.of_run hr) hs with
  | create | call | update => exact .inl ⟨rfl, rfl⟩
  | write | stored | copy | load | loaded | quiet =>
    exact .inr ⟨_, rfl, ‹MemoryStep _ _ _›⟩

theorem Inv.version (h : Inv P es s) (hr : (machine P Rid).Run es s)
    (hfew : Few P (written (queueEvents es)).length) {i seq0 t₀ t₁ : ℕ} {got : List ℕ}
    (hi : i < P.getBufferSize)
    (hlocal : (s.memory.threads (.reader r)).pc = .loadSeq1 i plan seq0 t₀ got)
    (hs : MemoryStep s.memory (.reader r, .loaded i plan t₀ t₁ got) g) :
    ∃ k, t₀ = 2 * k ∧ seq0 = 2 * k % counterSize ∧
      (ledger (memoryEvents es)).known (.reader r) i ≤ k ∧
      k ≤ laps P.getBufferSize i (written (queueEvents es)).length ∧
      ∀ q, k = q + 1 → (written (queueEvents es))[q * P.getBufferSize + i]? =
        some (loadedMessage got).contents := by
  have hmemory := memory_of_run hr
  have hinv := SeqLockViews.Inv.of_run hmemory
  have hlaps : laps P.getBufferSize i (written (queueEvents es)).length < 2 ^ 29 :=
    Nat.lt_of_le_of_lt laps_le_laps_zero hfew
  have hlength := h.length_stores hi
  -- the counter of the slot has not gone round
  have hnotround : t₁ < t₀ + counterSize := by
    obtain ⟨seq1, u, -, -, hl⟩ := SeqLockViews.step_loaded hs
    obtain ⟨m, hm, -⟩ := Cell.load_eq_some hl
    have hhalf := hinv.half_le (Cell.le_last hm)
    rw [hlength] at hhalf
    rw [counterSize]
    omega
  have hreads := SeqLockViews.reads_of_run hmemory (.reader r)
  simp only [SeqLockViews.Thread.Reads, hlocal] at hreads
  obtain ⟨-, k, rfl, hknown, hk, heval⟩ := (consistent (hmemory.snoc hs)).loaded _ [] _ _ _ _ _ _
    rfl hnotround
  refine ⟨k, rfl, hreads.1.seq, hknown, hlength ▸ hk, ?_⟩
  rintro q rfl
  have hstore := h.stores i hi q
  rw [List.getElem?_eq_getElem hk] at hstore
  obtain ⟨m, hm, hwrites⟩ := Option.map_eq_some_iff.mp hstore.symm
  rw [hm, contents_of_stores (m := m) _ heval]
  rw [List.getElem?_eq_getElem hk, hwrites]

omit [DecidableEq Rid] in
theorem Placed.mono {k k' pos : ℕ} (h : Placed P k pos x) (hle : k ≤ k') : Placed P k' pos x :=
  ⟨h.indexed, h.le.trans hle, fun hpc => (h.ready hpc).trans_le hle⟩

theorem Inv.keep (h : Inv P es s) (hcalls : Calls s') (htail : s'.tail = s.tail)
    (hwritten : e.queue.written? = none)
    (hmemory : ∀ a i ws, e.memory ≠ some (a, .stored i ws))
    (hreaders : ∀ r x, s'.readers r = some x →
      Placed P (written (queueEvents es)).length (position (queueEvents (es ++ [e])) r) x) :
    Inv P (es ++ [e]) s' := by
  have hstores : (ledger (memoryEvents (es ++ [e]))).stores =
      (ledger (memoryEvents es)).stores := by
    cases hme : e.memory with
    | none => rw [ledger_memoryEvents_none hme]
    | some me => rw [ledger_memoryEvents_snoc hme, stores_step fun i ws hstored =>
        hmemory me.1 i ws (hme.trans (by rw [← hstored]))]
  have hsame : written (queueEvents (es ++ [e])) = written (queueEvents es) :=
    written_snoc_of_none hwritten
  refine ⟨hcalls, ?_, ?_, ?_⟩
  · rw [hsame, htail, h.tail]
  · intro i hi k
    rw [hstores, hsame]
    exact h.stores i hi k
  · intro r x hx
    rw [hsame]
    exact hreaders r x hx

theorem Inv.setReader (h : Inv P es s)
    (hpos : ∀ u, u ≠ r → position (queueEvents (es ++ [e])) u = position (queueEvents es) u)
    (hx : Placed P (written (queueEvents es)).length (position (queueEvents (es ++ [e])) r) x) :
    ∀ u y, Function.update s.readers r (some x) u = some y →
      Placed P (written (queueEvents es)).length (position (queueEvents (es ++ [e])) u) y := by
  intro u y hy
  by_cases hu : u = r
  · subst hu
    rw [Function.update_self] at hy
    cases hy
    exact hx
  · rw [Function.update_of_ne hu] at hy
    rw [hpos u hu]
    exact h.readers u y hy

theorem Inv.stored (h : Inv P es s)
    (hs : MemoryStep s.memory (.writer, .stored s.tail (writes s.desired)) g) :
    Inv P (es ++ [⟨.writer (.written s.desired),
      some (.writer, .stored s.tail (writes s.desired))⟩])
      { s with memory := g, tail := (s.tail + 1) &&& P.getIndexMask } := by
  have hn := getBufferSize_pos P
  have htail : s.tail < P.getBufferSize := h.tail ▸ Nat.mod_lt _ hn
  have hwritten : written (queueEvents (es ++ [⟨.writer (.written s.desired),
      some (.writer, .stored s.tail (writes s.desired))⟩])) =
      written (queueEvents es) ++ [s.desired] := by
    rw [queueEvents_snoc, BoundedMulticastQueue.written_snoc]
    rfl
  have hlength : ((ledger (memoryEvents es)).stores s.tail).length =
      (written (queueEvents es)).length / P.getBufferSize := by
    rw [h.length_stores htail, h.tail, laps_mod_self hn]
  have hdiv := Nat.div_add_mod' (written (queueEvents es)).length P.getBufferSize
  refine ⟨h.toCalls.moves (.stored hs), ?_, ?_, ?_⟩
  · rw [hwritten, List.length_append, h.tail, and_getIndexMask, add_one_mod]
    rfl
  · intro i hi k
    rw [hwritten, ledger_memoryEvents_snoc rfl, List.getElem?_append]
    by_cases hit : i = s.tail
    · subst hit
      have hiff : k * P.getBufferSize + s.tail < (written (queueEvents es)).length ↔
          k < (written (queueEvents es)).length / P.getBufferSize := by
        rw [← laps_mod_self hn, ← h.tail, lt_laps_iff htail]
      rw [SeqLockViews.stores_stored, List.getElem?_append, hlength, h.stores _ htail k]
      simp only [hiff]
      split
      · rfl
      · rcases Nat.lt_or_eq_of_le (Nat.le_of_not_lt ‹_›) with hlt | rfl
        · have hle := Nat.mul_le_mul_right P.getBufferSize (Nat.succ_le_of_lt hlt)
          rw [Nat.succ_mul] at hle
          have hmod := Nat.mod_lt (written (queueEvents es)).length hn
          rw [List.getElem?_eq_none (by simp; omega), List.getElem?_eq_none (by simp; omega)]
          rfl
        · rw [h.tail, hdiv, Nat.sub_self, Nat.sub_self]
          rfl
    · rw [SeqLockViews.stores_stored_of_ne hit, h.stores i hi k]
      split
      · rfl
      · have hne : k * P.getBufferSize + i ≠ (written (queueEvents es)).length := by
          intro heq
          rw [h.tail, ← heq, Nat.mul_add_mod', Nat.mod_eq_of_lt hi] at hit
          exact hit rfl
        rw [List.getElem?_eq_none (by omega), List.getElem?_eq_none (by simp; omega)]
  · intro r x hx
    rw [hwritten, List.length_append, queueEvents_snoc, position_snoc]
    exact (h.readers r x hx).mono (Nat.le_add_right _ _)

omit [DecidableEq Rid] in
theorem Finishes.overtaken {ws : List (List UInt8)} {pos k : ℕ} {x' : Reader} {e : ReaderEvent}
    (hf : Finishes P ws pos k x x' e) (hlt : pos / P.getBufferSize + 1 < k) :
    x'.pc ≠ .ready ∧ e.advance = 0 ∧ ∀ m, e ≠ .read m := by
  cases hf with
  | read _ heq | current _ heq => exact absurd heq hlt.ne'
  | wait | late | newer | older => exact ⟨by simp, rfl, by simp⟩

omit [DecidableEq Rid] in
theorem Placed.finishes {ws : List (List UInt8)} {pos k : ℕ} {x' : Reader} {e : ReaderEvent}
    (h : Placed P ws.length pos x) (hf : Finishes P ws pos k x x' e) :
    e ≠ .created ∧ Placed P ws.length (pos + e.advance) x' := by
  have hgoes : x.Goes P x' e := by
    cases hf with
    | read => exact .update (by simp) rfl
    | wait => exact .stay (fun seq => by simp) (by simp) rfl
    | late | current | newer | older => exact .stay trivial (by simp) rfl
  refine ⟨hgoes.ne_created, h.indexed.goes hgoes, ?_, fun hready => ?_⟩
  · cases hf with
    | read hm =>
      obtain ⟨hlt, -⟩ := List.getElem?_eq_some_iff.mp hm
      exact hlt
    | _ => exact h.le
  · cases hf with
    | current hm =>
      obtain ⟨hlt, -⟩ := List.getElem?_eq_some_iff.mp hm
      exact hlt
    | _ => cases hready

theorem Inv.finishes (h : Inv P es s) (hr : (machine P Rid).Run es s)
    (hshift : 2 ^ P.getSeqRightShiftValue = P.getBufferSize)
    (hfew : Few P (written (queueEvents es)).length) {c : ReadCall} {seq0 t₀ t₁ : ℕ}
    {got : List ℕ} (hx : s.readers r = some x)
    (hlocal : (s.memory.threads (.reader r)).pc = .loadSeq1 x.head plan seq0 t₀ got)
    (hs : MemoryStep s.memory (.reader r, .loaded x.head plan t₀ t₁ got) g) :
    ∃ k, t₀ = 2 * k ∧ heard P es r ≤ k ∧
      Finishes P (written (queueEvents es)) (position (queueEvents es) r) k x
        (x.finish P c (loadedMessage got) seq0).1 (x.finish P c (loadedMessage got) seq0).2 := by
  have hplaced := h.readers r x hx
  have hhead : x.head < P.getBufferSize :=
    hplaced.indexed.head ▸ Nat.mod_lt _ (getBufferSize_pos P)
  obtain ⟨k, ht, rfl, hknown, hk, hm⟩ := h.version hr hfew hhead hlocal hs
  refine ⟨k, ht, ?_, finish_cases hplaced.indexed hshift hfew hplaced.le hk fun heq => ?_⟩
  · rwa [heard, ← hplaced.indexed.head]
  · have hmessage := hm _ heq
    rwa [hplaced.indexed.head, Nat.div_add_mod'] at hmessage

theorem Inv.moves (h : Inv P es s) (hr : (machine P Rid).Run es s)
    (hshift : 2 ^ P.getSeqRightShiftValue = P.getBufferSize)
    (hfew : Few P (written (queueEvents es)).length) (hm : Moves P s s' e) :
    Inv P (es ++ [e]) s' := by
  have hcalls := h.toCalls.moves hm
  have hposition : position (queueEvents (es ++ [e])) =
      positionAfter (position (queueEvents es)) e.queue := by
    rw [queueEvents_snoc, position_snoc]
  cases hm with
  | stored hs => exact h.stored hs
  | write | load =>
    refine h.keep hcalls rfl rfl (by simp) fun r x hx => ?_
    rw [hposition]
    exact h.readers r x hx
  | @quiet a me g hs hme hcalled =>
    refine h.keep hcalls rfl ?_ ?_ fun r x hx => ?_
    · cases a <;> rfl
    · rintro b i ws hstored
      cases hstored
      cases hme
    · rw [hposition]
      cases a <;> exact h.readers r x hx
  | @create r hnone =>
    refine h.keep hcalls rfl rfl (by simp) (h.setReader (fun u hu => ?_) ?_)
    · rw [hposition]
      exact Function.update_of_ne hu ..
    · rw [hposition, positionAfter, Function.update_self]
      exact ⟨⟨(Nat.zero_mod _).symm, rfl, trivial⟩, Nat.zero_le _, by simp⟩
  | @copy r other x g hnone hother hs =>
    have hx := h.readers other x hother
    refine h.keep hcalls rfl rfl (by simp) (h.setReader (fun u hu => ?_) ?_)
    · rw [hposition]
      exact Function.update_of_ne hu ..
    · rw [hposition, positionAfter, Function.update_self]
      exact ⟨⟨hx.indexed.head, hx.indexed.expectedSeq, trivial⟩, hx.le, by simp⟩
  | @call r x c m hx hpc =>
    have hplaced := h.readers r x hx
    refine h.keep hcalls rfl rfl (by simp) (h.setReader (fun u hu => ?_) ?_)
    · rw [hposition]
      rfl
    · rw [hposition]
      exact ⟨⟨hplaced.indexed.head, hplaced.indexed.expectedSeq, fun seq => by simp⟩,
        hplaced.le, by simp⟩
  | @update r x hx hpc =>
    have hplaced := h.readers r x hx
    refine h.keep hcalls rfl rfl (by simp) (h.setReader (fun u hu => ?_) ?_)
    · rw [hposition]
      exact Function.update_of_ne hu ..
    · rw [hposition, positionAfter, Function.update_self]
      exact ⟨hplaced.indexed.goes (e := .updated) (.update (by simp) rfl), hplaced.ready hpc,
        fun hready => by cases hready⟩
  | @loaded r x c m p seq0 t₀ t₁ got g hx hpc hlocal hs =>
    obtain ⟨k, -, -, hfinishes⟩ := h.finishes hr hshift hfew (c := c) hx hlocal hs
    obtain ⟨hne, hplaced⟩ := (h.readers r x hx).finishes hfinishes
    refine h.keep hcalls rfl rfl (by simp) (h.setReader (fun u hu => ?_) ?_)
    · rw [queueEvents_snoc, position_reader hne]
      exact Function.update_of_ne hu ..
    · rw [queueEvents_snoc, position_reader hne, Function.update_self]
      exact hplaced

omit [DecidableEq Rid] in
theorem few_of_append {fs : List (Event Rid)}
    (h : Few P (written (queueEvents (es ++ fs))).length) :
    Few P (written (queueEvents es)).length := by
  refine Nat.lt_of_le_of_lt (laps_le_laps (getBufferSize_pos P) ?_) h
  rw [queueEvents, queueEvents, List.map_append]
  exact written_length_le _ _

theorem Inv.of_run (hr : (machine P Rid).Run es s)
    (hshift : 2 ^ P.getSeqRightShiftValue = P.getBufferSize)
    (hfew : Few P (written (queueEvents es)).length) : Inv P es s := by
  refine Machine.Run.invariant
    (I := fun es s => Few P (written (queueEvents es)).length → Inv P es s) (fun _ => ?_)
    (fun es s e s' hr ih hs hfew => ?_) hr hfew
  · refine ⟨.of_run (.nil _), (Nat.zero_mod _).symm, fun i _ k => rfl, fun r x hx => ?_⟩
    cases hx
  · have hfew' := few_of_append hfew
    exact (ih hfew').moves hr hshift hfew' (.of_step (.of_run hr) hs)

def Overtaken (P : Params) (es : List (Event Rid)) (s : State Rid) (r : Rid) : Prop :=
  position (queueEvents es) r / P.getBufferSize + 1 < heard P es r ∧
    ∃ x, s.readers r = some x ∧ x.pc ≠ .ready

theorem position_unmoved (qs : List (BoundedMulticastQueue.Event Rid)) (r : Rid) {e : ReaderEvent}
    (he : e ≠ .created) (hadvance : e.advance = 0) :
    position (qs ++ [.reader r e]) r = position qs r := by
  rw [position_reader he, hadvance, Nat.add_zero, Function.update_self]

theorem heard_le (hpos : position (queueEvents (es ++ [e])) r = position (queueEvents es) r) :
    heard P es r ≤ heard P (es ++ [e]) r := by
  rw [heard, heard, hpos]
  cases hme : e.memory with
  | none => rw [ledger_memoryEvents_none hme]
  | some me =>
    rw [ledger_memoryEvents_snoc hme]
    exact SeqLockViews.known_le_step me

theorem Overtaken.keep (h : Overtaken P es s r)
    (hpos : position (queueEvents (es ++ [e])) r = position (queueEvents es) r)
    (hreader : s'.readers r = s.readers r) : Overtaken P (es ++ [e]) s' r := by
  obtain ⟨hlt, x, hx, hpc⟩ := h
  exact ⟨hpos ▸ hlt.trans_le (heard_le hpos), x, hreader ▸ hx, hpc⟩

theorem Overtaken.step (h : Overtaken P es s r) (hi : Inv P es s) (hr : (machine P Rid).Run es s)
    (hshift : 2 ^ P.getSeqRightShiftValue = P.getBufferSize)
    (hfew : Few P (written (queueEvents es)).length) (hs : (machine P Rid).Step s e s') :
    Overtaken P (es ++ [e]) s' r ∧ ∀ m, e.queue ≠ .reader r (.read m) := by
  obtain ⟨hlt, y, hy, hpc⟩ := h
  have hposition : position (queueEvents (es ++ [e])) =
      positionAfter (position (queueEvents es)) e.queue := by
    rw [queueEvents_snoc, position_snoc]
  have keep : position (queueEvents (es ++ [e])) r = position (queueEvents es) r →
      s'.readers r = s.readers r → Overtaken P (es ++ [e]) s' r := .keep ⟨hlt, y, hy, hpc⟩
  cases Moves.of_step hi.toCalls hs with
  | write | stored | load => exact ⟨keep (by rw [hposition]; rfl) rfl, by simp⟩
  | @quiet a me g hs hme hcalled =>
    refine ⟨keep ?_ rfl, ?_⟩
    · rw [hposition]
      cases a <;> rfl
    · cases a <;> simp [quiet]
  | @create u hu =>
    have hne : r ≠ u := fun heq => by simp [← heq, hy] at hu
    refine ⟨keep ?_ (Function.update_of_ne hne ..), by simp⟩
    rw [hposition]
    exact Function.update_of_ne hne ..
  | @copy u other x g hu hother hs =>
    have hne : r ≠ u := fun heq => by simp [← heq, hy] at hu
    refine ⟨keep ?_ (Function.update_of_ne hne ..), by simp⟩
    rw [hposition]
    exact Function.update_of_ne hne ..
  | @call u x c m hu hpc' =>
    refine ⟨?_, by simp⟩
    by_cases hne : r = u
    · subst hne
      have hpos : position (queueEvents (es ++ [⟨.reader r .silent, none⟩])) r =
          position (queueEvents es) r := by
        rw [hposition]
        rfl
      exact ⟨hpos ▸ hlt.trans_le (heard_le hpos), _, Function.update_self .., by simp⟩
    · exact keep (by rw [hposition]; rfl) (Function.update_of_ne hne ..)
  | @update u x hu hready =>
    have hne : r ≠ u := by
      rintro rfl
      obtain rfl := Option.some.inj (hy.symm.trans hu)
      exact hpc hready
    refine ⟨keep ?_ (Function.update_of_ne hne ..), by simp⟩
    rw [hposition]
    exact Function.update_of_ne hne ..
  | @loaded u x c m p seq0 t₀ t₁ got g hx hpc' hlocal hm =>
    obtain ⟨k, ht, hheard, hfinishes⟩ := hi.finishes hr hshift hfew (c := c) hx hlocal hm
    obtain ⟨hne, -⟩ := (hi.readers u x hx).finishes hfinishes
    by_cases hru : r = u
    · subst hru
      obtain ⟨hready, hadvance, hread⟩ := hfinishes.overtaken (hlt.trans_le hheard)
      refine ⟨⟨?_, _, Function.update_self .., hready⟩, fun m heq => ?_⟩
      · have hpos := position_unmoved (queueEvents es) r hne hadvance
        rw [queueEvents_snoc, hpos]
        exact hlt.trans_le (heard_le (by rw [queueEvents_snoc, hpos]))
      · exact hread m (by simpa using heq)
    · refine ⟨keep ?_ (Function.update_of_ne hru ..), by simp [Ne.symm hru]⟩
      rw [queueEvents_snoc, position_reader hne]
      exact Function.update_of_ne hru ..

theorem Overtaken.of_path {fs : List (Event Rid)} (h : Overtaken P es s r)
    (hr : (machine P Rid).Run es s) (hshift : 2 ^ P.getSeqRightShiftValue = P.getBufferSize)
    (hp : (machine P Rid).Path s fs s')
    (hfew : Few P (written (queueEvents (es ++ fs))).length) :
    Overtaken P (es ++ fs) s' r ∧ ∀ m me, ⟨.reader r (.read m), me⟩ ∉ fs := by
  induction hp with
  | nil =>
    rw [List.append_nil]
    exact ⟨h, fun m me hmem => by cases hmem⟩
  | @snoc u u' fs e hp hs ih =>
    rw [← List.append_assoc] at hfew ⊢
    have hfew' := few_of_append hfew
    obtain ⟨hu, hfs⟩ := ih hfew'
    have hrun := Machine.Path.trans hr hp
    obtain ⟨hu', he⟩ := hu.step (.of_run hrun hshift hfew') hrun hshift hfew' hs
    refine ⟨hu', fun m me hmem => ?_⟩
    rcases List.mem_append.mp hmem with hmem | hmem
    · exact hfs m me hmem
    · obtain rfl := List.mem_singleton.mp hmem
      exact he m rfl

theorem Inv.finished (h : Inv P es s) (hr : (machine P Rid).Run es s)
    (hshift : 2 ^ P.getSeqRightShiftValue = P.getBufferSize)
    (hfew : Few P (written (queueEvents es)).length) {e : ReaderEvent}
    {me : Option (MemoryEvent Rid)} (hs : (machine P Rid).Step s ⟨.reader r e, me⟩ s')
    (he : e ≠ .silent ∧ e ≠ .created ∧ e ≠ .updated) :
    ∃ x x' k, s'.readers r = some x' ∧ heard P es r ≤ k ∧
      Finishes P (written (queueEvents es)) (position (queueEvents es) r) k x x' e ∧
      (e.advance = 0 → position (queueEvents (es ++ [⟨.reader r e, me⟩])) r =
        position (queueEvents es) r ∧ k ≤ heard P (es ++ [⟨.reader r e, me⟩]) r) := by
  generalize hq : BoundedMulticastQueue.Event.reader r e = q at hs
  generalize hev : (⟨q, me⟩ : Event Rid) = f at hs
  cases Moves.of_step h.toCalls hs with
  | write | stored | copy => cases hev; cases hq
  | create => cases hev; cases hq; exact absurd rfl he.2.1
  | call | load => cases hev; cases hq; exact absurd rfl he.1
  | update => cases hev; cases hq; exact absurd rfl he.2.2
  | @quiet a =>
    cases hev
    cases a <;> cases hq
    exact absurd rfl he.1
  | @loaded u x c m p seq0 t₀ t₁ got g hx hpc hlocal hm =>
    obtain ⟨rfl, rfl⟩ := Event.mk.inj hev
    obtain ⟨rfl, rfl⟩ := BoundedMulticastQueue.Event.reader.inj hq
    obtain ⟨k, rfl, hheard, hfinishes⟩ := h.finishes hr hshift hfew (c := c) hx hlocal hm
    have hplaced := h.readers r x hx
    refine ⟨x, _, k, Function.update_self .., hheard, hfinishes, fun hadvance => ?_⟩
    have hpos := position_unmoved (queueEvents es) r he.2.1 hadvance
    refine ⟨by rw [queueEvents_snoc, hpos], ?_⟩
    rw [heard, queueEvents_snoc, hpos, ledger_memoryEvents_snoc rfl, ← hplaced.indexed.head]
    calc k = 2 * k / 2 := (Nat.mul_div_cancel_left k (by decide)).symm
      _ ≤ _ := SeqLockViews.le_known_loaded

/-- Every reader gets the messages in order, and learns it when it has missed one; it is made
to wait only by a message of which its thread has not heard. -/
theorem delivers (hr : (machine P Rid).Run es s) (hsize : P.getBufferSize < 2 ^ 32)
    (hfew : Few P (written (queueEvents es)).length) : Delivers P es := by
  have hshift := getSeqRightShiftValue_of_lt hsize
  have at_reader : ∀ {fs gs : List (Event Rid)} {r : Rid} {e : ReaderEvent}
      {me : Option (MemoryEvent Rid)}, es = fs ++ ⟨.reader r e, me⟩ :: gs →
      (e ≠ .silent ∧ e ≠ .created ∧ e ≠ .updated) →
      ∃ u x x' k, (machine P Rid).Run (fs ++ [⟨.reader r e, me⟩]) u ∧
        (machine P Rid).Path u gs s ∧ u.readers r = some x' ∧ heard P fs r ≤ k ∧
        Finishes P (written (queueEvents fs)) (position (queueEvents fs) r) k x x' e ∧
        (e.advance = 0 → position (queueEvents (fs ++ [⟨.reader r e, me⟩])) r =
          position (queueEvents fs) r ∧ k ≤ heard P (fs ++ [⟨.reader r e, me⟩]) r) := by
    intro fs gs r e me hes he
    subst hes
    obtain ⟨u, u', hfs, hs, hp⟩ := hr.at_event
    have hfew' := few_of_append hfew
    obtain ⟨x, x', k, hrest⟩ :=
      (Inv.of_run hfs hshift hfew').finished hfs hshift hfew' hs he
    exact ⟨u', x, x', k, hfs.snoc hs, hp, hrest⟩
  have after : ∀ {fs gs : List (Event Rid)} {r : Rid} {e : ReaderEvent}
      {me : Option (MemoryEvent Rid)} {u : State Rid}, es = fs ++ ⟨.reader r e, me⟩ :: gs →
      (machine P Rid).Run (fs ++ [⟨.reader r e, me⟩]) u → (machine P Rid).Path u gs s →
      Overtaken P (fs ++ [⟨.reader r e, me⟩]) u r →
      ∀ m me', ⟨.reader r (.read m), me'⟩ ∉ gs := by
    intro fs gs r e me u hes hrun hp hover
    refine (hover.of_path hrun hshift hp ?_).2
    rwa [List.append_assoc, List.singleton_append, ← hes]
  constructor
  case ordered => exact (consistent (memory_of_run hr)).ordered
  case read =>
    intro fs gs r m me hes
    obtain ⟨_, _, _, _, -, -, -, -, hfinishes, -⟩ := at_reader hes (by simp)
    cases hfinishes with
    | read hm => exact hm
  case late =>
    intro fs gs r me hes
    obtain ⟨_, _, _, _, -, -, -, -, hfinishes, -⟩ := at_reader hes (by simp)
    cases hfinishes with
    | late hlt => exact hlt
  case current =>
    intro fs gs r m me hes
    obtain ⟨_, _, _, _, -, -, -, -, hfinishes, -⟩ := at_reader hes (by simp)
    cases hfinishes with
    | current hm => exact hm
    | newer hpositive => exact absurd hpositive (lt_irrefl 0)
    | older hneg => exact absurd hneg (lt_irrefl 0)
  case newer =>
    intro fs gs r result m me hes hpositive
    obtain ⟨_, _, _, _, -, -, -, -, hfinishes, -⟩ := at_reader hes (by simp)
    cases hfinishes with
    | current => exact absurd hpositive (lt_irrefl 0)
    | newer _ hlt _ => exact hlt
    | older hneg => omega
  case older =>
    intro fs gs r result m me hes hneg
    obtain ⟨_, _, _, _, -, -, -, hheard, hfinishes, -⟩ := at_reader hes (by simp)
    cases hfinishes with
    | current => exact absurd hneg (lt_irrefl 0)
    | newer hpositive => omega
    | older _ hk => exact hheard.trans hk
  case afterLate =>
    intro fs gs r m me me' hes
    obtain ⟨u, x, x', k, hrun, hp, hx', -, hfinishes, hafter⟩ := at_reader hes (by simp)
    obtain ⟨hpos, hk⟩ := hafter rfl
    cases hfinishes with
    | late _ hlt =>
      exact after hes hrun hp ⟨hpos ▸ hlt.trans_le hk, _, hx', by simp⟩ m me'
  case afterNewer =>
    intro fs gs r result m me m' me' hes hpositive
    obtain ⟨u, x, x', k, hrun, hp, hx', -, hfinishes, hafter⟩ := at_reader hes (by simp)
    obtain ⟨hpos, hk⟩ := hafter rfl
    cases hfinishes with
    | current => exact absurd hpositive (lt_irrefl 0)
    | newer _ _ hlt =>
      exact after hes hrun hp ⟨hpos ▸ hlt.trans_le hk, _, hx', by simp⟩ m' me'
    | older hneg => omega

theorem exists_stale_run : ∃ es, ∃ s : State Unit, (machine pairParams Unit).Run es s ∧
    written (queueEvents es) = [[5]] ∧ .reader () (.tried (-2) []) ∈ queueEvents es ∧
      .reader () (.read [5]) ∈ queueEvents es := by
  have hresult : int32 0 - int32 2 = -2 := by decide
  rw [← hresult]
  refine ⟨([⟨.reader () .created, none⟩,
        ⟨.writer (.writing [5]), some (.writer, .called (.store 0 (writes [5])))⟩] ++
        List.replicate 5 ⟨.writer .silent, some (.writer, .silent)⟩ ++
        [⟨.writer (.written [5]), some (.writer, .stored 0 (writes [5]))⟩]) ++
      (([⟨.reader () .silent, none⟩,
        ⟨.reader () .silent, some (.reader (), .called (.load 0 plan))⟩] ++
        List.replicate 3 ⟨.reader () .silent, some (.reader (), .silent)⟩ ++
        [⟨.reader () (.tried (int32 0 - int32 2) []),
          some (.reader (), .loaded 0 plan 0 0 [0])⟩]) ++
      ([⟨.reader () .silent, none⟩,
        ⟨.reader () .silent, some (.reader (), .called (.load 0 plan))⟩] ++
        List.replicate 4 ⟨.reader () .silent, some (.reader (), .silent)⟩ ++
        [⟨.reader () (.read [5]), some (.reader (), .loaded 0 plan 2 2 [1, 5])⟩])), _,
    Machine.Path.trans (.of_exec ([.create (), .write ⟨fun _ => 5, 1⟩] ++
        List.replicate 6 (.step .writer 0 false)) rfl) (Machine.Path.trans
      (.of_exec ([.call () .tryRead ⟨fun _ => 0, 0⟩, .load ()] ++
        List.replicate 4 (.step (.reader ()) 0 false)) rfl)
      (.of_exec [.call () .read ⟨fun _ => 0, 0⟩, .load (), .step (.reader ()) 2 false,
        .step (.reader ()) 1 false, .step (.reader ()) 1 false, .step (.reader ()) 0 false,
        .step (.reader ()) 2 false] rfl)),
    rfl, by simp [queueEvents], by simp [queueEvents]⟩

theorem delivers_stale : ∃ es, ∃ s : State Unit, (machine pairParams Unit).Run es s ∧
    written (queueEvents es) = [[5]] ∧ .reader () (.tried (-2) []) ∈ queueEvents es ∧
      .reader () (.read [5]) ∈ queueEvents es ∧ Delivers pairParams es := by
  obtain ⟨es, s, hr, hwritten, hmissed, hread⟩ := exists_stale_run
  refine ⟨es, s, hr, hwritten, hmissed, hread, delivers hr ?_ ?_⟩
  · rw [pairParams_size]
    decide
  · rw [hwritten, Few, pairParams_size]
    decide

end
end LockFree.MulticastViews
