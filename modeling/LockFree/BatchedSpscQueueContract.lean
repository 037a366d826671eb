import LockFree.BatchedSpscQueue

/-!
# How BatchedBoundedSPSCQueue breaks its contract

A slot whose own `head_` has moved while its `tail_` is still 0 looks full, and nothing
but further dequeues, 2^64 in all, makes it look empty again. So every run goes on to one
that has dequeued more than was emplaced.
-/

namespace LockFree.BatchedSpscQueue
open BufferSize RingWindow TransitionRuns

variable {R : Ring} {T : Type*}

def Producer.Ok (R : Ring) (seenHead tail : ℕ) : Producer R T → Prop
  | .idle | .loadTail _ => True
  | .loadHead _ i => i = R.index tail
  | .construct _ i => i = R.index tail ∧ tail + 1 < seenHead + R.size
  | .storeTail _ i => i = R.index (tail + 1) ∧ tail + 1 < seenHead + R.size

def Consumer.Ok (R : Ring) (count moved seenTail : ℕ) : Consumer R → Prop
  | .idle | .loadHead _ => True
  | .loadTail _ i => i = R.index moved ∧ count = 0
  | .storeHead _ i => i = R.index (moved + 1) ∧ moved < seenTail ∧ count = 0

def State.count (s : State R T) : ℕ := (s.buffer s.head).head

structure Inv (es : List (Event R T)) (seenHead moved seenTail : ℕ) (s : State R T) : Prop where
  head : s.head = R.index moved
  tail : s.tail = R.index (emplaced es).length
  cachedHead : s.cachedHead = R.index seenHead
  cachedTail : s.cachedTail = R.index seenTail
  window : Window R seenHead moved seenTail (emplaced es).length
  producer : s.producer.Ok R seenHead (emplaced es).length
  consumer : s.consumer.Ok R s.count moved seenTail
  unraised : ∀ i, (s.buffer i).tail = 0
  fresh : ∀ i, i ≠ s.head → (s.buffer i).head = 0

variable {es : List (Event R T)} {s s' : State R T} {seenHead moved seenTail : ℕ} {e : Event R T}

theorem emplaced_silent (es : List (Event R T)) (he : e.emplaced? = none) :
    emplaced (es ++ [e]) = emplaced es := by
  simp [emplaced, he]

theorem Inv.producer_local (h : Inv es seenHead moved seenTail s) {cachedHead : Fin R.size}
    {seenHead' : ℕ} {p : Producer R T} (he : e.emplaced? = none)
    (hc : cachedHead = R.index seenHead')
    (hw : Window R seenHead' moved seenTail (emplaced es).length)
    (hp : p.Ok R seenHead' (emplaced es).length) :
    Inv (es ++ [e]) seenHead' moved seenTail { s with cachedHead := cachedHead, producer := p } := by
  constructor
  all_goals simp only [emplaced_silent es he]
  case head => exact h.head
  case tail => exact h.tail
  case cachedHead => exact hc
  case cachedTail => exact h.cachedTail
  case window => exact hw
  case producer => exact hp
  case consumer => exact h.consumer
  case unraised => exact h.unraised
  case fresh => exact h.fresh

theorem Inv.consumer_local (h : Inv es seenHead moved seenTail s) {cachedTail : Fin R.size}
    {seenTail' : ℕ} {c : Consumer R} (he : e.emplaced? = none)
    (hc : cachedTail = R.index seenTail')
    (hw : Window R seenHead moved seenTail' (emplaced es).length)
    (hok : c.Ok R s.count moved seenTail') :
    Inv (es ++ [e]) seenHead moved seenTail'
      { s with cachedTail := cachedTail, consumer := c } := by
  constructor
  all_goals simp only [emplaced_silent es he]
  case head => exact h.head
  case tail => exact h.tail
  case cachedHead => exact h.cachedHead
  case cachedTail => exact hc
  case window => exact hw
  case producer => exact h.producer
  case consumer => exact hok
  case unraised => exact h.unraised
  case fresh => exact h.fresh

theorem Inv.construct (h : Inv es seenHead moved seenTail s) {v : T} {i : Fin R.size}
    (hp : s.producer = .construct v i) :
    Inv (es ++ [.constructed ⟨i, 0⟩ v]) seenHead moved seenTail
      { s with
        buffer := Function.update s.buffer i ((s.buffer i).construct v),
        producer := .storeTail v (nextIndex i) } := by
  have hok := h.producer
  rw [hp] at hok
  obtain ⟨rfl, hroom⟩ := hok
  have hem := emplaced_silent es (e := .constructed ⟨R.index (emplaced es).length, 0⟩ v) rfl
  have hsame : ∀ j, (Function.update s.buffer (R.index (emplaced es).length)
      ((s.buffer (R.index (emplaced es).length)).construct v) j).head = (s.buffer j).head ∧
      (Function.update s.buffer (R.index (emplaced es).length)
        ((s.buffer (R.index (emplaced es).length)).construct v) j).tail = (s.buffer j).tail := by
    intro j
    rcases eq_or_ne j (R.index (emplaced es).length) with rfl | hj
    · rw [Function.update_self]
      exact ⟨rfl, rfl⟩
    · rw [Function.update_of_ne hj]
      exact ⟨rfl, rfl⟩
  constructor
  all_goals simp only [hem, State.count, hsame]
  case head => exact h.head
  case tail => exact h.tail
  case cachedHead => exact h.cachedHead
  case cachedTail => exact h.cachedTail
  case window => exact h.window
  case producer => exact ⟨nextIndex_index _, hroom⟩
  case consumer => exact h.consumer
  case unraised => exact h.unraised
  case fresh => exact h.fresh

theorem Inv.storeTail (h : Inv es seenHead moved seenTail s) {v : T} {i : Fin R.size}
    (hp : s.producer = .storeTail v i) :
    Inv (es ++ [.emplaced v]) seenHead moved seenTail { s with tail := i, producer := .idle } := by
  have hem : (emplaced (es ++ [.emplaced v])).length = (emplaced es).length + 1 := by
    simp [emplaced, Event.emplaced?]
  have hok := h.producer
  rw [hp] at hok
  obtain ⟨rfl, hroom⟩ := hok
  constructor
  all_goals simp only [hem]
  case head => exact h.head
  case cachedHead => exact h.cachedHead
  case cachedTail => exact h.cachedTail
  case window => exact h.window.storeTail hroom
  case producer => trivial
  case consumer => exact h.consumer
  case unraised => exact h.unraised
  case fresh => exact h.fresh

theorem Inv.storeHead (h : Inv es seenHead moved seenTail s) {d : Demand} {i : Fin R.size}
    (hc : s.consumer = .storeHead d i) :
    Inv es seenHead (moved + 1) seenTail { s with head := i, consumer := .idle } := by
  have hok := h.consumer
  rw [hc] at hok
  obtain ⟨rfl, hlt, hzero⟩ := hok
  refine ⟨rfl, h.tail, h.cachedHead, h.cachedTail, h.window.storeHead hlt, h.producer, trivial,
    h.unraised, fun j _ => ?_⟩
  rcases eq_or_ne j s.head with rfl | hj
  · exact hzero
  · exact h.fresh j hj

theorem Inv.finish (h : Inv es seenHead moved seenTail s) (d : Demand) :
    Inv (es ++ [(finish s d s.head).2]) seenHead moved seenTail (finish s d s.head).1 := by
  cases d with
  | front | isEmptyConsumer => exact h.consumer_local rfl h.cachedTail h.window trivial
  | dequeue =>
    have hem := emplaced_silent es (e := .dequeued) rfl
    constructor
    all_goals simp only [BatchedSpscQueue.finish, hem]
    case head => exact h.head
    case tail => exact h.tail
    case cachedHead => exact h.cachedHead
    case cachedTail => exact h.cachedTail
    case window => exact h.window
    case producer => exact h.producer
    case consumer => trivial
    case unraised =>
      intro j
      rcases eq_or_ne j s.head with rfl | hj
      · rw [Function.update_self]
        exact h.unraised s.head
      · rw [Function.update_of_ne hj]
        exact h.unraised j
    case fresh =>
      intro j hj
      rw [Function.update_of_ne hj]
      exact h.fresh j hj

theorem Inv.call (h : Inv es seenHead moved seenTail s) {c : Call T} (hn : callNext s c = some s') :
    Inv (es ++ [.called c]) seenHead moved seenTail s' := by
  cases c with
  | emplace v =>
    simp only [callNext] at hn
    split at hn <;> cases hn
    exact h.producer_local rfl h.cachedHead h.window trivial
  | demand d =>
    simp only [callNext] at hn
    split at hn <;> cases hn
    exact h.consumer_local rfl h.cachedTail h.window trivial

theorem Inv.producerNext (h : Inv es seenHead moved seenTail s)
    (hn : producerNext s = some (s', e)) :
    ∃ seenHead', Inv (es ++ [e]) seenHead' moved seenTail s' := by
  have hok := h.producer
  rw [BatchedSpscQueue.producerNext] at hn
  cases hp : s.producer with
  | idle => simp [hp] at hn
  | loadTail v =>
    simp only [hp] at hn
    split at hn <;> cases hn
    · exact ⟨seenHead, h.producer_local rfl h.cachedHead h.window h.tail⟩
    · rename_i hne
      rw [h.tail, h.cachedHead, nextIndex_index] at hne
      exact ⟨seenHead, h.producer_local rfl h.cachedHead h.window ⟨h.tail, h.window.room hne⟩⟩
  | loadHead v i =>
    rw [hp] at hok
    obtain rfl : i = R.index (emplaced es).length := hok
    simp only [hp, nextIndex_index] at hn
    split at hn <;> cases hn
    · exact ⟨_, h.producer_local rfl h.head h.window.loadHead trivial⟩
    · rename_i hne
      rw [h.head] at hne
      exact ⟨_, h.producer_local rfl h.head h.window.loadHead ⟨rfl, h.window.loadHead.room hne⟩⟩
  | construct v i =>
    rw [hp] at hn
    cases hn
    exact ⟨seenHead, h.construct hp⟩
  | storeTail v i =>
    rw [hp] at hn
    cases hn
    exact ⟨seenHead, h.storeTail hp⟩

theorem Inv.isEmpty_iff (h : Inv es seenHead moved seenTail s) :
    (s.buffer s.head).isEmpty = true ↔ s.count = 0 := by
  rw [Slot.isEmpty, h.unraised, beq_iff_eq, State.count]

theorem Inv.consumerNext (h : Inv es seenHead moved seenTail s)
    (hn : consumerNext s = some (s', e)) :
    ∃ moved' seenTail', Inv (es ++ [e]) seenHead moved' seenTail' s' := by
  have hok := h.consumer
  rw [BatchedSpscQueue.consumerNext] at hn
  cases hc : s.consumer with
  | idle => simp [hc] at hn
  | loadHead d =>
    simp only [hc, h.isEmpty_iff] at hn
    split at hn
    · rename_i hzero
      split at hn <;> cases hn
      · exact ⟨moved, seenTail, h.consumer_local rfl h.cachedTail h.window ⟨h.head, hzero⟩⟩
      · rename_i hne
        rw [h.head, h.cachedTail] at hne
        refine ⟨moved, seenTail, h.consumer_local rfl h.cachedTail h.window
          ⟨?_, h.window.seen_ne hne, hzero⟩⟩
        rw [h.head, nextIndex_index]
    · have h' := h.finish d
      rw [Option.some.inj hn] at h'
      exact ⟨moved, seenTail, h'⟩
  | loadTail d i =>
    rw [hc] at hok
    obtain ⟨rfl, hzero⟩ := hok
    simp only [hc] at hn
    split at hn <;> cases hn
    · exact ⟨moved, _, h.consumer_local rfl h.tail h.window.loadTail trivial⟩
    · rename_i hne
      rw [h.tail] at hne
      exact ⟨moved, _, h.consumer_local rfl h.tail h.window.loadTail
        ⟨nextIndex_index _, h.window.loadTail.seen_ne hne, hzero⟩⟩
  | storeHead d i =>
    simp only [hc] at hn
    have h' := (h.storeHead hc).finish d
    cases d <;> cases hn <;> exact ⟨moved + 1, seenTail, h'⟩

theorem Inv.start (buffer : Fin R.size → Fin kDefaultSlotSize → T) :
    Inv [] 0 0 0 (machine R buffer).start where
  head := rfl
  tail := rfl
  cachedHead := rfl
  cachedTail := rfl
  window := Window.empty R
  producer := trivial
  consumer := trivial
  unraised _ := rfl
  fresh _ _ := rfl

variable {buffer : Fin R.size → Fin kDefaultSlotSize → T}

theorem Inv.of_run (hr : (machine R buffer).Run es s) :
    ∃ seenHead moved seenTail, Inv es seenHead moved seenTail s := by
  refine Machine.Run.invariant (I := fun es s => ∃ seenHead moved seenTail,
    Inv es seenHead moved seenTail s) ⟨0, 0, 0, Inv.start buffer⟩ (fun es s e s' _ ih hs => ?_) hr
  obtain ⟨seenHead, moved, seenTail, h⟩ := ih
  rcases step_cases hs with ⟨c, rfl, hn⟩ | hn | hn
  · exact ⟨seenHead, moved, seenTail, h.call hn⟩
  · obtain ⟨seenHead', h'⟩ := h.producerNext hn
    exact ⟨seenHead', moved, seenTail, h'⟩
  · obtain ⟨moved', seenTail', h'⟩ := h.consumerNext hn
    exact ⟨seenHead, moved', seenTail', h'⟩

def Producible (buffer : Fin R.size → Fin kDefaultSlotSize → T) (s : State R T) : Prop :=
  ∃ es s', (machine R buffer).Path s es s' ∧ s'.producer = .idle ∧ s'.consumer = s.consumer ∧
    s'.head ≠ s'.tail ∧ (emplaced es).length ≤ 1 ∧ dequeues es = 0

theorem Producible.of_step (hn : producerNext s = some (s', e)) (hc : s'.consumer = s.consumer)
    (he : e.emplaced? = none) (hd : e.isDequeued = false) (h : Producible buffer s') :
    Producible buffer s := by
  obtain ⟨es, u, hp, hidle, hsame, hne, hlength, hdequeues⟩ := h
  refine ⟨[e] ++ es, u, (Machine.Path.single ⟨.producer, hn⟩).trans hp, hidle, hsame.trans hc, hne,
    ?_, ?_⟩
  · simpa [emplaced, he] using hlength
  · simpa [dequeues, hd] using hdequeues

theorem producible_storeTail (hr : (machine R buffer).Run es s) {v : T} {i : Fin R.size}
    (hp : s.producer = .storeTail v i) : Producible buffer s := by
  obtain ⟨seenHead, moved, seenTail, h⟩ := Inv.of_run hr
  have hn : producerNext s = some ({ s with tail := i, producer := .idle }, .emplaced v) := by
    rw [producerNext, hp]
  refine ⟨[.emplaced v], _, .single ⟨.producer, hn⟩, rfl, rfl, ?_, le_rfl, rfl⟩
  have h' := h.storeTail hp
  have hlength : (emplaced (es ++ [.emplaced v])).length = (emplaced es).length + 1 := by
    simp [emplaced, Event.emplaced?]
  have htail := h'.tail
  rw [hlength] at htail
  have hw := h'.window
  rw [hlength] at hw
  dsimp only at htail ⊢
  rw [htail, h.head]
  exact hw.index_ne_tail le_rfl (Nat.lt_succ_of_le h.window.head_le)

theorem producible_construct (hr : (machine R buffer).Run es s) {v : T} {i : Fin R.size}
    (hp : s.producer = .construct v i) : Producible buffer s := by
  have hn : producerNext s = some ({ s with
      buffer := Function.update s.buffer i ((s.buffer i).construct v),
      producer := .storeTail v (nextIndex i) }, .constructed ⟨i, 0⟩ v) := by
    rw [producerNext, hp]
  exact .of_step hn rfl rfl rfl (producible_storeTail (hr.snoc ⟨.producer, hn⟩) rfl)

theorem producible_loadHead (hr : (machine R buffer).Run es s) {v : T} {i : Fin R.size}
    (hp : s.producer = .loadHead v i) : Producible buffer s := by
  obtain ⟨seenHead, moved, seenTail, h⟩ := Inv.of_run hr
  have hok := h.producer
  rw [hp] at hok
  obtain rfl : i = R.index (emplaced es).length := hok
  by_cases hfull : nextIndex (R.index (emplaced es).length) = s.head
  · have hn : producerNext s =
        some ({ s with cachedHead := s.head, producer := .idle }, .refused) := by
      simp only [producerNext, hp, if_pos hfull]
    refine ⟨[.refused], _, .single ⟨.producer, hn⟩, rfl, rfl, ?_, Nat.zero_le _, rfl⟩
    -- all slots but one are published
    dsimp only
    rw [nextIndex_index, h.head] at hfull
    have hroom := h.window.full hfull
    have := R.eight_le_size
    rw [h.head, h.tail]
    exact h.window.index_ne_tail le_rfl (by omega)
  · have hn : producerNext s = some ({ s with
        cachedHead := s.head, producer := .construct v (R.index (emplaced es).length) },
        .silent) := by
      simp only [producerNext, hp, if_neg hfull]
    exact .of_step hn rfl rfl rfl (producible_construct (hr.snoc ⟨.producer, hn⟩) rfl)

theorem producible (hr : (machine R buffer).Run es s) (hp : s.producer ≠ .idle) :
    Producible buffer s := by
  cases hc : s.producer with
  | idle => exact absurd hc hp
  | loadTail v =>
    by_cases hfull : nextIndex s.tail = s.cachedHead
    · have hn : producerNext s = some ({ s with producer := .loadHead v s.tail }, .silent) := by
        simp only [producerNext, hc, if_pos hfull]
      exact .of_step hn rfl rfl rfl (producible_loadHead (hr.snoc ⟨.producer, hn⟩) rfl)
    · have hn : producerNext s = some ({ s with producer := .construct v s.tail }, .silent) := by
        simp only [producerNext, hc, if_neg hfull]
      exact .of_step hn rfl rfl rfl (producible_construct (hr.snoc ⟨.producer, hn⟩) rfl)
  | loadHead v i => exact producible_loadHead hr hc
  | construct v i => exact producible_construct hr hc
  | storeTail v i => exact producible_storeTail hr hc

def Consumer.demand : Consumer R → Option Demand
  | .idle => none
  | .loadHead d | .loadTail d _ | .storeHead d _ => some d

def State.Finds (s : State R T) : Prop := s.count ≠ 0 ∨ s.head ≠ s.tail

def Consumable (buffer : Fin R.size → Fin kDefaultSlotSize → T) (s : State R T) : Prop :=
  ∃ es s', (machine R buffer).Path s es s' ∧ s'.consumer = .idle ∧ s'.producer = s.producer ∧
    emplaced es = [] ∧ (s.consumer.demand = some .dequeue → s.Finds →
      dequeues es = 1 ∧ (s.head ≠ s.tail → s'.Finds))

theorem Consumable.of_step {cachedTail : Fin R.size} {c : Consumer R}
    (hn : consumerNext s = some ({ s with cachedTail := cachedTail, consumer := c }, .silent))
    (hc : c.demand = s.consumer.demand)
    (h : Consumable buffer { s with cachedTail := cachedTail, consumer := c }) :
    Consumable buffer s := by
  obtain ⟨es, u, hp, hidle, hproducer, hemplaced, hdequeues⟩ := h
  refine ⟨[.silent] ++ es, u, (Machine.Path.single ⟨.consumer, hn⟩).trans hp, hidle, hproducer,
    ?_, fun hd hfinds => ?_⟩
  · simpa [emplaced, Event.emplaced?] using hemplaced
  · simpa [dequeues, Event.isDequeued] using hdequeues (hc.trans hd) hfinds

theorem Inv.count_next (h : Inv es seenHead moved seenTail s) {d : Demand} {i : Fin R.size}
    (hc : s.consumer = .storeHead d i) : (s.buffer i).head = 0 := by
  have hok := h.consumer
  rw [hc] at hok
  obtain ⟨rfl, hlt, -⟩ := hok
  refine h.fresh _ fun heq => ?_
  rw [h.head, h.window.index_inj (by omega) (hlt.trans_le h.window.seenTail_le) le_rfl
    h.window.head_le] at heq
  omega

theorem consumable_storeHead (hr : (machine R buffer).Run es s) {d : Demand} {i : Fin R.size}
    (hc : s.consumer = .storeHead d i) : Consumable buffer s := by
  obtain ⟨seenHead, moved, seenTail, h⟩ := Inv.of_run hr
  have hn : consumerNext s = some (finish { s with head := i } d i) := by rw [consumerNext, hc]
  cases d with
  | front | isEmptyConsumer =>
    refine ⟨_, _, .single ⟨.consumer, hn⟩, rfl, rfl, rfl, fun hd => ?_⟩
    rw [hc] at hd
    cases hd
  | dequeue =>
    refine ⟨_, _, .single ⟨.consumer, hn⟩, rfl, rfl, rfl, fun _ _ => ⟨rfl, fun _ => .inl ?_⟩⟩
    simp [State.count, Slot.dequeue, h.count_next hc]

theorem consumable_loadTail (hr : (machine R buffer).Run es s) {d : Demand} {i : Fin R.size}
    (hc : s.consumer = .loadTail d i) : Consumable buffer s := by
  obtain ⟨seenHead, moved, seenTail, h⟩ := Inv.of_run hr
  have hok := h.consumer
  rw [hc] at hok
  obtain ⟨rfl, hzero⟩ := hok
  by_cases hempty : R.index moved = s.tail
  · have hn : consumerNext s =
        some ({ s with cachedTail := s.tail, consumer := .idle }, .empty d) := by
      simp only [consumerNext, hc, if_pos hempty]
    refine ⟨_, _, .single ⟨.consumer, hn⟩, rfl, rfl, rfl, fun _ hfinds => ?_⟩
    rcases hfinds with hcount | hne
    · exact absurd hzero hcount
    · exact absurd (h.head.trans hempty) hne
  · have hn : consumerNext s = some ({ s with
        cachedTail := s.tail, consumer := .storeHead d (nextIndex (R.index moved)) }, .silent) := by
      simp only [consumerNext, hc, if_neg hempty]
    exact .of_step hn (by rw [hc]; rfl) (consumable_storeHead (hr.snoc ⟨.consumer, hn⟩) rfl)

theorem consumable_loadHead (hr : (machine R buffer).Run es s) {d : Demand}
    (hc : s.consumer = .loadHead d) : Consumable buffer s := by
  obtain ⟨seenHead, moved, seenTail, h⟩ := Inv.of_run hr
  by_cases hcount : s.count = 0
  · by_cases hseen : s.head = s.cachedTail
    · have hn : consumerNext s = some ({ s with consumer := .loadTail d s.head }, .silent) := by
        simp only [consumerNext, hc, h.isEmpty_iff, if_pos hcount, if_pos hseen]
      exact .of_step hn (by rw [hc]; rfl) (consumable_loadTail (hr.snoc ⟨.consumer, hn⟩) rfl)
    · have hn : consumerNext s =
          some ({ s with consumer := .storeHead d (nextIndex s.head) }, .silent) := by
        simp only [consumerNext, hc, h.isEmpty_iff, if_pos hcount, if_neg hseen]
      exact .of_step hn (by rw [hc]; rfl) (consumable_storeHead (hr.snoc ⟨.consumer, hn⟩) rfl)
  · have hn : consumerNext s = some (finish s d s.head) := by
      simp only [consumerNext, hc, h.isEmpty_iff, if_neg hcount]
    cases d with
    | front | isEmptyConsumer =>
      refine ⟨_, _, .single ⟨.consumer, hn⟩, rfl, rfl, rfl, fun hd => ?_⟩
      rw [hc] at hd
      cases hd
    | dequeue => exact ⟨_, _, .single ⟨.consumer, hn⟩, rfl, rfl, rfl, fun _ _ => ⟨rfl, .inr⟩⟩

theorem consumable (hr : (machine R buffer).Run es s) : Consumable buffer s := by
  cases hc : s.consumer with
  | idle =>
    refine ⟨[], s, .nil s, hc, rfl, rfl, fun hd => ?_⟩
    rw [hc] at hd
    cases hd
  | loadHead d => exact consumable_loadHead hr hc
  | loadTail d i => exact consumable_loadTail hr hc
  | storeHead d i => exact consumable_storeHead hr hc

def State.Rests (s : State R T) : Prop := s.producer = .idle ∧ s.consumer = .idle

theorem emplaced_append (es fs : List (Event R T)) :
    emplaced (es ++ fs) = emplaced es ++ emplaced fs :=
  List.filterMap_append

theorem dequeues_append (es fs : List (Event R T)) :
    dequeues (es ++ fs) = dequeues es + dequeues fs :=
  List.countP_append

theorem dequeue_run (hr : (machine R buffer).Run es s) (hrests : s.Rests) (hfinds : s.Finds) :
    ∃ es' s', (machine R buffer).Run (es ++ es') s' ∧ s'.Rests ∧ emplaced es' = [] ∧
      dequeues es' = 1 ∧ (s.head ≠ s.tail → s'.Finds) := by
  have hcall : callNext s (.demand .dequeue) = some { s with consumer := .loadHead .dequeue } := by
    simp only [callNext, hrests.2]
  have hstep : (machine R buffer).Step s (.called (.demand .dequeue))
      { s with consumer := .loadHead .dequeue } :=
    ⟨.call (.demand .dequeue), Option.map_eq_some_iff.mpr ⟨_, hcall, rfl⟩⟩
  obtain ⟨fs, u, hp, hidle, hproducer, hemplaced, hdequeues⟩ := consumable (hr.snoc hstep)
  obtain ⟨hone, hleft⟩ := hdequeues rfl hfinds
  exact ⟨[.called (.demand .dequeue)] ++ fs, u, hr.trans ((Machine.Path.single hstep).trans hp),
    ⟨hproducer.trans hrests.1, hidle⟩, hemplaced, hone, hleft⟩

theorem emplace_run (hr : (machine R buffer).Run es s) (hrests : s.Rests) :
    ∃ es' s', (machine R buffer).Run (es ++ es') s' ∧ s'.Rests ∧ s'.head ≠ s'.tail ∧
      (emplaced es').length ≤ 1 ∧ dequeues es' = 0 := by
  have v : T := buffer (R.index 0) ⟨0, by decide⟩
  have hcall : callNext s (.emplace v) = some { s with producer := .loadTail v } := by
    simp only [callNext, hrests.1]
  have hstep : (machine R buffer).Step s (.called (.emplace v))
      { s with producer := .loadTail v } :=
    ⟨.call (.emplace v), Option.map_eq_some_iff.mpr ⟨_, hcall, rfl⟩⟩
  obtain ⟨fs, u, hp, hidle, hconsumer, hne, hemplaced, hdequeues⟩ :=
    producible (hr.snoc hstep) (fun hidle => by cases hidle)
  exact ⟨[.called (.emplace v)] ++ fs, u, hr.trans ((Machine.Path.single hstep).trans hp),
    ⟨hidle, hconsumer.trans hrests.2⟩, hne, hemplaced, hdequeues⟩

theorem rests_run (hr : (machine R buffer).Run es s) :
    ∃ es' s', (machine R buffer).Run (es ++ es') s' ∧ s'.Rests := by
  obtain ⟨es₁, s₁, hp₁, hconsumer, -⟩ := consumable hr
  by_cases hproducer : s₁.producer = .idle
  · exact ⟨es₁, s₁, hr.trans hp₁, hproducer, hconsumer⟩
  · obtain ⟨es₂, s₂, hp₂, hidle, hsame, -⟩ := producible (hr.trans hp₁) hproducer
    exact ⟨es₁ ++ es₂, s₂, hr.trans (hp₁.trans hp₂), hidle, hsame.trans hconsumer⟩

/-- One `Emplace` is good for two dequeues, also when it is refused. -/
theorem outruns_once (hr : (machine R buffer).Run es s) (hrests : s.Rests) :
    ∃ es' s', (machine R buffer).Run (es ++ es') s' ∧ s'.Rests ∧
      (emplaced es').length + 1 ≤ dequeues es' := by
  obtain ⟨es₁, s₁, hr₁, hrests₁, hne, hemplaced₁, hdequeues₁⟩ := emplace_run hr hrests
  obtain ⟨es₂, s₂, hr₂, hrests₂, hemplaced₂, hdequeues₂, hleft⟩ :=
    dequeue_run hr₁ hrests₁ (.inr hne)
  obtain ⟨es₃, s₃, hr₃, hrests₃, hemplaced₃, hdequeues₃, -⟩ :=
    dequeue_run hr₂ hrests₂ (hleft hne)
  refine ⟨es₁ ++ es₂ ++ es₃, s₃, ?_, hrests₃, ?_⟩
  · simpa only [List.append_assoc] using hr₃
  · simp only [emplaced_append, dequeues_append, hemplaced₂, hemplaced₃, List.append_nil]
    omega

theorem outruns (hr : (machine R buffer).Run es s) (hrests : s.Rests) (k : ℕ) :
    ∃ es' s', (machine R buffer).Run (es ++ es') s' ∧ s'.Rests ∧
      (emplaced es').length + k ≤ dequeues es' := by
  induction k with
  | zero => exact ⟨[], s, by simpa using hr, hrests, le_rfl⟩
  | succ k ih =>
    obtain ⟨es₁, s₁, hr₁, hrests₁, hmore₁⟩ := ih
    obtain ⟨es₂, s₂, hr₂, hrests₂, hmore₂⟩ := outruns_once hr₁ hrests₁
    refine ⟨es₁ ++ es₂, s₂, ?_, hrests₂, ?_⟩
    · simpa only [List.append_assoc] using hr₂
    · rw [emplaced_append, dequeues_append, List.length_append]
      omega

/-- Every run goes on to one that breaks the contract. -/
theorem contract_never (hr : (machine R buffer).Run es s) :
    ∃ es' s', (machine R buffer).Run (es ++ es') s' ∧ ¬ Contract (es ++ es') := by
  obtain ⟨es₁, s₁, hr₁, hrests⟩ := rests_run hr
  obtain ⟨es₂, s₂, hr₂, -, hmore⟩ := outruns hr₁ hrests ((emplaced (es ++ es₁)).length + 1)
  refine ⟨es₁ ++ es₂, s₂, ?_, fun h => ?_⟩
  · simpa only [List.append_assoc] using hr₂
  · have hle := h.dequeues_le
    rw [← List.append_assoc, emplaced_append, dequeues_append (es ++ es₁), List.length_append] at hle
    omega

theorem contract_never_two :
    ∃ es s, (machine .smallest fun _ _ => 0).Run es s ∧ emplaced es = [5, 6] ∧
      ∃ es' s', (machine .smallest fun _ _ => 0).Run (es ++ es') s' ∧ ¬ Contract (es ++ es') := by
  obtain ⟨s, hr⟩ : ∃ s, (machine .smallest fun _ _ => 0).Run [.called (enqueue 5), .silent,
      .constructed ⟨Ring.smallest.index 0, 0⟩ 5, .emplaced 5, .called (enqueue 6), .silent,
      .constructed ⟨Ring.smallest.index 1, 0⟩ 6, .emplaced 6, .called (.demand .front), .silent,
      .silent, .found .front ⟨Ring.smallest.index 1, 0⟩ (some 6)] s :=
    ⟨_, Machine.Path.of_exec [.call (enqueue 5), .producer, .producer, .producer,
      .call (enqueue 6), .producer, .producer, .producer, .call (.demand .front), .consumer,
      .consumer, .consumer] rfl⟩
  exact ⟨_, s, hr, rfl, contract_never hr⟩

theorem not_contract_one_emplaced :
    ∃ es s, (machine .smallest fun _ _ => 0).Run es s ∧ emplaced es = [5] ∧ dequeues es = 2 ∧
      ¬ Contract es := by
  obtain ⟨s, hr⟩ : ∃ s, (machine .smallest fun _ _ => 0).Run [.called (enqueue 5), .silent,
      .constructed ⟨Ring.smallest.index 0, 0⟩ 5, .emplaced 5, .called (.demand .dequeue), .silent,
      .silent, .dequeued, .called (.demand .dequeue), .dequeued] s :=
    ⟨_, Machine.Path.of_exec [.call (enqueue 5), .producer, .producer, .producer,
      .call (.demand .dequeue), .consumer, .consumer, .consumer, .call (.demand .dequeue),
      .consumer] rfl⟩
  refine ⟨_, s, hr, rfl, rfl, fun h => ?_⟩
  have := h.dequeues_le
  revert this
  decide

end LockFree.BatchedSpscQueue
