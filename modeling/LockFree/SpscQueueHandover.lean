import LockFree.SpscQueueOwnership

/-!
# BoundedSPSCQueue without a race

A thread with a stale index believes what was true when the index was stored, and that is
still enough: the window of the ring moves as it does over memory without stale loads.
-/

namespace LockFree.SpscQueueViews
open BufferSize RingWindow TransitionRuns ViewMemory
open SpscQueue (Role Query Demand Call Producer Consumer proceed proceed_ok)

variable {R : Ring} {T : Type*}

def Event.queue? : Event R T → Option (SpscQueue.Event R T)
  | .queue e => some e
  | _ => none

def Event.faulty : Event R T → Bool
  | .raced | .unordered => true
  | _ => false

def emplaced (es : List (Event R T)) : List T := SpscQueue.emplaced (es.filterMap Event.queue?)
def dequeued (es : List (Event R T)) : List T := SpscQueue.dequeued (es.filterMap Event.queue?)

structure Inv (es : List (Event R T)) (seenHead seenTail : ℕ) (s : State R T) : Prop where
  queue : SpscQueue.Inv (es.filterMap Event.queue?) seenHead seenTail s.latest
  head_last : s.head.last = (dequeued es).length
  tail_last : s.tail.last = (emplaced es).length
  knowledge : Knowledge seenHead seenTail s
  front : ∀ i, s.front = some i → i = R.index s.head.last ∧ s.head.last < seenTail

section
variable {es : List (Event R T)} {s s' : State R T} {seenHead seenTail t : ℕ}
  {v : Views (Location R)} {m : Message (Fin R.size) (Location R)}

theorem queue_append (es : List (Event R T)) (e : SpscQueue.Event R T) :
    (es ++ [Event.queue e]).filterMap Event.queue? = es.filterMap Event.queue? ++ [e] := by
  simp [Event.queue?]

theorem queue_append_other (es : List (Event R T)) {e : Event R T} (he : e.queue? = none) :
    (es ++ [e]).filterMap Event.queue? = es.filterMap Event.queue? := by
  simp [he]

theorem Inv.window (h : Inv es seenHead seenTail s) :
    Window R seenHead s.head.last seenTail s.tail.last := by
  rw [h.head_last, h.tail_last]
  exact h.queue.window

theorem Inv.latest_head (h : Inv es seenHead seenTail s) :
    s.head.latest = R.index s.head.last := h.head_last ▸ h.queue.head

theorem Inv.latest_tail (h : Inv es seenHead seenTail s) :
    s.tail.latest = R.index s.tail.last := h.tail_last ▸ h.queue.tail

theorem lengths_append {e : SpscQueue.Event R T} (he : e.emplaced? = none ∧ e.dequeued? = none) :
    dequeued (es ++ [.queue e]) = dequeued es ∧ emplaced (es ++ [.queue e]) = emplaced es := by
  constructor
  · rw [dequeued, queue_append, SpscQueue.dequeued_append]
    simp [SpscQueue.dequeued, he.2, dequeued]
  · rw [emplaced, queue_append, SpscQueue.emplaced_append]
    simp [SpscQueue.emplaced, he.1, emplaced]

theorem Inv.producerStep (h : Inv es seenHead seenTail s) {seenHead' : ℕ}
    {cachedHead : Fin R.size} {p : Producer R T} {e : SpscQueue.Event R T}
    (he : e.emplaced? = none ∧ e.dequeued? = none)
    (hk : Knowledge seenHead' seenTail { s with producerViews := v })
    (hw : Window R seenHead' s.head.last seenTail s.tail.last)
    (hc : cachedHead = R.index seenHead') (hp : p.Ok s.latest seenHead' s.tail.last) :
    Inv (es ++ [.queue e]) seenHead' seenTail
      { s with cachedHead := cachedHead, producer := p, producerViews := v } where
  queue := by
    rw [queue_append]
    rw [h.head_last, h.tail_last] at hw
    rw [h.tail_last] at hp
    exact h.queue.producer_local he hc hw hp
  head_last := (lengths_append he).1.symm ▸ h.head_last
  tail_last := (lengths_append he).2.symm ▸ h.tail_last
  knowledge := { hk with }
  front := h.front

theorem Inv.consumerStep (h : Inv es seenHead seenTail s) {seenTail' : ℕ}
    {cachedTail : Fin R.size} {c : Consumer R T} {e : SpscQueue.Event R T}
    {front : Option (Fin R.size)} (hs : ∀ i x, s.consumer ≠ .storeHead i (some x))
    (he : e.emplaced? = none ∧ e.dequeued? = none)
    (hk : Knowledge seenHead seenTail' { s with consumerViews := v })
    (hw : Window R seenHead s.head.last seenTail' s.tail.last)
    (hc : cachedTail = R.index seenTail') (hok : c.Ok R s.head.last seenTail')
    (hc' : ∀ i x, c ≠ .storeHead i (some x))
    (hf : ∀ i, front = some i → i = R.index s.head.last ∧ s.head.last < seenTail') :
    Inv (es ++ [.queue e]) seenHead seenTail'
      { s with cachedTail := cachedTail, consumer := c, consumerViews := v, front := front } where
  queue := by
    rw [queue_append]
    rw [h.head_last, h.tail_last] at hw
    rw [h.head_last] at hok
    exact h.queue.consumer_local hs he hc hw hok hc'
  head_last := (lengths_append he).1.symm ▸ h.head_last
  tail_last := (lengths_append he).2.symm ▸ h.tail_last
  knowledge := { hk with }
  front := hf

theorem Knowledge.loadHead (h : Knowledge seenHead seenTail s) {i : Fin R.size}
    {u : Views (Location R)} (hu : u.Within s.accesses)
    (hl : s.head.load .head u t .acquire = some (i, v)) :
    i = R.index t ∧ t ≤ s.head.last ∧
      ∃ m, s.head.Acquired .head s.accesses u t i v m := by
  obtain ⟨m, ha⟩ := h.head_within.acquire le_rfl hu hl
  exact ⟨ha.value.symm.trans (h.heads t m ha.message).1, Cell.le_last ha.message, m, ha⟩

theorem Knowledge.loadTail (h : Knowledge seenHead seenTail s) {i : Fin R.size}
    {u : Views (Location R)} (hu : u.Within s.accesses)
    (hl : s.tail.load .tail u t .acquire = some (i, v)) :
    i = R.index t ∧ t ≤ s.tail.last ∧
      ∃ m, s.tail.Acquired .tail s.accesses u t i v m := by
  obtain ⟨m, ha⟩ := h.tail_within.acquire le_rfl hu hl
  exact ⟨ha.value.symm.trans (h.tails t m ha.message).1, Cell.le_last ha.message, m, ha⟩

theorem Knowledge.load (h : Knowledge seenHead seenTail s) {tail : Bool} {i : Fin R.size}
    {u : Views (Location R)} (hu : u.Within s.accesses) (hl : s.load tail u t = some (i, v)) :
    u.current ≤ v.current ∧ v.Within s.accesses := by
  cases tail with
  | false =>
    obtain ⟨-, -, m, ha⟩ := h.loadHead hu hl
    exact ⟨ha.le, ha.within⟩
  | true =>
    obtain ⟨-, -, m, ha⟩ := h.loadTail hu hl
    exact ⟨ha.le, ha.within⟩

theorem Inv.call (h : Inv es seenHead seenTail s) {c : Call T} (hn : callNext s c = some s') :
    Inv (es ++ [.queue (.called c)]) seenHead seenTail s' := by
  have producer : ∀ {p : Producer R T}, p.Ok s.latest seenHead s.tail.last →
      Inv (es ++ [.queue (.called c)]) seenHead seenTail { s with producer := p } := fun hp =>
    h.producerStep ⟨rfl, rfl⟩ h.knowledge h.window h.queue.cachedHead hp
  have consumer : ∀ {p : Consumer R T}, s.consumer = .idle → p.Ok R s.head.last seenTail →
      (∀ i x, p ≠ .storeHead i (some x)) →
      Inv (es ++ [.queue (.called c)]) seenHead seenTail { s with consumer := p } :=
    fun hs hp hne => h.consumerStep (by simp [hs]) ⟨rfl, rfl⟩ h.knowledge h.window
      h.queue.cachedTail hp hne h.front
  rcases c with x | d | ⟨_ | _, q, tailFirst⟩ <;> simp only [callNext] at hn <;> split at hn <;>
    cases hn
  · exact producer trivial
  · exact consumer ‹_› trivial (by simp)
  · exact producer trivial
  · exact consumer ‹_› trivial (by simp)

theorem latest_touch (s : State R T) (i : Fin R.size) (slot : Plain T) (p : Producer R T)
    (c : Consumer R T) (v w : Views (Location R)) :
    State.latest { s with
      buffer := Function.update s.buffer i slot, producer := p, consumer := c, producerViews := v
      consumerViews := w } =
    { s.latest with
      buffer := Function.update s.latest.buffer i slot.value, producer := p, consumer := c } := by
  simp only [State.latest, SpscQueue.State.mk.injEq, and_true]
  funext k
  exact Function.apply_update (fun _ p => p.value) s.buffer i slot k

theorem latest_pushTail (s : State R T) (p : Producer R T) (v : Views (Location R)) :
    State.latest { s with tail := s.tail.push m, producer := p, producerViews := v } =
      { s.latest with tail := m.value, producer := p } := by
  simp [State.latest]

theorem latest_pushHead (s : State R T) (c : Consumer R T) (w : Views (Location R))
    (front : Option (Fin R.size)) :
    State.latest { s with
      head := s.head.push m, consumer := c, consumerViews := w, front := front } =
      { s.latest with head := m.value, consumer := c } := by
  simp [State.latest]

theorem Inv.construct (h : Inv es seenHead seenTail s) {x : T} {i : Fin R.size}
    (hp : s.producer = .construct x i) :
    s.producerViews.current (.slot i) = (s.buffer i).accesses ∧
      Inv (es ++ [.queue (.constructed i x)]) seenHead seenTail { s with
        buffer := Function.update s.buffer i ((s.buffer i).write x)
        producer := .storeTail x (nextIndex i)
        producerViews := s.producerViews.write (.slot i) ((s.buffer i).accesses + 1) } := by
  have hok : s.producer.Ok s.latest seenHead s.tail.last := h.tail_last ▸ h.queue.producer
  have he : (SpscQueue.Event.constructed i x).emplaced? = none ∧
      (SpscQueue.Event.constructed i x).dequeued? = none := ⟨rfl, rfl⟩
  rw [hp] at hok
  obtain ⟨rfl, hroom⟩ := hok
  have hw := h.window
  constructor
  · exact h.knowledge.producer _ hw.seenTail_le hw.lt_seenHead
  constructor
  case queue =>
    rw [queue_append, latest_touch]
    exact h.queue.construct hp
  case head_last => exact (lengths_append he).1.symm ▸ h.head_last
  case tail_last => exact (lengths_append he).2.symm ▸ h.tail_last
  case knowledge =>
    exact { h.knowledge.touchTail ((s.buffer (R.index s.tail.last)).write x) hw rfl with }
  case front => exact h.front

theorem Inv.storeTail (h : Inv es seenHead seenTail s) {x : T} {i : Fin R.size}
    (hp : s.producer = .storeTail x i) :
    Inv (es ++ [.queue (.emplaced x)]) seenHead seenTail { s with
      tail := (s.tail.store .tail s.producerViews i .release).1
      producer := .idle
      producerViews := (s.tail.store .tail s.producerViews i .release).2 } := by
  have hok : s.producer.Ok s.latest seenHead s.tail.last := h.tail_last ▸ h.queue.producer
  rw [hp] at hok
  obtain ⟨rfl, hroom, -⟩ := hok
  constructor
  case queue =>
    dsimp only [Cell.store]
    rw [queue_append, latest_pushTail]
    exact h.queue.storeTail hp
  case head_last =>
    rw [dequeued, queue_append, SpscQueue.dequeued_append]
    exact h.head_last.trans (by simp [SpscQueue.dequeued, SpscQueue.Event.dequeued?, dequeued])
  case tail_last =>
    rw [emplaced, queue_append, SpscQueue.emplaced_append]
    dsimp only [Cell.store]
    rw [Cell.last_push, h.tail_last]
    simp [SpscQueue.emplaced, SpscQueue.Event.emplaced?, emplaced]
  case knowledge => exact { h.knowledge.storeTail hroom with }
  case front => exact h.front

theorem Inv.producerNext (h : Inv es seenHead seenTail s) {e : Event R T}
    (hn : producerNext s t = some (s', e)) :
    ∃ f seenHead', e = .queue f ∧ Inv (es ++ [e]) seenHead' seenTail s' := by
  have hok : s.producer.Ok s.latest seenHead s.tail.last := h.tail_last ▸ h.queue.producer
  have hw := h.window
  rw [SpscQueueViews.producerNext] at hn
  cases hp : s.producer with
  | idle => simp [hp] at hn
  | loadTail x =>
    simp only [hp] at hn
    split at hn
    · cases hn
    · rename_i i v hl
      -- nobody else stores the tail
      obtain ⟨rfl, rfl⟩ := Cell.load_of_current hl h.knowledge.tail_current
      obtain ⟨-, -, m, ha⟩ := h.knowledge.loadTail h.knowledge.producer_within hl
      have hk := h.knowledge.producerViews ha.le ha.within
      rw [h.latest_tail, nextIndex_index] at hn
      split at hn <;> cases hn
      · exact ⟨_, seenHead, rfl, h.producerStep ⟨rfl, rfl⟩ hk hw h.queue.cachedHead rfl⟩
      · rename_i hne
        exact ⟨_, seenHead, rfl, h.producerStep ⟨rfl, rfl⟩ hk hw h.queue.cachedHead
          ⟨rfl, hw.room (h.queue.cachedHead ▸ hne)⟩⟩
  | loadHead x i =>
    rw [hp] at hok
    obtain rfl : i = R.index s.tail.last := hok
    simp only [hp, nextIndex_index] at hn
    split at hn
    · cases hn
    · rename_i i v hl
      obtain ⟨rfl, hle, m, ha⟩ := h.knowledge.loadHead h.knowledge.producer_within hl
      have hlow := h.knowledge.seenHead_le.trans ha.current_le
      have hk := (h.knowledge.producerViews ha.le ha.within).seeHead ha.message ha.view_le hlow
        ha.le_current
      have hw' : Window R t s.head.last seenTail s.tail.last :=
        ⟨hle, hw.le_seenTail, hw.seenTail_le, hw.lt_seenHead.trans_le (by omega)⟩
      split at hn <;> cases hn
      · exact ⟨_, t, rfl, h.producerStep ⟨rfl, rfl⟩ hk hw' rfl trivial⟩
      · rename_i hne
        exact ⟨_, t, rfl, h.producerStep ⟨rfl, rfl⟩ hk hw' rfl ⟨rfl, hw'.room hne⟩⟩
  | construct x i =>
    obtain ⟨hcurrent, hi⟩ := h.construct hp
    simp only [hp, if_pos hcurrent] at hn
    cases hn
    exact ⟨_, seenHead, rfl, hi⟩
  | storeTail x i =>
    simp only [hp, if_pos h.knowledge.tail_current] at hn
    cases hn
    exact ⟨_, seenHead, rfl, h.storeTail hp⟩
  | query q tailFirst | query' q tailFirst i =>
    simp only [hp] at hn
    split at hn
    · cases hn
    · rename_i hl
      cases hn
      obtain ⟨hv, hwithin⟩ := h.knowledge.load h.knowledge.producer_within hl
      exact ⟨_, seenHead, rfl, h.producerStep ⟨rfl, rfl⟩ (h.knowledge.producerViews hv hwithin) hw
        h.queue.cachedHead trivial⟩

theorem Inv.read (h : Inv es seenHead seenTail s) {i : Fin R.size} (leave : T → T)
    (hc : s.consumer = .read i) :
    s.consumerViews.current (.slot i) = (s.buffer i).accesses ∧
      Inv (es ++ [.queue .silent]) seenHead seenTail { s with
        buffer := Function.update s.buffer i ((s.buffer i).write (leave (s.buffer i).value))
        consumer := .storeHead i (some (s.buffer i).value)
        consumerViews := s.consumerViews.write (.slot i) ((s.buffer i).accesses + 1) } := by
  have hok : s.consumer.Ok R s.head.last seenTail := h.head_last ▸ h.queue.consumer
  have he : (SpscQueue.Event.silent : SpscQueue.Event R T).emplaced? = none ∧
      (SpscQueue.Event.silent : SpscQueue.Event R T).dequeued? = none := ⟨rfl, rfl⟩
  rw [hc] at hok
  obtain ⟨rfl, hlt⟩ := hok
  constructor
  · exact h.knowledge.consumer _ h.window.seenHead_le hlt
  constructor
  case queue =>
    rw [queue_append, latest_touch]
    exact h.queue.read leave hc
  case head_last => exact (lengths_append he).1.symm ▸ h.head_last
  case tail_last => exact (lengths_append he).2.symm ▸ h.tail_last
  case knowledge =>
    exact { h.knowledge.touchHead ((s.buffer (R.index s.head.last)).write _) h.window hlt rfl with }
  case front => exact h.front

theorem Inv.storeHead (h : Inv es seenHead seenTail s) {i : Fin R.size} {x : Option T}
    (hc : s.consumer = .storeHead i x) :
    Inv (es ++ [.queue (.dequeued (x.getD (s.buffer i).value))]) seenHead seenTail { s with
      head := (s.head.store .head s.consumerViews (nextIndex i) .release).1
      consumer := .idle
      consumerViews := (s.head.store .head s.consumerViews (nextIndex i) .release).2
      front := none } := by
  have hok : s.consumer.Ok R s.head.last seenTail := h.head_last ▸ h.queue.consumer
  rw [hc] at hok
  obtain ⟨rfl, hlt⟩ := hok
  rw [nextIndex_index]
  constructor
  case queue =>
    dsimp only [Cell.store]
    rw [queue_append, latest_pushHead, ← nextIndex_index]
    exact h.queue.storeHead hc
  case head_last =>
    rw [dequeued, queue_append, SpscQueue.dequeued_append]
    dsimp only [Cell.store]
    rw [Cell.last_push, h.head_last]
    simp [SpscQueue.dequeued, SpscQueue.Event.dequeued?, dequeued]
  case tail_last =>
    rw [emplaced, queue_append, SpscQueue.emplaced_append]
    exact h.tail_last.trans (by simp [SpscQueue.emplaced, SpscQueue.Event.emplaced?, emplaced])
  case knowledge => exact { h.knowledge.storeHead hlt with }
  case front => simp

theorem fronted_eq {d : Demand} {front : Option (Fin R.size)} {i j : Fin R.size} {n : ℕ}
    (hf : ∀ i, front = some i → i = R.index s.head.last ∧ s.head.last < n)
    (hj : j = R.index s.head.last) (hn : s.head.last < n) (hi : fronted d j front = some i) :
    i = R.index s.head.last ∧ s.head.last < n := by
  cases d with
  | front =>
    cases hi
    exact ⟨hj, hn⟩
  | _ => exact hf i hi

theorem Inv.consumerNext (h : Inv es seenHead seenTail s) {leave : T → T} {e : Event R T}
    (hn : consumerNext leave s t = some (s', e)) :
    ∃ f seenTail', e = .queue f ∧ Inv (es ++ [e]) seenHead seenTail' s' := by
  have hok : s.consumer.Ok R s.head.last seenTail := h.head_last ▸ h.queue.consumer
  have hw := h.window
  rw [SpscQueueViews.consumerNext] at hn
  cases hc : s.consumer with
  | idle => simp [hc] at hn
  | loadHead d =>
    have hs : ∀ i x, s.consumer ≠ .storeHead i (some x) := by simp [hc]
    simp only [hc] at hn
    split at hn
    · cases hn
    · rename_i i v hl
      -- nobody else stores the head
      obtain ⟨rfl, rfl⟩ := Cell.load_of_current hl h.knowledge.head_current
      obtain ⟨-, -, m, ha⟩ := h.knowledge.loadHead h.knowledge.consumer_within hl
      have hk := h.knowledge.consumerViews ha.le ha.within
      rw [h.latest_head] at hn
      split at hn <;> cases hn
      · exact ⟨_, seenTail, rfl, h.consumerStep hs ⟨rfl, rfl⟩ hk hw h.queue.cachedTail rfl (by simp)
          h.front⟩
      · rename_i hne
        have hlt := hw.seen_ne (h.queue.cachedTail ▸ hne)
        obtain ⟨hp, hmoved, he⟩ := proceed_ok (R := R) (T := T) (d := d) hlt
        exact ⟨_, seenTail, rfl, h.consumerStep hs he hk hw h.queue.cachedTail hp hmoved
          fun i hi => fronted_eq h.front rfl hlt hi⟩
  | loadTail d i =>
    have hs : ∀ i x, s.consumer ≠ .storeHead i (some x) := by simp [hc]
    rw [hc] at hok
    obtain rfl : i = R.index s.head.last := hok
    simp only [hc] at hn
    split at hn
    · cases hn
    · rename_i i v hl
      obtain ⟨rfl, hle, m, ha⟩ := h.knowledge.loadTail h.knowledge.consumer_within hl
      have hlow := h.knowledge.seenTail_le.trans ha.current_le
      have hk := (h.knowledge.consumerViews ha.le ha.within).seeTail ha.message ha.view_le hlow
        ha.le_current
      have hw' : Window R seenHead s.head.last t s.tail.last :=
        ⟨hw.seenHead_le, hw.le_seenTail.trans hlow, hle, hw.lt_seenHead⟩
      have hfront : ∀ i, s.front = some i → i = R.index s.head.last ∧ s.head.last < t :=
        fun i hi => ⟨(h.front i hi).1, (h.front i hi).2.trans_le hlow⟩
      split at hn <;> cases hn
      · exact ⟨_, t, rfl, h.consumerStep hs ⟨rfl, rfl⟩ hk hw' rfl trivial (by simp) hfront⟩
      · rename_i hne
        have hlt := hw'.seen_ne hne
        obtain ⟨hp, hmoved, he⟩ := proceed_ok (R := R) (T := T) (d := d) hlt
        exact ⟨_, t, rfl, h.consumerStep hs he hk hw' rfl hp hmoved
          fun i hi => fronted_eq hfront rfl hlt hi⟩
  | read i =>
    obtain ⟨hcurrent, hi⟩ := h.read leave hc
    simp only [hc, if_pos hcurrent] at hn
    cases hn
    exact ⟨_, seenTail, rfl, hi⟩
  | storeHead i x =>
    simp only [hc, if_pos h.knowledge.head_current] at hn
    cases hn
    exact ⟨_, seenTail, rfl, h.storeHead hc⟩
  | query q tailFirst | query' q tailFirst i =>
    simp only [hc] at hn
    split at hn
    · cases hn
    · rename_i hl
      cases hn
      obtain ⟨hv, hwithin⟩ := h.knowledge.load h.knowledge.consumer_within hl
      exact ⟨_, seenTail, rfl, h.consumerStep (by simp [hc]) ⟨rfl, rfl⟩
        (h.knowledge.consumerViews hv hwithin) hw h.queue.cachedTail trivial (by simp) h.front⟩

theorem Inv.outside (h : Inv es seenHead seenTail s) {e : Event R T} (he : e.queue? = none)
    (hk : Knowledge seenHead seenTail s') (hs : s'.latest = s.latest)
    (hh : s'.head = s.head) (ht : s'.tail = s.tail) (hf : s'.front = s.front) :
    Inv (es ++ [e]) seenHead seenTail s' := by
  constructor
  · rw [queue_append_other es he, hs]
    exact h.queue
  · rw [dequeued, queue_append_other es he, hh]
    exact h.head_last
  · rw [emplaced, queue_append_other es he, ht]
    exact h.tail_last
  · exact hk
  · rw [hf, hh]
    exact h.front

theorem Inv.peek (h : Inv es seenHead seenTail s) {e : Event R T} (hn : peek s = some (s', e)) :
    ∃ x, e = .peeked x ∧ (emplaced es)[(dequeued es).length]? = some x ∧
      Inv (es ++ [e]) seenHead seenTail s' := by
  rw [SpscQueueViews.peek] at hn
  split at hn
  · rename_i i hc hf
    obtain ⟨rfl, hlt⟩ := h.front i hf
    have hcurrent := h.knowledge.consumer _ h.window.seenHead_le hlt
    have hlen : (dequeued es).length < (emplaced es).length := by
      rw [← h.head_last, ← h.tail_last]
      exact hlt.trans_le h.window.seenTail_le
    simp only [State.accesses] at hcurrent
    simp only [if_pos hcurrent] at hn
    cases hn
    refine ⟨_, rfl, ?_, ?_⟩
    · have hslot := h.queue.slots (dequeued es).length le_rfl hlen
      rw [SpscQueue.cell_eq (by simp [State.latest, hc])] at hslot
      rw [List.getElem?_eq_getElem hlen, h.head_last]
      exact congrArg some hslot.symm
    · apply h.outside (by rfl)
        (h.knowledge.touchHead ((s.buffer _).write _) h.window hlt rfl) ?_ rfl rfl rfl
      rw [latest_touch]
      simp [State.latest, Plain.write]
  · cases hn

theorem Inv.synchronize (h : Inv es seenHead seenTail s) {role : Role}
    (hn : synchronize s role = some s') :
    Inv (es ++ [.synchronized role]) seenHead seenTail s' := by
  cases role <;> simp only [SpscQueueViews.synchronize] at hn <;> split at hn <;> cases hn
  · exact h.outside rfl (h.knowledge.producerViews Views.le_join
      (h.knowledge.producer_within.join h.knowledge.consumer_within.current)) rfl rfl rfl rfl
  · exact h.outside rfl (h.knowledge.consumerViews Views.le_join
      (h.knowledge.consumer_within.join h.knowledge.producer_within.current)) rfl rfl rfl rfl

variable {leave : T → T} {buffer : Fin R.size → T}

theorem Inv.start (R : Ring) (leave : T → T) (buffer : Fin R.size → T) :
    Inv [] 0 0 (machine R leave buffer).start where
  queue := SpscQueue.Inv.start R leave buffer
  head_last := rfl
  tail_last := rfl
  knowledge := .start leave buffer
  front i hi := by cases hi

theorem Inv.step (h : Inv es seenHead seenTail s) {e : Event R T}
    (hs : (machine R leave buffer).Step s e s') :
    e.faulty = false ∧ (∀ x, e = .peeked x → (emplaced es)[(dequeued es).length]? = some x) ∧
      ∃ seenHead' seenTail', Inv (es ++ [e]) seenHead' seenTail' s' := by
  rcases step_cases hs with ⟨c, rfl, hn⟩ | ⟨t, hn⟩ | ⟨t, hn⟩ | hn | ⟨role, rfl, hn⟩
  · exact ⟨rfl, by simp, seenHead, seenTail, h.call hn⟩
  · obtain ⟨f, seenHead', rfl, hi⟩ := h.producerNext hn
    exact ⟨rfl, by simp, seenHead', seenTail, hi⟩
  · obtain ⟨f, seenTail', rfl, hi⟩ := h.consumerNext hn
    exact ⟨rfl, by simp, seenHead, seenTail', hi⟩
  · obtain ⟨x, rfl, hx, hi⟩ := h.peek hn
    exact ⟨rfl, fun y hy => by cases hy; exact hx, seenHead, seenTail, hi⟩
  · exact ⟨rfl, by simp, seenHead, seenTail, h.synchronize hn⟩

theorem Inv.of_run (hr : (machine R leave buffer).Run es s) :
    ∃ seenHead seenTail, Inv es seenHead seenTail s := by
  refine Machine.Run.invariant (I := fun es s => ∃ seenHead seenTail, Inv es seenHead seenTail s)
    ⟨0, 0, Inv.start R leave buffer⟩ (fun es s e s' _ ih hs => ?_) hr
  obtain ⟨seenHead, seenTail, h⟩ := ih
  exact (h.step hs).2.2

/-- What should hold of a run, whatever stale indices its loads read. -/
structure HandsOver (R : Ring) (es : List (Event R T)) : Prop where
  faultless : ∀ e ∈ es, e.faulty = false
  fifo : dequeued es <+: emplaced es
  bounded : (emplaced es).length ≤ (dequeued es).length + (R.size - 1)
  fronts : ∀ fs gs x, es = fs ++ .peeked x :: gs →
    (emplaced fs)[(dequeued fs).length]? = some x

/-- No access races with another one, and no index is stored unseen. What is dequeued is
what was emplaced first, and `*Front()` is what will be dequeued next. -/
theorem hands_over (hr : (machine R leave buffer).Run es s) : HandsOver R es := by
  obtain ⟨seenHead, seenTail, h⟩ := Inv.of_run hr
  constructor
  case faultless =>
    intro e he
    obtain ⟨fs, gs, rfl⟩ := List.append_of_mem he
    obtain ⟨u, u', hr', hs, -⟩ := hr.at_event
    obtain ⟨seenHead, seenTail, h'⟩ := Inv.of_run hr'
    exact (h'.step hs).1
  case fifo =>
    have hconsumed : dequeued es = (emplaced es).take (dequeued es).length := h.queue.consumed
    rw [hconsumed]
    exact List.take_prefix _ _
  case bounded =>
    have hlt : (emplaced es).length < (dequeued es).length + R.size := h.queue.window.lt_head
    omega
  case fronts =>
    rintro fs gs x rfl
    obtain ⟨u, u', hr', hs, -⟩ := hr.at_event
    obtain ⟨seenHead, seenTail, h'⟩ := Inv.of_run hr'
    exact (h'.step hs).2.1 x rfl

theorem hands_over_stale : ∃ es, ∃ s : State .smallest ℕ,
    (machine .smallest id (fun _ => 0)).Run es s ∧ emplaced es = [5] ∧ dequeued es = [5] ∧
      .queue (.empty .front) ∈ es ∧ .peeked 5 ∈ es ∧ HandsOver .smallest es := by
  obtain ⟨es, s, hr, hs⟩ : ∃ es, ∃ s : State .smallest ℕ,
      (machine .smallest id (fun _ => 0)).Run es s ∧ emplaced es = [5] ∧ dequeued es = [5] ∧
        .queue (.empty .front) ∈ es ∧ .peeked 5 ∈ es := by
    refine ⟨[.queue (.called (.emplace 5)), .queue .silent,
      .queue (.constructed (Ring.smallest.index 0) 5), .queue (.emplaced 5),
      .queue (.called (.demand .front)), .queue .silent, .queue (.empty .front),
      .queue (.called (.demand .front)), .queue .silent,
      .queue (.found .front (Ring.smallest.index 0)), .peeked 5,
      .queue (.called (.demand .dequeueInto)), .queue .silent, .queue .silent,
      .queue (.dequeued 5)], _, Machine.Path.of_exec
        [.call (.emplace 5), .step .producer 0, .step .producer 0, .step .producer 0,
          .call (.demand .front), .step .consumer 0, .step .consumer 0,
          .call (.demand .front), .step .consumer 0, .step .consumer 1, .peek,
          .call (.demand .dequeueInto), .step .consumer 0, .step .consumer 0, .step .consumer 0]
        rfl, rfl, rfl, by simp, by simp⟩
  exact ⟨es, s, hr, hs.1, hs.2.1, hs.2.2.1, hs.2.2.2, hands_over hr⟩

end
end LockFree.SpscQueueViews
