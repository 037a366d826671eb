import LockFree.SpscQueueQueries
import LockFree.ViewMemory

/-!
# BoundedSPSCQueue over memory with stale loads

The calls of the queue, with the order of every access, where the two indices are
locations with histories and the slots are locations without atomic accesses. The
indices that a thread caches are its own. Between the calls of a thread, its other code
may make it wait for the other thread, and the consumer's may look at the element that
`Front` returned until it is dequeued.
-/

namespace LockFree.SpscQueueViews
open BufferSize RingWindow TransitionRuns ViewMemory
open SpscQueue (Role Query Demand Call Producer Consumer proceed)

inductive Location (R : Ring)
  | head
  | tail
  | slot (i : Fin R.size)
  deriving DecidableEq

/-- `front` is the slot of the last `Front`, until it is given back. -/
structure State (R : Ring) (T : Type*) where
  buffer : Fin R.size → Plain T
  head : Cell (Fin R.size) (Location R)
  tail : Cell (Fin R.size) (Location R)
  cachedHead : Fin R.size
  cachedTail : Fin R.size
  producer : Producer R T
  consumer : Consumer R T
  producerViews : Views (Location R)
  consumerViews : Views (Location R)
  front : Option (Fin R.size)

/-- `unordered` is a store of an index that another store might follow unseen. -/
inductive Event (R : Ring) (T : Type*)
  | queue (e : SpscQueue.Event R T)
  | peeked (v : T)
  | synchronized (role : Role)
  | raced
  | unordered

/-- A step of a thread says which message a load reads. -/
inductive Choice (T : Type*)
  | call (c : Call T)
  | step (role : Role) (t : ℕ)
  | peek
  | synchronize (role : Role)

variable {R : Ring} {T : Type*}

namespace State

/-- The state of the queue in the eyes of a thread that overlooks nothing. -/
def latest (s : State R T) : SpscQueue.State R T where
  buffer i := (s.buffer i).value
  head := s.head.latest
  tail := s.tail.latest
  cachedHead := s.cachedHead
  cachedTail := s.cachedTail
  producer := s.producer
  consumer := s.consumer

def load (s : State R T) (tail : Bool) (v : Views (Location R)) (t : ℕ) :
    Option (Fin R.size × Views (Location R)) :=
  if tail then s.tail.load .tail v t .acquire else s.head.load .head v t .acquire

def accesses (s : State R T) : View (Location R)
  | .head => s.head.last
  | .tail => s.tail.last
  | .slot i => (s.buffer i).accesses

end State

def callNext (s : State R T) : Call T → Option (State R T)
  | .emplace v =>
    match s.producer with
    | .idle => some { s with producer := .loadTail v }
    | _ => none
  | .demand d =>
    match s.consumer with
    | .idle => some { s with consumer := .loadHead d }
    | _ => none
  | .query .producer q tailFirst =>
    match s.producer with
    | .idle => some { s with producer := .query q tailFirst }
    | _ => none
  | .query .consumer q tailFirst =>
    match s.consumer with
    | .idle => some { s with consumer := .query q tailFirst }
    | _ => none

def producerNext (s : State R T) (t : ℕ) : Option (State R T × Event R T) :=
  match s.producer with
  | .idle => none
  | .loadTail x =>
    match s.tail.load .tail s.producerViews t .acquire with
    | none => none
    | some (tail, v) =>
      if nextIndex tail = s.cachedHead then
        some ({ s with producer := .loadHead x tail, producerViews := v }, .queue .silent)
      else some ({ s with producer := .construct x tail, producerViews := v }, .queue .silent)
  | .loadHead x tail =>
    match s.head.load .head s.producerViews t .acquire with
    | none => none
    | some (head, v) =>
      if nextIndex tail = head then
        some ({ s with cachedHead := head, producer := .idle, producerViews := v },
          .queue .refused)
      else
        some ({ s with cachedHead := head, producer := .construct x tail, producerViews := v },
          .queue .silent)
  | .construct x tail =>
    let slot := s.buffer tail
    if s.producerViews.current (.slot tail) = slot.accesses then
      some ({ s with
        buffer := Function.update s.buffer tail (slot.write x)
        producer := .storeTail x (nextIndex tail)
        producerViews := s.producerViews.write (.slot tail) (slot.accesses + 1) },
        .queue (.constructed tail x))
    else some (s, .raced)
  | .storeTail x nextTail =>
    if s.producerViews.current .tail = s.tail.last then
      let stored := s.tail.store .tail s.producerViews nextTail .release
      some ({ s with tail := stored.1, producer := .idle, producerViews := stored.2 },
        .queue (.emplaced x))
    else some (s, .unordered)
  | .query q tailFirst =>
    match s.load tailFirst s.producerViews t with
    | none => none
    | some (i, v) =>
      some ({ s with producer := .query' q tailFirst i, producerViews := v }, .queue .silent)
  | .query' q tailFirst loaded =>
    match s.load (!tailFirst) s.producerViews t with
    | none => none
    | some (i, v) =>
      some ({ s with producer := .idle, producerViews := v }, .queue (.answered .producer q
        (if tailFirst then q.answer loaded i else q.answer i loaded)))

def fronted (d : Demand) (head : Fin R.size) (front : Option (Fin R.size)) :
    Option (Fin R.size) :=
  match d with
  | .front => some head
  | _ => front

def consumerNext (leave : T → T) (s : State R T) (t : ℕ) : Option (State R T × Event R T) :=
  match s.consumer with
  | .idle => none
  | .loadHead d =>
    match s.head.load .head s.consumerViews t .acquire with
    | none => none
    | some (head, v) =>
      if head = s.cachedTail then
        some ({ s with consumer := .loadTail d head, consumerViews := v }, .queue .silent)
      else
        let p := proceed d head
        some ({ s with consumer := p.1, consumerViews := v, front := fronted d head s.front },
          .queue p.2)
  | .loadTail d head =>
    match s.tail.load .tail s.consumerViews t .acquire with
    | none => none
    | some (tail, v) =>
      if head = tail then
        some ({ s with cachedTail := tail, consumer := .idle, consumerViews := v },
          .queue (.empty d))
      else
        let p := proceed d head
        some ({ s with
          cachedTail := tail, consumer := p.1, consumerViews := v,
          front := fronted d head s.front }, .queue p.2)
  | .read head =>
    let slot := s.buffer head
    if s.consumerViews.current (.slot head) = slot.accesses then
      some ({ s with
        buffer := Function.update s.buffer head (slot.write (leave slot.value))
        consumer := .storeHead head (some slot.value)
        consumerViews := s.consumerViews.write (.slot head) (slot.accesses + 1) },
        .queue .silent)
    else some (s, .raced)
  | .storeHead head element =>
    if s.consumerViews.current .head = s.head.last then
      let stored := s.head.store .head s.consumerViews (nextIndex head) .release
      some ({ s with
        head := stored.1, consumer := .idle, consumerViews := stored.2, front := none },
        .queue (.dequeued (element.getD (s.buffer head).value)))
    else some (s, .unordered)
  | .query q tailFirst =>
    match s.load tailFirst s.consumerViews t with
    | none => none
    | some (i, v) =>
      some ({ s with consumer := .query' q tailFirst i, consumerViews := v }, .queue .silent)
  | .query' q tailFirst loaded =>
    match s.load (!tailFirst) s.consumerViews t with
    | none => none
    | some (i, v) =>
      some ({ s with consumer := .idle, consumerViews := v }, .queue (.answered .consumer q
        (if tailFirst then q.answer loaded i else q.answer i loaded)))

def peek (s : State R T) : Option (State R T × Event R T) :=
  match s.consumer, s.front with
  | .idle, some i =>
    let slot := s.buffer i
    if s.consumerViews.current (.slot i) = slot.accesses then
      some ({ s with
        buffer := Function.update s.buffer i (slot.write slot.value)
        consumerViews := s.consumerViews.write (.slot i) (slot.accesses + 1) },
        .peeked slot.value)
    else some (s, .raced)
  | _, _ => none

def synchronize (s : State R T) : Role → Option (State R T)
  | .producer =>
    match s.producer with
    | .idle => some { s with producerViews := s.producerViews.join s.consumerViews.current }
    | _ => none
  | .consumer =>
    match s.consumer with
    | .idle => some { s with consumerViews := s.consumerViews.join s.producerViews.current }
    | _ => none

def next (leave : T → T) (s : State R T) : Choice T → Option (State R T × Event R T)
  | .call c => (callNext s c).map (·, .queue (.called c))
  | .step .producer t => producerNext s t
  | .step .consumer t => consumerNext leave s t
  | .peek => peek s
  | .synchronize role => (synchronize s role).map (·, .synchronized role)

/-- Whoever constructed the queue has made both threads wait for it. -/
def machine (R : Ring) (leave : T → T) (buffer : Fin R.size → T) :
    Machine (State R T) (Choice T) (Event R T) where
  start :=
    { buffer := fun i => ⟨buffer i, 0⟩
      head := ⟨R.index 0, []⟩
      tail := ⟨R.index 0, []⟩
      cachedHead := R.index 0
      cachedTail := R.index 0
      producer := .idle
      consumer := .idle
      producerViews := .start _
      consumerViews := .start _
      front := none }
  next := next leave

section
variable {leave : T → T} {buffer : Fin R.size → T} {s s' : State R T} {e : Event R T} {t : ℕ}

theorem step_cases (hs : (machine R leave buffer).Step s e s') :
    (∃ c, e = .queue (.called c) ∧ callNext s c = some s') ∨
      (∃ t, producerNext s t = some (s', e)) ∨ (∃ t, consumerNext leave s t = some (s', e)) ∨
      peek s = some (s', e) ∨
      ∃ role, e = .synchronized role ∧ synchronize s role = some s' := by
  obtain ⟨c | ⟨_ | _, t⟩ | _ | role, hn⟩ := hs
  · obtain ⟨u, hc, heq⟩ := Option.map_eq_some_iff.mp hn
    cases heq
    exact .inl ⟨c, rfl, hc⟩
  · exact .inr (.inl ⟨t, hn⟩)
  · exact .inr (.inr (.inl ⟨t, hn⟩))
  · exact .inr (.inr (.inr (.inl hn)))
  · obtain ⟨u, hc, heq⟩ := Option.map_eq_some_iff.mp hn
    cases heq
    exact .inr (.inr (.inr (.inr ⟨role, rfl, hc⟩)))

theorem load_le {tail : Bool} {v v' : Views (Location R)} {i : Fin R.size}
    (h : s.load tail v t = some (i, v')) : v.current ≤ v'.current := by
  cases tail
  · exact Cell.load_le (c := s.head) h
  · exact Cell.load_le (c := s.tail) h

theorem producerNext_frame (hn : producerNext s t = some (s', e)) :
    s'.consumer = s.consumer ∧ s'.consumerViews = s.consumerViews ∧
      s.producerViews.current ≤ s'.producerViews.current := by
  rw [producerNext] at hn
  cases hp : s.producer <;> simp only [hp] at hn
  case idle => cases hn
  case loadTail | loadHead =>
    split at hn
    · cases hn
    · rename_i hl
      split at hn <;> cases hn <;> exact ⟨rfl, rfl, Cell.load_le hl⟩
  case construct | storeTail =>
    split at hn <;> cases hn
    · exact ⟨rfl, rfl, Views.le_write⟩
    · exact ⟨rfl, rfl, le_rfl⟩
  case query | query' =>
    split at hn
    · cases hn
    · rename_i hl
      cases hn
      exact ⟨rfl, rfl, load_le hl⟩

theorem consumerNext_frame (hn : consumerNext leave s t = some (s', e)) :
    s'.producer = s.producer ∧ s'.producerViews = s.producerViews ∧
      s.consumerViews.current ≤ s'.consumerViews.current := by
  rw [consumerNext] at hn
  cases hc : s.consumer <;> simp only [hc] at hn
  case idle => cases hn
  case loadHead | loadTail =>
    split at hn
    · cases hn
    · rename_i hl
      split at hn <;> cases hn <;> exact ⟨rfl, rfl, Cell.load_le hl⟩
  case read | storeHead =>
    split at hn <;> cases hn
    · exact ⟨rfl, rfl, Views.le_write⟩
    · exact ⟨rfl, rfl, le_rfl⟩
  case query | query' =>
    split at hn
    · cases hn
    · rename_i hl
      cases hn
      exact ⟨rfl, rfl, load_le hl⟩

end

end LockFree.SpscQueueViews
