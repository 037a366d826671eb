import LockFree.RingWindow
import LockFree.TransitionRuns

/-!
# BoundedSPSCQueue

One producer and one consumer, each with a cached copy of the index the other one
owns. Every index is 0 or has been masked, so all of them are `Fin R.size`. A step is
one load or store of an index, one construction, or one read of an element, with the
computation up to the next of them.
-/

namespace LockFree.SpscQueue
open BufferSize RingWindow TransitionRuns

inductive Role
  | producer
  | consumer
  deriving DecidableEq

inductive Query
  | isEmptyProducer
  | getSize
  deriving DecidableEq

inductive Demand
  | front
  | isEmptyConsumer
  | dequeue
  | dequeueInto
  deriving DecidableEq

/-- The operands of a query are unsequenced: the caller's compiler chooses. -/
inductive Call (T : Type*)
  | emplace (v : T)
  | demand (d : Demand)
  | query (role : Role) (q : Query) (tailFirst : Bool)

def enqueue {T : Type*} (element : T) : Call T := .emplace element

inductive Producer (R : Ring) (T : Type*)
  | idle
  | loadTail (v : T)
  | loadHead (v : T) (tail : Fin R.size)
  | construct (v : T) (tail : Fin R.size)
  | storeTail (v : T) (nextTail : Fin R.size)
  | query (q : Query) (tailFirst : Bool)
  | query' (q : Query) (tailFirst : Bool) (loaded : Fin R.size)

/-- `storeHead` carries the element that `Dequeue(T&)` has moved out of its slot. -/
inductive Consumer (R : Ring) (T : Type*)
  | idle
  | loadHead (d : Demand)
  | loadTail (d : Demand) (head : Fin R.size)
  | read (head : Fin R.size)
  | storeHead (head : Fin R.size) (element : Option T)
  | query (q : Query) (tailFirst : Bool)
  | query' (q : Query) (tailFirst : Bool) (loaded : Fin R.size)

structure State (R : Ring) (T : Type*) where
  buffer : Fin R.size → T
  head : Fin R.size
  tail : Fin R.size
  cachedHead : Fin R.size
  cachedTail : Fin R.size
  producer : Producer R T
  consumer : Consumer R T

inductive Event (R : Ring) (T : Type*)
  | called (c : Call T)
  | constructed (i : Fin R.size) (v : T)
  | emplaced (v : T)
  | refused
  | found (d : Demand) (i : Fin R.size)
  | dequeued (v : T)
  | empty (d : Demand)
  | answered (role : Role) (q : Query) (n : ℕ)
  | silent

inductive Choice (T : Type*)
  | call (c : Call T)
  | step (role : Role)

variable {R : Ring} {T : Type*}

/-- The difference as `ptrdiff_t`, corrected by the buffer size. -/
def getSize (tail head : Fin R.size) : ℕ :=
  let difference : ℕ := (tail + 2 ^ 64 - head) % 2 ^ 64
  let size : ℤ := if difference < 2 ^ 63 then difference else difference - 2 ^ 64
  let size : ℤ := if size < 0 then size + R.size else size
  (size % 2 ^ 64).toNat

def Query.answer (q : Query) (tail head : Fin R.size) : ℕ :=
  match q with
  | .isEmptyProducer => if tail = head then 1 else 0
  | .getSize => SpscQueue.getSize tail head

namespace State

def load (s : State R T) (tail : Bool) : Fin R.size := if tail then s.tail else s.head

def answer (s : State R T) (q : Query) (tailFirst : Bool) (loaded : Fin R.size) : ℕ :=
  if tailFirst then q.answer loaded s.head else q.answer s.tail loaded

end State

def callNext (s : State R T) : Call T → Option (State R T)
  | .emplace v =>
    match s.producer with
    | .idle => some { s with producer := .loadTail v }
    | _ => none
  | .demand d =>
    match s.consumer with
    | .idle => some { s with consumer := .loadHead d }
    | _ => none
  | .query .producer q tailFirst =>
    match s.producer with
    | .idle => some { s with producer := .query q tailFirst }
    | _ => none
  | .query .consumer q tailFirst =>
    match s.consumer with
    | .idle => some { s with consumer := .query q tailFirst }
    | _ => none

def producerNext (s : State R T) : Option (State R T × Event R T) :=
  match s.producer with
  | .idle => none
  | .loadTail v =>
    if nextIndex s.tail = s.cachedHead then
      some ({ s with producer := .loadHead v s.tail }, .silent)
    else some ({ s with producer := .construct v s.tail }, .silent)
  | .loadHead v tail =>
    if nextIndex tail = s.head then
      some ({ s with cachedHead := s.head, producer := .idle }, .refused)
    else some ({ s with cachedHead := s.head, producer := .construct v tail }, .silent)
  | .construct v tail =>
    some ({ s with
      buffer := Function.update s.buffer tail v, producer := .storeTail v (nextIndex tail) },
      .constructed tail v)
  | .storeTail v nextTail => some ({ s with tail := nextTail, producer := .idle }, .emplaced v)
  | .query q tailFirst =>
    some ({ s with producer := .query' q tailFirst (s.load tailFirst) }, .silent)
  | .query' q tailFirst loaded =>
    some ({ s with producer := .idle }, .answered .producer q (s.answer q tailFirst loaded))

def proceed (d : Demand) (head : Fin R.size) : Consumer R T × Event R T :=
  match d with
  | .front | .isEmptyConsumer => (.idle, .found d head)
  | .dequeue => (.storeHead head none, .silent)
  | .dequeueInto => (.read head, .silent)

/-- `leave v` is what a move leaves of `v`; a copy leaves `v` itself. -/
def consumerNext (leave : T → T) (s : State R T) : Option (State R T × Event R T) :=
  match s.consumer with
  | .idle => none
  | .loadHead d =>
    if s.head = s.cachedTail then some ({ s with consumer := .loadTail d s.head }, .silent)
    else
      let p := proceed d s.head
      some ({ s with consumer := p.1 }, p.2)
  | .loadTail d head =>
    if head = s.tail then some ({ s with cachedTail := s.tail, consumer := .idle }, .empty d)
    else
      let p := proceed d head
      some ({ s with cachedTail := s.tail, consumer := p.1 }, p.2)
  | .read head =>
    some ({ s with
      buffer := Function.update s.buffer head (leave (s.buffer head)),
      consumer := .storeHead head (some (s.buffer head)) }, .silent)
  | .storeHead head element =>
    some ({ s with head := nextIndex head, consumer := .idle },
      .dequeued (element.getD (s.buffer head)))
  | .query q tailFirst =>
    some ({ s with consumer := .query' q tailFirst (s.load tailFirst) }, .silent)
  | .query' q tailFirst loaded =>
    some ({ s with consumer := .idle }, .answered .consumer q (s.answer q tailFirst loaded))

def next (leave : T → T) (s : State R T) : Choice T → Option (State R T × Event R T)
  | .call c => (callNext s c).map (·, .called c)
  | .step .producer => producerNext s
  | .step .consumer => consumerNext leave s

/-- The initial elements of `buffer_` are arbitrary. -/
def machine (R : Ring) (leave : T → T) (buffer : Fin R.size → T) :
    Machine (State R T) (Choice T) (Event R T) where
  start := ⟨buffer, R.index 0, R.index 0, R.index 0, R.index 0, .idle, .idle⟩
  next := next leave

section
variable {leave : T → T} {buffer : Fin R.size → T} {s s' : State R T}

theorem step_cases {e : Event R T} (hs : (machine R leave buffer).Step s e s') :
    (∃ c, e = .called c ∧ callNext s c = some s') ∨ producerNext s = some (s', e) ∨
      consumerNext leave s = some (s', e) := by
  obtain ⟨c, hn⟩ := hs
  rcases c with c | (_ | _)
  · obtain ⟨s'', hc, heq⟩ := Option.map_eq_some_iff.mp hn
    cases heq
    exact .inl ⟨c, rfl, hc⟩
  · exact .inr (.inl hn)
  · exact .inr (.inr hn)

theorem step_refused (hs : (machine R leave buffer).Step s .refused s') :
    ∃ v i, s.producer = .loadHead v i ∧ nextIndex i = s.head := by
  rcases step_cases hs with ⟨c, hc, -⟩ | hn | hn
  · cases hc
  · unfold producerNext at hn
    grind
  · unfold consumerNext proceed at hn
    grind

theorem step_empty {d : Demand} (hs : (machine R leave buffer).Step s (.empty d) s') :
    s.consumer = .loadTail d s.tail := by
  rcases step_cases hs with ⟨c, hc, -⟩ | hn | hn
  · cases hc
  · unfold producerNext at hn
    grind
  · unfold consumerNext proceed at hn
    grind

theorem step_found {d : Demand} {i : Fin R.size}
    (hs : (machine R leave buffer).Step s (.found d i) s') :
    (i = s.head ∧ s.head ≠ s.cachedTail) ∨ (s.consumer = .loadTail d i ∧ i ≠ s.tail) := by
  rcases step_cases hs with ⟨c, hc, -⟩ | hn | hn
  · cases hc
  · unfold producerNext at hn
    grind
  · unfold consumerNext proceed at hn
    grind

theorem step_constructed {i : Fin R.size} {v : T}
    (hs : (machine R leave buffer).Step s (.constructed i v) s') :
    s.producer = .construct v i := by
  rcases step_cases hs with ⟨c, hc, -⟩ | hn | hn
  · cases hc
  · unfold producerNext at hn
    grind
  · unfold consumerNext proceed at hn
    grind

end

end LockFree.SpscQueue
