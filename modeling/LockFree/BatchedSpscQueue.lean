import LockFree.RingWindow
import LockFree.TransitionRuns

/-!
# BatchedBoundedSPSCQueue

The indices move as in BoundedSPSCQueue, but every cell of the ring is a small queue of
its own. `Emplace` constructs its element over the cell, which is where the cell's
first element lies, and moves `tail_` past it; the cell's own `tail_` stays 0.
-/

namespace LockFree.BatchedSpscQueue
open BufferSize RingWindow TransitionRuns

def kDefaultSlotSize : ℕ := 16

structure Slot (T : Type*) where
  buffer : Fin kDefaultSlotSize → T
  head : ℕ
  tail : ℕ

namespace Slot
variable {T : Type*}

def isEmpty (s : Slot T) : Bool := s.head == s.tail

def dequeue (s : Slot T) : Slot T := { s with head := (s.head + 1) % 2 ^ 64 }

/-- The element under `&buffer_[head_]`, if there is one. -/
def front (s : Slot T) : Option T :=
  if h : s.head < kDefaultSlotSize then some (s.buffer ⟨s.head, h⟩) else none

/-- Placement new over the slot itself. -/
def construct (s : Slot T) (v : T) : Slot T :=
  { s with buffer := Function.update s.buffer ⟨0, by decide⟩ v }

end Slot

/-- The address of an element: its slot, and its place there. -/
structure Pointer (R : Ring) where
  slot : Fin R.size
  cell : ℕ
  deriving DecidableEq

inductive Demand
  | front
  | isEmptyConsumer
  | dequeue
  deriving DecidableEq

inductive Call (T : Type*)
  | emplace (v : T)
  | demand (d : Demand)

def enqueue {T : Type*} (element : T) : Call T := .emplace element

inductive Producer (R : Ring) (T : Type*)
  | idle
  | loadTail (v : T)
  | loadHead (v : T) (tail : Fin R.size)
  | construct (v : T) (tail : Fin R.size)
  | storeTail (v : T) (nextTail : Fin R.size)

/-- `loadTail` and `storeHead` are inside `MoveHead`. -/
inductive Consumer (R : Ring)
  | idle
  | loadHead (d : Demand)
  | loadTail (d : Demand) (head : Fin R.size)
  | storeHead (d : Demand) (nextHead : Fin R.size)

structure State (R : Ring) (T : Type*) where
  buffer : Fin R.size → Slot T
  head : Fin R.size
  tail : Fin R.size
  cachedHead : Fin R.size
  cachedTail : Fin R.size
  producer : Producer R T
  consumer : Consumer R

inductive Event (R : Ring) (T : Type*)
  | called (c : Call T)
  | constructed (p : Pointer R) (v : T)
  | emplaced (v : T)
  | refused
  | found (d : Demand) (p : Pointer R) (element : Option T)
  | dequeued
  | empty (d : Demand)
  | silent

inductive Choice (T : Type*)
  | call (c : Call T)
  | producer
  | consumer

variable {R : Ring} {T : Type*}

def callNext (s : State R T) : Call T → Option (State R T)
  | .emplace v =>
    match s.producer with
    | .idle => some { s with producer := .loadTail v }
    | _ => none
  | .demand d =>
    match s.consumer with
    | .idle => some { s with consumer := .loadHead d }
    | _ => none

def producerNext (s : State R T) : Option (State R T × Event R T) :=
  match s.producer with
  | .idle => none
  | .loadTail v =>
    if nextIndex s.tail = s.cachedHead then
      some ({ s with producer := .loadHead v s.tail }, .silent)
    else some ({ s with producer := .construct v s.tail }, .silent)
  | .loadHead v tail =>
    if nextIndex tail = s.head then
      some ({ s with cachedHead := s.head, producer := .idle }, .refused)
    else some ({ s with cachedHead := s.head, producer := .construct v tail }, .silent)
  | .construct v tail =>
    some ({ s with
      buffer := Function.update s.buffer tail ((s.buffer tail).construct v),
      producer := .storeTail v (nextIndex tail) }, .constructed ⟨tail, 0⟩ v)
  | .storeTail v nextTail => some ({ s with tail := nextTail, producer := .idle }, .emplaced v)

def finish (s : State R T) (d : Demand) (head : Fin R.size) : State R T × Event R T :=
  match d with
  | .front | .isEmptyConsumer =>
    ({ s with consumer := .idle }, .found d ⟨head, (s.buffer head).head⟩ (s.buffer head).front)
  | .dequeue =>
    ({ s with buffer := Function.update s.buffer head (s.buffer head).dequeue, consumer := .idle },
      .dequeued)

def consumerNext (s : State R T) : Option (State R T × Event R T) :=
  match s.consumer with
  | .idle => none
  | .loadHead d =>
    if (s.buffer s.head).isEmpty then
      if s.head = s.cachedTail then some ({ s with consumer := .loadTail d s.head }, .silent)
      else some ({ s with consumer := .storeHead d (nextIndex s.head) }, .silent)
    else some (finish s d s.head)
  | .loadTail d head =>
    if head = s.tail then some ({ s with cachedTail := s.tail, consumer := .idle }, .empty d)
    else some ({ s with cachedTail := s.tail, consumer := .storeHead d (nextIndex head) }, .silent)
  | .storeHead d nextHead => some (finish { s with head := nextHead } d nextHead)

def next (s : State R T) : Choice T → Option (State R T × Event R T)
  | .call c => (callNext s c).map (·, .called c)
  | .producer => producerNext s
  | .consumer => consumerNext s

def machine (R : Ring) (buffer : Fin R.size → Fin kDefaultSlotSize → T) :
    Machine (State R T) (Choice T) (Event R T) where
  start := ⟨fun i => ⟨buffer i, 0, 0⟩, R.index 0, R.index 0, R.index 0, R.index 0, .idle, .idle⟩
  next := next

theorem step_cases {buffer : Fin R.size → Fin kDefaultSlotSize → T} {s s' : State R T}
    {e : Event R T} (hs : (machine R buffer).Step s e s') :
    (∃ c, e = .called c ∧ callNext s c = some s') ∨ producerNext s = some (s', e) ∨
      consumerNext s = some (s', e) := by
  obtain ⟨c, hn⟩ := hs
  rcases c with c | _ | _
  · obtain ⟨s'', hc, heq⟩ := Option.map_eq_some_iff.mp hn
    cases heq
    exact .inl ⟨c, rfl, hc⟩
  · exact .inr (.inl hn)
  · exact .inr (.inr hn)

def Event.emplaced? : Event R T → Option T
  | .emplaced v => some v
  | _ => none

def Event.place? : Event R T → Option (Pointer R)
  | .constructed p _ => some p
  | _ => none

def emplaced (es : List (Event R T)) : List T := es.filterMap Event.emplaced?

def places (es : List (Event R T)) : List (Pointer R) := es.filterMap Event.place?

def Event.isDequeued : Event R T → Bool
  | .dequeued => true
  | _ => false

def dequeues (es : List (Event R T)) : ℕ := es.countP Event.isDequeued

/-- The elements seen through `Front` immediately before the successful dequeues;
`last` is what the latest consumer call saw. -/
def seen (last : Option T) : List (Event R T) → List T
  | [] => []
  | .found _ _ element :: es => seen element es
  | .dequeued :: es => last.toList ++ seen none es
  | .empty _ :: es => seen none es
  | _ :: es => seen last es

/-- The pointer is the place of an element that was emplaced, was not dequeued, and has
not been constructed over. -/
def Designates (es : List (Event R T)) (p : Pointer R) : Prop :=
  p.cell < kDefaultSlotSize ∧ ∃ k, dequeues es ≤ k ∧ k < (emplaced es).length ∧
    (places es)[k]? = some p ∧ ∀ k', k < k' → (places es)[k']? ≠ some p

structure Contract (es : List (Event R T)) : Prop where
  seen_prefix : seen none es <+: emplaced es
  dequeues_le : dequeues es ≤ (emplaced es).length
  pointers : ∀ es₁ es₂ d p x, es = es₁ ++ .found d p x :: es₂ → Designates es₁ p

end LockFree.BatchedSpscQueue
