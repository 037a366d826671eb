import LockFree.SeqLock
import LockFree.TransitionRuns

/-!
# SeqLockAtomic

Every access to the counter and every access of `atomic_memcpy` is a step; a weak
compare-exchange may fail on an equal value.
-/

namespace LockFree.SeqLockAtomic
open AtomicMemcpy SeqLock TransitionRuns

inductive Call
  | load
  | store (desired : List UInt8)

structure Shared where
  counter : ℕ
  data : Memory

inductive Local
  | idle
  | loadSeq0 (loaded : Memory)
  | loading (loaded : Memory) (seq0 : ℕ) (rest : List (ℕ × ℕ))
  | locking (desired : Memory) (p : Locking)
  | storing (desired : Memory) (seq : ℕ) (rest : List (ℕ × ℕ))

inductive Event
  | called (c : Call)
  | loaded (value : List UInt8)
  | stored (value : List UInt8)
  | silent

inductive Choice
  | load (uninitialized : Memory)
  | store (desired : Memory)
  | step (spurious : Bool)

def next (size : ℕ) (g : Shared) : Local → Choice → Option (Shared × Local × Event)
  | .idle, .load loaded => some (g, .loadSeq0 loaded, .called .load)
  | .idle, .store desired =>
    some (g, .locking desired .load, .called (.store (contents size desired)))
  | .loadSeq0 loaded, .step _ =>
    some (g, .loading loaded g.counter (atomicMemcpy size), .silent)
  | .loading loaded seq0 (access :: rest), .step _ =>
    some (g, .loading (copy access g.data loaded) seq0 rest, .silent)
  | .loading loaded seq0 [], .step _ =>
    if isLocked seq0 || seq0 != g.counter then some (g, .loadSeq0 loaded, .silent)
    else some (g, .idle, .loaded (contents size loaded))
  | .locking desired p, .step spurious =>
    match lock g.counter spurious p with
    | (counter, .locked seq) =>
      some (⟨counter, g.data⟩, .storing desired seq (atomicMemcpy size), .silent)
    | (counter, p') => some (⟨counter, g.data⟩, .locking desired p', .silent)
  | .storing desired seq (access :: rest), .step _ =>
    some (⟨g.counter, copy access desired g.data⟩, .storing desired seq rest, .silent)
  | .storing desired seq [], .step _ =>
    some (⟨unlock seq, g.data⟩, .idle, .stored (contents size desired))
  | _, _ => none

def machine (size : ℕ) (data : Memory) (Tid : Type*) [DecidableEq Tid] :
    Machine (Pool Tid Shared Local) (Tid × Choice) (Tid × Event) :=
  Pool.machine ⟨0, data⟩ .idle (next size)

def Event.stored? : Event → Option (List UInt8)
  | .stored v => some v
  | _ => none

section
variable {Tid : Type*}

def stores (es : List (Tid × Event)) : List (List UInt8) := es.filterMap fun e => e.2.stored?

/-- The value of the most recent completed store, if any, or the constructor's. -/
def latest (initial : List UInt8) (es : List (Tid × Event)) : List UInt8 :=
  (stores es).getLastD initial

/-- A load called after `es₁` returned `v`, and nothing but its silent steps lies between. -/
structure Load (es : List (Tid × Event)) (t : Tid) (es₁ es₂ : List (Tid × Event))
    (v : List UInt8) : Prop where
  within : es₁ ++ (t, .called .load) :: es₂ ++ [(t, .loaded v)] <+: es
  silent : ∀ e, (t, e) ∈ es₂ → e = .silent

end
end LockFree.SeqLockAtomic
