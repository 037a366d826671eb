import LockFree.ReleaseAcquire
import LockFree.TransitionRuns
import Mathlib.Data.Finset.Lattice.Basic
import Mathlib.Data.Finset.Range

/-!
# SpinLock

A program point is the atomic access it makes and what follows from the value that was
there before. The critical sections are numbered in the order of the `Unlock`s that
end them; a view is a set of their numbers, and the thread that ends a section sees it.
-/

namespace LockFree.SpinLock
open ReleaseAcquire TransitionRuns

inductive Point
  | idle
  | lockExchange
  | lockLoad
  | tryLoad
  | tryExchange
  | held
  | unlockStore
  deriving DecidableEq

def Point.access : Point → Option (Access Bool)
  | .idle | .held => none
  | .lockExchange | .tryExchange => some (.exchange true .release)
  | .lockLoad | .tryLoad => some (.load .acquire)
  | .unlockStore => some (.store false .release)

/-- `Wait` has no effect. -/
def Point.after (seen : Bool) : Point → Point
  | .lockExchange => if seen then .lockLoad else .held
  | .lockLoad => if seen then .lockLoad else .lockExchange
  | .tryLoad => if seen then .idle else .tryExchange
  | .tryExchange => if seen then .idle else .held
  | .unlockStore => .idle
  | p => p

inductive Call
  | lock
  | tryLock
  | unlock

def Point.enter : Point → Call → Option Point
  | .idle, .lock => some .lockExchange
  | .idle, .tryLock => some .tryLoad
  | .held, .unlock => some .unlockStore
  | _, _ => none

structure Shared where
  locked : Cell Bool (Finset ℕ)
  ended : ℕ

structure Local where
  point : Point
  view : Finset ℕ

inductive Event
  | called (c : Call)
  | loaded (seen : Bool)
  | lost
  | acquired (view : Finset ℕ)
  | unlocked

inductive Choice
  | call (c : Call)
  | step

def event (p : Point) (seen : Bool) (view : Finset ℕ) : Event :=
  match p with
  | .unlockStore => .unlocked
  | .lockExchange | .tryExchange => if seen then .lost else .acquired view
  | _ => .loaded seen

def next (g : Shared) (l : Local) : Choice → Option (Shared × Local × Event)
  | .call c =>
    match l.point.enter c with
    | none => none
    | some p => some (g, { l with point := p }, .called c)
  | .step =>
    match l.point.access with
    | none => none
    | some op =>
      let ending := l.point = .unlockStore
      let before := if ending then l.view ⊔ {g.ended} else l.view
      let view := g.locked.viewAfter before op
      some (⟨g.locked.after before op, if ending then g.ended + 1 else g.ended⟩,
        ⟨l.point.after g.locked.value, view⟩, event l.point g.locked.value view)

def machine (Tid : Type*) [DecidableEq Tid] :
    Machine (Pool Tid Shared Local) (Tid × Choice) (Tid × Event) :=
  Pool.machine ⟨⟨false, ∅⟩, 0⟩ ⟨.idle, ∅⟩ next

def Point.holds : Point → Bool
  | .held | .unlockStore => true
  | _ => false

end LockFree.SpinLock
