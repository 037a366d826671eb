import LockFree.Linearizability
import LockFree.SpinLock

/-!
# UnboundedLockedStack

The stack of a `std::stack` behind a `SpinLock` that starts unlocked. `lock` and
`unlock` are the accesses of `SpinLock::Lock` and `SpinLock::Unlock`; each access to
`stack_` is a step, and so is an exception thrown by one. Elements have an identity,
so that the same elements can be told from equal ones.
-/

namespace LockFree.LockedStack
open Linearizability TransitionRuns

inductive Call (T : Type*)
  | emplace (v : T)
  | push (element : T)
  | pushMove (element : T)
  | pop

inductive Result (T : Type*)
  | done
  | popped (element : T)
  | empty
  | threw

def Call.element? {T : Type*} : Call T → Option T
  | .emplace v | .push v | .pushMove v => some v
  | .pop => none

structure Element (T : Type*) where
  id : ℕ
  value : T

structure Shared (T : Type*) where
  locked : Bool
  stack : List (Element T)
  created : ℕ

inductive Local (T : Type*)
  | idle
  | locking (c : Call T) (p : SpinLock.Point)
  | placing (c : Call T) (v : T)
  | testing
  | assigning
  | removing (v : T)
  | unlocking (c : Call T) (r : Result T)

inductive Event (T : Type*)
  | called (c : Call T)
  | acquired (c : Call T)
  | finished (c : Call T) (r : Result T)
  | released (c : Call T) (r : Result T)
  | silent

inductive Choice (T : Type*)
  | call (c : Call T)
  | step
  | throw

variable {T : Type*}

def body (c : Call T) : Local T :=
  match c with
  | .emplace v | .push v | .pushMove v => .placing c v
  | .pop => .testing

/-- `leave v` is what a move leaves of an element, `spoil v` what a throwing one does. -/
def next (leave spoil : T → T) (g : Shared T) :
    Local T → Choice T → Option (Shared T × Local T × Event T)
  | .idle, .call c => some (g, .locking c .lockExchange, .called c)
  | .locking c p, .step =>
    match p.access with
    | none => none
    | some op =>
      let g' := { g with locked := op.left g.locked }
      match p.after g.locked with
      | .held => some (g', body c, .acquired c)
      | p' => some (g', .locking c p', .silent)
  | .placing c v, .step =>
    some ({ g with stack := ⟨g.created, v⟩ :: g.stack, created := g.created + 1 },
      .unlocking c .done, .finished c .done)
  | .placing c _, .throw => some (g, .unlocking c .threw, .finished c .threw)
  | .testing, .step =>
    if g.stack.isEmpty then some (g, .unlocking .pop .empty, .finished .pop .empty)
    else some (g, .assigning, .silent)
  | .assigning, .step =>
    match g.stack with
    | [] => none
    | x :: q =>
      some ({ g with stack := ⟨x.id, leave x.value⟩ :: q }, .removing x.value, .silent)
  | .assigning, .throw =>
    match g.stack with
    | [] => none
    | x :: q =>
      some ({ g with stack := ⟨x.id, spoil x.value⟩ :: q }, .unlocking .pop .threw,
        .finished .pop .threw)
  | .removing v, .step =>
    match g.stack with
    | [] => none
    | _ :: q =>
      some ({ g with stack := q }, .unlocking .pop (.popped v), .finished .pop (.popped v))
  | .unlocking c r, .step =>
    match SpinLock.Point.unlockStore.access with
    | none => none
    | some op => some ({ g with locked := op.left g.locked }, .idle, .released c r)
  | _, _ => none

def machine (leave spoil : T → T) (Tid : Type*) [DecidableEq Tid] :
    Machine (Pool Tid (Shared T) (Local T)) (Tid × Choice T) (Tid × Event T) :=
  Pool.machine ⟨false, [], 0⟩ .idle (next leave spoil)

inductive StdStack (spoil : T → T) : List (Element T) → Call T → Result T → List (Element T) → Prop
  | push {q : List (Element T)} {c : Call T} {v : T} {id : ℕ} :
      c.element? = some v → (∀ x ∈ q, x.id ≠ id) → StdStack spoil q c .done (⟨id, v⟩ :: q)
  | throwPush {q : List (Element T)} {c : Call T} {v : T} :
      c.element? = some v → StdStack spoil q c .threw q
  | pop (x : Element T) (q : List (Element T)) : StdStack spoil (x :: q) .pop (.popped x.value) q
  | popEmpty : StdStack spoil [] .pop .empty []
  | throwPop (x : Element T) (q : List (Element T)) :
      StdStack spoil (x :: q) .pop .threw (⟨x.id, spoil x.value⟩ :: q)

def Event.mark? : Event T → Option (Mark (Call T) (Result T))
  | .called c => some (.call c)
  | .finished c r => some (.commit c r)
  | .released _ r => some (.ret r)
  | _ => none

def Event.acquired? : Event T → Option (Call T)
  | .acquired c => some c
  | _ => none

def Event.finished? : Event T → Option (Call T × Result T)
  | .finished c r => some (c, r)
  | _ => none

section
variable {Tid : Type*} (es : List (Tid × Event T))

def history : List (Tid × Mark (Call T) (Result T)) := marks Event.mark? es

/-- The operations in the order in which they acquired the lock. -/
def acquired : List (Tid × Call T) := es.filterMap fun e => e.2.acquired?.map (e.1, ·)

def finished : List (Tid × Call T × Result T) := es.filterMap fun e => e.2.finished?.map (e.1, ·)

end
end LockFree.LockedStack
