import LockFree.OwnedHeap

/-!
# The destruction of SharedPtrs

One thread, with its call stack and its `destructionQueue`. A step is one turn of the loop
in `~SharedPtr`, one `fetch_sub` with the test of what it found, or the deletion of one
block. A step that fails an assertion or touches a deleted block has no result. Counts do
not overflow: every owner is an object of eight bytes.
-/

namespace LockFree.SharedPtrDestruction
open OwnedHeap TransitionRuns

variable {B : Type*}

/-- The back of `queue` comes first, the innermost of `frames` too. -/
inductive Frame (B : Type*)
  | destroy (controlBlock : Option B)
  | loop
  | unref (blockToUnref : Option B)
  | deleteBlock (block : B)
  deriving DecidableEq

structure State (B : Type*) where
  heap : Heap B
  queue : List (Option B)
  inProgress : Bool
  frames : List (Frame B)

inductive Event (B : Type*)
  | deleted (block : B)
  | silent
  deriving DecidableEq

/-- `int before = n` for an `n` of type `size_t`. -/
def toInt (n : ℕ) : ℤ := Int.bmod n (2 ^ 32)

structure Variant where
  queued : Bool
  before : ℕ → ℤ

def queued : Variant := ⟨true, toInt⟩

/-- `~SharedPtr() { unref(controlBlock); }`, with a `before` that holds any count. -/
def recursive : Variant := ⟨false, fun n => n⟩

variable [DecidableEq B]

/-- `fetch_sub(1)`, and `delete data; delete block` if it was the last reference. First come
the members of the node, in the order in which C++ destroys them. -/
def fetchSub (s : State B) (b : B) (c : Block B) (last : Bool) (k : List (Frame B)) : State B :=
  if last then
    { s with
      heap := Function.update s.heap b (some ⟨c.refCount - 1, []⟩)
      frames := c.members.map .destroy ++ .deleteBlock b :: k }
  else
    { s with
      heap := Function.update s.heap b (some { c with refCount := c.refCount - 1 }), frames := k }

def next (v : Variant) (s : State B) : Option (State B × Event B) :=
  match s.frames with
  | [] => none
  | .destroy p :: k =>
    if v.queued then
      if s.inProgress then some ({ s with queue := p :: s.queue, frames := k }, .silent)
      else
        some ({ s with queue := p :: s.queue, inProgress := true, frames := .loop :: k }, .silent)
    else some ({ s with frames := .unref p :: k }, .silent)
  | .loop :: k =>
    match s.queue with
    | [] => some ({ s with inProgress := false, frames := k }, .silent)
    | p :: q => some ({ s with queue := q, frames := .unref p :: .loop :: k }, .silent)
  | .unref none :: k => some ({ s with frames := k }, .silent)
  | .unref (some b) :: k =>
    match s.heap b with
    | none => none
    | some c =>
      if v.before c.refCount = 0 then none
      else some (fetchSub s b c (v.before c.refCount = 1) k, .silent)
  | .deleteBlock b :: k =>
    match s.heap b with
    | none => none
    | some _ => some ({ s with heap := Function.update s.heap b none, frames := k }, .deleted b)

def machine (v : Variant) (s : State B) : Machine (State B) Unit (Event B) where
  start := s
  next s _ := next v s

/-- An assignment has written its pointers: `this` is the one that was overwritten, `other`
the one that is there now. `fastDestroy` is `FastSharedPtr::destroy` when it has to take its
reference from the block. -/
inductive Op (B : Type*)
  | destroy (this : Option B)
  | copyAssign (this other : Option B)
  | moveAssign (this other : Option B)
  | fastDestroy (this : B)

def Op.owner : Op B → List (Option B)
  | .destroy p | .copyAssign p _ => [p]
  | .moveAssign p other => if p = other then [] else [p]
  | .fastDestroy b => [some b]

def Op.taken : Op B → List (Option B)
  | .copyAssign _ other => [other]
  | _ => []

def Op.pending : Op B → List (Option B)
  | .fastDestroy _ => []
  | op => op.owner

def retain (v : Variant) (h : Heap B) : Option B → Option (Heap B)
  | none => some h
  | some b =>
    match h b with
    | none => none
    | some c =>
      if v.before c.refCount = 0 then none
      else some (Function.update h b (some { c with refCount := c.refCount + 1 }))

/-- No destruction is in progress. `destroy` has a `before` of type `size_t`. -/
def Op.start (v : Variant) (h : Heap B) : Op B → Option (State B)
  | .destroy p => some ⟨h, [], false, [.destroy p]⟩
  | .copyAssign p other => (retain v h other).map fun h => ⟨h, [], false, [.unref p]⟩
  | .moveAssign p other => some ⟨h, [], false, if p = other then [] else [.unref p]⟩
  | .fastDestroy b =>
    match h b with
    | none => none
    | some c => some (fetchSub ⟨h, [], false, []⟩ b c (c.refCount = 1) [])

/-- Heaps without cycles in which every count is the number of owners, which are members of
blocks, `remaining` outside of them and the one that is released, and no block is without. -/
structure Valid [Fintype B] (h : Heap B) (remaining : List (Option B)) (op : Op B) : Prop where
  counts : ∀ b, refCount h b + op.taken.count (some b) = refs h (op.owner ++ remaining) b
  positive : ∀ b c, h b = some c → 0 < c.refCount
  acyclic : Acyclic h
  taken : ∀ b, some b ∈ op.taken → (h b).isSome = true

/-- The code ends where the recursion ends, with nothing left in the queue. A block that
still has owners keeps its node and their number, and the others are deleted once. -/
def ReleasesLikeRecursion [Fintype B] (h : Heap B) (remaining : List (Option B)) (op : Op B) :
    Prop :=
  ∃ s₀ es s, op.start queued h = some s₀ ∧ (machine queued s₀).Run es s ∧ s.frames = [] ∧
    s.queue = [] ∧ s.inProgress = false ∧
    (∃ r₀ fs r, op.start recursive h = some r₀ ∧ (machine recursive r₀).Run fs r ∧
      r.frames = [] ∧ r.heap = s.heap) ∧
    ∀ b c, h b = some c →
      if refs s.heap remaining b = 0 then s.heap b = none ∧ es.count (.deleted b) = 1
      else s.heap b = some ⟨refs s.heap remaining b, c.members⟩ ∧ es.count (.deleted b) = 0

end LockFree.SharedPtrDestruction
