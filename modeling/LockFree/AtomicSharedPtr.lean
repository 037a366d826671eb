import Mathlib.Logic.Function.Basic
import Mathlib.Tactic.Common

/-!
# AtomicSharedPtr

Control blocks and nodes live in a heap and are named by numbers, 0 being the null
pointer; a number is never used again. One step is one atomic operation with the
private code behind it. A step that would touch something that is not live, take a
count below zero or fail an assertion has no result.
-/

namespace LockFree.AtomicSharedPtr

def kMagicLen : ℕ := 16

def kMagicMask : ℕ := 0xFFFF

/-- The pointer to the control block, above the 16 bits of the local count. -/
def pointer (packed : ℕ) : ℕ := packed >>> kMagicLen

def localCount (packed : ℕ) : ℕ := packed &&& kMagicMask

def pack (block : ℕ) : ℕ := block <<< kMagicLen

structure ControlBlock where
  data : ℕ
  refCount : ℕ

/-- `prev_` is the `SharedPtr` with this control block. -/
structure Node (T : Type*) where
  prev : ℕ
  data : T

/-- `destroyed` says that the lifetime of `head_` is over. -/
structure Shared (T : Type*) where
  packedPtr : ℕ
  destroyed : Bool
  blocks : ℕ → Option ControlBlock
  nodes : ℕ → Option (Node T)
  created : ℕ

variable {T : Type*}

def Shared.setRefCount (g : Shared T) (block : ℕ) (c : ControlBlock) (refCount : ℕ) : Shared T :=
  { g with blocks := Function.update g.blocks block (some { c with refCount := refCount }) }

def fetchAdd (g : Shared T) (block diff : ℕ) : Option (ℕ × Shared T) :=
  match g.blocks block with
  | none => none
  | some c => some (c.refCount, g.setRefCount block c (c.refCount + diff))

def fetchSub (g : Shared T) (block diff : ℕ) : Option (ℕ × Shared T) :=
  match g.blocks block with
  | none => none
  | some c =>
    if c.refCount < diff then none
    else some (c.refCount, g.setRefCount block c (c.refCount - diff))

def delete (g : Shared T) (block data : ℕ) : Option (Shared T × List ℕ) :=
  if data = 0 then some ({ g with blocks := Function.update g.blocks block none }, [])
  else
    match g.nodes data with
    | none => none
    | some node =>
      some ({ g with
        blocks := Function.update g.blocks block none
        nodes := Function.update g.nodes data none }, [node.prev])

def dropRef (g : Shared T) (block : ℕ) (data : ControlBlock → ℕ) : Option (Shared T × List ℕ) :=
  match g.blocks block with
  | none => none
  | some c =>
    if c.refCount = 0 then none
    else if c.refCount = 1 then delete g block (data c)
    else some (g.setRefCount block c (c.refCount - 1), [])

/-- One turn of the loop in `~SharedPtr` over its `destructionQueue`. -/
def release (g : Shared T) (block : ℕ) (queue : List ℕ) : Option (Shared T × List ℕ) :=
  if block = 0 then some (g, queue)
  else
    match dropRef g block ControlBlock.data with
    | none => none
    | some (g', pushed) => some (g', pushed ++ queue)

/-- `foreign` says that `foreignPackedPtr` is not null. -/
structure Handle where
  known : ℕ
  foreign : Bool
  data : ℕ

inductive Fast
  | addLocal
  | readData (known : ℕ)
  | migrateAdd (known data block : ℕ)
  | migrateCas (known data block : ℕ)
  | migrateSub (known data block diff : ℕ)
  | done (h : Handle)

/-- The condition of the loop in the constructor. -/
def Fast.check (known data block : ℕ) : Fast :=
  if 1000 < localCount known ∧ block = pointer known then .migrateAdd known data block
  else .done ⟨known, true, data⟩

def Fast.step (g : Shared T) : Fast → Option (Shared T × Fast)
  | .addLocal => some ({ g with packedPtr := g.packedPtr + 1 }, .readData (g.packedPtr + 1))
  | .readData known =>
    match g.blocks (pointer known) with
    | none => none
    | some c => some (g, .check known c.data (pointer known))
  | .migrateAdd known data block =>
    match fetchAdd g block (localCount known) with
    | none => none
    | some (_, g') => some (g', .migrateCas known data block)
  | .migrateCas known data block =>
    if g.packedPtr = known then
      some ({ g with packedPtr := known - localCount known }, .done ⟨known, false, data⟩)
    else some (g, .migrateSub g.packedPtr data block (localCount known))
  | .migrateSub known data block diff =>
    match fetchSub g block diff with
    | none => none
    | some (_, g') => some (g', .check known data block)
  | .done h => some (g, .done h)

inductive Destroy
  | cas (expected : ℕ)
  | refSub
  | releasing (queue : List ℕ)
  | done

def Destroy.start (h : Handle) : Destroy :=
  if h.foreign then .cas h.known else .done

def Destroy.step (g : Shared T) (h : Handle) (spurious : Bool) :
    Destroy → Option (Shared T × Destroy)
  | .cas expected =>
    if g.packedPtr = expected ∧ ¬ spurious then
      some ({ g with packedPtr := expected - 1 }, .done)
    else if pointer g.packedPtr ≠ pointer h.known ∨ localCount g.packedPtr = 0 then
      some (g, .refSub)
    else some (g, .cas g.packedPtr)
  | .refSub =>
    match dropRef g (pointer h.known) fun _ => h.data with
    | none => none
    | some (g', queue) => some (g', .releasing queue)
  | .releasing [] => some (g, .done)
  | .releasing (block :: queue) =>
    match release g block queue with
    | none => none
    | some (g', queue') => some (g', .releasing queue')
  | .done => some (g, .done)

inductive Get
  | addLocal
  | refAdd (copy : ℕ)
  | cas (copy expected : ℕ)
  | refSub (copy : ℕ)
  | done (block : ℕ)

def Get.step (g : Shared T) (spurious : Bool) : Get → Option (Shared T × Get)
  | .addLocal => some ({ g with packedPtr := g.packedPtr + 1 }, .refAdd g.packedPtr)
  | .refAdd copy =>
    match fetchAdd g (pointer copy) 1 with
    | none => none
    | some (before, g') => if before = 0 then none else some (g', .cas copy (copy + 1))
  | .cas copy expected =>
    if localCount expected = 0 then none
    else if g.packedPtr = expected ∧ ¬ spurious then
      some ({ g with packedPtr := expected - 1 }, .done (pointer copy))
    else if pointer g.packedPtr ≠ pointer copy ∨ localCount g.packedPtr = 0 then
      some (g, .refSub copy)
    else some (g, .cas copy g.packedPtr)
  | .refSub copy =>
    match fetchSub g (pointer copy) 1 with
    | none => none
    | some (_, g') => some (g', .done (pointer copy))
  | .done block => some (g, .done block)

/-- `moved` says that `newOne` has been emptied. -/
inductive Exchange
  | compare
  | getFast (x : Fast)
  | flushAdd (holder : Handle) (expected : ℕ)
  | flushCas (holder : Handle) (expected : ℕ)
  | flushSub (holder : Handle) (expected diff : ℕ)
  | swap (holder : Handle) (expected : ℕ)
  | destroyOld (holder : Handle) (expected : ℕ)
  | releaseOld (holder : Handle) (queue : List ℕ)
  | destroy (moved : Bool) (holder : Handle) (x : Destroy)
  | done (result moved : Bool)

def Exchange.loop (holder : Handle) (expected : ℕ) : Exchange :=
  if pointer holder.known ≠ pointer expected then .destroy false holder (.start holder)
  else if localCount expected ≠ 0 then .flushAdd holder expected
  else .swap holder expected

def Exchange.hold (expected : ℕ) (holder : Handle) : Exchange :=
  if holder.data = expected then .loop holder (pack (pointer holder.known))
  else .destroy false holder (.start holder)

/-- `compareExchange(expected, newOne)` where `newOne` has the control block `new`. -/
def Exchange.step (g : Shared T) (expected new : ℕ) (spurious : Bool) :
    Exchange → Option (Shared T × Exchange)
  | .compare =>
    if new = 0 then some (g, if expected = 0 then .done true false else .getFast .addLocal)
    else
      match g.blocks new with
      | none => none
      | some c => some (g, if expected = c.data then .done true false else .getFast .addLocal)
  | .getFast x =>
    match x.step g with
    | none => none
    | some (g', .done holder) => some (g', .hold expected holder)
    | some (g', x') => some (g', .getFast x')
  | .flushAdd holder packed =>
    match fetchAdd g (pointer holder.known) (localCount packed) with
    | none => none
    | some (_, g') => some (g', .flushCas holder packed)
  | .flushCas holder packed =>
    if g.packedPtr = packed ∧ ¬ spurious then
      some ({ g with packedPtr := packed - localCount packed }, .loop holder packed)
    else some (g, .flushSub holder g.packedPtr (localCount packed))
  | .flushSub holder packed diff =>
    match fetchSub g (pointer holder.known) diff with
    | none => none
    | some (_, g') => some (g', .loop holder packed)
  | .swap holder packed =>
    if pointer packed = new then none
    else if g.packedPtr = packed ∧ ¬ spurious then
      some ({ g with packedPtr := pack new }, .destroyOld holder packed)
    else some (g, .loop holder g.packedPtr)
  | .destroyOld holder packed =>
    match dropRef g (pointer packed) ControlBlock.data with
    | none => none
    | some (g', queue) => some (g', .releaseOld holder queue)
  | .releaseOld holder [] => some (g, .destroy true holder (.start holder))
  | .releaseOld holder (block :: queue) =>
    match release g block queue with
    | none => none
    | some (g', queue') => some (g', .releaseOld holder queue')
  | .destroy moved holder x =>
    match x.step g holder spurious with
    | none => none
    | some (g', .done) => some (g', .done moved moved)
    | some (g', x') => some (g', .destroy moved holder x')
  | .done result moved => some (g, .done result moved)

end LockFree.AtomicSharedPtr
