import LockFree.MulticastVersions
import LockFree.SeqLockConsistency

/-!
# BoundedMulticastQueue over memory with stale loads

The writer and every reader have a thread of their own. A word is copied byte by byte, and
so may be torn.
-/

namespace LockFree.MulticastViews
open BoundedMulticastQueue SeqLock TransitionRuns ViewMemory
open SeqLockViews (Location Shared Plan Local Thread Evaluates Ledger ledger ledger_snoc consistent)

/-- The size of the message in a slot, and its bytes. -/
inductive Part
  | size
  | byte (j : ℕ)
  deriving DecidableEq

def plan : Plan Part ℕ
  | [] => some .size
  | size :: bytes => if bytes.length < size then some (.byte bytes.length) else none

def Part.of (m : List UInt8) : Part → ℕ
  | .size => m.length
  | .byte j => (m.getD j 0).toNat

def writes (m : List UInt8) : List (Part × ℕ) :=
  ((List.range m.length).map Part.byte ++ [Part.size]).map fun part => (part, part.of m)

def loadedMessage (got : List ℕ) : Message where
  data j := .ofNat (got.getD (j + 1) 0)
  size := got.headD 0

inductive Tid (Rid : Type*)
  | writer
  | reader (r : Rid)
  deriving DecidableEq

abbrev Memory (Rid : Type*) := Pool (Tid Rid) (Shared ℕ Part ℕ) (Thread ℕ Part ℕ)

abbrev MemoryEvent (Rid : Type*) := Tid Rid × SeqLockViews.Event ℕ Part ℕ (Tid Rid)

structure State (Rid : Type*) where
  memory : Memory Rid
  tail : ℕ
  desired : List UInt8
  readers : Rid → Option Reader

/-- What the queue does in a step, and what its memory does. -/
structure Event (Rid : Type*) where
  queue : BoundedMulticastQueue.Event Rid
  memory : Option (MemoryEvent Rid)

inductive Choice (Rid : Type*)
  | write (desired : Message)
  | create (r : Rid)
  | copy (r other : Rid)
  | call (r : Rid) (c : ReadCall) (m : Message)
  | load (r : Rid)
  | update (r : Rid)
  | step (a : Tid Rid) (t : ℕ) (spurious : Bool)
  | synchronize (a u : Tid Rid)

variable {Rid : Type*} [DecidableEq Rid]

def quiet : Tid Rid → BoundedMulticastQueue.Event Rid
  | .writer => .writer .silent
  | .reader r => .reader r .silent

def State.setReader (s : State Rid) (r : Rid) (x : Reader) : State Rid :=
  { s with readers := Function.update s.readers r (some x) }

def stored (P : Params) (s : State Rid) (g : Memory Rid) (e : MemoryEvent Rid) :
    State Rid × Event Rid :=
  match e.2 with
  | .stored _ _ =>
    ({ s with memory := g, tail := (s.tail + 1) &&& P.getIndexMask },
      ⟨.writer (.written s.desired), some e⟩)
  | _ => ({ s with memory := g }, ⟨.writer .silent, some e⟩)

def loaded (P : Params) (s : State Rid) (r : Rid) (x : Reader) (c : ReadCall) (g : Memory Rid)
    (e : MemoryEvent Rid) : State Rid × Event Rid :=
  match e.2, (s.memory.threads (.reader r)).pc with
  | .loaded _ _ _ _ got, .loadSeq1 _ _ seq0 _ _ =>
    let finished := x.finish P c (loadedMessage got) seq0
    ({ s with memory := g }.setReader r finished.1, ⟨.reader r finished.2, some e⟩)
  | _, _ => ({ s with memory := g }, ⟨.reader r .silent, some e⟩)

def next (P : Params) (s : State Rid) : Choice Rid → Option (State Rid × Event Rid)
  | .write desired =>
    if desired.size ≤ P.maxMessageSize then
      match SeqLockViews.next s.memory
          (.writer, .call (.store s.tail (writes desired.contents))) with
      | none => none
      | some (g, e) => some ({ s with memory := g, desired := desired.contents },
          ⟨.writer (.writing desired.contents), some e⟩)
    else none
  | .create r =>
    match s.readers r with
    | none => some (s.setReader r ⟨0, 2, .idle⟩, ⟨.reader r .created, none⟩)
    | some _ => none
  | .copy r other =>
    match s.readers r, s.readers other,
        SeqLockViews.next s.memory (.reader r, .synchronize (.reader other)) with
    | none, some x, some (g, e) =>
      some ({ s with memory := g }.setReader r { x with pc := .idle }, ⟨.copied r other, some e⟩)
    | _, _, _ => none
  | .call r c m =>
    match s.readers r with
    | none => none
    | some x =>
      match x.pc with
      | .loading _ _ _ => none
      | _ => some (s.setReader r { x with pc := .loading c m .loadSeq0 },
          ⟨.reader r .silent, none⟩)
  | .load r =>
    match s.readers r with
    | none => none
    | some x =>
      match x.pc, SeqLockViews.next s.memory (.reader r, .call (.load x.head plan)) with
      | .loading _ _ _, some (g, e) =>
        some ({ s with memory := g }, ⟨.reader r .silent, some e⟩)
      | _, _ => none
  | .update r =>
    match s.readers r with
    | none => none
    | some x =>
      match x.pc with
      | .ready => some (s.setReader r (x.updateIndexes P), ⟨.reader r .updated, none⟩)
      | _ => none
  | .step .writer t spurious =>
    (SeqLockViews.next s.memory (.writer, .step t spurious)).map fun y => stored P s y.1 y.2
  | .step (.reader r) t spurious =>
    match s.readers r with
    | none => none
    | some x =>
      match x.pc with
      | .loading c _ _ =>
        (SeqLockViews.next s.memory (.reader r, .step t spurious)).map fun y =>
          loaded P s r x c y.1 y.2
      | _ => none
  | .synchronize a u =>
    (SeqLockViews.next s.memory (a, .synchronize u)).map fun y =>
      ({ s with memory := y.1 }, ⟨quiet a, some y.2⟩)

def memoryMachine (Rid : Type*) [DecidableEq Rid] :
    Machine (Memory Rid) (Tid Rid × SeqLockViews.Choice ℕ Part ℕ (Tid Rid)) (MemoryEvent Rid) :=
  SeqLockViews.machine (fun _ _ => 0) (Tid Rid)

def machine (P : Params) (Rid : Type*) [DecidableEq Rid] :
    Machine (State Rid) (Choice Rid) (Event Rid) where
  start := ⟨(memoryMachine Rid).start, 0, [], fun _ => none⟩
  next := next P

def queueEvents (es : List (Event Rid)) : List (BoundedMulticastQueue.Event Rid) :=
  es.map Event.queue

def memoryEvents (es : List (Event Rid)) : List (MemoryEvent Rid) := es.filterMap Event.memory

/-- How many messages have gone through the slot that the reader is at, as far as its thread
knows: it has read one of them, or another thread knew of them when it waited for it. -/
def heard (P : Params) (es : List (Event Rid)) (r : Rid) : ℕ :=
  (ledger (memoryEvents es)).known (.reader r)
    (position (queueEvents es) r % P.getBufferSize)

/-- What should hold of a run, whatever stale messages its loads read. -/
structure Delivers (P : Params) (es : List (Event Rid)) : Prop where
  ordered : ∀ a, (a, .unordered) ∉ memoryEvents es
  read : ∀ fs gs r m me, es = fs ++ ⟨.reader r (.read m), me⟩ :: gs →
    (written (queueEvents fs))[position (queueEvents fs) r]? = some m
  late : ∀ fs gs r me, es = fs ++ ⟨.reader r .late, me⟩ :: gs →
    position (queueEvents fs) r + P.getBufferSize < (written (queueEvents fs)).length
  current : ∀ fs gs r m me, es = fs ++ ⟨.reader r (.tried 0 m), me⟩ :: gs →
    (written (queueEvents fs))[position (queueEvents fs) r]? = some m
  newer : ∀ fs gs r result m me, es = fs ++ ⟨.reader r (.tried result m), me⟩ :: gs →
    0 < result →
      position (queueEvents fs) r + P.getBufferSize < (written (queueEvents fs)).length
  older : ∀ fs gs r result m me, es = fs ++ ⟨.reader r (.tried result m), me⟩ :: gs →
    result < 0 → heard P fs r ≤ position (queueEvents fs) r / P.getBufferSize
  afterLate : ∀ fs gs r m me me', es = fs ++ ⟨.reader r .late, me⟩ :: gs →
    ⟨.reader r (.read m), me'⟩ ∉ gs
  afterNewer : ∀ fs gs r result m me m' me',
    es = fs ++ ⟨.reader r (.tried result m), me⟩ :: gs → 0 < result →
      ⟨.reader r (.read m'), me'⟩ ∉ gs

end LockFree.MulticastViews
