import Mathlib.Data.Int.Basic
import Mathlib.Data.Nat.Log
import Mathlib.Logic.Function.Basic
import LockFree.SeqLock
import LockFree.TransitionRuns

/-!
# BoundedMulticastQueue

A ring of messages, each behind its own `SeqLock`. The writer goes round and never
waits; a reader keeps the index of its next message and the counter at which it stands
there. Every access to a slot is a step.
-/

namespace LockFree.BoundedMulticastQueue
open AtomicMemcpy SeqLock TransitionRuns

structure Message where
  data : Memory
  size : ℕ

def Message.contents (m : Message) : List UInt8 := AtomicMemcpy.contents m.size m.data

structure Slot where
  data : Memory
  messageSize : ℕ
  counter : ℕ

/-- `MessagesCount` and `MaxMessageSize`, and what `__builtin_ctz` happens to give for zero. -/
structure Params where
  messagesCount : ℕ
  maxMessageSize : ℕ
  ctzZero : ℕ

/-- Defined for a nonzero 32-bit word only. -/
def Params.builtinCtz (P : Params) (x : ℕ) : ℕ :=
  ((List.range 32).find? fun i => x.testBit i).getD P.ctzZero

def bitCeil (x : ℕ) : ℕ := 2 ^ Nat.clog 2 x

def Params.getBufferSize (P : Params) : ℕ := bitCeil P.messagesCount

def Params.getIndexMask (P : Params) : ℕ := P.getBufferSize - 1

/-- The argument is converted to `unsigned int`. -/
def Params.getSeqRightShiftValue (P : Params) : ℕ := P.builtinCtz (P.getBufferSize % 2 ^ 32)

def int32 (x : ℕ) : ℤ := Int.bmod x (2 ^ 32)

inductive Load
  | loadSeq0
  | messageSize (seq0 : ℕ)
  | copying (seq0 : ℕ) (rest : List (ℕ × ℕ))
  | returned (seq0 : ℕ)

def load (slot : Slot) (m : Message) : Load → Message × Load
  | .loadSeq0 => (m, .messageSize slot.counter)
  | .messageSize seq0 =>
    ({ m with size := slot.messageSize }, .copying seq0 (atomicMemcpy slot.messageSize))
  | .copying seq0 (access :: rest) =>
    ({ m with data := copy access slot.data m.data }, .copying seq0 rest)
  | .copying seq0 [] =>
    if isLocked seq0 || seq0 != slot.counter then (m, .loadSeq0) else (m, .returned seq0)
  | .returned seq0 => (m, .returned seq0)

inductive Store
  | idle
  | locking (desired : Message) (p : Locking)
  | copying (desired : Message) (seq : ℕ) (rest : List (ℕ × ℕ))
  | unlocking (desired : Message) (seq : ℕ)

structure Writer where
  tail : ℕ
  pc : Store

inductive WriterEvent
  | writing (m : List UInt8)
  | written (m : List UInt8)
  | silent

/-- An access of `Store`; the last one is followed by the update of `tail_`. -/
def store (P : Params) (slot : Slot) (w : Writer) (spurious : Bool) :
    Option (Slot × Writer × WriterEvent) :=
  match w.pc with
  | .idle => none
  | .locking desired p =>
    match lock slot.counter spurious p with
    | (counter, .locked seq) =>
      some ({ slot with counter := counter },
        { w with pc := .copying desired seq (atomicMemcpy desired.size) }, .silent)
    | (counter, p') =>
      some ({ slot with counter := counter }, { w with pc := .locking desired p' }, .silent)
  | .copying desired seq (access :: rest) =>
    some ({ slot with data := copy access desired.data slot.data },
      { w with pc := .copying desired seq rest }, .silent)
  | .copying desired seq [] =>
    some ({ slot with messageSize := desired.size },
      { w with pc := .unlocking desired seq }, .silent)
  | .unlocking desired seq =>
    some ({ slot with counter := unlock seq },
      ⟨(w.tail + 1) &&& P.getIndexMask, .idle⟩, .written desired.contents)

inductive ReadCall
  | tryRead
  | read

/-- In `ready` the last call was a `TryRead` that returned 0. -/
inductive Reading
  | idle
  | ready
  | loading (c : ReadCall) (m : Message) (p : Load)

structure Reader where
  head : ℕ
  expectedSeq : ℕ
  pc : Reading

inductive ReaderEvent
  | created
  | tried (result : ℤ) (m : List UInt8)
  | read (m : List UInt8)
  | late
  | updated
  | silent

def Reader.updateIndexes (P : Params) (x : Reader) : Reader where
  head := (x.head + 1) &&& P.getIndexMask
  expectedSeq := (x.expectedSeq + ((x.head + 1) >>> P.getSeqRightShiftValue) <<< 1) % 2 ^ 64
  pc := .idle

/-- What `TryRead` makes of the counter that `Load` returned, and `Read` of its result. -/
def Reader.finish (P : Params) (x : Reader) (c : ReadCall) (m : Message) (realSeq : ℕ) :
    Reader × ReaderEvent :=
  let result := int32 realSeq - int32 x.expectedSeq
  match c with
  | .tryRead => ({ x with pc := if result = 0 then .ready else .idle }, .tried result m.contents)
  | .read =>
    if result = 0 then (x.updateIndexes P, .read m.contents)
    else if 0 < result then ({ x with pc := .idle }, .late)
    else ({ x with pc := .loading c m .loadSeq0 }, .silent)

inductive ReaderChoice
  | call (c : ReadCall) (m : Message)
  | step
  | update

def Reader.next (P : Params) (slot : Slot) (x : Reader) :
    ReaderChoice → Option (Reader × ReaderEvent)
  | .call c m =>
    match x.pc with
    | .loading _ _ _ => none
    | _ => some ({ x with pc := .loading c m .loadSeq0 }, .silent)
  | .step =>
    match x.pc with
    | .loading c m p =>
      match load slot m p with
      | (m', .returned realSeq) => some (x.finish P c m' realSeq)
      | (m', p') => some ({ x with pc := .loading c m' p' }, .silent)
    | _ => none
  | .update =>
    match x.pc with
    | .ready => some (x.updateIndexes P, .updated)
    | _ => none

structure State (Rid : Type*) where
  buffer : ℕ → Slot
  writer : Writer
  readers : Rid → Option Reader

inductive Event (Rid : Type*)
  | writer (e : WriterEvent)
  | reader (r : Rid) (e : ReaderEvent)
  | copied (r other : Rid)

inductive Choice (Rid : Type*)
  | write (desired : Message)
  | store (spurious : Bool)
  | create (r : Rid)
  | copy (r other : Rid)
  | reader (r : Rid) (c : ReaderChoice)

section
variable {Rid : Type*} [DecidableEq Rid]

def State.setReader (s : State Rid) (r : Rid) (x : Reader) : State Rid :=
  { s with readers := Function.update s.readers r (some x) }

def next (P : Params) (s : State Rid) : Choice Rid → Option (State Rid × Event Rid)
  | .write desired =>
    match s.writer.pc with
    | .idle =>
      if desired.size ≤ P.maxMessageSize then
        some ({ s with writer := { s.writer with pc := .locking desired .load } },
          .writer (.writing desired.contents))
      else none
    | _ => none
  | .store spurious =>
    match store P (s.buffer s.writer.tail) s.writer spurious with
    | none => none
    | some (slot, w, e) =>
      some ({ s with buffer := Function.update s.buffer s.writer.tail slot, writer := w },
        .writer e)
  | .create r =>
    match s.readers r with
    | none => some (s.setReader r ⟨0, 2, .idle⟩, .reader r .created)
    | some _ => none
  | .copy r other =>
    match s.readers r, s.readers other with
    | none, some x => some (s.setReader r { x with pc := .idle }, .copied r other)
    | _, _ => none
  | .reader r c =>
    match s.readers r with
    | none => none
    | some x =>
      match x.next P (s.buffer x.head) c with
      | none => none
      | some (x', e) => some (s.setReader r x', .reader r e)

def machine (P : Params) (Rid : Type*) [DecidableEq Rid] :
    Machine (State Rid) (Choice Rid) (Event Rid) where
  start := ⟨fun _ => ⟨fun _ => 0, 0, 0⟩, ⟨0, .idle⟩, fun _ => none⟩
  next := next P

omit [DecidableEq Rid] in
def Event.written? : Event Rid → Option (List UInt8)
  | .writer (.written m) => some m
  | _ => none

omit [DecidableEq Rid] in
def Event.writing? : Event Rid → Option (List UInt8)
  | .writer (.writing m) => some m
  | _ => none

def written (es : List (Event Rid)) : List (List UInt8) := es.filterMap Event.written?

def lapsBegun (P : Params) (es : List (Event Rid)) : ℕ :=
  ((es.filterMap Event.writing?).length + P.getBufferSize - 1) / P.getBufferSize

def positionAfter (pos : Rid → ℕ) : Event Rid → Rid → ℕ
  | .reader r .created => Function.update pos r 0
  | .reader r (.read _) | .reader r .updated => Function.update pos r (pos r + 1)
  | .copied r other => Function.update pos r (pos other)
  | _ => pos

def position (es : List (Event Rid)) : Rid → ℕ := es.foldl positionAfter fun _ => 0

/-- Each successful `Read` gives the written message at the reader's position. -/
structure Delivers (P : Params) (es : List (Event Rid)) : Prop where
  read : ∀ es₁ es₂ r m, es = es₁ ++ .reader r (.read m) :: es₂ →
    (written es₁)[position es₁ r]? = some m
  late : ∀ es₁ es₂ r, es = es₁ ++ .reader r .late :: es₂ →
    position es₁ r + P.getBufferSize < (written es₁).length
  tried : ∀ es₁ es₂ r result m, es = es₁ ++ .reader r (.tried result m) :: es₂ → result < 0 →
    (written es₁).length ≤ position es₁ r
  afterLate : ∀ es₁ es₂ r m, es = es₁ ++ .reader r .late :: es₂ → .reader r (.read m) ∉ es₂

end
end LockFree.BoundedMulticastQueue
