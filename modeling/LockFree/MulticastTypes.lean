import LockFree.MulticastVersions

/-!
# Messages of different types

`Write`, `TryRead` and `Read` are templates, and what they know of a `T` is its size. Their
conditions ask for a trivial copy and destruction; that the object fits into a message is
asked nowhere.
-/

namespace LockFree.BoundedMulticastQueue
open AtomicMemcpy SeqLock RingLaps TransitionRuns

/-- The sizes of the types that a program puts into the templates. -/
structure Types where
  write : List ℕ
  read : List ℕ

inductive Bytes
  | none
  | stored (access : ℕ × ℕ)
  | called
  | sequence
  | loaded (access : ℕ × ℕ) (src : Memory)
  | got (size : ℕ) (object : List UInt8)

structure TypedEvent (Rid : Type*) where
  queue : Event Rid
  bytes : Bytes

/-- A call with a `T` has the size of the object that it is going to fill. -/
structure TypedState (Rid : Type*) where
  queue : State Rid
  size : Rid → Option ℕ

inductive TypedChoice (Rid : Type*)
  | write (desired : Message)
  | store (spurious : Bool)
  | create (r : Rid)
  | copy (r other : Rid)
  | call (r : Rid) (c : ReadCall) (m : Message)
  | callTyped (r : Rid) (c : ReadCall) (size : ℕ)
  | step (r : Rid)
  | update (r : Rid)

def Store.bytes : Store → Bytes
  | .copying _ _ (access :: _) => .stored access
  | _ => .none

/-- `Get` copies the whole object when the call returns, whatever the message's size. -/
def Reader.bytes (slot : Slot) (size : Option ℕ) (x : Reader) (e : ReaderEvent) : Bytes :=
  match x.pc with
  | .loading _ _ .loadSeq0 => .sequence
  | .loading _ _ (.copying _ (access :: _)) => .loaded access slot.data
  | .loading _ m (.copying _ []) =>
    match e, size with
    | .silent, _ | _, none => .none
    | _, some size => .got size (contents size m.data)
  | _ => .none

def freshMessage : Message := ⟨fun _ => 0, 0⟩

section
variable {Rid : Type*} [DecidableEq Rid]

def TypedState.reader (P : Params) (s : TypedState Rid) (r : Rid) (c : ReaderChoice)
    (size : Option ℕ) (bytes : Slot → Reader → ReaderEvent → Bytes) :
    Option (TypedState Rid × TypedEvent Rid) :=
  match s.queue.readers r with
  | none => none
  | some x =>
    match x.next P (s.queue.buffer x.head) c with
    | none => none
    | some (x', e) =>
      some (⟨s.queue.setReader r x', Function.update s.size r size⟩,
        ⟨.reader r e, bytes (s.queue.buffer x.head) x e⟩)

def typedNext (P : Params) (T : Types) (s : TypedState Rid) :
    TypedChoice Rid → Option (TypedState Rid × TypedEvent Rid)
  | .write desired =>
    match s.queue.writer.pc with
    | .idle =>
      if desired.size ∈ T.write then
        some (⟨{ s.queue with writer := { s.queue.writer with pc := .locking desired .load } },
          s.size⟩, ⟨.writer (.writing desired.contents), .none⟩)
      else none
    | _ => none
  | .store spurious =>
    match next P s.queue (.store spurious) with
    | none => none
    | some (q, e) => some (⟨q, s.size⟩, ⟨e, s.queue.writer.pc.bytes⟩)
  | .create r =>
    match next P s.queue (.create r) with
    | none => none
    | some (q, e) => some (⟨q, s.size⟩, ⟨e, .none⟩)
  | .copy r other =>
    match next P s.queue (.copy r other) with
    | none => none
    | some (q, e) => some (⟨q, s.size⟩, ⟨e, .none⟩)
  | .call r c m => s.reader P r (.call c m) none fun _ _ _ => .called
  | .callTyped r c size =>
    if size ∈ T.read then
      s.reader P r (.call c freshMessage) (some size) fun _ _ _ => .called
    else none
  | .step r => s.reader P r .step (s.size r) fun slot x e => x.bytes slot (s.size r) e
  | .update r => s.reader P r .update none fun _ _ _ => .none

def typed (P : Params) (T : Types) (Rid : Type*) [DecidableEq Rid] :
    Machine (TypedState Rid) (TypedChoice Rid) (TypedEvent Rid) where
  start := ⟨(machine P Rid).start, fun _ => none⟩
  next := typedNext P T

inductive Touches (T : Types) (slot : Slot) (x : Reader) (size : Option ℕ) :
    ReaderChoice → Option ℕ → ReaderEvent → Bytes → Prop where
  | call {c : ReadCall} {m : Message} {size' : Option ℕ} {e : ReaderEvent} :
      (∀ n, size' = some n → n ∈ T.read ∧ m = freshMessage) →
      Touches T slot x size (.call c m) size' e .called
  | step {e : ReaderEvent} : Touches T slot x size .step size e (x.bytes slot size e)
  | update {e : ReaderEvent} : Touches T slot x size .update none e .none

inductive TypedMoves (P : Params) (T : Types) (s : TypedState Rid) :
    TypedState Rid → TypedEvent Rid → Prop where
  | write {desired : Message} : s.queue.writer.pc = .idle → desired.size ∈ T.write →
      TypedMoves P T s
        ⟨{ s.queue with writer := { s.queue.writer with pc := .locking desired .load } }, s.size⟩
        ⟨.writer (.writing desired.contents), .none⟩
  | store {spurious : Bool} {slot : Slot} {w : Writer} {e : WriterEvent} :
      store P (s.queue.buffer s.queue.writer.tail) s.queue.writer spurious = some (slot, w, e) →
      TypedMoves P T s
        ⟨{ s.queue with
            buffer := Function.update s.queue.buffer s.queue.writer.tail slot, writer := w },
          s.size⟩
        ⟨.writer e, s.queue.writer.pc.bytes⟩
  | create {r : Rid} : s.queue.readers r = none →
      TypedMoves P T s ⟨s.queue.setReader r ⟨0, 2, .idle⟩, s.size⟩ ⟨.reader r .created, .none⟩
  | copy {r other : Rid} {x : Reader} : s.queue.readers r = none →
      s.queue.readers other = some x →
      TypedMoves P T s ⟨s.queue.setReader r { x with pc := .idle }, s.size⟩
        ⟨.copied r other, .none⟩
  | reader {r : Rid} {x x' : Reader} {c : ReaderChoice} {size : Option ℕ} {e : ReaderEvent}
      {bytes : Bytes} : s.queue.readers r = some x →
      x.next P (s.queue.buffer x.head) c = some (x', e) →
      Touches T (s.queue.buffer x.head) x (s.size r) c size e bytes →
      TypedMoves P T s ⟨s.queue.setReader r x', Function.update s.size r size⟩
        ⟨.reader r e, bytes⟩

variable {P : Params} {T : Types} {s s' : TypedState Rid} {e : TypedEvent Rid}
  {es : List (TypedEvent Rid)}

theorem TypedMoves.of_reader {r : Rid} {c : ReaderChoice} {size : Option ℕ}
    {bytes : Slot → Reader → ReaderEvent → Bytes}
    (hn : s.reader P r c size bytes = some (s', e))
    (ht : ∀ x x' e, s.queue.readers r = some x →
      x.next P (s.queue.buffer x.head) c = some (x', e) →
      Touches T (s.queue.buffer x.head) x (s.size r) c size e
        (bytes (s.queue.buffer x.head) x e)) : TypedMoves P T s s' e := by
  rw [TypedState.reader] at hn
  split at hn
  · cases hn
  · rename_i x hr
    split at hn
    · cases hn
    · rename_i x' e hx
      cases hn
      exact .reader hr hx (ht x x' e hr hx)

theorem TypedMoves.of_step (hs : (typed P T Rid).Step s e s') : TypedMoves P T s s' e := by
  obtain ⟨c, hn⟩ := hs
  change typedNext P T s c = some (s', e) at hn
  cases c <;> simp only [typedNext, next] at hn
  case write desired =>
    split at hn
    · rename_i hpc
      split at hn
      · cases hn
        exact .write hpc ‹_›
      · cases hn
    · cases hn
  case store spurious =>
    cases hstore : BoundedMulticastQueue.store P (s.queue.buffer s.queue.writer.tail)
        s.queue.writer spurious with
    | none => simp only [hstore, reduceCtorEq] at hn
    | some next =>
      simp only [hstore] at hn
      cases hn
      exact .store hstore
  case create r =>
    cases hr : s.queue.readers r with
    | some x => simp only [hr, reduceCtorEq] at hn
    | none =>
      simp only [hr] at hn
      cases hn
      exact .create hr
  case copy r other =>
    cases hr : s.queue.readers r with
    | some x => simp only [hr, reduceCtorEq] at hn
    | none =>
      cases hother : s.queue.readers other with
      | none => simp only [hr, hother, reduceCtorEq] at hn
      | some x =>
        simp only [hr, hother] at hn
        cases hn
        exact .copy hr hother
  case call r c m =>
    exact .of_reader hn fun x x' e _ hx => .call (by simp)
  case callTyped r c size =>
    split at hn
    · refine .of_reader hn fun x x' e _ hx => .call fun n hsize => ?_
      cases hsize
      exact ⟨‹_›, rfl⟩
    · cases hn
  case step r => exact .of_reader hn fun x x' e _ hx => .step
  case update r => exact .of_reader hn fun x x' e _ hx => .update

theorem TypedMoves.moves (hm : TypedMoves P T s s' e) : Moves P s.queue s'.queue e.queue := by
  cases hm with
  | write hpc _ => exact .write hpc
  | store hstore => exact .store hstore
  | create hr => exact .create hr
  | copy hr hother => exact .copy hr hother
  | reader hr hx _ => exact .reader hr hx

theorem Located.of_typed (h : (typed P T Rid).Run es s) :
    Located P (es.map TypedEvent.queue) s.queue := by
  apply h.invariant (I := fun es s => Located P (es.map TypedEvent.queue) s.queue)
  · exact .start
  · intro es s e s' _ hi hs
    rw [List.map_append]
    exact hi.moves (TypedMoves.of_step hs).moves

end
end LockFree.BoundedMulticastQueue
