import LockFree.SeqLock
import LockFree.TransitionRuns
import LockFree.ViewMemory

/-!
# SeqLock over memory with stale loads

Any number of objects, each behind its own `SeqLock`, as `SeqLockAtomic` and
`AtomicMulticastQueueMessage` use it: a store locks, goes through a release fence, writes
parts of the object with relaxed stores and unlocks; a load reads parts of it with relaxed
loads, goes through an acquire fence and reads the counter again. Which part is read next
may depend on what was read. Between its calls, other code of a thread may make it wait
for another thread.
-/

namespace LockFree.SeqLockViews
open SeqLock TransitionRuns ViewMemory

inductive Location (ι δ : Type*)
  | counter (i : ι)
  | data (i : ι) (d : δ)
  deriving DecidableEq

structure Shared (ι δ α : Type*) where
  counter : ι → Cell ℕ (Location ι δ)
  data : ι → δ → Cell α (Location ι δ)

abbrev Plan (δ α : Type*) := List α → Option δ

inductive Call (ι δ α : Type*)
  | load (i : ι) (plan : Plan δ α)
  | store (i : ι) (writes : List (δ × α))

/-- With `seq0` goes the number of the message that it was read from. -/
inductive Local (ι δ α : Type*)
  | idle
  | loadSeq0 (i : ι) (plan : Plan δ α)
  | reading (i : ι) (plan : Plan δ α) (seq0 t₀ : ℕ) (got : List α)
  | loadSeq1 (i : ι) (plan : Plan δ α) (seq0 t₀ : ℕ) (got : List α)
  | locking (i : ι) (writes : List (δ × α)) (p : Locking)
  | fencing (i : ι) (writes : List (δ × α)) (seq : ℕ)
  | storing (i : ι) (writes : List (δ × α)) (seq : ℕ) (rest : List (δ × α))

structure Thread (ι δ α : Type*) where
  pc : Local ι δ α
  views : Views (Location ι δ)

/-- `t₀` and `t₁` are the messages that the two loads of the counter have read. -/
inductive Event (ι δ α Tid : Type*)
  | called (c : Call ι δ α)
  | loaded (i : ι) (plan : Plan δ α) (t₀ t₁ : ℕ) (got : List α)
  | stored (i : ι) (writes : List (δ × α))
  | synchronized (u : Tid)
  | silent
  | unordered

/-- A step says which message a load reads, and whether a weak compare-exchange fails. -/
inductive Choice (ι δ α Tid : Type*)
  | call (c : Call ι δ α)
  | step (t : ℕ) (spurious : Bool)
  | synchronize (u : Tid)

variable {ι δ α Tid : Type*} [DecidableEq ι] [DecidableEq δ]

namespace Shared

def setCounter (g : Shared ι δ α) (i : ι) (c : Cell ℕ (Location ι δ)) : Shared ι δ α :=
  { g with counter := Function.update g.counter i c }

def setData (g : Shared ι δ α) (i : ι) (d : δ) (c : Cell α (Location ι δ)) : Shared ι δ α :=
  { g with data := Function.update g.data i (Function.update (g.data i) d c) }

end Shared

/-- An access of `Lock`. An exchange that reads an older message would have to come before
the message after it: it cannot if that is another exchange. -/
def lockNext (g : Shared ι δ α) (v : Views (Location ι δ)) (i : ι) (writes : List (δ × α))
    (p : Locking) (t : ℕ) (spurious : Bool) :
    Option (Shared ι δ α × Thread ι δ α × Event ι δ α Tid) :=
  match (g.counter i).load (.counter i) v t .relaxed with
  | none => none
  | some (x, v') =>
    match lock x spurious p with
    | (x', .locked seq) =>
      if t = (g.counter i).last then
        let exchanged := (g.counter i).exchange (.counter i) v x' .acquire
        some (g.setCounter i exchanged.1, ⟨.fencing i writes seq, exchanged.2⟩, .silent)
      else if ((g.counter i).message? (t + 1)).any (·.update) then none
      else some (g, ⟨.locking i writes p, v⟩, .unordered)
    | (_, p') => some (g, ⟨.locking i writes p', v'⟩, .silent)

def threadNext (g : Shared ι δ α) (l : Thread ι δ α) (t : ℕ) (spurious : Bool) :
    Option (Shared ι δ α × Thread ι δ α × Event ι δ α Tid) :=
  match l.pc with
  | .idle => none
  | .loadSeq0 i plan =>
    match (g.counter i).load (.counter i) l.views t .acquire with
    | none => none
    | some (seq0, v) => some (g, ⟨.reading i plan seq0 t [], v⟩, .silent)
  | .reading i plan seq0 t₀ got =>
    match plan got with
    | none => some (g, ⟨.loadSeq1 i plan seq0 t₀ got, l.views.acquireFence⟩, .silent)
    | some d =>
      match (g.data i d).load (.data i d) l.views t .relaxed with
      | none => none
      | some (a, v) => some (g, ⟨.reading i plan seq0 t₀ (got ++ [a]), v⟩, .silent)
  | .loadSeq1 i plan seq0 t₀ got =>
    match (g.counter i).load (.counter i) l.views t .relaxed with
    | none => none
    | some (seq1, v) =>
      if isLocked seq0 || seq0 != seq1 then some (g, ⟨.loadSeq0 i plan, v⟩, .silent)
      else some (g, ⟨.idle, v⟩, .loaded i plan t₀ t got)
  | .locking i writes p => lockNext g l.views i writes p t spurious
  | .fencing i writes seq =>
    some (g, ⟨.storing i writes seq writes, l.views.releaseFence⟩, .silent)
  | .storing i writes seq ((d, a) :: rest) =>
    if l.views.current (.data i d) = (g.data i d).last then
      let stored := (g.data i d).store (.data i d) l.views a .relaxed
      some (g.setData i d stored.1, ⟨.storing i writes seq rest, stored.2⟩, .silent)
    else some (g, l, .unordered)
  | .storing i writes seq [] =>
    if l.views.current (.counter i) = (g.counter i).last then
      let stored := (g.counter i).store (.counter i) l.views (unlock seq) .release
      some (g.setCounter i stored.1, ⟨.idle, stored.2⟩, .stored i writes)
    else some (g, l, .unordered)

def callNext : Call ι δ α → Local ι δ α
  | .load i plan => .loadSeq0 i plan
  | .store i writes => .locking i writes .load

variable [DecidableEq Tid]

def next (s : Pool Tid (Shared ι δ α) (Thread ι δ α)) :
    Tid × Choice ι δ α Tid →
      Option (Pool Tid (Shared ι δ α) (Thread ι δ α) × Tid × Event ι δ α Tid)
  | (a, .call c) =>
    match (s.threads a).pc with
    | .idle => some (⟨s.shared, Function.update s.threads a ⟨callNext c, (s.threads a).views⟩⟩,
        a, .called c)
    | _ => none
  | (a, .step t spurious) =>
    match threadNext s.shared (s.threads a) t spurious with
    | none => none
    | some (g, l, e) => some (⟨g, Function.update s.threads a l⟩, a, e)
  | (a, .synchronize u) =>
    match (s.threads a).pc with
    | .idle => some (⟨s.shared, Function.update s.threads a
        ⟨.idle, (s.threads a).views.join (s.threads u).views.current⟩⟩, a, .synchronized u)
    | _ => none

/-- Whoever constructed the objects has made all threads wait for it. -/
def machine (data : ι → δ → α) (Tid : Type*) [DecidableEq Tid] :
    Machine (Pool Tid (Shared ι δ α) (Thread ι δ α)) (Tid × Choice ι δ α Tid)
      (Tid × Event ι δ α Tid) where
  start := ⟨⟨fun _ => ⟨0, []⟩, fun i d => ⟨data i d, []⟩⟩, fun _ => ⟨.idle, .start _⟩⟩
  next := next

def apply (m : δ → α) (w : δ × α) : δ → α := Function.update m w.1 w.2

/-- The stores of every object so far, and how many of them a thread has to know: its own
ones, those that it has read, and those known to a thread that it has waited for. -/
structure Ledger (ι δ α Tid : Type*) where
  stores : ι → List (List (δ × α))
  known : Tid → ι → ℕ

namespace Ledger

def start : Ledger ι δ α Tid := ⟨fun _ => [], fun _ _ => 0⟩

def learn (l : Ledger ι δ α Tid) (a : Tid) (f : ι → ℕ) : Ledger ι δ α Tid :=
  { l with known := Function.update l.known a (l.known a ⊔ f) }

def step (l : Ledger ι δ α Tid) : Tid × Event ι δ α Tid → Ledger ι δ α Tid
  | (a, .loaded i _ t₀ _ _) => l.learn a (seen i (t₀ / 2))
  | (a, .stored i writes) =>
    let l := { l with stores := Function.update l.stores i (l.stores i ++ [writes]) }
    l.learn a (seen i (l.stores i).length)
  | (a, .synchronized u) => l.learn a (l.known u)
  | _ => l

def contents (l : Ledger ι δ α Tid) (data : ι → δ → α) (i : ι) (k : ℕ) : δ → α :=
  ((l.stores i).take k).flatten.foldl apply (data i)

end Ledger

def ledger (es : List (Tid × Event ι δ α Tid)) : Ledger ι δ α Tid :=
  es.foldl Ledger.step .start

structure Evaluates (plan : Plan δ α) (m : δ → α) (got : List α) : Prop where
  values : ∀ l a r, got = l ++ a :: r → ∃ d, plan l = some d ∧ a = m d
  complete : plan got = none

end LockFree.SeqLockViews
