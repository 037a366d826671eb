import LockFree.LockedStackLifo

/-!
# The lock of an UnboundedSpinLockedStack as it is constructed

The alias instantiates `UnboundedLockedStack` with `Lock<SpinLock>`, the base class of
`SpinLock`. Its constructor initialises no `locked_`: the downcast in `lock` and `unlock`
reaches a byte of `lock_` that keeps whatever was there before.
-/

namespace LockFree.LockedStack
open Linearizability TransitionRuns

/-- `lock derived` is `concurrent::lock::Lock<Derived>`. -/
inductive LockType
  | lock (derived : LockType)
  | spinLock

/-- The argument `Lock` of the `UnboundedLockedStack` that the alias stands for. -/
def unboundedBaseLockedStack (derivedLock : LockType) : LockType := .lock derivedLock

def unboundedSpinLockedStack : LockType := unboundedBaseLockedStack .spinLock

/-- The byte that `SpinLock::Lock` and `SpinLock::Unlock` take for `locked_`. -/
structure Flag where
  value : Bool
  constructed : Bool

def LockType.constructors : LockType → List LockType
  | .lock derived => [.lock derived]
  | .spinLock => [.lock .spinLock, .spinLock]

def LockType.initialise (flag : Flag) : LockType → Flag
  | .lock _ => flag
  | .spinLock => ⟨false, true⟩

def LockType.construct (l : LockType) (garbage : Bool) : Flag :=
  l.constructors.foldl LockType.initialise ⟨garbage, false⟩

variable {T : Type*}

def Local.usesLock : Local T → Bool
  | .locking _ _ | .unlocking _ _ => true
  | _ => false

def stackOf (l : LockType) (garbage : Bool) (leave spoil : T → T) (Tid : Type*)
    [DecidableEq Tid] : Machine (Pool Tid (Shared T) (Local T)) (Tid × Choice T) (Tid × Event T) :=
  Pool.machine ⟨(l.construct garbage).value, [], 0⟩ .idle (next leave spoil)

/-- Every access of `lock()` and `unlock()` is to a flag that a constructor of `SpinLock`
has set to false. -/
def UsesConstructed (l : LockType) (garbage : Bool) (leave spoil : T → T) : Prop :=
  ∀ (Tid : Type) [DecidableEq Tid] es s t e s', (stackOf l garbage leave spoil Tid).Run es s →
    (stackOf l garbage leave spoil Tid).Step s (t, e) s' → (s.threads t).usesLock = true →
      l.construct garbage = ⟨false, true⟩

/-- With no operation in progress the flag is false, and the operation that is started then
acquires the lock with its first exchange. -/
def RestsUnlocked (l : LockType) (garbage : Bool) (leave spoil : T → T) : Prop :=
  ∀ (Tid : Type) [DecidableEq Tid] es s, (stackOf l garbage leave spoil Tid).Run es s →
    (∀ t, s.threads t = .idle) → s.shared.locked = false ∧
      ∀ t c, ∃ s₁ s₂,
        (stackOf l garbage leave spoil Tid).next s (t, .call c) = some (s₁, t, .called c) ∧
        (stackOf l garbage leave spoil Tid).next s₁ (t, .step) = some (s₂, t, .acquired c)

variable {leave spoil : T → T}

theorem construct_unboundedSpinLockedStack (garbage : Bool) :
    unboundedSpinLockedStack.construct garbage = ⟨garbage, false⟩ := rfl

theorem construct_spinLock (garbage : Bool) :
    LockType.spinLock.construct garbage = ⟨false, true⟩ := rfl

section
variable {Tid : Type*} [DecidableEq Tid] {l : LockType} {garbage : Bool}
  {es : List (Tid × Event T)} {s : Pool Tid (Shared T) (Local T)}

theorem first_exchange_acquires {t : Tid} {c : Call T} (ht : s.threads t = .idle)
    (hfree : s.shared.locked = false) :
    ∃ s₁ s₂, (stackOf l garbage leave spoil Tid).next s (t, .call c) = some (s₁, t, .called c) ∧
      (stackOf l garbage leave spoil Tid).next s₁ (t, .step) = some (s₂, t, .acquired c) := by
  refine ⟨⟨s.shared, Function.update s.threads t (.locking c .lockExchange)⟩,
    ⟨{ s.shared with locked := true }, Function.update
      (Function.update s.threads t (.locking c .lockExchange)) t (body c)⟩, ?_, ?_⟩
  · rw [stackOf, Pool.next_eq_some_iff]
    exact ⟨_, _, _, by rw [ht]; rfl, rfl, rfl⟩
  · rw [stackOf, Pool.next_eq_some_iff]
    refine ⟨_, _, _, ?_, rfl, rfl⟩
    simp only [Function.update_self, next, SpinLock.Point.access, SpinLock.Point.after, hfree]
    rfl

theorem locked_at_rest (hr : (machine leave spoil Tid).Run es s)
    (hidle : ∀ t, s.threads t = .idle) : s.shared.locked = false := by
  have hholds : ¬ ∃ t, (s.threads t).holds = true := by
    rintro ⟨t, ht⟩
    rw [hidle t] at ht
    cases ht
  rw [← (Inv.of_run hr).exclusive.locked_iff] at hholds
  simpa using hholds

theorem restsUnlocked_iff :
    RestsUnlocked l garbage leave spoil ↔ (l.construct garbage).value = false := by
  constructor
  · intro h
    exact (h Unit [] _ (.nil _) fun _ => rfl).1
  · intro hvalue Tid _ es s hr hidle
    have hmachine : stackOf l garbage leave spoil Tid = machine leave spoil Tid := by
      rw [stackOf, hvalue, machine]
    rw [hmachine] at hr
    have hfree := locked_at_rest hr hidle
    exact ⟨hfree, fun t c => first_exchange_acquires (hidle t) hfree⟩

theorem next_stuck {g g' : Shared T} {l l' : Local T} {a : Choice T} {e : Event T}
    (hl : l.Spins) (hholds : l.holds = false) (hlocked : g.locked = true)
    (hn : next leave spoil g l a = some (g', l', e)) :
    g' = g ∧ l'.holds = false ∧ e.acquired? = none := by
  refine ⟨next_waiting hl hholds hlocked hn, ?_⟩
  cases l with
  | idle =>
    cases a <;> cases hn
    exact ⟨rfl, rfl⟩
  | locking c p =>
    rcases next_locking (hl c p rfl) hn with ⟨-, rfl, p', -, rfl⟩ | ⟨hfree, -⟩
    · exact ⟨rfl, rfl⟩
    · rw [hlocked] at hfree
      cases hfree
  | placing | testing | assigning | removing | unlocking => cases hholds

structure Stuck (es : List (Tid × Event T)) (s : Pool Tid (Shared T) (Local T)) : Prop where
  locked : s.shared.locked = true
  spins : ∀ t, (s.threads t).Spins
  holds : ∀ t, (s.threads t).holds = false
  acquired : acquired es = []

theorem Stuck.of_run (hvalue : (l.construct garbage).value = true)
    (hr : (stackOf l garbage leave spoil Tid).Run es s) : Stuck es s := by
  refine Machine.Run.invariant ?_ ?_ hr
  · exact ⟨hvalue, fun t c p h => (by cases h), fun t => rfl, rfl⟩
  · rintro es s ⟨t, e⟩ s' - h hs
    obtain ⟨a, g, l', hn, rfl⟩ := Pool.step_iff.mp hs
    obtain ⟨rfl, hholds, he⟩ := next_stuck (h.spins t) (h.holds t) h.locked hn
    refine ⟨h.locked, ?_, ?_, ?_⟩
    · exact Pool.forall_update h.spins (next_spins (h.spins t) hn) fun _ _ hu => hu
    · exact Pool.forall_update (P := fun x : Local T => x.holds = false)
        (Q := fun x => x.holds = false) h.holds hholds fun _ _ hu => hu
    · rw [LockedStack.acquired, List.filterMap_append, ← LockedStack.acquired, h.acquired]
      simp [he]

end

theorem not_usesConstructed (garbage : Bool) :
    ¬ UsesConstructed unboundedSpinLockedStack garbage leave spoil := by
  intro h
  have hcall : (stackOf unboundedSpinLockedStack garbage leave spoil Unit).Run [((), .called .pop)]
      ⟨⟨garbage, [], 0⟩, Function.update (fun _ => .idle) () (.locking .pop .lockExchange)⟩ :=
    Machine.Path.of_exec [((), .call .pop)] rfl
  have hlock : ∃ e s', (stackOf unboundedSpinLockedStack garbage leave spoil Unit).Step
      ⟨⟨garbage, [], 0⟩, Function.update (fun _ => .idle) () (.locking .pop .lockExchange)⟩
      ((), e) s' := by
    cases garbage <;> exact ⟨_, _, ((), .step), rfl⟩
  obtain ⟨e, s', hs⟩ := hlock
  have hconstructed := h Unit _ _ () e s' hcall hs rfl
  rw [construct_unboundedSpinLockedStack] at hconstructed
  cases hconstructed

/-- No constructor of `SpinLock` runs, whatever the byte was. The lock works if it happened
to be 0; if not, no operation ever acquires it. -/
theorem constructed_flag_never (leave spoil : T → T) (garbage : Bool) :
    ¬ UsesConstructed unboundedSpinLockedStack garbage leave spoil ∧
    (RestsUnlocked unboundedSpinLockedStack garbage leave spoil ↔ garbage = false) ∧
    (garbage = true → ∀ (Tid : Type) [DecidableEq Tid] es s,
      (stackOf unboundedSpinLockedStack garbage leave spoil Tid).Run es s → acquired es = []) := by
  refine ⟨not_usesConstructed garbage, restsUnlocked_iff, ?_⟩
  rintro rfl Tid _ es s hr
  exact (Stuck.of_run rfl hr).acquired

theorem not_restsUnlocked_garbage :
    ¬ (UsesConstructed unboundedSpinLockedStack true (id : ℕ → ℕ) id ∧
      RestsUnlocked unboundedSpinLockedStack true (id : ℕ → ℕ) id) ∧
    ∃ s, (stackOf unboundedSpinLockedStack true (id : ℕ → ℕ) id Unit).Run
      [((), .called .pop), ((), .silent), ((), .silent)] s ∧
      s.threads () = .locking .pop .lockLoad := by
  refine ⟨fun h => ?_, ⟨_, Machine.Path.of_exec [((), .call .pop), ((), .step), ((), .step)] rfl, rfl⟩⟩
  have := restsUnlocked_iff.mp h.2
  cases this

theorem spinLock_starts_unlocked (leave spoil : T → T) (garbage : Bool) :
    UsesConstructed .spinLock garbage leave spoil ∧ RestsUnlocked .spinLock garbage leave spoil :=
  ⟨fun _ _ _ _ _ _ _ _ _ _ => construct_spinLock garbage, restsUnlocked_iff.mpr rfl⟩

end LockFree.LockedStack
