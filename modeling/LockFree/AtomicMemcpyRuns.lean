import LockFree.AtomicMemcpy
import LockFree.TransitionRuns

/-!
# atomic_memcpy is memcpy

Each turn of the loops is two steps: one element is read, then written. In between and
before, another thread may write anything to the source.
-/

namespace LockFree.AtomicMemcpy
open TransitionRuns

structure State where
  src : Memory
  dest : Memory
  rest : List (ℕ × ℕ)
  element : Option Memory

inductive Event
  | read (access : ℕ × ℕ)
  | written (access : ℕ × ℕ)
  | interfered (src : Memory)

inductive Choice
  | step
  | interfere (src : Memory)

def next (s : State) : Choice → Option (State × Event)
  | .interfere src => some ({ s with src := src }, .interfered src)
  | .step =>
    match s.rest, s.element with
    | [], _ => none
    | access :: _, none => some ({ s with element := some s.src }, .read access)
    | access :: rest, some element =>
      some ({ s with dest := copy access element s.dest, rest := rest, element := none },
        .written access)

/-- `atomic_memcpy_load(dest, src, count)` or `atomic_memcpy_store`. -/
def machine (count : ℕ) (src dest : Memory) : Machine State Choice Event where
  start := ⟨src, dest, atomicMemcpy count, none⟩
  next := next

def Event.reads (i : ℕ) : Event → Bool
  | .read access => access.1 ≤ i && i < access.2
  | _ => false

def Event.writes (i : ℕ) : Event → Bool
  | .written access => access.1 ≤ i && i < access.2
  | _ => false

def Event.isInterfered : Event → Bool
  | .interfered _ => true
  | _ => false

def State.remaining (s : State) : ℕ := 2 * s.rest.length - s.element.isSome.toNat

def Had (count : ℕ) (src dest : Memory) (es : List Event) (s : State) (i : ℕ) (v : UInt8) : Prop :=
  ∃ es₁ es₂ u, es = es₁ ++ es₂ ∧ (machine count src dest).Run es₁ u ∧
    (machine count src dest).Path u es₂ s ∧ u.src i = v

variable {count : ℕ} {src dest : Memory} {s s' : State} {es : List Event} {e : Event}

theorem step_cases (hs : (machine count src dest).Step s e s') :
    (∃ src', e = .interfered src' ∧ s' = { s with src := src' }) ∨
    (∃ access rest, s.rest = access :: rest ∧ s.element = none ∧ e = .read access ∧
      s' = { s with element := some s.src }) ∨
    ∃ access rest element, s.rest = access :: rest ∧ s.element = some element ∧
      e = .written access ∧
      s' = { s with dest := copy access element s.dest, rest := rest, element := none } := by
  obtain ⟨c, hn⟩ := hs
  obtain ⟨src₀, dest₀, rest, element⟩ := s
  cases c with
  | interfere src' =>
    cases hn
    exact .inl ⟨src', rfl, rfl⟩
  | step =>
    rcases rest with _ | ⟨access, rest⟩ <;> cases element <;> cases hn
    · exact .inr (.inl ⟨access, rest, rfl, rfl, rfl, rfl⟩)
    · exact .inr (.inr ⟨access, rest, _, rfl, rfl, rfl, rfl⟩)

theorem exists_step (count : ℕ) (src dest : Memory) (h : s.rest ≠ []) :
    ∃ e s', (machine count src dest).Step s e s' ∧ e.isInterfered = false ∧
      s.remaining = s'.remaining + 1 := by
  obtain ⟨src₀, dest₀, rest, element⟩ := s
  rcases rest with _ | ⟨access, rest⟩
  · exact absurd rfl h
  · cases element with
    | none =>
      refine ⟨_, _, ⟨.step, rfl⟩, rfl, ?_⟩
      simp [State.remaining]
      omega
    | some element =>
      refine ⟨_, _, ⟨.step, rfl⟩, rfl, ?_⟩
      simp [State.remaining]
      omega

theorem Had.snoc {i : ℕ} {v : UInt8} (h : Had count src dest es s i v)
    (hs : (machine count src dest).Step s e s') : Had count src dest (es ++ [e]) s' i v := by
  obtain ⟨es₁, es₂, u, rfl, hr, hp, hv⟩ := h
  exact ⟨es₁, es₂ ++ [e], u, List.append_assoc _ _ _, hr, hp.snoc hs, hv⟩

theorem countP_snoc (f : Event → Bool) :
    (es ++ [e]).countP f = es.countP f + if f e then 1 else 0 := by
  rw [List.countP_append, List.countP_singleton]

structure Inv (count : ℕ) (src dest : Memory) (es : List Event) (s : State) (m n : ℕ) : Prop where
  tiles : Tiles m s.rest count
  element : (s.element = none ∧ n = m) ∨ ∃ access rest element, s.rest = access :: rest ∧
    s.element = some element ∧ n = access.2 ∧ ∀ i, Had count src dest es s i (element i)
  reads : ∀ i, es.countP (Event.reads i) = if i < n then 1 else 0
  writes : ∀ i, es.countP (Event.writes i) = if i < m then 1 else 0
  beyond : ∀ i, m ≤ i → s.dest i = dest i
  below : ∀ i < m, Had count src dest es s i (s.dest i)
  steps : (es.countP fun e => !e.isInterfered) + s.remaining = 2 * (atomicMemcpy count).length

theorem Inv.start (count : ℕ) (src dest : Memory) :
    Inv count src dest [] (machine count src dest).start 0 0 where
  tiles := tiles_atomicMemcpy count
  element := .inl ⟨rfl, rfl⟩
  reads _ := rfl
  writes _ := rfl
  beyond _ _ := rfl
  below i hi := absurd hi (Nat.not_lt_zero i)
  steps := Nat.zero_add _

theorem Inv.interfere {m n : ℕ} {src' : Memory} (h : Inv count src dest es s m n)
    (hs : (machine count src dest).Step s (.interfered src') { s with src := src' }) :
    Inv count src dest (es ++ [.interfered src']) { s with src := src' } m n where
  tiles := h.tiles
  element := by
    rcases h.element with hnone | ⟨access, rest, element, hrest, helement, hn, hhad⟩
    · exact .inl hnone
    · exact .inr ⟨access, rest, element, hrest, helement, hn, fun i => (hhad i).snoc hs⟩
  reads i := by
    rw [countP_snoc, h.reads i]
    rfl
  writes i := by
    rw [countP_snoc, h.writes i]
    rfl
  beyond := h.beyond
  below i hi := (h.below i hi).snoc hs
  steps := by
    rw [countP_snoc]
    exact h.steps

theorem Inv.read {m n : ℕ} {access : ℕ × ℕ} {rest : List (ℕ × ℕ)}
    (h : Inv count src dest es s m n) (hr : (machine count src dest).Run es s)
    (hs : (machine count src dest).Step s (.read access) { s with element := some s.src })
    (hrest : s.rest = access :: rest) (hnone : s.element = none) :
    Inv count src dest (es ++ [.read access]) { s with element := some s.src } m access.2 := by
  obtain ⟨hlo, hle, -⟩ := (hrest ▸ h.tiles).head
  obtain rfl : n = m := by
    rcases h.element with ⟨-, hn⟩ | ⟨_, _, _, -, helement, -⟩
    · exact hn
    · rw [hnone] at helement
      cases helement
  refine ⟨h.tiles, .inr ⟨access, rest, s.src, hrest, rfl, rfl, fun i => ?_⟩, fun i => ?_,
    fun i => ?_, h.beyond, fun i hi => (h.below i hi).snoc hs, ?_⟩
  · exact ⟨es, [.read access], s, rfl, hr, .single hs, rfl⟩
  · rw [countP_snoc, h.reads i]
    simp only [Event.reads, hlo, Bool.and_eq_true, decide_eq_true_eq]
    split_ifs <;> omega
  · rw [countP_snoc, h.writes i]
    rfl
  · have hsteps := h.steps
    rw [countP_snoc]
    simp only [State.remaining, hrest, hnone, Event.isInterfered, List.length_cons,
      Option.isSome_none, Option.isSome_some, Bool.toNat_false, Bool.toNat_true, Bool.not_false,
      if_true] at hsteps ⊢
    omega

theorem Inv.written {m n : ℕ} {access : ℕ × ℕ} {rest : List (ℕ × ℕ)} {element : Memory}
    (h : Inv count src dest es s m n)
    (hs : (machine count src dest).Step s (.written access)
      { s with dest := copy access element s.dest, rest := rest, element := none })
    (hrest : s.rest = access :: rest) (helement : s.element = some element) :
    Inv count src dest (es ++ [.written access])
      { s with dest := copy access element s.dest, rest := rest, element := none }
      access.2 access.2 := by
  obtain ⟨hlo, hle, htiles⟩ := (hrest ▸ h.tiles).head
  obtain ⟨rfl, hhad⟩ : n = access.2 ∧ ∀ i, Had count src dest es s i (element i) := by
    rcases h.element with ⟨hnone, -⟩ | ⟨access', rest', element', hrest', helement', hn, hhad⟩
    · rw [helement] at hnone
      cases hnone
    · rw [hrest] at hrest'
      rw [helement] at helement'
      cases hrest'
      cases helement'
      exact ⟨hn, hhad⟩
  refine ⟨htiles, .inl ⟨rfl, rfl⟩, fun i => ?_, fun i => ?_, fun i hi => ?_, fun i hi => ?_, ?_⟩
  · rw [countP_snoc, h.reads i]
    rfl
  · rw [countP_snoc, h.writes i]
    simp only [Event.writes, hlo, Bool.and_eq_true, decide_eq_true_eq]
    split_ifs <;> omega
  · have houtside : ¬ (access.1 ≤ i ∧ i < access.2) := fun hin => Nat.not_lt.mpr hi hin.2
    exact (if_neg houtside).trans (h.beyond i (hle.trans hi))
  · dsimp only [copy]
    split
    · exact (hhad i).snoc hs
    · exact (h.below i (by omega)).snoc hs
  · have hsteps := h.steps
    rw [countP_snoc]
    simp only [State.remaining, hrest, helement, Event.isInterfered, List.length_cons,
      Option.isSome_none, Option.isSome_some, Bool.toNat_false, Bool.toNat_true, Bool.not_false,
      if_true] at hsteps ⊢
    omega

theorem Inv.of_run (hr : (machine count src dest).Run es s) :
    ∃ m n, Inv count src dest es s m n := by
  refine Machine.Run.invariant (I := fun es s => ∃ m n, Inv count src dest es s m n) ?_ ?_ hr
  · exact ⟨0, 0, .start count src dest⟩
  · rintro es s e s' hr ⟨m, n, h⟩ hs
    rcases step_cases hs with ⟨src', rfl, rfl⟩ | ⟨access, rest, hrest, hnone, rfl, rfl⟩ |
      ⟨access, rest, element, hrest, helement, rfl, rfl⟩
    · exact ⟨m, n, h.interfere hs⟩
    · exact ⟨m, access.2, h.read hr hs hrest hnone⟩
    · exact ⟨access.2, access.2, h.written hs hrest helement⟩

theorem src_of_run (hr : (machine count src dest).Run es s)
    (hcalm : ∀ e ∈ es, e.isInterfered = false) : s.src = src := by
  refine Machine.Run.invariant (I := fun es s => (∀ e ∈ es, e.isInterfered = false) → s.src = src)
    ?_ ?_ hr hcalm
  · exact fun _ => rfl
  · intro es s e s' _ h hs hcalm
    simp only [List.forall_mem_append, List.forall_mem_singleton] at hcalm
    rcases step_cases hs with ⟨src', rfl, rfl⟩ | ⟨_, _, -, -, rfl, rfl⟩ |
      ⟨_, _, _, -, -, rfl, rfl⟩
    · cases hcalm.2
    · exact h hcalm.1
    · exact h hcalm.1

theorem exists_complete (s : State) :
    ∃ fs s', (machine count src dest).Path s fs s' ∧ s'.rest = [] ∧
      ∀ e ∈ fs, e.isInterfered = false := by
  induction hk : s.remaining generalizing s with
  | zero =>
    by_cases hrest : s.rest = []
    · exact ⟨[], s, .nil s, hrest, by simp⟩
    · obtain ⟨_, _, -, -, hless⟩ := exists_step count src dest hrest
      omega
  | succ k ih =>
    by_cases hrest : s.rest = []
    · exact ⟨[], s, .nil s, hrest, by simp⟩
    · obtain ⟨e, u, hs, he, hless⟩ := exists_step count src dest hrest
      obtain ⟨fs, s', hp, hdone, hcalm⟩ := ih u (by omega)
      exact ⟨e :: fs, s', (Machine.Path.single hs).trans hp, hdone,
        List.forall_mem_cons.mpr ⟨he, hcalm⟩⟩

/-- Whatever the schedule of copy and writer: the copy ends, each byte has then been read and
written once, and has a value that the source byte had meanwhile. -/
theorem copies_like_memcpy (count : ℕ) (src dest : Memory) :
    (∀ es s, (machine count src dest).Run es s →
      (es.countP fun e => !e.isInterfered) ≤ 2 * (atomicMemcpy count).length ∧
      ∃ fs s', (machine count src dest).Path s fs s' ∧ s'.rest = [] ∧
        ∀ e ∈ fs, e.isInterfered = false) ∧
    ∀ es s, (machine count src dest).Run es s → s.rest = [] →
      (∀ i, es.countP (Event.reads i) = if i < count then 1 else 0) ∧
      (∀ i, es.countP (Event.writes i) = if i < count then 1 else 0) ∧
      (∀ i, count ≤ i → s.dest i = dest i) ∧
      (∀ i < count, Had count src dest es s i (s.dest i)) ∧
      ((∀ e ∈ es, e.isInterfered = false) → ∀ i < count, s.dest i = src i) := by
  constructor
  · intro es s hr
    obtain ⟨m, n, h⟩ := Inv.of_run hr
    exact ⟨by have := h.steps; omega, exists_complete s⟩
  · intro es s hr hdone
    obtain ⟨m, n, h⟩ := Inv.of_run hr
    obtain rfl : m = count := (hdone ▸ h.tiles).eq_of_nil
    obtain rfl : n = m := by
      rcases h.element with ⟨-, hn⟩ | ⟨access, rest, -, hrest, -⟩
      · exact hn
      · rw [hdone] at hrest
        cases hrest
    refine ⟨h.reads, h.writes, h.beyond, h.below, fun hcalm i hi => ?_⟩
    obtain ⟨es₁, es₂, u, rfl, hu, -, hv⟩ := h.below i hi
    rw [← hv, src_of_run hu fun e he => hcalm e (List.mem_append_left _ he)]

end LockFree.AtomicMemcpy
