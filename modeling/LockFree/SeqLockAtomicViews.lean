import LockFree.SeqLockConsistency

/-!
# SeqLockAtomic over memory with stale loads

One object behind one `SeqLock`, whose parts are the accesses of `atomic_memcpy`.
-/

namespace LockFree.SeqLockAtomicViews
open AtomicMemcpy SeqLock TransitionRuns ViewMemory
open SeqLockViews (Location Shared Plan Thread Event Ledger Evaluates ledger ledger_snoc consistent)

def bytes (access : ℕ × ℕ) (m : Memory) : List UInt8 :=
  (List.range' access.1 (access.2 - access.1)).map m

def plan (size : ℕ) : Plan (ℕ × ℕ) (List UInt8) := fun got => (atomicMemcpy size)[got.length]?

def writes (size : ℕ) (desired : Memory) : List ((ℕ × ℕ) × List UInt8) :=
  (atomicMemcpy size).map fun access => (access, bytes access desired)

inductive Choice (Tid : Type*)
  | load
  | store (desired : Memory)
  | step (t : ℕ) (spurious : Bool)
  | synchronize (u : Tid)

variable {Tid : Type*} [DecidableEq Tid]

abbrev State (Tid : Type*) :=
  Pool Tid (Shared Unit (ℕ × ℕ) (List UInt8)) (Thread Unit (ℕ × ℕ) (List UInt8))

abbrev Event' (Tid : Type*) := Tid × Event Unit (ℕ × ℕ) (List UInt8) Tid

def next (size : ℕ) (s : State Tid) : Tid × Choice Tid → Option (State Tid × Event' Tid)
  | (a, .load) => SeqLockViews.next s (a, .call (.load () (plan size)))
  | (a, .store desired) => SeqLockViews.next s (a, .call (.store () (writes size desired)))
  | (a, .step t spurious) => SeqLockViews.next s (a, .step t spurious)
  | (a, .synchronize u) => SeqLockViews.next s (a, .synchronize u)

def machine (size : ℕ) (data : Memory) (Tid : Type*) [DecidableEq Tid] :
    Machine (State Tid) (Tid × Choice Tid) (Event' Tid) where
  start := (SeqLockViews.machine (fun _ access => bytes access data) Tid).start
  next := next size

/-- The values that the object has had: the constructor's, and one for every store. -/
def versions (size : ℕ) (data : Memory) (l : Ledger Unit (ℕ × ℕ) (List UInt8) Tid) :
    List (List UInt8) :=
  contents size data :: (l.stores ()).map fun ws => (ws.map Prod.snd).flatten

theorem flatten_bytes {lo hi : ℕ} {l : List (ℕ × ℕ)} (h : Tiles lo l hi) (m : Memory) :
    (l.map (bytes · m)).flatten = (List.range' lo (hi - lo)).map m := by
  induction h with
  | nil => simp
  | @cons lo mid hi rest hle hrest ih =>
    have hmid := hrest.le_last.1
    rw [List.map_cons, List.flatten_cons, ih, bytes, ← List.map_append]
    dsimp only
    have happ := List.range'_append_1 (s := lo) (m := mid - lo) (n := hi - mid)
    rw [Nat.add_sub_cancel' hle] at happ
    rw [happ]
    congr 2
    omega

theorem flatten_atomicMemcpy (size : ℕ) (m : Memory) :
    ((atomicMemcpy size).map (bytes · m)).flatten = contents size m := by
  rw [flatten_bytes (tiles_atomicMemcpy size), contents, List.range_eq_range', Nat.sub_zero]

theorem contents_eq {size : ℕ} {m : (ℕ × ℕ) → List UInt8} {desired : Memory}
    (h : ∀ access ∈ atomicMemcpy size, m access = bytes access desired) :
    ((atomicMemcpy size).map m).flatten = contents size desired := by
  rw [List.map_congr_left h, flatten_atomicMemcpy]

theorem flatten_of_evaluates {size : ℕ} {m : ℕ × ℕ → List UInt8} {got : List (List UInt8)}
    (h : Evaluates (plan size) m got) : got = (atomicMemcpy size).map m := by
  apply List.ext_getElem?
  intro j
  rcases Nat.lt_or_ge j got.length with hj | hj
  · obtain ⟨access, haccess, hy⟩ := h.values (got.take j) got[j] (got.drop (j + 1)) (by simp)
    rw [plan, List.length_take, Nat.min_eq_left hj.le] at haccess
    rw [List.getElem?_map, haccess, List.getElem?_eq_getElem hj, hy]
    rfl
  · have hcomplete := h.complete
    rw [plan, List.getElem?_eq_none_iff] at hcomplete
    rw [List.getElem?_eq_none hj, List.getElem?_map, List.getElem?_eq_none (hcomplete.trans hj)]
    rfl

section
variable {size : ℕ} {data : Memory} {s s' : State Tid} {es : List (Event' Tid)}

theorem step_of_step {e : Event' Tid} (hs : (machine size data Tid).Step s e s') :
    (SeqLockViews.machine (fun _ access => bytes access data) Tid).Step s e s' := by
  obtain ⟨⟨a, c⟩, hn⟩ := hs
  cases c with
  | load => exact ⟨(a, .call (.load () (plan size))), hn⟩
  | store desired => exact ⟨(a, .call (.store () (writes size desired))), hn⟩
  | step t spurious => exact ⟨(a, .step t spurious), hn⟩
  | synchronize u => exact ⟨(a, .synchronize u), hn⟩

theorem run_of_run (hr : (machine size data Tid).Run es s) :
    (SeqLockViews.machine (fun _ access => bytes access data) Tid).Run es s := by
  have h := Machine.Run.simulate (M := machine size data Tid)
    (N := SeqLockViews.machine (fun _ access => bytes access data) Tid) (f := id) (g := some)
    rfl (fun es s e s' _ hs => .inr ⟨e, rfl, step_of_step hs⟩) hr
  rwa [List.filterMap_some] at h

def IsCall (size : ℕ) (c : SeqLockViews.Call Unit (ℕ × ℕ) (List UInt8)) : Prop :=
  c = .load () (plan size) ∨ ∃ desired, c = .store () (writes size desired)

theorem isCall_of_step {a : Tid} {c : SeqLockViews.Call Unit (ℕ × ℕ) (List UInt8)}
    (hs : (machine size data Tid).Step s (a, .called c) s') : IsCall size c := by
  obtain ⟨⟨b, choice⟩, hn⟩ := hs
  simp only [machine] at hn
  cases choice with
  | load =>
    simp only [next, SeqLockViews.next] at hn
    split at hn <;> cases hn
    exact .inl rfl
  | store desired =>
    simp only [next, SeqLockViews.next] at hn
    split at hn <;> cases hn
    exact .inr ⟨desired, rfl⟩
  | step t spurious =>
    simp only [next, SeqLockViews.next] at hn
    split at hn
    · cases hn
    · rename_i hcall
      cases hn
      exact absurd rfl ((SeqLockViews.threadNext_call hcall).1 c)
  | synchronize u =>
    simp only [next, SeqLockViews.next] at hn
    split at hn <;> cases hn

theorem isCall_of_run (hr : (machine size data Tid).Run es s) :
    ∀ a c, (a, .called c) ∈ es → IsCall size c := by
  intro a c hmem
  obtain ⟨fs, gs, rfl⟩ := List.append_of_mem hmem
  obtain ⟨u, u', -, hs, -⟩ := hr.at_event
  exact isCall_of_step hs

theorem isCall_of_mem (hr : (machine size data Tid).Run es s) {a : Tid}
    {e : Event Unit (ℕ × ℕ) (List UInt8) Tid} (hmem : (a, e) ∈ es)
    {c : SeqLockViews.Call Unit (ℕ × ℕ) (List UInt8)} (hc : e.call? = some c) : IsCall size c :=
  (SeqLockViews.calls_of_run (P := fun _ => IsCall size) (run_of_run hr)
    (isCall_of_run hr)).2 a e c hmem hc

theorem plan_of_loaded (hr : (machine size data Tid).Run es s) {a : Tid}
    {p : Plan (ℕ × ℕ) (List UInt8)} {t₀ t₁ : ℕ} {got : List (List UInt8)}
    (hmem : (a, .loaded () p t₀ t₁ got) ∈ es) : p = plan size := by
  rcases isCall_of_mem hr hmem rfl with h | ⟨desired, h⟩ <;> cases h
  rfl

theorem writes_of_mem_stores (hr : (machine size data Tid).Run es s)
    {ws : List ((ℕ × ℕ) × List UInt8)} (hmem : ws ∈ (ledger es).stores ()) :
    ∃ desired, ws = writes size desired := by
  obtain ⟨a, ha⟩ := SeqLockViews.mem_of_mem_stores hmem
  rcases isCall_of_mem hr ha rfl with h | ⟨desired, h⟩ <;> cases h
  exact ⟨desired, rfl⟩

theorem flatten_writes (size : ℕ) (desired : Memory) :
    ((writes size desired).map Prod.snd).flatten = contents size desired := by
  rw [writes, List.map_map]
  exact flatten_atomicMemcpy size desired

theorem versions_getElem? (hr : (machine size data Tid).Run es s) {k : ℕ}
    (hk : k ≤ ((ledger es).stores ()).length) :
    (versions size data (ledger es))[k]? =
      some ((atomicMemcpy size).map
        ((ledger es).contents (fun _ access => bytes access data) () k)).flatten := by
  rcases k with _ | k
  · have h : ∀ access ∈ atomicMemcpy size,
        (ledger es).contents (fun _ access => bytes access data) () 0 access = bytes access data :=
      fun access _ => rfl
    rw [contents_eq h]
    rfl
  · have hlt : k < ((ledger es).stores ()).length := hk
    obtain ⟨desired, hdesired⟩ := writes_of_mem_stores hr (List.getElem_mem hlt)
    have hk : ((ledger es).stores ())[k]? =
        some ((atomicMemcpy size).map fun access => (access, bytes access desired)) := by
      rw [List.getElem?_eq_getElem hlt, hdesired, writes]
    have h : ∀ access ∈ atomicMemcpy size, (ledger es).contents
        (fun _ access => bytes access data) () (k + 1) access = bytes access desired :=
      fun access haccess => SeqLockViews.contents_of_store hk haccess
    rw [contents_eq h, versions, List.getElem?_cons_succ, List.getElem?_map,
      List.getElem?_eq_getElem hlt, hdesired, Option.map_some, flatten_writes]

/-- What should hold of a run, whatever stale messages its loads read. -/
structure Coherent (size : ℕ) (data : Memory) (es : List (Event' Tid)) : Prop where
  ordered : ∀ a, (a, .unordered) ∉ es
  loaded : ∀ fs gs a p t₀ t₁ got, es = fs ++ (a, .loaded () p t₀ t₁ got) :: gs →
    t₁ < t₀ + counterSize → ∃ k, t₀ = 2 * k ∧ (ledger fs).known a () ≤ k ∧
      (versions size data (ledger fs))[k]? = some got.flatten

/-- `Load` returns the constructor's value or that of one store, whole, and a thread never
sees an older one than before, than its own last one, or than one of which it has heard,
unless the counter came round to the same number during the load. -/
theorem coherent (hr : (machine size data Tid).Run es s) : Coherent size data es := by
  have hconsistent := consistent (run_of_run hr)
  constructor
  case ordered => exact hconsistent.ordered
  case loaded =>
    rintro fs gs a p t₀ t₁ got rfl hfew
    obtain ⟨-, k, rfl, hknown, hle, heval⟩ :=
      hconsistent.loaded fs gs a () p t₀ t₁ got rfl hfew
    obtain rfl := plan_of_loaded hr (List.mem_append_right _ List.mem_cons_self)
    obtain ⟨u, hfs, -⟩ := hr.split
    refine ⟨k, rfl, hknown, ?_⟩
    rw [versions_getElem? hfs hle, flatten_of_evaluates heval]

theorem coherent_stale : ∃ es, ∃ s : State Bool,
    (machine 2 (fun _ => 0) Bool).Run es s ∧
      versions 2 (fun _ => 0) (ledger es) = [[0, 0], [7, 7]] ∧
      (false, .loaded () (plan 2) 0 0 [[0], [0]]) ∈ es ∧
      (false, .loaded () (plan 2) 2 2 [[7], [7]]) ∈ es ∧ Coherent 2 (fun _ => 0) es := by
  obtain ⟨es, s, hr, hs⟩ : ∃ es, ∃ s : State Bool,
      (machine 2 (fun _ => 0) Bool).Run es s ∧
        versions 2 (fun _ => 0) (ledger es) = [[0, 0], [7, 7]] ∧
        (false, .loaded () (plan 2) 0 0 [[0], [0]]) ∈ es ∧
        (false, .loaded () (plan 2) 2 2 [[7], [7]]) ∈ es := by
    refine ⟨(true, .called (.store () (writes 2 fun _ => 7))) ::
        List.replicate 5 (true, .silent) ++ (true, .stored () (writes 2 fun _ => 7)) ::
        (false, .called (.load () (plan 2))) ::
        List.replicate 4 (false, .silent) ++ (false, .loaded () (plan 2) 0 0 [[0], [0]]) ::
        (false, .called (.load () (plan 2))) ::
        List.replicate 4 (false, .silent) ++ [(false, .loaded () (plan 2) 2 2 [[7], [7]])], _,
      Machine.Path.of_exec (
        (true, .store fun _ => 7) :: List.replicate 6 (true, .step 0 false) ++
        (false, .load) :: List.replicate 5 (false, .step 0 false) ++
        [(false, .load), (false, .step 2 false), (false, .step 1 false), (false, .step 1 false),
          (false, .step 0 false), (false, .step 2 false)]) rfl, rfl, by simp, by simp⟩
  exact ⟨es, s, hr, hs.1, hs.2.1, hs.2.2, coherent hr⟩

end
end LockFree.SeqLockAtomicViews
