import Mathlib.Order.Bounds.Basic
import LockFree.SpscQueueFifo

/-!
# GetSize and GetCapacity of BoundedSPSCQueue

One slot of the ring always stays empty: the queue is full with one element less than
`GetBufferSize()`, which is what `GetCapacity` returns.
-/

namespace LockFree.SpscQueue
open BufferSize RingWindow TransitionRuns

variable {R : Ring} {T : Type*}

def getCapacity (R : Ring) : ℕ := R.size

def Call.role : Call T → Role
  | .emplace _ => .producer
  | .demand _ => .consumer
  | .query role _ _ => role

def State.isIdle (s : State R T) : Role → Bool
  | .producer =>
    match s.producer with
    | .idle => true
    | _ => false
  | .consumer =>
    match s.consumer with
    | .idle => true
    | _ => false

inductive Alone (leave : T → T) (role : Role) : State R T → Event R T → State R T → Prop where
  | last {s s' : State R T} {e : Event R T} :
      next leave s (.step role) = some (s', e) → s'.isIdle role = true → Alone leave role s e s'
  | more {s s' s'' : State R T} {e e' : Event R T} :
      next leave s (.step role) = some (s', e) → s'.isIdle role = false →
        Alone leave role s' e' s'' → Alone leave role s e' s''

def Returns (leave : T → T) (s : State R T) (c : Call T) (e : Event R T) (s' : State R T) : Prop :=
  ∃ s₁, callNext s c = some s₁ ∧ Alone leave c.role s₁ e s'

def Enqueues (leave : T → T) (s : State R T) (v : T) : Prop :=
  ∃ s', Returns leave s (enqueue v) (.emplaced v) s'

def Dequeues (leave : T → T) (s : State R T) (into : Bool) : Prop :=
  ∃ v s', Returns leave s (.demand (if into then .dequeueInto else .dequeue)) (.dequeued v) s'

def Sizes (R : Ring) (leave : T → T) (buffer : Fin R.size → T) : Set ℕ :=
  {n | ∃ es s, (machine R leave buffer).Run es s ∧ s.stored.length = n}

section
variable {leave : T → T} {role : Role} {s s' s₁ : State R T} {e e₁ : Event R T}

theorem alone_iff (hn : next leave s (.step role) = some (s₁, e₁)) :
    Alone leave role s e s' ↔
      if s₁.isIdle role then e = e₁ ∧ s' = s₁ else Alone leave role s₁ e s' := by
  constructor
  · intro h
    cases h with
    | last hn' hi =>
      rw [hn] at hn'
      cases hn'
      rw [if_pos hi]
      exact ⟨rfl, rfl⟩
    | more hn' hi hrest =>
      rw [hn] at hn'
      cases hn'
      rw [if_neg (by rw [hi]; exact Bool.false_ne_true)]
      exact hrest
  · intro h
    by_cases hi : s₁.isIdle role = true
    · rw [if_pos hi] at h
      obtain ⟨rfl, rfl⟩ := h
      exact .last hn hi
    · rw [if_neg hi] at h
      exact .more hn (by simpa using hi) h

theorem alone_construct {v : T} {i : Fin R.size} (hp : s.producer = .construct v i) :
    Alone leave .producer s e s' ↔ e = .emplaced v ∧ s' = { s with
      buffer := Function.update s.buffer i v, tail := nextIndex i, producer := .idle } := by
  have hconstruct : next leave s (.step .producer) = some ({ s with
      buffer := Function.update s.buffer i v, producer := .storeTail v (nextIndex i) },
      .constructed i v) := by
    rw [next, producerNext, hp]
  have hstore : next leave { s with
      buffer := Function.update s.buffer i v, producer := .storeTail v (nextIndex i) }
      (.step .producer) = some ({ s with
        buffer := Function.update s.buffer i v, tail := nextIndex i, producer := .idle },
        .emplaced v) := rfl
  rw [alone_iff hconstruct, if_neg (by simp [State.isIdle]), alone_iff hstore]
  rfl

theorem returns_enqueue_iff {v : T} (hp : s.producer = .idle) :
    Returns leave s (enqueue v) (.emplaced v) s' ↔
      ¬ (nextIndex s.tail = s.cachedHead ∧ nextIndex s.tail = s.head) ∧
        s' = { s with
          cachedHead := if nextIndex s.tail = s.cachedHead then s.head else s.cachedHead
          buffer := Function.update s.buffer s.tail v
          tail := nextIndex s.tail, producer := .idle } := by
  have hcall : callNext s (enqueue v) = some { s with producer := .loadTail v } := by
    rw [enqueue, callNext, hp]
  have hreturns : Returns leave s (enqueue v) (.emplaced v) s' ↔
      Alone leave .producer { s with producer := .loadTail v } (.emplaced v) s' := by
    rw [Returns, hcall]
    simp [enqueue, Call.role]
  rw [hreturns]
  by_cases hcached : nextIndex s.tail = s.cachedHead
  · have hload : next leave { s with producer := .loadTail v } (.step .producer) =
        some ({ s with producer := .loadHead v s.tail }, .silent) := if_pos hcached
    rw [alone_iff hload, if_neg (by simp [State.isIdle])]
    by_cases hhead : nextIndex s.tail = s.head
    · have hrefuse : next leave { s with producer := .loadHead v s.tail } (.step .producer) =
          some ({ s with cachedHead := s.head, producer := .idle }, .refused) := if_pos hhead
      rw [alone_iff hrefuse, if_pos (by simp [State.isIdle])]
      exact iff_of_false (fun h => by cases h.1) fun h => h.1 ⟨hcached, hhead⟩
    · have hgo : next leave { s with producer := .loadHead v s.tail } (.step .producer) =
          some ({ s with cachedHead := s.head, producer := .construct v s.tail }, .silent) :=
        if_neg hhead
      rw [alone_iff hgo, if_neg (by simp [State.isIdle]), alone_construct rfl, if_pos hcached]
      exact ⟨fun h => ⟨fun hfull => hhead hfull.2, h.2⟩, fun h => ⟨rfl, h.2⟩⟩
  · have hgo : next leave { s with producer := .loadTail v } (.step .producer) =
        some ({ s with producer := .construct v s.tail }, .silent) := if_neg hcached
    rw [alone_iff hgo, if_neg (by simp [State.isIdle]), alone_construct rfl]
    simp [hcached]

theorem alone_storeHead {i : Fin R.size} {x : Option T} (hc : s.consumer = .storeHead i x) :
    Alone leave .consumer s (.dequeued (x.getD (s.buffer i)))
      { s with head := nextIndex i, consumer := .idle } := by
  refine .last ?_ rfl
  rw [next, consumerNext, hc]

theorem alone_proceed (leave : T → T) (into : Bool) {s : State R T} {i : Fin R.size}
    (hc : s.consumer = (proceed (if into then .dequeueInto else .dequeue) i).1) :
    ∃ v s', Alone leave .consumer s (.dequeued v) s' := by
  cases into with
  | false => exact ⟨_, _, alone_storeHead hc⟩
  | true =>
    have hread : s.consumer = .read i := hc
    have hn : next leave s (.step .consumer) = some ({ s with
        buffer := Function.update s.buffer i (leave (s.buffer i))
        consumer := .storeHead i (some (s.buffer i)) }, .silent) := by
      rw [next, consumerNext, hread]
    exact ⟨_, _, .more hn rfl (alone_storeHead rfl)⟩

theorem dequeues_iff {into : Bool} (hc : s.consumer = .idle) :
    Dequeues leave s into ↔ ¬ (s.head = s.cachedTail ∧ s.head = s.tail) := by
  have hidle : ∀ (s : State R T) (i : Fin R.size),
      s.consumer = (proceed (if into then .dequeueInto else .dequeue) i).1 →
        s.isIdle .consumer = false := by
    intro s i hi
    cases into <;> simp [State.isIdle, hi, proceed]
  have hcall : callNext s (.demand (if into then .dequeueInto else .dequeue)) =
      some { s with consumer := .loadHead (if into then .dequeueInto else .dequeue) } := by
    rw [callNext, hc]
  have hdequeues : Dequeues leave s into ↔ ∃ v s', Alone leave .consumer
      { s with consumer := .loadHead (if into then .dequeueInto else .dequeue) } (.dequeued v) s' := by
    simp only [Dequeues, Returns, hcall, Call.role, Option.some.injEq, exists_eq_left']
  rw [hdequeues]
  generalize hd : (if into then Demand.dequeueInto else .dequeue) = d at hidle ⊢
  by_cases hcached : s.head = s.cachedTail
  · have hload : next leave { s with consumer := .loadHead d } (.step .consumer) =
        some ({ s with consumer := .loadTail d s.head }, .silent) := if_pos hcached
    by_cases htail : s.head = s.tail
    · refine iff_of_false ?_ fun h => h ⟨hcached, htail⟩
      rintro ⟨v, s', h⟩
      have hempty : next leave { s with consumer := .loadTail d s.head } (.step .consumer) =
          some ({ s with cachedTail := s.tail, consumer := .idle }, .empty d) := if_pos htail
      rw [alone_iff hload, if_neg (by simp [State.isIdle]), alone_iff hempty,
        if_pos (by simp [State.isIdle])] at h
      cases h.1
    · refine iff_of_true ?_ fun h => htail h.2
      have hgo : next leave { s with consumer := .loadTail d s.head } (.step .consumer) =
          some ({ s with cachedTail := s.tail, consumer := (proceed d s.head).1 },
            (proceed d s.head).2) := if_neg htail
      subst hd
      obtain ⟨v, s', h⟩ := alone_proceed leave into (i := s.head) (s := { s with
        cachedTail := s.tail
        consumer := (proceed (if into then .dequeueInto else .dequeue) s.head).1 }) rfl
      exact ⟨v, s', .more hload rfl (.more hgo (hidle _ _ rfl) h)⟩
  · refine iff_of_true ?_ fun h => hcached h.1
    have hgo : next leave { s with consumer := .loadHead d } (.step .consumer) =
        some ({ s with consumer := (proceed d s.head).1 }, (proceed d s.head).2) := if_neg hcached
    subst hd
    obtain ⟨v, s', h⟩ := alone_proceed leave into (i := s.head) (s := { s with
      consumer := (proceed (if into then .dequeueInto else .dequeue) s.head).1 }) rfl
    exact ⟨v, s', .more hgo (hidle _ _ rfl) h⟩

end

theorem getSize_eq_mod (tail head : Fin R.size) :
    getSize tail head = (tail + R.size - head) % R.size := by
  have hsize := R.size_le
  have ht := tail.isLt
  have hh := head.isLt
  simp only [getSize]
  rcases Nat.lt_or_ge tail.val head.val with hlt | hge
  · rw [Nat.mod_eq_of_lt (a := tail.val + R.size - head.val) (by omega)]
    split <;> split <;> omega
  · have hmod : (tail.val + R.size - head.val) % R.size = tail.val - head.val := by
      rw [show tail.val + R.size - head.val = tail.val - head.val + R.size by omega,
        Nat.add_mod_right, Nat.mod_eq_of_lt (by omega)]
    rw [hmod]
    split <;> split <;> omega

theorem length_stored (s : State R T) : s.stored.length = getSize s.tail s.head := by
  rw [getSize_eq_mod, State.stored, List.length_map, List.length_range]

section
variable {leave : T → T} {buffer : Fin R.size → T} {es : List (Event R T)} {s s' : State R T}
  {seenHead seenTail : ℕ}

theorem Inv.getSize_eq (h : Inv es seenHead seenTail s) :
    getSize s.tail s.head = (emplaced es).length - (dequeued es).length := by
  rw [getSize_eq_mod, h.head, h.tail, R.index_val, R.index_val]
  exact sub_mod_of_window h.window.head_le h.window.lt_head

/-- `Emplace` refuses with one slot left, whatever it has cached. -/
theorem Inv.enqueues_iff (h : Inv es seenHead seenTail s) (hp : s.producer = .idle) {v : T} :
    Enqueues leave s v ↔ getSize s.tail s.head + 1 < R.size := by
  have hle := h.window.head_le
  have hlt := h.window.lt_head
  have hseen := h.window.lt_seenHead
  have hseen' := h.window.seenHead_le
  have henqueues : Enqueues leave s v ↔
      ¬ (nextIndex s.tail = s.cachedHead ∧ nextIndex s.tail = s.head) := by
    simp only [Enqueues, returns_enqueue_iff hp, exists_and_left, exists_eq, and_true]
  rw [henqueues, h.getSize_eq]
  constructor
  · intro hroom
    by_contra hfull
    have htail : (emplaced es).length + 1 = (dequeued es).length + R.size := by omega
    have hcached : seenHead = (dequeued es).length := by omega
    refine hroom ⟨?_, ?_⟩
    · rw [h.tail, h.cachedHead, nextIndex_index, htail, R.index_add_size, hcached]
    · rw [h.tail, h.head, nextIndex_index, htail, R.index_add_size]
  · intro hroom hfull
    have heq := hfull.2
    rw [h.tail, h.head, nextIndex_index] at heq
    have := h.window.full heq
    omega

theorem Inv.dequeues_iff (h : Inv es seenHead seenTail s) (hc : s.consumer = .idle) {into : Bool} :
    Dequeues leave s into ↔ 0 < getSize s.tail s.head := by
  have hle := h.window.head_le
  rw [SpscQueue.dequeues_iff hc, h.getSize_eq]
  constructor
  · intro hfound
    by_contra hnone
    have heq : (emplaced es).length = (dequeued es).length := by omega
    have hseen : seenTail = (dequeued es).length :=
      le_antisymm (h.window.seenTail_le.trans heq.le) h.window.le_seenTail
    refine hfound ⟨?_, ?_⟩
    · rw [h.head, h.cachedTail, hseen]
    · rw [h.head, h.tail, heq]
  · intro hpos hnone
    have heq := hnone.2
    rw [h.head, h.tail] at heq
    have := h.window.eq_of_index heq
    omega

theorem Alone.path {role : Role} {e : Event R T} (h : Alone leave role s e s') :
    ∃ fs, (machine R leave buffer).Path s fs s' := by
  induction h with
  | last hn _ => exact ⟨_, .single ⟨.step role, hn⟩⟩
  | more hn _ _ ih =>
    obtain ⟨fs, hp⟩ := ih
    exact ⟨_, (Machine.Path.single ⟨.step role, hn⟩).trans hp⟩

theorem Returns.run {c : Call T} {e : Event R T} (hr : (machine R leave buffer).Run es s)
    (h : Returns leave s c e s') : ∃ fs, (machine R leave buffer).Run fs s' := by
  obtain ⟨s₁, hcall, halone⟩ := h
  obtain ⟨fs, hp⟩ : ∃ fs, (machine R leave buffer).Path s₁ fs s' := halone.path
  have hs : (machine R leave buffer).Step s (.called c) s₁ :=
    ⟨.call c, Option.map_eq_some_iff.mpr ⟨s₁, hcall, rfl⟩⟩
  exact ⟨_, (hr.snoc hs).trans hp⟩

theorem exists_run_of_size (leave : T → T) (buffer : Fin R.size → T) {n : ℕ} (hn : n < R.size) :
    ∃ es s, (machine R leave buffer).Run es s ∧ s.producer = .idle ∧ s.consumer = .idle ∧
      getSize s.tail s.head = n := by
  induction n with
  | zero =>
    refine ⟨[], _, .nil _, rfl, rfl, ?_⟩
    exact (Inv.start R leave buffer).getSize_eq
  | succ n ih =>
    obtain ⟨es, s, hr, hp, hc, hsize⟩ := ih (Nat.lt_of_succ_lt hn)
    obtain ⟨seenHead, seenTail, h⟩ := Inv.of_run hr
    have hroom : Enqueues leave s (buffer s.tail) := (h.enqueues_iff hp).mpr (by omega)
    obtain ⟨s', hreturns⟩ := hroom
    obtain ⟨fs, hr'⟩ := hreturns.run hr
    obtain ⟨-, rfl⟩ := (returns_enqueue_iff hp).mp hreturns
    refine ⟨fs, _, hr', rfl, hc, ?_⟩
    have hle := h.window.head_le
    rw [h.getSize_eq] at hsize
    dsimp only
    rw [getSize_eq_mod, h.head, h.tail, nextIndex_index, R.index_val, R.index_val,
      sub_mod_of_window (by omega) (by omega)]
    omega

theorem isGreatest_sizes (leave : T → T) (buffer : Fin R.size → T) :
    IsGreatest (Sizes R leave buffer) (R.size - 1) := by
  have h8 := R.eight_le_size
  constructor
  · obtain ⟨es, s, hr, -, -, hsize⟩ := exists_run_of_size leave buffer (n := R.size - 1) (by omega)
    exact ⟨es, s, hr, by rw [length_stored, hsize]⟩
  · rintro n ⟨es, s, hr, rfl⟩
    obtain ⟨seenHead, seenTail, h⟩ := Inv.of_run hr
    have hlt := h.window.lt_head
    rw [length_stored, h.getSize_eq]
    omega

/-- What `GetSize` and `GetCapacity` should say about a queue at rest. -/
structure Predicts (leave : T → T) (buffer : Fin R.size → T) (s : State R T) : Prop where
  enqueue : ∀ v, Enqueues leave s v ↔ getSize s.tail s.head < getCapacity R
  dequeue : ∀ into, Dequeues leave s into ↔ 0 < getSize s.tail s.head
  largest : IsGreatest (Sizes R leave buffer) (getCapacity R)
  capacity : R.capacity ≤ getCapacity R

/-- The capacity is one more than the queue ever holds; with one slot left `GetSize` is
below it and `Emplace` refuses. The rest holds, but for a `Capacity` whose successor is 0. -/
theorem not_predicts (hr : (machine R leave buffer).Run es s) (hp : s.producer = .idle)
    (hc : s.consumer = .idle) :
    ¬ Predicts leave buffer s ∧
    ((∀ v, Enqueues leave s v ↔ getSize s.tail s.head < getCapacity R) ↔
      getSize s.tail s.head ≠ R.size - 1) ∧
    (∀ into, Dequeues leave s into ↔ 0 < getSize s.tail s.head) ∧
    IsGreatest (Sizes R leave buffer) (R.size - 1) ∧
    (R.capacity < 2 ^ 64 → (R.capacity ≤ getCapacity R ↔ R.capacity ≠ 2 ^ 64 - 1)) := by
  obtain ⟨seenHead, seenTail, h⟩ := Inv.of_run hr
  have h8 := R.eight_le_size
  have hgreatest := isGreatest_sizes leave buffer
  refine ⟨fun hpredicts => ?_, ?_, fun into => h.dequeues_iff hc, hgreatest, fun hcap => ?_⟩
  · have heq := hpredicts.largest.unique hgreatest
    rw [getCapacity] at heq
    omega
  · have hlt := h.window.lt_head
    have hsize := h.getSize_eq
    simp only [h.enqueues_iff hp, getCapacity]
    constructor
    · intro hiff heq
      have := (hiff (buffer s.tail)).mpr (by omega)
      omega
    · intro hne _
      omega
  · rw [getCapacity]
    constructor
    · intro hle hlargest
      have := R.size_of_largest (by omega)
      omega
    · intro hne
      exact Nat.le_of_succ_le (R.capacity_lt_size (by omega)).le

theorem not_predicts_full : ∃ es, ∃ s : State .smallest ℕ,
    (machine .smallest id fun _ => 0).Run es s ∧ getSize s.tail s.head = 7 ∧
      ¬ Predicts id (fun _ => 0) s ∧
        ¬ ∀ v, Enqueues id s v ↔ getSize s.tail s.head < getCapacity .smallest := by
  obtain ⟨es, s, hr, hp, hc, hsize⟩ :=
    exists_run_of_size (R := .smallest) (id : ℕ → ℕ) (fun _ => 0) (n := 7) (by decide)
  obtain ⟨hnot, hiff, -⟩ := not_predicts hr hp hc
  exact ⟨es, s, hr, hsize, hnot, fun hall => hiff.mp hall hsize⟩

theorem not_enqueues_seven : ∃ es, ∃ s : State .smallest ℕ,
    (machine .smallest id fun _ => 0).Run es s ∧ s.producer = .idle ∧ s.consumer = .idle ∧
      ¬ Predicts id (fun _ => 0) s ∧ getSize s.tail s.head < getCapacity .smallest ∧
        ¬ Enqueues id s 7 := by
  obtain ⟨es, s, hr, hp, hc, hsize⟩ :=
    exists_run_of_size (R := .smallest) (id : ℕ → ℕ) (fun _ => 0) (n := 7) (by decide)
  obtain ⟨seenHead, seenTail, h⟩ := Inv.of_run hr
  have hfull : ¬ Enqueues id s 7 := by
    rw [h.enqueues_iff hp, hsize]
    decide
  have hlt : getSize s.tail s.head < getCapacity .smallest := by
    rw [hsize]
    decide
  exact ⟨es, s, hr, hp, hc, fun hpredicts => hfull ((hpredicts.enqueue 7).mpr hlt), hlt, hfull⟩

end

end LockFree.SpscQueue
