import Mathlib.Data.List.FinRange
import LockFree.SpscQueueFifo

/-!
# Lifetimes in BoundedSPSCQueue

`buffer_` is an array of objects, and `Emplace` creates a new object in a slot without
ending the lifetime of the one that is there. A dequeue ends no lifetime either; only
the destructor of the array does.
-/

namespace LockFree.SpscQueue
open BufferSize TransitionRuns

variable {R : Ring} {T : Type*}

/-- The objects `buffer_` starts with, and those that `Emplace` creates, in their order. -/
inductive Object (R : Ring)
  | initial (i : Fin R.size)
  | created (n : ℕ)
  deriving DecidableEq

/-- The object of every slot, and what was constructed and destroyed so far.
`overwritten` says that an object was created where another one was alive. -/
structure Lifetimes (R : Ring) where
  slots : Fin R.size → Option (Object R)
  constructed : List (Object R)
  destroyed : List (Object R)
  overwritten : Bool

namespace Lifetimes

def start (R : Ring) : Lifetimes R :=
  ⟨fun i => some (.initial i), (List.finRange R.size).map .initial, [], false⟩

/-- `new (&buffer_[tail]) T` is the only access that begins a lifetime, and none ends one. -/
def step (l : Lifetimes R) : Event R T → Lifetimes R
  | .constructed i _ =>
    let object := .created l.constructed.length
    { l with
      slots := Function.update l.slots i (some object)
      constructed := l.constructed ++ [object]
      overwritten := l.overwritten || (l.slots i).isSome }
  | _ => l

def destruct (l : Lifetimes R) : Lifetimes R :=
  { l with
    slots := fun _ => none
    destroyed := l.destroyed ++ (List.finRange R.size).filterMap l.slots }

end Lifetimes

def lifetimes (es : List (Event R T)) : Lifetimes R := es.foldl Lifetimes.step (.start R)

structure DestroysOnce (es : List (Event R T)) : Prop where
  once : ∀ x ∈ (lifetimes es).destruct.constructed, (lifetimes es).destruct.destroyed.count x = 1
  vacant : (lifetimes es).overwritten = false

section
variable {es : List (Event R T)} {e : Event R T}

theorem lifetimes_snoc : lifetimes (es ++ [e]) = (lifetimes es).step e := List.foldl_concat ..

theorem step_of_not_constructed (l : Lifetimes R) (he : ∀ i v, e ≠ .constructed i v) :
    l.step e = l := by
  cases e with
  | constructed i v => exact absurd rfl (he i v)
  | _ => rfl

theorem lifetimes_eq_start (h : ∀ i v, .constructed i v ∉ es) : lifetimes es = .start R := by
  induction es using List.reverseRecOn with
  | nil => rfl
  | append_singleton es e ih =>
    rw [lifetimes_snoc, step_of_not_constructed]
    · exact ih fun i v hmem => h i v (List.mem_append_left _ hmem)
    · rintro i v rfl
      exact h i v (List.mem_append_right _ (List.mem_singleton_self _))

theorem lifetimes_kept (es : List (Event R T)) :
    (lifetimes es).destroyed = [] ∧ ∀ i, ((lifetimes es).slots i).isSome := by
  induction es using List.reverseRecOn with
  | nil => exact ⟨rfl, fun _ => rfl⟩
  | append_singleton es e ih =>
    rw [lifetimes_snoc]
    cases e with
    | constructed i v =>
      refine ⟨ih.1, fun j => ?_⟩
      dsimp only [Lifetimes.step]
      by_cases hj : j = i
      · subst hj
        rw [Function.update_self]
        rfl
      · rw [Function.update_of_ne hj]
        exact ih.2 j
    | _ => exact ih

theorem slots_initial {j k : Fin R.size} (h : (lifetimes es).slots j = some (.initial k)) :
    j = k ∧ ∀ v, .constructed k v ∉ es := by
  induction es using List.reverseRecOn with
  | nil =>
    have hjk : j = k := by simpa [lifetimes, Lifetimes.start] using h
    exact ⟨hjk, fun v hmem => by cases hmem⟩
  | append_singleton es e ih =>
    rw [lifetimes_snoc] at h
    by_cases he : ∃ i v, e = .constructed i v
    · obtain ⟨i, v, rfl⟩ := he
      dsimp only [Lifetimes.step] at h
      by_cases hj : j = i
      · subst hj
        rw [Function.update_self] at h
        cases h
      · rw [Function.update_of_ne hj] at h
        obtain ⟨rfl, hnone⟩ := ih h
        refine ⟨rfl, fun w hmem => ?_⟩
        rcases List.mem_append.mp hmem with hmem | hmem
        · exact hnone w hmem
        · cases List.mem_singleton.mp hmem
          exact hj rfl
    · simp only [not_exists] at he
      rw [step_of_not_constructed _ he] at h
      obtain ⟨rfl, hnone⟩ := ih h
      refine ⟨rfl, fun w hmem => ?_⟩
      rcases List.mem_append.mp hmem with hmem | hmem
      · exact hnone w hmem
      · exact he j w (List.mem_singleton.mp hmem).symm

theorem mem_constructed (es : List (Event R T)) (i : Fin R.size) :
    .initial i ∈ (lifetimes es).constructed := by
  induction es using List.reverseRecOn with
  | nil => exact List.mem_map.mpr ⟨i, List.mem_finRange i, rfl⟩
  | append_singleton es e ih =>
    rw [lifetimes_snoc]
    cases e with
    | constructed j v => exact List.mem_append_left _ ih
    | _ => exact ih

theorem destroysOnce_iff_not_constructed (es : List (Event R T)) :
    DestroysOnce es ↔ ∀ i v, .constructed i v ∉ es := by
  constructor
  · intro h i v hmem
    -- the object that slot `i` began with is never destroyed
    have hone := h.once _ (mem_constructed es i)
    have hpos : 0 < (lifetimes es).destruct.destroyed.count (.initial i) := by omega
    have hdestroyed := List.count_pos_iff.mp hpos
    rw [Lifetimes.destruct, (lifetimes_kept es).1, List.nil_append, List.mem_filterMap]
      at hdestroyed
    obtain ⟨j, -, hj⟩ := hdestroyed
    exact (slots_initial hj).2 v hmem
  · intro h
    have hstart := lifetimes_eq_start h
    constructor
    · intro x hx
      rw [hstart] at hx ⊢
      obtain ⟨i, -, rfl⟩ := List.mem_map.mp hx
      have hdestroyed : (Lifetimes.start R).destruct.destroyed =
          (List.finRange R.size).map Object.initial := congrFun List.filterMap_eq_map _
      rw [hdestroyed]
      refine List.count_eq_one_of_mem ((List.nodup_finRange _).map fun i j heq => ?_) hx
      cases heq
      rfl
    · rw [hstart]
      rfl

end

def Event.constructed? : Event R T → Bool
  | .constructed _ _ => true
  | _ => false

def Event.emplaces? : Event R T → Bool
  | .called (.emplace _) => true
  | _ => false

def Event.emplacement? : Event R T → Bool
  | .emplaced _ => true
  | _ => false

def Producer.testing : Producer R T → Bool
  | .loadTail _ | .loadHead _ _ | .construct _ _ => true
  | _ => false

def Producer.storing : Producer R T → Bool
  | .storeTail _ _ => true
  | _ => false

section
variable {leave : T → T} {buffer : Fin R.size → T} {es : List (Event R T)} {s s' : State R T}
  {e : Event R T}

theorem step_producer (hs : (machine R leave buffer).Step s e s') :
    (s'.producer.testing = s.producer.testing ∧ s'.producer.storing = s.producer.storing ∧
      e.constructed? = false ∧ e.emplaces? = false ∧ e.emplacement? = false) ∨
    (e.emplaces? = true ∧ s'.producer.testing = true ∧ s'.producer.storing = false ∧
      e.constructed? = false ∧ e.emplacement? = false) ∨
    (e = .refused ∧ s'.producer.testing = false ∧ s'.producer.storing = false) ∨
    (e.constructed? = true ∧ s.producer.testing = true ∧ s'.producer.testing = false ∧
      e.emplaces? = false ∧ e.emplacement? = false) ∨
    (s.producer.storing = true ∧ s'.producer.storing = false ∧ s'.producer.testing = false ∧
      s.producer.testing = false ∧ e.constructed? = false ∧ e.emplaces? = false) := by
  rcases step_cases hs with ⟨c, rfl, hn⟩ | hn | hn
  · rcases c with v | d | ⟨_ | _, q, tailFirst⟩ <;> simp only [callNext] at hn <;> split at hn <;>
      cases hn
    · exact .inr (.inl ⟨rfl, rfl, rfl, rfl, rfl⟩)
    · exact .inl ⟨rfl, rfl, rfl, rfl, rfl⟩
    · rename_i hidle
      rw [hidle]
      exact .inl ⟨rfl, rfl, rfl, rfl, rfl⟩
    · exact .inl ⟨rfl, rfl, rfl, rfl, rfl⟩
  · rw [producerNext] at hn
    cases hp : s.producer <;> simp only [hp] at hn
    case idle => cases hn
    case loadTail v =>
      split at hn <;> cases hn <;> exact .inl ⟨rfl, rfl, rfl, rfl, rfl⟩
    case loadHead v tail =>
      split at hn <;> cases hn
      · exact .inr (.inr (.inl ⟨rfl, rfl, rfl⟩))
      · exact .inl ⟨rfl, rfl, rfl, rfl, rfl⟩
    case construct v tail =>
      cases hn
      exact .inr (.inr (.inr (.inl ⟨rfl, rfl, rfl, rfl, rfl⟩)))
    case storeTail v tail =>
      cases hn
      exact .inr (.inr (.inr (.inr ⟨rfl, rfl, rfl, rfl, rfl, rfl⟩)))
    case query | query' =>
      cases hn
      exact .inl ⟨rfl, rfl, rfl, rfl, rfl⟩
  · refine .inl ?_
    have hproceed : ∀ (d : Demand) (i : Fin R.size),
        ((proceed d i).2 : Event R T).constructed? = false ∧
          ((proceed d i).2 : Event R T).emplaces? = false ∧
          ((proceed d i).2 : Event R T).emplacement? = false := by
      intro d i
      cases d <;> exact ⟨rfl, rfl, rfl⟩
    rw [consumerNext] at hn
    cases hc : s.consumer <;> simp only [hc] at hn
    case idle => cases hn
    case loadHead d =>
      split at hn <;> cases hn
      · exact ⟨rfl, rfl, rfl, rfl, rfl⟩
      · exact ⟨rfl, rfl, hproceed d _⟩
    case loadTail d i =>
      split at hn <;> cases hn
      · exact ⟨rfl, rfl, rfl, rfl, rfl⟩
      · exact ⟨rfl, rfl, hproceed d _⟩
    case read | storeHead | query | query' =>
      cases hn
      exact ⟨rfl, rfl, rfl, rfl, rfl⟩

structure Begun (es : List (Event R T)) (s : State R T) : Prop where
  called : (∃ e ∈ es, e.emplaces? = true) →
    (∃ e ∈ es, e.constructed? = true) ∨ s.producer.testing = true
  testing : s.producer.testing = true → ∃ e ∈ es, e.emplaces? = true
  constructed : (∃ e ∈ es, e.constructed? = true) → ∃ e ∈ es, e.emplaces? = true
  stored : (∃ e ∈ es, e.emplacement? = true) ∨ s.producer.storing = true →
    ∃ e ∈ es, e.constructed? = true

theorem mem_emplaced_iff : emplaced es ≠ [] ↔ ∃ e ∈ es, e.emplacement? = true := by
  rw [Ne, emplaced, List.filterMap_eq_nil_iff]
  constructor
  · intro h
    simp only [not_forall] at h
    obtain ⟨e, he, hne⟩ := h
    refine ⟨e, he, ?_⟩
    cases e <;> first | rfl | exact absurd rfl hne
  · rintro ⟨e, he, hm⟩ h
    have hnone := h e he
    cases e <;> cases hm
    cases hnone

theorem exists_mem_snoc {p : Event R T → Bool} :
    (∃ x ∈ es ++ [e], p x = true) ↔ (∃ x ∈ es, p x = true) ∨ p e = true := by
  simp [or_and_right, exists_or]

theorem Begun.step (h : Begun es s) (hr : (machine R leave buffer).Run es s)
    (hs : (machine R leave buffer).Step s e s') : Begun (es ++ [e]) s' := by
  rcases step_producer hs with ⟨ht, hst, hc, he, hm⟩ | ⟨he, ht, hst, hc, hm⟩ | ⟨rfl, ht, hst⟩ |
    ⟨hc, ht, ht', he, hm⟩ | ⟨hst, hst', ht', ht, hc, he⟩
  · constructor <;> simp only [exists_mem_snoc, hc, he, hm, ht, hst, Bool.false_eq_true, or_false]
    · exact h.called
    · exact h.testing
    · exact h.constructed
    · exact h.stored
  · constructor <;> simp only [exists_mem_snoc, hc, he, hm, ht, hst, Bool.false_eq_true, or_false,
      or_true, implies_true]
    · intro hmem
      exact h.stored (.inl hmem)
  · -- a ring without elements refuses nothing
    have hconstructed : ∃ x ∈ es, x.constructed? = true := by
      refine h.stored (.inl ?_)
      obtain ⟨seenHead, seenTail, hi⟩ := Inv.of_run hr
      have hfull := hi.of_refused hs
      have h8 := R.eight_le_size
      rw [← mem_emplaced_iff, ← List.length_pos_iff]
      omega
    have hcalled := h.constructed hconstructed
    constructor <;> simp only [exists_mem_snoc, ht, hst, Event.constructed?, Event.emplaces?,
      Bool.false_eq_true, or_false, false_implies]
    · exact fun _ => hconstructed
    · exact fun _ => hcalled
    · exact fun _ => hconstructed
  · have hcalled := h.testing ht
    constructor <;> simp only [exists_mem_snoc, hc, he, ht', hm, Bool.false_eq_true, or_false,
      or_true, implies_true, false_implies]
    · exact fun _ => hcalled
  · have hconstructed := h.stored (.inr hst)
    have hcalled := h.constructed hconstructed
    constructor <;> simp only [exists_mem_snoc, hc, he, ht', hst', Bool.false_eq_true, or_false,
      false_implies]
    · exact fun _ => hconstructed
    · exact fun _ => hcalled
    · exact fun _ => hconstructed

theorem Begun.of_run (hr : (machine R leave buffer).Run es s) : Begun es s := by
  refine hr.invariant (I := Begun) ?_ fun es s e s' hr ih hs => ih.step hr hs
  constructor <;> simp [machine, Producer.testing, Producer.storing]

/-- Every object is destroyed once, and none is overwritten, exactly if the run has no
`Emplace`: the first one already constructs over an object of the array. -/
theorem destroysOnce_iff (hr : (machine R leave buffer).Run es s) (hidle : s.producer = .idle) :
    DestroysOnce es ↔ ∀ v, .called (.emplace v) ∉ es := by
  have h := Begun.of_run hr
  rw [destroysOnce_iff_not_constructed]
  constructor
  · intro hnone v hmem
    rcases h.called ⟨_, hmem, rfl⟩ with ⟨e, he, hc⟩ | ht
    · cases e with
      | constructed i v => exact hnone i v he
      | _ => cases hc
    · rw [hidle] at ht
      cases ht
  · intro hnone i v hmem
    obtain ⟨e, he, hc⟩ := h.constructed ⟨_, hmem, rfl⟩
    rcases e with c | _ | _ | _ | _ | _ | _ | _ | _
    case called =>
      cases c with
      | emplace v => exact hnone v he
      | _ => cases hc
    all_goals cases hc

theorem destroysOnce_iff_unused : ∃ es, ∃ s : State .smallest ℕ,
    (machine .smallest id (fun _ => 0)).Run es s ∧ .called (.demand .dequeue) ∈ es ∧
      DestroysOnce es := by
  obtain ⟨s, hr, hidle⟩ : ∃ s, (machine .smallest (id : ℕ → ℕ) (fun _ => 0)).Run
      [.called (.demand .dequeue), .silent, .empty .dequeue] s ∧ s.producer = .idle :=
    ⟨_, Machine.Path.of_exec [.call (.demand .dequeue), .step .consumer, .step .consumer] rfl, rfl⟩
  exact ⟨_, s, hr, by simp, (destroysOnce_iff hr hidle).mpr (by simp)⟩

theorem not_destroysOnce_enqueue : ∃ es, ∃ s : State .smallest ℕ,
    (machine .smallest id (fun _ => 0)).Run es s ∧ s.producer = .idle ∧ s.consumer = .idle ∧
      ¬ DestroysOnce es := by
  refine ⟨[.called (enqueue 5), .silent, .constructed (Ring.smallest.index 0) 5, .emplaced 5,
    .called (.demand .dequeueInto), .silent, .silent, .silent, .dequeued 5], _,
    Machine.Path.of_exec [.call (enqueue 5), .step .producer, .step .producer, .step .producer,
      .call (.demand .dequeueInto), .step .consumer, .step .consumer, .step .consumer,
      .step .consumer] rfl, rfl, rfl, fun h => ?_⟩
  exact (destroysOnce_iff_not_constructed _).mp h (Ring.smallest.index 0) 5 (by simp)

end

end LockFree.SpscQueue
