import LockFree.SpscQueueSize

/-!
# GetSize and IsEmptyProducer between the steps of the other thread

Nobody but its caller moves the index that the caller owns. A query that loads this index
last therefore describes the queue as it was at its first load, and one that loads it
first describes the queue as it is at the second.
-/

namespace LockFree.SpscQueue
open BufferSize RingWindow TransitionRuns

variable {R : Ring} {T : Type*}

def held (es : List (Event R T)) : ℕ := (emplaced es).length - (dequeued es).length

/-- What the answer `n` says about a queue of `k` elements. -/
def Query.Describes (R : Ring) (q : Query) (n k : ℕ) : Prop :=
  match q with
  | .isEmptyProducer => n = 1 ∧ k = 0 ∨ n = 0 ∧ k ≠ 0
  | .getSize => n = k ∧ n ≤ R.size - 1

def State.asks (s : State R T) : Role → Option (Query × Bool × Option (Fin R.size))
  | .producer =>
    match s.producer with
    | .query q tailFirst => some (q, tailFirst, none)
    | .query' q tailFirst loaded => some (q, tailFirst, some loaded)
    | _ => none
  | .consumer =>
    match s.consumer with
    | .query q tailFirst => some (q, tailFirst, none)
    | .query' q tailFirst loaded => some (q, tailFirst, some loaded)
    | _ => none

def State.own (s : State R T) : Role → Fin R.size
  | .producer => s.tail
  | .consumer => s.head

section
variable {leave : T → T} {buffer : Fin R.size → T} {s s' s₁ s₂ s₃ : State R T} {e : Event R T}
  {es fs : List (Event R T)} {role : Role} {q p : Query} {tailFirst : Bool} {n : ℕ}

theorem asks_call (hn : callNext s (.query role q tailFirst) = some s') :
    s'.asks role = some (q, tailFirst, none) := by
  cases role with
  | producer =>
    simp only [callNext] at hn
    split at hn <;> cases hn
    rfl
  | consumer =>
    simp only [callNext] at hn
    split at hn <;> cases hn
    rfl

theorem producer_of_asks {x : Query × Bool × Option (Fin R.size)}
    (ha : s.asks .producer = some x) :
    s.producer = match x.2.2 with
      | none => .query x.1 x.2.1
      | some loaded => .query' x.1 x.2.1 loaded := by
  unfold State.asks at ha
  grind

theorem consumer_of_asks {x : Query × Bool × Option (Fin R.size)}
    (ha : s.asks .consumer = some x) :
    s.consumer = match x.2.2 with
      | none => .query x.1 x.2.1
      | some loaded => .query' x.1 x.2.1 loaded := by
  unfold State.asks at ha
  grind

theorem producer_of_consumerNext (hn : consumerNext leave s = some (s', e)) :
    s'.producer = s.producer ∧ s'.tail = s.tail := by
  unfold consumerNext at hn
  grind

theorem consumer_of_producerNext (hn : producerNext s = some (s', e)) :
    s'.consumer = s.consumer ∧ s'.head = s.head := by
  unfold producerNext at hn
  grind

theorem asks_of_callNext {c : Call T} {x : Query × Bool × Option (Fin R.size)}
    (hn : callNext s c = some s') (ha : s.asks role = some x) :
    s'.asks role = some x ∧ s'.own role = s.own role := by
  unfold callNext at hn
  unfold State.asks State.own at *
  grind

theorem asks_other {c : Choice T} {x : Query × Bool × Option (Fin R.size)}
    (hn : next leave s c = some (s', e)) (hc : c ≠ .step role) (ha : s.asks role = some x) :
    s'.asks role = some x ∧ s'.own role = s.own role := by
  cases c with
  | call c =>
    obtain ⟨s'', hcall, heq⟩ := Option.map_eq_some_iff.mp hn
    cases heq
    exact asks_of_callNext hcall ha
  | step mover =>
    cases mover <;> cases role
    case producer.consumer =>
      obtain ⟨hconsumer, hhead⟩ := consumer_of_producerNext hn
      simp only [State.asks, State.own, hconsumer, hhead] at ha ⊢
      exact ⟨ha, trivial⟩
    case consumer.producer =>
      obtain ⟨hproducer, htail⟩ := producer_of_consumerNext hn
      simp only [State.asks, State.own, hproducer, htail] at ha ⊢
      exact ⟨ha, trivial⟩
    all_goals exact absurd rfl hc

theorem asks_load (hn : next leave s (.step role) = some (s', e))
    (ha : s.asks role = some (q, tailFirst, none)) :
    s'.asks role = some (q, tailFirst, some (s.load tailFirst)) ∧ s'.own role = s.own role ∧
      e = .silent := by
  cases role with
  | producer =>
    have hproducer := producer_of_asks ha
    simp only [next, producerNext, hproducer] at hn
    cases hn
    exact ⟨rfl, rfl, rfl⟩
  | consumer =>
    have hconsumer := consumer_of_asks ha
    simp only [next, consumerNext, hconsumer] at hn
    cases hn
    exact ⟨rfl, rfl, rfl⟩

theorem asks_answer {loaded : Fin R.size} (hn : next leave s (.step role) = some (s', e))
    (ha : s.asks role = some (q, tailFirst, some loaded)) :
    e = .answered role q (s.answer q tailFirst loaded) := by
  cases role with
  | producer =>
    have hproducer := producer_of_asks ha
    simp only [next, producerNext, hproducer] at hn
    cases hn
    rfl
  | consumer =>
    have hconsumer := consumer_of_asks ha
    simp only [next, consumerNext, hconsumer] at hn
    cases hn
    rfl

theorem asks_between {cs : List (Choice T)} {loaded : Fin R.size}
    (hx : (machine R leave buffer).exec s cs = some (s', es))
    (hopen : ∀ p n, .answered role p n ∉ es)
    (ha : s.asks role = some (q, tailFirst, some loaded)) :
    s'.asks role = some (q, tailFirst, some loaded) ∧ s'.own role = s.own role := by
  induction cs generalizing s es with
  | nil =>
    cases hx
    exact ⟨ha, rfl⟩
  | cons c cs ih =>
    obtain ⟨u, e, gs, hn, hx', rfl⟩ := Machine.exec_cons hx
    have hc : c ≠ .step role := by
      rintro rfl
      obtain rfl := asks_answer hn ha
      exact hopen _ _ List.mem_cons_self
    obtain ⟨ha', hown⟩ := asks_other hn hc ha
    obtain ⟨hrest, hown'⟩ := ih hx' (fun p n hmem => hopen p n (List.mem_cons_of_mem _ hmem)) ha'
    exact ⟨hrest, hown'.trans hown⟩

/-- The state in which the first load was made: from there on the caller's own index stays. -/
theorem exists_load {cs : List (Choice T)}
    (hx : (machine R leave buffer).exec s cs = some (s', es))
    (hopen : ∀ p n, .answered role p n ∉ es)
    (ha : s.asks role = some (q, tailFirst, none)) :
    s'.asks role = some (q, tailFirst, none) ∨
      ∃ cs₁ cs₂ fs gs u, cs = cs₁ ++ cs₂ ∧ es = fs ++ gs ∧
        (machine R leave buffer).exec s cs₁ = some (u, fs) ∧
        s'.asks role = some (q, tailFirst, some (u.load tailFirst)) ∧
        s'.own role = u.own role := by
  induction cs generalizing s es with
  | nil =>
    cases hx
    exact .inl ha
  | cons c cs ih =>
    obtain ⟨u, e, gs, hn, hx', rfl⟩ := Machine.exec_cons hx
    have hopen' : ∀ p n, .answered role p n ∉ gs :=
      fun p n hmem => hopen p n (List.mem_cons_of_mem _ hmem)
    by_cases hc : c = .step role
    · subst hc
      obtain ⟨ha', hown, -⟩ := asks_load hn ha
      obtain ⟨hrest, hown'⟩ := asks_between hx' hopen' ha'
      exact .inr ⟨[], _, [], _, s, rfl, rfl, rfl, hrest, hown'.trans hown⟩
    · obtain ⟨ha', -⟩ := asks_other hn hc ha
      rcases ih hx' hopen' ha' with hnone | ⟨cs₁, cs₂, fs, hs, v, rfl, rfl, hv, hrest⟩
      · exact .inl hnone
      · refine .inr ⟨c :: cs₁, cs₂, e :: fs, hs, v, rfl, rfl, ?_, hrest⟩
        exact Machine.exec_cons_of hn hv

theorem getSize_eq_zero {tail head : Fin R.size} : getSize tail head = 0 ↔ tail = head := by
  have ht := tail.isLt
  have hh := head.isLt
  rw [getSize_eq_mod, Fin.ext_iff]
  constructor
  · intro hzero
    have hdvd : R.size ∣ tail.val + R.size - head.val := Nat.dvd_of_mod_eq_zero hzero
    obtain ⟨k, hk⟩ := hdvd
    -- the difference lies strictly between none and two laps
    obtain rfl : k = 1 := by
      rcases Nat.lt_trichotomy k 1 with hlt | heq | hgt
      · obtain rfl : k = 0 := by omega
        omega
      · exact heq
      · have := Nat.mul_le_mul_left R.size hgt
        omega
    omega
  · intro heq
    rw [heq, Nat.add_sub_cancel_left, Nat.mod_self]

theorem answer_describes (q : Query) (s : State R T) :
    q.Describes R (q.answer s.tail s.head) s.stored.length := by
  rw [length_stored]
  cases q with
  | getSize =>
    refine ⟨rfl, Nat.le_sub_one_of_lt ?_⟩
    rw [Query.answer, getSize_eq_mod]
    exact Nat.mod_lt _ (by have := R.eight_le_size; omega)
  | isEmptyProducer =>
    by_cases heq : s.tail = s.head
    · exact .inl ⟨if_pos heq, getSize_eq_zero.mpr heq⟩
    · exact .inr ⟨if_neg heq, fun hzero => heq (getSize_eq_zero.mp hzero)⟩

theorem answer_eq {u : State R T} (q : Query) (tailFirst : Bool) (hown : s.own role = u.own role) :
    s.answer q tailFirst (u.load tailFirst) = q.answer u.tail u.head ∨
      s.answer q tailFirst (u.load tailFirst) = q.answer s.tail s.head := by
  cases role <;> cases tailFirst <;> simp only [State.own] at hown <;>
    simp [State.answer, State.load, hown]

theorem length_stored_of_run (hr : (machine R leave buffer).Run es s) :
    s.stored.length = held es := by
  obtain ⟨seenHead, seenTail, h⟩ := Inv.of_run hr
  rw [length_stored, h.getSize_eq, held]

/-- `cs` is everything that both threads do between the call and the step that answers it.
The answer describes the queue as it was at one instant of this time. -/
theorem query_describes_instant {cs : List (Choice T)} (hr : (machine R leave buffer).Run es s)
    (hcall : callNext s (.query role q tailFirst) = some s₁)
    (hx : (machine R leave buffer).exec s₁ cs = some (s₂, fs))
    (hopen : ∀ p n, .answered role p n ∉ fs)
    (hanswer : next leave s₂ (.step role) = some (s₃, .answered role p n)) :
    p = q ∧ ∃ cs₁ cs₂ gs hs u, cs = cs₁ ++ cs₂ ∧ fs = gs ++ hs ∧
      (machine R leave buffer).exec s₁ cs₁ = some (u, gs) ∧
      u.stored.length = held (es ++ .called (.query role q tailFirst) :: gs) ∧
      q.Describes R n u.stored.length := by
  have hcalled : (machine R leave buffer).Step s (.called (.query role q tailFirst)) s₁ :=
    ⟨.call (.query role q tailFirst), Option.map_eq_some_iff.mpr ⟨s₁, hcall, rfl⟩⟩
  have hheld : ∀ {cs₁ gs u}, (machine R leave buffer).exec s₁ cs₁ = some (u, gs) →
      u.stored.length = held (es ++ .called (.query role q tailFirst) :: gs) := by
    intro cs₁ gs u hu
    rw [List.append_cons]
    exact length_stored_of_run ((hr.snoc hcalled).trans (Machine.Path.of_exec cs₁ hu))
  rcases exists_load hx hopen (asks_call hcall) with hnone | ⟨cs₁, cs₂, gs, hs, u, rfl, rfl, hu, hrest⟩
  · -- the first load is still to come, so the step is no answer
    obtain ⟨-, -, hsilent⟩ := asks_load hanswer hnone
    cases hsilent
  · obtain ⟨hasks, hown⟩ := hrest
    have hevent := asks_answer hanswer hasks
    simp only [Event.answered.injEq, true_and] at hevent
    obtain ⟨rfl, rfl⟩ := hevent
    refine ⟨rfl, ?_⟩
    rcases answer_eq p tailFirst hown with heq | heq
    · refine ⟨cs₁, cs₂, gs, hs, u, rfl, rfl, hu, hheld hu, ?_⟩
      rw [heq]
      exact answer_describes p u
    · refine ⟨cs₁ ++ cs₂, [], gs ++ hs, [], s₂, by simp, by simp, hx, hheld hx, ?_⟩
      rw [heq]
      exact answer_describes p s₂

theorem query_describes_instant_overtaken :
    ∃ cs₁ cs₂ gs, ∃ u : State .smallest ℕ,
      [.step .consumer, .call (enqueue 5), .step .producer, .step .producer, .step .producer] =
        cs₁ ++ cs₂ ∧
      (machine .smallest id fun _ => 0).exec
        { (machine .smallest id fun _ => 0).start with consumer := .query .getSize true } cs₁ =
          some (u, gs) ∧
      Query.getSize.Describes .smallest 0 u.stored.length := by
  obtain ⟨s₂, fs, hx, hopen, hc, hhead⟩ : ∃ s₂ fs, (machine .smallest id fun _ => 0).exec
      { (machine .smallest id fun _ => 0).start with consumer := .query .getSize true }
      [.step .consumer, .call (enqueue 5), .step .producer, .step .producer, .step .producer] =
        some (s₂, fs) ∧ (∀ p n, .answered .consumer p n ∉ fs) ∧
      s₂.consumer = .query' .getSize true (Ring.smallest.index 0) ∧
      s₂.head = Ring.smallest.index 0 := by
    refine ⟨_, [.silent, .called (enqueue 5), .silent, .constructed (Ring.smallest.index 0) 5,
      .emplaced 5], rfl, ?_, rfl, rfl⟩
    simp
  have hanswer : next id s₂ (.step .consumer) = some ({ s₂ with consumer := .idle },
      .answered .consumer .getSize (getSize (Ring.smallest.index 0) s₂.head)) := by
    simp only [next, consumerNext, hc, State.answer, Query.answer, if_true]
  obtain ⟨-, cs₁, cs₂, gs, -, u, hcs, -, hu, -, hdescribes⟩ :=
    query_describes_instant (q := .getSize) (.nil _) rfl hx hopen hanswer
  rw [hhead, getSize_eq_zero.mpr rfl] at hdescribes
  exact ⟨cs₁, cs₂, gs, u, hcs, hu, hdescribes⟩

end

end LockFree.SpscQueue
