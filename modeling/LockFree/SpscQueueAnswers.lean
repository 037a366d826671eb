import LockFree.SpscQueueHandover

/-!
# What the calls of BoundedSPSCQueue may have overlooked

An answer that depends on the other thread's index is true of some value that this index
had: not one that is older than the last time the thread was made to wait for the other.
-/

namespace LockFree.SpscQueueViews
open BufferSize RingWindow TransitionRuns ViewMemory
open SpscQueue (Role Query Demand Call Producer Consumer)

variable {R : Ring} {T : Type*}

def stores (es : List (Event R T)) : Role → ℕ
  | .producer => (emplaced es).length
  | .consumer => (dequeued es).length

def other : Role → Role
  | .producer => .consumer
  | .consumer => .producer

/-- The thread was never made to wait for a state with more than `k` stores of the other's
index. -/
def Informed (role : Role) (es : List (Event R T)) (k : ℕ) : Prop :=
  ∀ fs gs, es = fs ++ .synchronized role :: gs → stores fs (other role) ≤ k

structure Seen (role : Role) (es : List (Event R T)) (k : ℕ) : Prop where
  informed : Informed role es k
  le_stores : k ≤ stores es (other role)
  near : match role with
    | .producer => stores es .producer < k + R.size
    | .consumer => stores es .consumer ≤ k

def sizeWith (role : Role) (es : List (Event R T)) (k : ℕ) : ℕ :=
  match role with
  | .producer => stores es .producer - k
  | .consumer => k - stores es .consumer

def index (R : Ring) : Role → Location R
  | .producer => .tail
  | .consumer => .head

def Event.stored? : Event R T → Option Role
  | .queue (.emplaced _) => some .producer
  | .queue (.dequeued _) => some .consumer
  | _ => none

def Event.denied? : Event R T → Option Role
  | .queue .refused => some .producer
  | .queue (.empty _) => some .consumer
  | _ => none

namespace State

def views (s : State R T) : Role → Views (Location R)
  | .producer => s.producerViews
  | .consumer => s.consumerViews

def compared? (s : State R T) : Role → Option (Fin R.size)
  | .producer =>
    match s.producer with
    | .loadHead _ tail => some (nextIndex tail)
    | _ => none
  | .consumer =>
    match s.consumer with
    | .loadTail _ head => some head
    | _ => none

def asked? (s : State R T) : Role → Option (Query × Bool × Fin R.size)
  | .producer =>
    match s.producer with
    | .query' q tailFirst i => some (q, tailFirst, i)
    | _ => none
  | .consumer =>
    match s.consumer with
    | .query' q tailFirst i => some (q, tailFirst, i)
    | _ => none

end State

def threadNext (leave : T → T) (s : State R T) (role : Role) (t : ℕ) :
    Option (State R T × Event R T) :=
  match role with
  | .producer => producerNext s t
  | .consumer => consumerNext leave s t

def awaits : Role → Bool
  | .producer => false
  | .consumer => true

section
variable {role : Role} {es : List (Event R T)} {e : Event R T} {s s' : State R T} {k l : ℕ}
  {seenHead seenTail : ℕ} {leave : T → T} {buffer : Fin R.size → T}

theorem stores_append_le (es : List (Event R T)) (e : Event R T) (role : Role) :
    stores es role ≤ stores (es ++ [e]) role := by
  cases role <;> simp [stores, emplaced, dequeued, SpscQueue.emplaced, SpscQueue.dequeued]

theorem Informed.mono (h : Informed role es k) (hle : k ≤ l) : Informed role es l :=
  fun fs gs hes => (h fs gs hes).trans hle

theorem Informed.append (h : Informed role es k) (he : e ≠ .synchronized role) :
    Informed role (es ++ [e]) k := by
  intro fs gs hes
  rcases List.eq_nil_or_concat gs with rfl | ⟨gs, g, rfl⟩
  · exact absurd (List.append_inj_right' hes rfl) (by simpa using he)
  · rw [List.concat_eq_append, ← List.cons_append, ← List.append_assoc] at hes
    exact h fs gs (List.append_inj_left' hes rfl)

theorem Informed.synchronized (h : Informed role es k) (hle : stores es (other role) ≤ k) :
    Informed role (es ++ [.synchronized role]) k := by
  intro fs gs hes
  rcases List.eq_nil_or_concat gs with rfl | ⟨gs, g, rfl⟩
  · rwa [← List.append_inj_left' hes rfl]
  · rw [List.concat_eq_append, ← List.cons_append, ← List.append_assoc] at hes
    exact h fs gs (List.append_inj_left' hes rfl)

theorem Seen.append (h : Seen role es k) (he : e ≠ .synchronized role)
    (hown : stores (es ++ [e]) role = stores es role) : Seen role (es ++ [e]) k where
  informed := h.informed.append he
  le_stores := h.le_stores.trans (stores_append_le es e _)
  near := by
    have hnear := h.near
    cases role <;> simp only [hown] <;> exact hnear

theorem stores_eq (es : List (Event R T)) (he : e.stored? ≠ some role) :
    stores (es ++ [e]) role = stores es role := by
  cases role <;> simp only [stores, emplaced, dequeued, SpscQueue.emplaced, SpscQueue.dequeued,
    List.filterMap_append, List.length_append] <;>
    rcases e with (_ | _ | _ | _ | _ | _ | _ | _ | _) | _ | _ | _ | _ <;>
    first | rfl | exact absurd rfl he

theorem eq_or_eq_other (r role : Role) : r = role ∨ r = other role := by
  cases r <;> cases role <;> simp [other]

theorem proceed_fst (d : Demand) (i : Fin R.size) :
    ∀ q tailFirst j, (SpscQueue.proceed d i).1 ≠ (.query' q tailFirst j : Consumer R T) := by
  cases d <;> simp [SpscQueue.proceed]

theorem proceed_stored (d : Demand) (i : Fin R.size) :
    Event.stored? (.queue (SpscQueue.proceed d i).2 : Event R T) = none := by
  cases d <;> rfl

theorem threadNext_frame {t : ℕ} (hn : threadNext leave s role t = some (s', e)) :
    s'.asked? (other role) = s.asked? (other role) ∧
      s'.views (other role) = s.views (other role) ∧
      (s.views role).current ≤ (s'.views role).current ∧ e.stored? ≠ some (other role) ∧
      ∀ r, e ≠ .synchronized r := by
  cases role with
  | producer =>
    obtain ⟨hc, hcv, hpv⟩ := producerNext_frame hn
    refine ⟨by simp only [other, State.asked?, hc], hcv, hpv, ?_⟩
    simp only [threadNext, producerNext] at hn
    cases hp : s.producer <;> simp only [hp] at hn
    case idle => cases hn
    case loadTail | loadHead =>
      split at hn
      · cases hn
      · split at hn <;> cases hn <;> simp [Event.stored?]
    case construct | storeTail => split at hn <;> (cases hn; simp [Event.stored?, other])
    case query | query' =>
      split at hn
      · cases hn
      · cases hn
        simp [Event.stored?]
  | consumer =>
    obtain ⟨hp, hpv, hcv⟩ := consumerNext_frame hn
    refine ⟨by simp only [other, State.asked?, hp], hpv, hcv, ?_⟩
    simp only [threadNext, consumerNext] at hn
    cases hc : s.consumer <;> simp only [hc] at hn
    case idle => cases hn
    case loadHead | loadTail =>
      split at hn
      · cases hn
      · split at hn <;> cases hn
        · simp [Event.stored?]
        · exact ⟨by simp [proceed_stored], by simp⟩
    case read | storeHead => split at hn <;> (cases hn; simp [Event.stored?, other])
    case query | query' =>
      split at hn
      · cases hn
      · cases hn
        simp [Event.stored?]

theorem threadNext_asks {t : ℕ} (hn : threadNext leave s role t = some (s', e)) {q : Query}
    {tailFirst : Bool} {i : Fin R.size} (hq : s'.asked? role = some (q, tailFirst, i)) :
    e = .queue .silent ∧ ∃ v, s.load tailFirst (s.views role) t = some (i, v) := by
  cases role with
  | producer =>
    simp only [threadNext, producerNext] at hn
    cases hp : s.producer <;> simp only [hp] at hn
    case idle => cases hn
    case loadTail | loadHead =>
      split at hn
      · cases hn
      · split at hn <;> cases hn <;> cases hq
    case construct | storeTail => split at hn <;> cases hn <;> simp_all [State.asked?]
    case query | query' =>
      split at hn
      · cases hn
      · rename_i hl
        cases hn
        cases hq
        try exact ⟨rfl, _, hl⟩
  | consumer =>
    simp only [threadNext, consumerNext] at hn
    cases hc : s.consumer <;> simp only [hc] at hn
    case idle => cases hn
    case loadHead | loadTail =>
      split at hn
      · cases hn
      · split at hn <;> cases hn
        · cases hq
        · simp only [State.asked?] at hq
          split at hq
          · exact absurd ‹_› (proceed_fst _ _ _ _ _)
          · cases hq
    case read | storeHead => split at hn <;> cases hn <;> simp_all [State.asked?]
    case query | query' =>
      split at hn
      · cases hn
      · rename_i hl
        cases hn
        cases hq
        try exact ⟨rfl, _, hl⟩

def Loaded (role : Role) (es : List (Event R T)) (own : Bool) (i : Fin R.size) : Prop :=
  if own then i = R.index (stores es role) else ∃ k, i = R.index k ∧ Seen role es k

theorem Loaded.append {own : Bool} {i : Fin R.size} (h : Loaded role es own i)
    (he : e ≠ .synchronized role) (hown : stores (es ++ [e]) role = stores es role) :
    Loaded role (es ++ [e]) own i := by
  cases own with
  | true => exact h.trans (congrArg R.index hown.symm)
  | false =>
    obtain ⟨k, hi, hk⟩ := h
    exact ⟨k, hi, hk.append he hown⟩

structure Known (es : List (Event R T)) (s : State R T) : Prop where
  informed : ∀ role, Informed role es ((s.views role).current (index R (other role)))
  asked : ∀ role q tailFirst i, s.asked? role = some (q, tailFirst, i) →
    Loaded role es (tailFirst != awaits role) i

theorem Inv.seen (h : Inv es seenHead seenTail s) (hk : Known es s) {v : Views (Location R)}
    {i : Fin R.size} {t : ℕ} (hl : s.load (awaits role) (s.views role) t = some (i, v)) :
    i = R.index t ∧ Seen role es t := by
  cases role with
  | producer =>
    obtain ⟨rfl, hle, m, ha⟩ := h.knowledge.loadHead h.knowledge.producer_within hl
    have hlow := h.knowledge.seenHead_le.trans ha.current_le
    have hlt := h.window.lt_seenHead
    rw [h.tail_last] at hlt
    exact ⟨rfl, (hk.informed .producer).mono ha.current_le, hle.trans h.head_last.le,
      hlt.trans_le (Nat.add_le_add_right hlow _)⟩
  | consumer =>
    obtain ⟨rfl, hle, m, ha⟩ := h.knowledge.loadTail h.knowledge.consumer_within hl
    have hlow := h.knowledge.seenTail_le.trans ha.current_le
    have hhead := h.window.le_seenTail
    rw [h.head_last] at hhead
    exact ⟨rfl, (hk.informed .consumer).mono ha.current_le, hle.trans h.tail_last.le,
      hhead.trans hlow⟩

theorem Inv.loaded (h : Inv es seenHead seenTail s) (hk : Known es s) {tail : Bool}
    {v : Views (Location R)} {i : Fin R.size} {t : ℕ}
    (hl : s.load tail (s.views role) t = some (i, v)) :
    Loaded role es (tail != awaits role) i := by
  by_cases hother : tail = awaits role
  · subst hother
    rw [bne_self_eq_false]
    exact ⟨t, h.seen hk hl⟩
  · rw [bne_iff_ne.mpr hother]
    cases role with
    | producer =>
      obtain rfl : tail = true := by simpa [awaits] using hother
      obtain ⟨rfl, rfl⟩ := Cell.load_of_current (c := s.tail) hl h.knowledge.tail_current
      exact h.latest_tail.trans (congrArg R.index h.tail_last)
    | consumer =>
      obtain rfl : tail = false := by simpa [awaits] using hother
      obtain ⟨rfl, rfl⟩ := Cell.load_of_current (c := s.head) hl h.knowledge.head_current
      exact h.latest_head.trans (congrArg R.index h.head_last)

theorem Known.threadNext (hk : Known es s) (h : Inv es seenHead seenTail s) {t : ℕ}
    (hn : threadNext leave s role t = some (s', e)) : Known (es ++ [e]) s' := by
  obtain ⟨hasked, hviews, hle, hstored, hsync⟩ := threadNext_frame hn
  constructor
  · intro r
    rcases eq_or_eq_other r role with rfl | rfl
    · exact ((hk.informed r).append (hsync _)).mono (hle _)
    · rw [hviews]
      exact (hk.informed _).append (hsync _)
  · intro r q tailFirst i hq
    rcases eq_or_eq_other r role with rfl | rfl
    · obtain ⟨rfl, v, hl⟩ := threadNext_asks hn hq
      exact (h.loaded hk hl).append (by simp) (stores_eq es (by simp [Event.stored?]))
    · exact (hk.asked _ q tailFirst i (hasked ▸ hq)).append (hsync _) (stores_eq es hstored)

theorem Known.outside (hk : Known es s) (hstored : e.stored? = none)
    (hsync : ∀ role, e ≠ .synchronized role)
    (hviews : ∀ role, (s'.views role).current (index R (other role)) =
      (s.views role).current (index R (other role)))
    (hasked : ∀ role x, s'.asked? role = some x → s.asked? role = some x) :
    Known (es ++ [e]) s' := by
  constructor
  · intro role
    rw [hviews]
    exact (hk.informed role).append (hsync _)
  · intro role q tailFirst i hq
    exact (hk.asked role q tailFirst i (hasked role _ hq)).append (hsync _)
      (stores_eq es (by simp [hstored]))

theorem Known.call (hk : Known es s) {c : Call T} (hn : callNext s c = some s') :
    Known (es ++ [.queue (.called c)]) s' := by
  rcases c with x | d | ⟨_ | _, q, tailFirst⟩ <;> simp only [callNext] at hn <;> split at hn <;>
    cases hn <;> refine hk.outside rfl (by simp) (fun role => by cases role <;> rfl) ?_ <;>
    rintro (_ | _) x hx <;> first | cases hx | exact hx

theorem Known.peek (hk : Known es s) (hn : peek s = some (s', e)) : Known (es ++ [e]) s' := by
  rw [SpscQueueViews.peek] at hn
  split at hn
  · dsimp only at hn
    split at hn <;> cases hn
    · refine hk.outside rfl (by simp) (fun role => ?_) fun role x hx => by
        cases role <;> exact hx
      cases role <;> simp [State.views, index, other, Views.write, seen_of_ne]
    · exact hk.outside rfl (by simp) (fun _ => rfl) fun _ _ hx => hx
  · cases hn

theorem Known.synchronize (hk : Known es s) (h : Inv es seenHead seenTail s)
    (hn : synchronize s role = some s') : Known (es ++ [.synchronized role]) s' := by
  have hstores : ∀ r, stores (es ++ [.synchronized role]) r = stores es r := fun r =>
    stores_eq es (by simp [Event.stored?])
  have hhead := h.knowledge.head_current.trans h.head_last
  have htail := h.knowledge.tail_current.trans h.tail_last
  cases role <;> simp only [SpscQueueViews.synchronize] at hn <;> split at hn <;> cases hn
  · rename_i hidle
    constructor <;> rintro (_ | _)
    · exact ((hk.informed .producer).mono (Views.le_join _)).synchronized
        (hhead.ge.trans (Views.le_join' _))
    · exact (hk.informed .consumer).append (by simp)
    · simp [State.asked?, hidle]
    · intro q tailFirst i hq
      exact (hk.asked .consumer q tailFirst i hq).append (by simp) (hstores _)
  · rename_i hidle
    constructor <;> rintro (_ | _)
    · exact (hk.informed .producer).append (by simp)
    · exact ((hk.informed .consumer).mono (Views.le_join _)).synchronized
        (htail.ge.trans (Views.le_join' _))
    · intro q tailFirst i hq
      exact (hk.asked .producer q tailFirst i hq).append (by simp) (hstores _)
    · simp [State.asked?, hidle]

theorem step_of_thread (hs : (machine R leave buffer).Step s e s') :
    (∃ c, e = .queue (.called c) ∧ callNext s c = some s') ∨
      (∃ role t, threadNext leave s role t = some (s', e)) ∨ peek s = some (s', e) ∨
      ∃ role, e = .synchronized role ∧ synchronize s role = some s' := by
  rcases step_cases hs with hc | ⟨t, hn⟩ | ⟨t, hn⟩ | hn | hsync
  · exact .inl hc
  · exact .inr (.inl ⟨.producer, t, hn⟩)
  · exact .inr (.inl ⟨.consumer, t, hn⟩)
  · exact .inr (.inr (.inl hn))
  · exact .inr (.inr (.inr hsync))

theorem Known.of_run (hr : (machine R leave buffer).Run es s) : Known es s := by
  refine Machine.Run.invariant (I := Known) ?_ (fun es s e s' hr hk hs => ?_) hr
  · have hnone : ∀ role k, Informed role ([] : List (Event R T)) k := by
      intro role k fs gs hes
      simp at hes
    exact ⟨fun role => hnone _ _, fun role => by cases role <;> simp [machine, State.asked?]⟩
  · obtain ⟨seenHead, seenTail, h⟩ := Inv.of_run hr
    rcases step_of_thread hs with ⟨c, rfl, hn⟩ | ⟨role, t, hn⟩ | hn | ⟨role, rfl, hn⟩
    · exact hk.call hn
    · exact hk.threadNext h hn
    · exact hk.peek hn
    · exact hk.synchronize h hn

structure Decides (s : State R T) (role : Role) (t : ℕ) (e : Event R T) : Prop where
  denied : ∀ r, e.denied? = some r → r = role ∧ ∃ i v, s.compared? role = some i ∧
    s.load (awaits role) (s.views role) t = some (i, v)
  answered : ∀ r q n, e = .queue (.answered r q n) → r = role ∧ ∃ tailFirst i j v,
    s.asked? role = some (q, tailFirst, i) ∧ s.load (!tailFirst) (s.views role) t = some (j, v) ∧
      n = if tailFirst then q.answer i j else q.answer j i

theorem Decides.of_none {t : ℕ} (hd : e.denied? = none)
    (ha : ∀ r q n, e ≠ .queue (.answered r q n)) : Decides s role t e where
  denied r he := by
    rw [hd] at he
    cases he
  answered r q n he := absurd he (ha r q n)

theorem decides_producer {t : ℕ} (hn : producerNext s t = some (s', e)) :
    Decides s .producer t e := by
  rw [producerNext] at hn
  cases hp : s.producer <;> simp only [hp] at hn
  case idle => cases hn
  case loadTail =>
    split at hn
    · cases hn
    · split at hn <;> cases hn <;> exact .of_none rfl (by simp)
  case loadHead x tail =>
    split at hn
    · cases hn
    · rename_i hl
      split at hn <;> cases hn
      · rename_i heq
        refine ⟨fun r he => ?_, by simp⟩
        cases he
        exact ⟨rfl, _, _, by simp only [State.compared?, hp], heq ▸ hl⟩
      · exact .of_none rfl (by simp)
  case construct | storeTail => split at hn <;> cases hn <;> exact .of_none rfl (by simp)
  case query =>
    split at hn
    · cases hn
    · cases hn
      exact .of_none rfl (by simp)
  case query' q tailFirst i =>
    split at hn
    · cases hn
    · rename_i hl
      cases hn
      refine ⟨fun r he => (by cases he), fun r q n he => ?_⟩
      cases he
      exact ⟨rfl, tailFirst, i, _, _, by simp only [State.asked?, hp], hl, rfl⟩

theorem decides_consumer {t : ℕ} (hn : consumerNext leave s t = some (s', e)) :
    Decides s .consumer t e := by
  have hproceed : ∀ d i, Decides s .consumer t (.queue (SpscQueue.proceed d i).2) := by
    intro d i
    cases d <;> exact .of_none rfl (by simp [SpscQueue.proceed])
  rw [consumerNext] at hn
  cases hc : s.consumer <;> simp only [hc] at hn
  case idle => cases hn
  case loadHead =>
    split at hn
    · cases hn
    · split at hn <;> cases hn
      · exact .of_none rfl (by simp)
      · exact hproceed _ _
  case loadTail d head =>
    split at hn
    · cases hn
    · rename_i hl
      split at hn <;> cases hn
      · rename_i heq
        refine ⟨fun r he => ?_, by simp⟩
        cases he
        exact ⟨rfl, _, _, by simp only [State.compared?, hc], heq ▸ hl⟩
      · exact hproceed _ _
  case read | storeHead => split at hn <;> cases hn <;> exact .of_none rfl (by simp)
  case query =>
    split at hn
    · cases hn
    · cases hn
      exact .of_none rfl (by simp)
  case query' q tailFirst i =>
    split at hn
    · cases hn
    · rename_i hl
      cases hn
      refine ⟨fun r he => (by cases he), fun r q n he => ?_⟩
      cases he
      exact ⟨rfl, tailFirst, i, _, _, by simp only [State.asked?, hc], hl, rfl⟩

theorem decides_of_step (hs : (machine R leave buffer).Step s e s') :
    (e.denied? = none ∧ ∀ r q n, e ≠ .queue (.answered r q n)) ∨ ∃ role t, Decides s role t e := by
  rcases step_cases hs with ⟨c, rfl, -⟩ | ⟨t, hn⟩ | ⟨t, hn⟩ | hn | ⟨role, rfl, -⟩
  · exact .inl ⟨rfl, by simp⟩
  · exact .inr ⟨_, t, decides_producer hn⟩
  · exact .inr ⟨_, t, decides_consumer hn⟩
  · rw [peek] at hn
    split at hn
    · dsimp only at hn
      split at hn <;> cases hn <;> exact .inl ⟨rfl, by simp⟩
    · cases hn
  · exact .inl ⟨rfl, by simp⟩

theorem describes_answer (q : Query) {head tail : ℕ} (hle : head ≤ tail)
    (hlt : tail < head + R.size) :
    q.Describes R (q.answer (R.index tail) (R.index head)) (tail - head) := by
  have hsize : SpscQueue.getSize (R.index tail) (R.index head) = tail - head := by
    rw [SpscQueue.getSize_eq_mod, R.index_val, R.index_val]
    exact sub_mod_of_window hle hlt
  cases q with
  | getSize =>
    rw [SpscQueue.Query.answer, hsize]
    exact ⟨rfl, by omega⟩
  | isEmptyProducer =>
    have hzero : SpscQueue.getSize (R.index tail) (R.index head) = 0 ↔
        R.index tail = R.index head := SpscQueue.getSize_eq_zero
    rw [hsize] at hzero
    by_cases heq : R.index tail = R.index head
    · exact .inl ⟨if_pos heq, hzero.mpr heq⟩
    · exact .inr ⟨if_neg heq, fun h => heq (hzero.mp h)⟩

theorem Inv.stores_window (h : Inv es seenHead seenTail s) :
    stores es .consumer ≤ stores es .producer ∧
      stores es .producer < stores es .consumer + R.size :=
  ⟨h.queue.window.head_le, h.queue.window.lt_head⟩

theorem Inv.describes (h : Inv es seenHead seenTail s) {q : Query} {tailFirst : Bool}
    {i j : Fin R.size} (hi : Loaded role es (tailFirst != awaits role) i)
    (hj : Loaded role es ((!tailFirst) != awaits role) j) :
    ∃ k, Seen role es k ∧ q.Describes R (if tailFirst then q.answer i j else q.answer j i)
      (sizeWith role es k) := by
  obtain ⟨hle, hlt⟩ := h.stores_window
  have producer : ∀ {k}, Seen .producer es k →
      q.Describes R (q.answer (R.index (stores es .producer)) (R.index k))
        (sizeWith .producer es k) := fun hk =>
    describes_answer q (hk.le_stores.trans hle) hk.near
  have consumer : ∀ {k}, Seen .consumer es k →
      q.Describes R (q.answer (R.index k) (R.index (stores es .consumer)))
        (sizeWith .consumer es k) := fun hk =>
    describes_answer q hk.near (hk.le_stores.trans_lt hlt)
  cases role <;> cases tailFirst
  · obtain ⟨k, rfl, hk⟩ := hi
    obtain rfl := hj
    exact ⟨k, hk, producer hk⟩
  · obtain ⟨k, rfl, hk⟩ := hj
    obtain rfl := hi
    exact ⟨k, hk, producer hk⟩
  · obtain ⟨k, rfl, hk⟩ := hj
    obtain rfl := hi
    exact ⟨k, hk, consumer hk⟩
  · obtain ⟨k, rfl, hk⟩ := hi
    obtain rfl := hj
    exact ⟨k, hk, consumer hk⟩

theorem Inv.denied (h : Inv es seenHead seenTail s) (hk : Known es s)
    (hs : (machine R leave buffer).Step s e s') (he : e.denied? = some role) :
    ∃ k, Seen role es k ∧ sizeWith role es k =
      match role with
      | .producer => R.size - 1
      | .consumer => 0 := by
  obtain ⟨t, i, v, hcompared, hl⟩ : ∃ t i v, s.compared? role = some i ∧
      s.load (awaits role) (s.views role) t = some (i, v) := by
    rcases decides_of_step hs with ⟨hnone, -⟩ | ⟨r, t, hdecides⟩
    · rw [hnone] at he
      cases he
    · obtain ⟨rfl, i, v, hload⟩ := hdecides.denied role he
      exact ⟨t, i, v, hload⟩
  obtain ⟨rfl, hseen⟩ := h.seen hk hl
  have hle := hseen.le_stores
  have hnear := hseen.near
  have hwindow := h.stores_window
  refine ⟨t, hseen, ?_⟩
  cases role with
  | producer =>
    simp only [State.compared?] at hcompared
    split at hcompared
    · rename_i x i hp
      have hok : s.producer.Ok s.latest seenHead (stores es .producer) := h.queue.producer
      rw [hp] at hok
      obtain rfl : i = R.index (stores es .producer) := hok
      have hi := Option.some.inj hcompared
      rw [nextIndex_index, ← R.index_add_size t] at hi
      have h8 := R.eight_le_size
      simp only [other] at hle
      have heq := (R.index_inj (h := t + 1) (by omega) (by omega) (by omega) (by omega)).mp hi
      simp only [sizeWith]
      omega
    · cases hcompared
  | consumer =>
    simp only [State.compared?] at hcompared
    split at hcompared
    · rename_i d i hc
      have hok : s.consumer.Ok R (stores es .consumer) seenTail := h.queue.consumer
      rw [hc] at hok
      obtain rfl : i = R.index (stores es .consumer) := hok
      simp only [other] at hle
      have heq := (R.index_inj (h := stores es .consumer) (by omega) (by omega) (by omega)
        (by omega)).mp (Option.some.inj hcompared)
      simp only [sizeWith]
      omega
    · cases hcompared

structure Answers (es : List (Event R T)) : Prop where
  refused : ∀ fs gs, es = fs ++ .queue .refused :: gs →
    ∃ k, Seen .producer fs k ∧ sizeWith .producer fs k = R.size - 1
  empty : ∀ fs gs d, es = fs ++ .queue (.empty d) :: gs →
    ∃ k, Seen .consumer fs k ∧ sizeWith .consumer fs k = 0
  answered : ∀ fs gs role q n, es = fs ++ .queue (.answered role q n) :: gs →
    ∃ k, Seen role fs k ∧ q.Describes R n (sizeWith role fs k)

/-- Every answer is right for an index of the other thread that is not older than the last
time its own thread was made to wait for the other one. -/
theorem answers_of_run (hr : (machine R leave buffer).Run es s) : Answers es := by
  constructor
  case refused =>
    rintro fs gs rfl
    obtain ⟨u, u', hr', hs, -⟩ := hr.at_event
    obtain ⟨seenHead, seenTail, h⟩ := Inv.of_run hr'
    exact h.denied (Known.of_run hr') hs rfl
  case empty =>
    rintro fs gs d rfl
    obtain ⟨u, u', hr', hs, -⟩ := hr.at_event
    obtain ⟨seenHead, seenTail, h⟩ := Inv.of_run hr'
    exact h.denied (Known.of_run hr') hs rfl
  case answered =>
    rintro fs gs role q n rfl
    obtain ⟨u, u', hr', hs, -⟩ := hr.at_event
    obtain ⟨seenHead, seenTail, h⟩ := Inv.of_run hr'
    have hk := Known.of_run hr'
    rcases decides_of_step hs with ⟨-, hnone⟩ | ⟨r, t, hdecides⟩
    · exact absurd rfl (hnone role q n)
    · obtain ⟨rfl, tailFirst, i, j, v, hasked, hl, rfl⟩ := hdecides.answered role q n rfl
      exact h.describes (hk.asked role q tailFirst i hasked) (h.loaded hk hl)

theorem answers_of_run_stale : ∃ es, ∃ s : State .smallest ℕ,
    (machine .smallest id (fun _ => 0)).Run es s ∧ Answers es ∧ ∃ fs gs, es = fs ++ gs ∧
      stores fs .producer = 1 ∧ .queue (.answered .consumer .isEmptyProducer 1) ∈ gs ∧
      .queue (.answered .consumer .isEmptyProducer 0) ∈ gs := by
  obtain ⟨es, s, hr, hs⟩ : ∃ es, ∃ s : State .smallest ℕ,
      (machine .smallest id (fun _ => 0)).Run es s ∧ ∃ fs gs, es = fs ++ gs ∧
        stores fs .producer = 1 ∧ .queue (.answered .consumer .isEmptyProducer 1) ∈ gs ∧
        .queue (.answered .consumer .isEmptyProducer 0) ∈ gs := by
    refine ⟨[.queue (.called (.emplace 5)), .queue .silent,
      .queue (.constructed (Ring.smallest.index 0) 5), .queue (.emplaced 5),
      .queue (.called (.query .consumer .isEmptyProducer true)), .queue .silent,
      .queue (.answered .consumer .isEmptyProducer 1), .synchronized .consumer,
      .queue (.called (.query .consumer .isEmptyProducer true)), .queue .silent,
      .queue (.answered .consumer .isEmptyProducer 0)], _, Machine.Path.of_exec
        [.call (.emplace 5), .step .producer 0, .step .producer 0, .step .producer 0,
          .call (.query .consumer .isEmptyProducer true), .step .consumer 0, .step .consumer 0,
          .synchronize .consumer, .call (.query .consumer .isEmptyProducer true), .step .consumer 1,
          .step .consumer 0] rfl,
      [.queue (.called (.emplace 5)), .queue .silent,
        .queue (.constructed (Ring.smallest.index 0) 5), .queue (.emplaced 5)],
      _, rfl, rfl, by simp, by simp⟩
  exact ⟨es, s, hr, answers_of_run hr, hs⟩

end
end LockFree.SpscQueueViews
