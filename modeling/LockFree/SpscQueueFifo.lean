import LockFree.SpscQueue

/-!
# BoundedSPSCQueue is a bounded FIFO

The window of the ring runs from the number of elements ever dequeued to the number
ever emplaced. Its slots hold what was emplaced, save for one that the consumer may be
moving an element out of.
-/

namespace LockFree.SpscQueue
open BufferSize RingWindow TransitionRuns

variable {R : Ring} {T : Type*}

def Event.emplaced? : Event R T → Option T
  | .emplaced v => some v
  | _ => none

def Event.dequeued? : Event R T → Option T
  | .dequeued v => some v
  | _ => none

def emplaced (es : List (Event R T)) : List T := es.filterMap Event.emplaced?
def dequeued (es : List (Event R T)) : List T := es.filterMap Event.dequeued?

/-- A slot whose element is being moved out by the consumer still counts as that element. -/
def State.cell (s : State R T) (i : Fin R.size) : T :=
  match s.consumer with
  | .storeHead head (some v) => if i = head then v else s.buffer i
  | _ => s.buffer i

def State.stored (s : State R T) : List T :=
  (List.range ((s.tail + R.size - s.head) % R.size)).map fun k => s.cell (R.index (s.head + k))

def Producer.Ok (s : State R T) (seenHead tail : ℕ) : Producer R T → Prop
  | .idle | .loadTail _ | .query _ _ | .query' _ _ _ => True
  | .loadHead _ i => i = R.index tail
  | .construct _ i => i = R.index tail ∧ tail + 1 < seenHead + R.size
  | .storeTail v i => i = R.index (tail + 1) ∧ tail + 1 < seenHead + R.size ∧
      s.buffer (R.index tail) = v

def Consumer.Ok (R : Ring) (head seenTail : ℕ) : Consumer R T → Prop
  | .idle | .loadHead _ | .query _ _ | .query' _ _ _ => True
  | .loadTail _ i => i = R.index head
  | .read i | .storeHead i _ => i = R.index head ∧ head < seenTail

structure Inv (es : List (Event R T)) (seenHead seenTail : ℕ) (s : State R T) : Prop where
  head : s.head = R.index (dequeued es).length
  tail : s.tail = R.index (emplaced es).length
  cachedHead : s.cachedHead = R.index seenHead
  cachedTail : s.cachedTail = R.index seenTail
  window : Window R seenHead (dequeued es).length seenTail (emplaced es).length
  producer : s.producer.Ok s seenHead (emplaced es).length
  consumer : s.consumer.Ok R (dequeued es).length seenTail
  consumed : dequeued es = (emplaced es).take (dequeued es).length
  slots : ∀ k, (dequeued es).length ≤ k → (hk : k < (emplaced es).length) →
    s.cell (R.index k) = (emplaced es)[k]

variable {es : List (Event R T)} {s s' : State R T} {seenHead seenTail : ℕ} {e : Event R T}

theorem emplaced_append (es fs : List (Event R T)) :
    emplaced (es ++ fs) = emplaced es ++ emplaced fs := by
  simp [emplaced]

theorem dequeued_append (es fs : List (Event R T)) :
    dequeued (es ++ fs) = dequeued es ++ dequeued fs := by
  simp [dequeued]

theorem cell_eq (hs : ∀ i v, s.consumer ≠ .storeHead i (some v)) (i : Fin R.size) :
    s.cell i = s.buffer i := by
  unfold State.cell
  split
  · rename_i j v heq
    exact absurd heq (hs j v)
  · rfl

theorem cell_of_ne {i j : Fin R.size} {x : Option T} (hc : s.consumer = .storeHead i x)
    (hne : j ≠ i) : s.cell j = s.buffer j := by
  unfold State.cell
  rw [hc]
  cases x with
  | none => rfl
  | some v => exact if_neg hne

theorem cell_self {i : Fin R.size} {x : Option T} (hc : s.consumer = .storeHead i x) :
    s.cell i = x.getD (s.buffer i) := by
  unfold State.cell
  rw [hc]
  cases x with
  | none => rfl
  | some v => exact if_pos rfl

theorem Inv.producer_local (h : Inv es seenHead seenTail s) {cachedHead : Fin R.size}
    {seenHead' : ℕ} {p : Producer R T}
    (he : e.emplaced? = none ∧ e.dequeued? = none) (hc : cachedHead = R.index seenHead')
    (hw : Window R seenHead' (dequeued es).length seenTail (emplaced es).length)
    (hp : p.Ok s seenHead' (emplaced es).length) :
    Inv (es ++ [e]) seenHead' seenTail { s with cachedHead := cachedHead, producer := p } := by
  have hem : emplaced (es ++ [e]) = emplaced es := by simp [emplaced, he.1]
  have hde : dequeued (es ++ [e]) = dequeued es := by simp [dequeued, he.2]
  constructor
  case window => rwa [hde, hem]
  case cachedHead => exact hc
  case producer =>
    rw [hem]
    cases p <;> exact hp
  all_goals simp only [hem, hde]
  case head => exact h.head
  case tail => exact h.tail
  case cachedTail => exact h.cachedTail
  case consumer => exact h.consumer
  case consumed => exact h.consumed
  case slots => exact h.slots

theorem Inv.consumer_local (h : Inv es seenHead seenTail s) {cachedTail : Fin R.size}
    {seenTail' : ℕ} {c : Consumer R T} (hs : ∀ i v, s.consumer ≠ .storeHead i (some v))
    (he : e.emplaced? = none ∧ e.dequeued? = none) (hc : cachedTail = R.index seenTail')
    (hw : Window R seenHead (dequeued es).length seenTail' (emplaced es).length)
    (hok : c.Ok R (dequeued es).length seenTail') (hc' : ∀ i v, c ≠ .storeHead i (some v)) :
    Inv (es ++ [e]) seenHead seenTail' { s with cachedTail := cachedTail, consumer := c } := by
  have hem : emplaced (es ++ [e]) = emplaced es := by simp [emplaced, he.1]
  have hde : dequeued (es ++ [e]) = dequeued es := by simp [dequeued, he.2]
  have hcell : ∀ i, State.cell { s with cachedTail := cachedTail, consumer := c } i = s.cell i := by
    intro i
    rw [cell_eq hc', cell_eq hs]
  constructor
  case window => rwa [hde, hem]
  case cachedTail => exact hc
  all_goals simp only [hem, hde, hcell]
  case head => exact h.head
  case tail => exact h.tail
  case cachedHead => exact h.cachedHead
  case producer =>
    have := h.producer
    generalize s.producer = p at this
    cases p <;> exact this
  case consumer => exact hok
  case consumed => exact h.consumed
  case slots => exact h.slots

theorem Inv.construct (h : Inv es seenHead seenTail s) {v : T} {i : Fin R.size}
    (hp : s.producer = .construct v i) :
    Inv (es ++ [.constructed i v]) seenHead seenTail
      { s with buffer := Function.update s.buffer i v, producer := .storeTail v (nextIndex i) } := by
  have hem : emplaced (es ++ [.constructed i v]) = emplaced es := by simp [emplaced, Event.emplaced?]
  have hde : dequeued (es ++ [.constructed i v]) = dequeued es := by simp [dequeued, Event.dequeued?]
  obtain ⟨rfl, hroom⟩ : i = R.index (emplaced es).length ∧
      (emplaced es).length + 1 < seenHead + R.size := by
    have := h.producer
    rwa [hp] at this
  have hcell : ∀ k, (dequeued es).length ≤ k → k < (emplaced es).length →
      State.cell { s with
        buffer := Function.update s.buffer (R.index (emplaced es).length) v,
        producer := .storeTail v (nextIndex (R.index (emplaced es).length)) } (R.index k) =
      s.cell (R.index k) := by
    intro k hlow hhigh
    have hne := h.window.index_ne_tail hlow hhigh
    unfold State.cell
    simp only [Function.update_of_ne hne]
  constructor
  case producer =>
    rw [hem]
    exact ⟨nextIndex_index _, hroom, Function.update_self ..⟩
  case slots =>
    intro k hlow hhigh
    simp only [hem, hde] at hlow hhigh ⊢
    rw [hcell k hlow hhigh]
    exact h.slots k hlow hhigh
  all_goals simp only [hem, hde]
  case head => exact h.head
  case tail => exact h.tail
  case cachedHead => exact h.cachedHead
  case cachedTail => exact h.cachedTail
  case window => exact h.window
  case consumer => exact h.consumer
  case consumed => exact h.consumed

/-- Storing the index is what makes the element part of the queue. -/
theorem Inv.storeTail (h : Inv es seenHead seenTail s) {v : T} {i : Fin R.size}
    (hp : s.producer = .storeTail v i) :
    Inv (es ++ [.emplaced v]) seenHead seenTail { s with tail := i, producer := .idle } := by
  have hem : emplaced (es ++ [.emplaced v]) = emplaced es ++ [v] := by
    simp [emplaced, Event.emplaced?]
  have hde : dequeued (es ++ [.emplaced v]) = dequeued es := by simp [dequeued, Event.dequeued?]
  have hlen : (emplaced (es ++ [.emplaced v])).length = (emplaced es).length + 1 := by simp [hem]
  obtain ⟨rfl, hroom, hv⟩ : i = R.index ((emplaced es).length + 1) ∧
      (emplaced es).length + 1 < seenHead + R.size ∧
      s.buffer (R.index (emplaced es).length) = v := by
    have := h.producer
    rwa [hp] at this
  constructor
  case tail => rw [hlen]
  case window =>
    rw [hlen, hde]
    exact h.window.storeTail hroom
  case producer => trivial
  case consumed =>
    rw [hem, hde, List.take_append_of_le_length h.window.head_le]
    exact h.consumed
  case slots =>
    intro k hlow hhigh
    simp only [hde] at hlow
    rw [hlen] at hhigh
    simp only [hem]
    rcases Nat.lt_or_ge k (emplaced es).length with hlt | hge
    · rw [List.getElem_append_left hlt]
      exact h.slots k hlow hlt
    · obtain rfl : k = (emplaced es).length := by omega
      rw [List.getElem_concat_length rfl, ← hv]
      -- the consumer holds no element of this slot: it was not in the window
      rcases hc : s.consumer with _ | _ | _ | _ | ⟨i, x⟩ | _ | _
      case storeHead =>
        have hok := h.consumer
        rw [hc] at hok
        obtain ⟨rfl, hlt⟩ := hok
        exact cell_of_ne (x := x) rfl
          (h.window.index_ne_tail le_rfl (hlt.trans_le h.window.seenTail_le)).symm
      all_goals exact cell_eq (by simp) _
  all_goals simp only [hde]
  case head => exact h.head
  case cachedHead => exact h.cachedHead
  case cachedTail => exact h.cachedTail
  case consumer => exact h.consumer

theorem Inv.read (h : Inv es seenHead seenTail s) {i : Fin R.size} (leave : T → T)
    (hc : s.consumer = .read i) :
    Inv (es ++ [.silent]) seenHead seenTail { s with
      buffer := Function.update s.buffer i (leave (s.buffer i)),
      consumer := .storeHead i (some (s.buffer i)) } := by
  have hem : emplaced (es ++ [.silent]) = emplaced es := by simp [emplaced, Event.emplaced?]
  have hde : dequeued (es ++ [.silent]) = dequeued es := by simp [dequeued, Event.dequeued?]
  have hok := h.consumer
  rw [hc] at hok
  obtain ⟨rfl, hlt⟩ := hok
  have hcell : ∀ j, State.cell { s with
      buffer := Function.update s.buffer (R.index (dequeued es).length)
        (leave (s.buffer (R.index (dequeued es).length))),
      consumer := .storeHead (R.index (dequeued es).length)
        (some (s.buffer (R.index (dequeued es).length))) } j = s.cell j := by
    intro j
    rw [cell_eq (s := s) (by simp [hc])]
    by_cases hj : j = R.index (dequeued es).length <;> simp [State.cell, hj]
  constructor
  case producer =>
    rw [hem]
    have hp := h.producer
    generalize s.producer = p at hp
    cases p with
    | storeTail v j =>
      obtain ⟨hj, hroom, hv⟩ := hp
      refine ⟨hj, hroom, ?_⟩
      have hne := h.window.index_ne_tail le_rfl (hlt.trans_le h.window.seenTail_le)
      exact (Function.update_of_ne hne.symm ..).trans hv
    | _ => exact hp
  all_goals simp only [hem, hde, hcell]
  case head => exact h.head
  case tail => exact h.tail
  case cachedHead => exact h.cachedHead
  case cachedTail => exact h.cachedTail
  case window => exact h.window
  case consumer => exact ⟨rfl, hlt⟩
  case consumed => exact h.consumed
  case slots => exact h.slots

/-- The element whose slot is given back is the oldest one. -/
theorem Inv.storeHead (h : Inv es seenHead seenTail s) {i : Fin R.size} {x : Option T}
    (hc : s.consumer = .storeHead i x) :
    Inv (es ++ [.dequeued (x.getD (s.buffer i))]) seenHead seenTail
      { s with head := nextIndex i, consumer := .idle } := by
  have hok := h.consumer
  rw [hc] at hok
  obtain ⟨rfl, hlt⟩ := hok
  rw [← cell_self hc]
  have hlt' := hlt.trans_le h.window.seenTail_le
  rw [h.slots _ le_rfl hlt']
  generalize hv : (emplaced es)[(dequeued es).length] = v
  have hem : emplaced (es ++ [.dequeued v]) = emplaced es := by simp [emplaced, Event.emplaced?]
  have hde : dequeued (es ++ [.dequeued v]) = dequeued es ++ [v] := by
    simp [dequeued, Event.dequeued?]
  have hlen : (dequeued (es ++ [.dequeued v])).length = (dequeued es).length + 1 := by simp [hde]
  constructor
  case head =>
    rw [hlen]
    exact nextIndex_index _
  case window =>
    rw [hlen, hem]
    exact h.window.storeHead hlt
  case consumer => trivial
  case consumed =>
    rw [hem, hlen, List.take_succ_eq_append_getElem hlt', hde, ← h.consumed, hv]
  case slots =>
    intro k hlow hhigh
    rw [hlen] at hlow
    simp only [hem] at hhigh ⊢
    have hne : R.index k ≠ R.index (dequeued es).length := by
      rw [Ne, h.window.index_inj (by omega) hhigh.le le_rfl h.window.head_le]
      omega
    rw [← h.slots k (by omega) hhigh, cell_of_ne hc hne]
    exact cell_eq (by simp) _
  all_goals simp only [hem]
  case tail => exact h.tail
  case cachedHead => exact h.cachedHead
  case cachedTail => exact h.cachedTail
  case producer =>
    have hp := h.producer
    generalize s.producer = p at hp
    cases p <;> exact hp

theorem Inv.start (R : Ring) (leave : T → T) (buffer : Fin R.size → T) :
    Inv [] 0 0 (machine R leave buffer).start where
  head := rfl
  tail := rfl
  cachedHead := rfl
  cachedTail := rfl
  window := Window.empty R
  producer := trivial
  consumer := trivial
  consumed := rfl
  slots k _ hk := by simp [emplaced] at hk

theorem Inv.call (h : Inv es seenHead seenTail s) {c : Call T} (hn : callNext s c = some s') :
    Inv (es ++ [.called c]) seenHead seenTail s' := by
  have producer : ∀ {p : Producer R T}, p.Ok s seenHead (emplaced es).length →
      Inv (es ++ [.called c]) seenHead seenTail { s with producer := p } := fun hp =>
    h.producer_local ⟨rfl, rfl⟩ h.cachedHead h.window hp
  have consumer : ∀ {p : Consumer R T}, s.consumer = .idle → p.Ok R (dequeued es).length seenTail →
      (∀ i v, p ≠ .storeHead i (some v)) →
      Inv (es ++ [.called c]) seenHead seenTail { s with consumer := p } := fun hs hp hne =>
    h.consumer_local (by simp [hs]) ⟨rfl, rfl⟩ h.cachedTail h.window hp hne
  rcases c with v | d | ⟨_ | _, q, tailFirst⟩ <;> simp only [callNext] at hn <;> split at hn <;>
    cases hn
  · exact producer trivial
  · exact consumer ‹_› trivial (by simp)
  · exact producer trivial
  · exact consumer ‹_› trivial (by simp)

theorem Inv.producerNext (h : Inv es seenHead seenTail s)
    (hn : producerNext s = some (s', e)) : ∃ seenHead', Inv (es ++ [e]) seenHead' seenTail s' := by
  have hok := h.producer
  have stay : ∀ {e : Event R T} {p : Producer R T}, e.emplaced? = none ∧ e.dequeued? = none →
      p.Ok s seenHead (emplaced es).length →
      Inv (es ++ [e]) seenHead seenTail { s with producer := p } := fun he hp =>
    h.producer_local he h.cachedHead h.window hp
  have loaded : ∀ {e : Event R T} {p : Producer R T}, e.emplaced? = none ∧ e.dequeued? = none →
      p.Ok s (dequeued es).length (emplaced es).length →
      Inv (es ++ [e]) (dequeued es).length seenTail
        { s with cachedHead := s.head, producer := p } := fun he hp =>
    h.producer_local he h.head h.window.loadHead hp
  rw [SpscQueue.producerNext] at hn
  cases hp : s.producer with
  | idle => simp [hp] at hn
  | loadTail v =>
    simp only [hp] at hn
    split at hn <;> cases hn
    · exact ⟨seenHead, stay ⟨rfl, rfl⟩ h.tail⟩
    · rename_i hne
      rw [h.tail, h.cachedHead, nextIndex_index] at hne
      exact ⟨seenHead, stay ⟨rfl, rfl⟩ ⟨h.tail, h.window.room hne⟩⟩
  | loadHead v i =>
    rw [hp] at hok
    obtain rfl : i = R.index (emplaced es).length := hok
    simp only [hp, nextIndex_index] at hn
    split at hn <;> cases hn
    · exact ⟨_, loaded ⟨rfl, rfl⟩ trivial⟩
    · rename_i hne
      rw [h.head] at hne
      exact ⟨_, loaded ⟨rfl, rfl⟩ ⟨rfl, h.window.loadHead.room hne⟩⟩
  | construct v i =>
    rw [hp] at hn
    cases hn
    exact ⟨seenHead, h.construct hp⟩
  | storeTail v i =>
    rw [hp] at hn
    cases hn
    exact ⟨seenHead, h.storeTail hp⟩
  | query q tailFirst =>
    rw [hp] at hn
    cases hn
    exact ⟨seenHead, stay ⟨rfl, rfl⟩ trivial⟩
  | query' q tailFirst i =>
    rw [hp] at hn
    cases hn
    exact ⟨seenHead, stay ⟨rfl, rfl⟩ trivial⟩

theorem proceed_ok {d : Demand} {head seenTail : ℕ} (hlt : head < seenTail) :
    ((proceed d (R.index head)).1 : Consumer R T).Ok R head seenTail ∧
    (∀ i v, ((proceed d (R.index head)).1 : Consumer R T) ≠ .storeHead i (some v)) ∧
    ((proceed d (R.index head)).2 : Event R T).emplaced? = none ∧
    ((proceed d (R.index head)).2 : Event R T).dequeued? = none := by
  cases d <;> simp [proceed, Consumer.Ok, Event.emplaced?, Event.dequeued?, hlt]

theorem Inv.consumerNext (h : Inv es seenHead seenTail s) {leave : T → T}
    (hn : consumerNext leave s = some (s', e)) :
    ∃ seenTail', Inv (es ++ [e]) seenHead seenTail' s' := by
  have hok := h.consumer
  rw [SpscQueue.consumerNext] at hn
  cases hc : s.consumer with
  | idle => simp [hc] at hn
  | loadHead d =>
    have hs : ∀ i v, s.consumer ≠ .storeHead i (some v) := by simp [hc]
    simp only [hc] at hn
    split at hn <;> cases hn
    · refine ⟨seenTail, ?_⟩
      exact h.consumer_local hs ⟨rfl, rfl⟩ h.cachedTail h.window h.head (by simp)
    · rename_i hne
      rw [h.head, h.cachedTail] at hne
      have hlt := h.window.seen_ne hne
      obtain ⟨hp, hmoved, he⟩ := proceed_ok (R := R) (T := T) (d := d) hlt
      rw [← h.head] at hp hmoved he
      exact ⟨seenTail, h.consumer_local hs he h.cachedTail h.window hp hmoved⟩
  | loadTail d i =>
    have hs : ∀ i v, s.consumer ≠ .storeHead i (some v) := by simp [hc]
    rw [hc] at hok
    obtain rfl : i = R.index (dequeued es).length := hok
    simp only [hc] at hn
    split at hn <;> cases hn
    · refine ⟨_, h.consumer_local hs ⟨rfl, rfl⟩ h.tail h.window.loadTail trivial (by simp)⟩
    · rename_i hne
      rw [h.tail] at hne
      have hlt := h.window.loadTail.seen_ne hne
      obtain ⟨hp, hmoved, he⟩ := proceed_ok (R := R) (T := T) (d := d) hlt
      exact ⟨_, h.consumer_local hs he h.tail h.window.loadTail hp hmoved⟩
  | read i =>
    rw [hc] at hn
    cases hn
    exact ⟨seenTail, h.read leave hc⟩
  | storeHead i x =>
    rw [hc] at hn
    cases hn
    exact ⟨seenTail, h.storeHead hc⟩
  | query q tailFirst | query' q tailFirst i =>
    rw [hc] at hn
    cases hn
    refine ⟨seenTail, ?_⟩
    exact h.consumer_local (by simp [hc]) ⟨rfl, rfl⟩ h.cachedTail h.window trivial
      (by simp)

theorem Inv.of_run {leave : T → T} {buffer : Fin R.size → T}
    (hr : (machine R leave buffer).Run es s) : ∃ seenHead seenTail, Inv es seenHead seenTail s := by
  refine Machine.Run.invariant (I := fun es s => ∃ seenHead seenTail, Inv es seenHead seenTail s)
    ⟨0, 0, Inv.start R leave buffer⟩ (fun es s e s' _ ih hs => ?_) hr
  obtain ⟨seenHead, seenTail, h⟩ := ih
  rcases step_cases hs with ⟨c, rfl, hn⟩ | hn | hn
  · exact ⟨seenHead, seenTail, h.call hn⟩
  · obtain ⟨seenHead', h'⟩ := h.producerNext hn
    exact ⟨seenHead', seenTail, h'⟩
  · obtain ⟨seenTail', h'⟩ := h.consumerNext hn
    exact ⟨seenHead, seenTail', h'⟩

theorem Inv.stored_eq (h : Inv es seenHead seenTail s) :
    emplaced es = dequeued es ++ s.stored := by
  have hle := h.window.head_le
  have hlt := h.window.lt_head
  have hstored : s.stored = (emplaced es).drop (dequeued es).length := by
    have hcount : (s.tail.val + R.size - s.head.val) % R.size =
        (emplaced es).length - (dequeued es).length := by
      rw [h.head, h.tail, R.index_val, R.index_val]
      exact sub_mod_of_window hle hlt
    apply List.ext_getElem
    · simp [State.stored, hcount]
    · intro k hk hk'
      rw [List.length_drop] at hk'
      simp only [State.stored, List.getElem_map, List.getElem_range, List.getElem_drop]
      rw [← h.slots _ (by omega) (by omega), h.head]
      congr 1
      rw [Ring.index_eq_iff, R.index_val, Nat.mod_add_mod]
  calc emplaced es
      = (emplaced es).take (dequeued es).length ++ (emplaced es).drop (dequeued es).length :=
        (List.take_append_drop _ _).symm
    _ = dequeued es ++ s.stored := by rw [← h.consumed, hstored]

section
variable {leave : T → T} {buffer : Fin R.size → T}

theorem Inv.of_refused (h : Inv es seenHead seenTail s)
    (hs : (machine R leave buffer).Step s .refused s') :
    (emplaced es).length = (dequeued es).length + (R.size - 1) := by
  obtain ⟨v, i, hp, hfull⟩ := step_refused hs
  have hok := h.producer
  rw [hp] at hok
  obtain rfl : i = R.index (emplaced es).length := hok
  rw [h.head, nextIndex_index] at hfull
  have heq := h.window.full hfull
  omega

theorem Inv.of_empty (h : Inv es seenHead seenTail s) {d : Demand}
    (hs : (machine R leave buffer).Step s (.empty d) s') :
    (emplaced es).length = (dequeued es).length := by
  have hok := h.consumer
  rw [step_empty hs] at hok
  have heq : R.index (emplaced es).length = R.index (dequeued es).length := h.tail ▸ hok
  exact (h.window.eq_of_index heq.symm).symm

theorem Inv.of_found (h : Inv es seenHead seenTail s) {d : Demand} {i : Fin R.size}
    (hs : (machine R leave buffer).Step s (.found d i) s') :
    i = R.index (dequeued es).length ∧ (dequeued es).length < (emplaced es).length := by
  rcases step_found hs with ⟨rfl, hne⟩ | ⟨hc, hne⟩
  · rw [h.head, h.cachedTail] at hne
    exact ⟨h.head, (h.window.seen_ne hne).trans_le h.window.seenTail_le⟩
  · have hok := h.consumer
    rw [hc] at hok
    obtain rfl : i = R.index (dequeued es).length := hok
    rw [h.tail] at hne
    exact ⟨rfl, h.window.loadTail.seen_ne hne⟩

theorem Inv.of_constructed (h : Inv es seenHead seenTail s) {i : Fin R.size} {v : T}
    (hs : (machine R leave buffer).Step s (.constructed i v) s') :
    i = R.index (emplaced es).length ∧
      (emplaced es).length + 1 < (dequeued es).length + R.size := by
  have hok := h.producer
  rw [step_constructed hs] at hok
  exact ⟨hok.1, hok.2.trans_le (Nat.add_le_add_right h.window.seenHead_le _)⟩

theorem Inv.at_event {es₁ es₂ : List (Event R T)}
    (hr : (machine R leave buffer).Run (es₁ ++ e :: es₂) s) :
    ∃ seenHead seenTail u u', Inv es₁ seenHead seenTail u ∧
      (machine R leave buffer).Step u e u' := by
  obtain ⟨u, u', hu, hs, -⟩ := hr.at_event
  obtain ⟨seenHead, seenTail, h⟩ := Inv.of_run hu
  exact ⟨seenHead, seenTail, u, u', h, hs⟩

theorem found_kept {es₁ es₂ es₃ : List (Event R T)} {d : Demand} {i : Fin R.size} {v : T}
    (hr : (machine R leave buffer).Run (es₁ ++ .found d i :: (es₂ ++ .constructed i v :: es₃)) s) :
    dequeued es₂ ≠ [] := by
  intro hnone
  obtain ⟨_, _, u, u', h, hs⟩ := Inv.at_event hr
  rw [List.append_cons, ← List.append_assoc] at hr
  obtain ⟨_, _, w, w', h', hs'⟩ := Inv.at_event hr
  obtain ⟨hi, hlt⟩ := h.of_found hs
  obtain ⟨hi', hroom⟩ := h'.of_constructed hs'
  have hde : dequeued ((es₁ ++ [.found d i]) ++ es₂) = dequeued es₁ := by
    rw [dequeued_append, dequeued_append, hnone]
    simp [dequeued, Event.dequeued?]
  have hem : (emplaced es₁).length ≤ (emplaced ((es₁ ++ [.found d i]) ++ es₂)).length := by
    simp [emplaced_append]
  rw [hde] at hroom
  have heq := (R.index_inj (h := (dequeued es₁).length) (by omega) (by omega) le_rfl
    (by omega)).mp (hi'.symm.trans hi)
  omega

/-- Order, contents, and the truth of what each thread is told at its last load. -/
theorem run_is_fifo (hr : (machine R leave buffer).Run es s) :
    emplaced es = dequeued es ++ s.stored ∧
    (∀ es₁ es₂, es = es₁ ++ .refused :: es₂ →
      (emplaced es₁).length = (dequeued es₁).length + (R.size - 1)) ∧
    (∀ es₁ es₂ d, es = es₁ ++ .empty d :: es₂ →
      (emplaced es₁).length = (dequeued es₁).length) ∧
    (∀ es₁ es₂ es₃ d i v, es = es₁ ++ .found d i :: (es₂ ++ .constructed i v :: es₃) →
      dequeued es₂ ≠ []) := by
  refine ⟨?_, fun es₁ es₂ hes => ?_, fun es₁ es₂ d hes => ?_, fun es₁ es₂ es₃ d i v hes => ?_⟩
  · obtain ⟨seenHead, seenTail, h⟩ := Inv.of_run hr
    exact h.stored_eq
  · obtain ⟨_, _, u, u', h, hs⟩ := Inv.at_event (hes ▸ hr)
    exact h.of_refused hs
  · obtain ⟨_, _, u, u', h, hs⟩ := Inv.at_event (hes ▸ hr)
    exact h.of_empty hs
  · exact found_kept (hes ▸ hr)

end

theorem run_is_fifo_two :
    ∃ es s, (machine .smallest (fun _ : ℕ => 0) (fun _ => 0)).Run (es ++ [.empty .dequeueInto]) s ∧
      [5, 6] = [5, 6] ++ s.stored ∧ (emplaced es).length = (dequeued es).length := by
  obtain ⟨s, hr⟩ : ∃ s, (machine .smallest (fun _ : ℕ => 0) (fun _ => 0)).Run
      ([.called (enqueue 5), .silent, .constructed (Ring.smallest.index 0) 5, .emplaced 5,
        .called (enqueue 6), .silent, .constructed (Ring.smallest.index 1) 6, .emplaced 6,
        .called (.demand .dequeueInto), .silent, .silent, .silent, .dequeued 5,
        .called (.demand .dequeueInto), .silent, .silent, .dequeued 6,
        .called (.demand .dequeueInto), .silent] ++ [.empty .dequeueInto]) s :=
    ⟨_, Machine.Path.of_exec ([.call (enqueue 5)] ++ List.replicate 3 (.step .producer) ++
      .call (enqueue 6) :: List.replicate 3 (.step .producer) ++
      .call (.demand .dequeueInto) :: List.replicate 4 (.step .consumer) ++
      .call (.demand .dequeueInto) :: List.replicate 3 (.step .consumer) ++
      .call (.demand .dequeueInto) :: List.replicate 2 (.step .consumer)) rfl⟩
  exact ⟨_, s, hr, (run_is_fifo hr).1, (run_is_fifo hr).2.2.1 _ [] .dequeueInto rfl⟩

end LockFree.SpscQueue
