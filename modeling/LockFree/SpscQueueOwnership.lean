import LockFree.SpscQueueViews

/-!
# Who may touch the slots of the ring

The slots of the positions from the tail that the consumer has seen up to a lap past the
head that the producer has seen are the producer's, the other ones are the consumer's: each
of the two overlooks no access to its slots. A message of an index hands over the slots
that its reader does not have yet.
-/

namespace LockFree.SpscQueueViews
open BufferSize RingWindow TransitionRuns ViewMemory

variable {R : Ring} {T : Type*}

/-- The view `w` overlooks no access to the slots of the positions from `i` up to `j`. -/
def Current (accesses w : View (Location R)) (i j : ℕ) : Prop :=
  ∀ k, i ≤ k → k < j → w (.slot (R.index k)) = accesses (.slot (R.index k))

structure Knowledge (seenHead seenTail : ℕ) (s : State R T) : Prop where
  heads : ∀ t m, s.head.message? t = some m →
    m.value = R.index t ∧ Current s.accesses m.view seenHead t
  tails : ∀ t m, s.tail.message? t = some m →
    m.value = R.index t ∧ Current s.accesses m.view seenTail t
  seenHead_le : seenHead ≤ s.producerViews.current .head
  seenTail_le : seenTail ≤ s.consumerViews.current .tail
  tail_current : s.producerViews.current .tail = s.tail.last
  head_current : s.consumerViews.current .head = s.head.last
  producer : Current s.accesses s.producerViews.current seenTail (seenHead + R.size)
  consumer : Current s.accesses s.consumerViews.current seenHead seenTail
  producer_within : s.producerViews.Within s.accesses
  consumer_within : s.consumerViews.Within s.accesses
  head_within : s.head.Within s.accesses
  tail_within : s.tail.Within s.accesses

section
variable {accesses w w' : View (Location R)} {i i' j j' k : ℕ}

theorem Current.mono (h : Current accesses w i j) (hw : w ≤ w') (hw' : w' ≤ accesses) :
    Current accesses w' i j := by
  intro k hi hj
  apply le_antisymm (hw' _)
  rw [← h k hi hj]
  exact hw _

theorem Current.sub (h : Current accesses w i j) (hi : i ≤ i') (hj : j' ≤ j) :
    Current accesses w i' j' :=
  fun k hik hkj => h k (hi.trans hik) (hkj.trans_le hj)

theorem Current.union (h : Current accesses w i j) (h' : Current accesses w j k) :
    Current accesses w i k := by
  intro l hil hlk
  rcases Nat.lt_or_ge l j with hlj | hjl
  · exact h l hil hlj
  · exact h' l hjl hlk

theorem Current.lap (h : Current accesses w i j) :
    Current accesses w (i + R.size) (j + R.size) := by
  intro k hik hkj
  have hk := h (k - R.size) (by omega) (by omega)
  rwa [← R.index_add_size, Nat.sub_add_cancel (by omega)] at hk

theorem Current.empty (h : j ≤ i) : Current accesses w i j :=
  fun k hik hkj => by omega

theorem Current.touch (h : Current accesses w i j) {p n : ℕ}
    (hp : ∀ k, i ≤ k → k < j → R.index k ≠ R.index p) :
    Current (Function.update accesses (.slot (R.index p)) n) w i j := by
  intro k hi hj
  rw [Function.update_of_ne fun heq => hp k hi hj (Location.slot.inj heq)]
  exact h k hi hj

end

section
variable {seenHead seenTail t : ℕ} {s : State R T} {v : Views (Location R)}
  {m : Message (Fin R.size) (Location R)}

theorem Knowledge.producerViews (h : Knowledge seenHead seenTail s)
    (hv : s.producerViews.current ≤ v.current) (hw : v.Within s.accesses) :
    Knowledge seenHead seenTail { s with producerViews := v } :=
  { h with
    seenHead_le := h.seenHead_le.trans (hv _)
    tail_current := le_antisymm (hw.current _) (h.tail_current ▸ hv .tail)
    producer := h.producer.mono hv hw.current
    producer_within := hw }

theorem Knowledge.consumerViews (h : Knowledge seenHead seenTail s)
    (hv : s.consumerViews.current ≤ v.current) (hw : v.Within s.accesses) :
    Knowledge seenHead seenTail { s with consumerViews := v } :=
  { h with
    seenTail_le := h.seenTail_le.trans (hv _)
    head_current := le_antisymm (hw.current _) (h.head_current ▸ hv .head)
    consumer := h.consumer.mono hv hw.current
    consumer_within := hw }

/-- The producer takes the slots that were given back up to the head it has read. -/
theorem Knowledge.seeHead (h : Knowledge seenHead seenTail s) (hm : s.head.message? t = some m)
    (hv : m.view ≤ s.producerViews.current) (ht : seenHead ≤ t)
    (ht' : t ≤ s.producerViews.current .head) : Knowledge t seenTail s :=
  { h with
    heads := fun u m' hm' => ⟨(h.heads u m' hm').1, (h.heads u m' hm').2.sub ht le_rfl⟩
    seenHead_le := ht'
    producer :=
      h.producer.union ((h.heads t m hm).2.mono hv h.producer_within.current).lap
    consumer := h.consumer.sub ht le_rfl }

/-- The consumer takes the slots of the elements up to the tail it has read. -/
theorem Knowledge.seeTail (h : Knowledge seenHead seenTail s) (hm : s.tail.message? t = some m)
    (hv : m.view ≤ s.consumerViews.current) (ht : seenTail ≤ t)
    (ht' : t ≤ s.consumerViews.current .tail) : Knowledge seenHead t s :=
  { h with
    tails := fun u m' hm' => ⟨(h.tails u m' hm').1, (h.tails u m' hm').2.sub ht le_rfl⟩
    seenTail_le := ht'
    producer := h.producer.sub ht le_rfl
    consumer := h.consumer.union ((h.tails t m hm).2.mono hv h.consumer_within.current) }

end

section
variable {seenHead seenTail p : ℕ} {s : State R T} {slot : Plain T}

theorem accesses_touch (s : State R T) (i : Fin R.size) (slot : Plain T)
    (v w : Views (Location R)) :
    State.accesses { s with
      buffer := Function.update s.buffer i slot, producerViews := v, consumerViews := w } =
      Function.update s.accesses (.slot i) slot.accesses := by
  funext ℓ
  cases ℓ with
  | head | tail => exact (Function.update_of_ne (by simp) ..).symm
  | slot j =>
    by_cases hj : j = i
    · subst hj
      simp [State.accesses]
    · simp [State.accesses, hj]

theorem le_touch {s : State R T} {i : Fin R.size}
    (hslot : slot.accesses = (s.buffer i).accesses + 1) :
    s.accesses ≤ Function.update s.accesses (.slot i) slot.accesses := by
  intro ℓ
  by_cases hℓ : ℓ = .slot i
  · subst hℓ
    rw [Function.update_self, hslot]
    exact Nat.le_succ _
  · rw [Function.update_of_ne hℓ]

theorem current_touch {s : State R T} {v : Views (Location R)} {i j : ℕ}
    (h : Current s.accesses v.current i j) (hw : v.Within s.accesses)
    (hslot : slot.accesses = (s.buffer (R.index p)).accesses + 1) :
    Current (Function.update s.accesses (.slot (R.index p)) slot.accesses)
      (v.write (.slot (R.index p)) slot.accesses).current i j := by
  intro k hi hj
  by_cases hk : R.index k = R.index p
  · rw [hk, Function.update_self, Views.write_self]
    rw [hslot]
    exact (hw.current _).trans (Nat.le_succ _)
  · have hne : Location.slot (R.index k) ≠ .slot (R.index p) := by simpa using hk
    rw [Function.update_of_ne hne, Views.write_of_ne hne]
    exact h k hi hj

theorem within_touch {s : State R T} {v : Views (Location R)} {i : Fin R.size}
    (hw : v.Within s.accesses) (hslot : slot.accesses = (s.buffer i).accesses + 1) :
    (v.write (.slot i) slot.accesses).Within
      (Function.update s.accesses (.slot i) slot.accesses) :=
  (hw.mono (le_touch hslot)).write (by rw [Function.update_self])

theorem Knowledge.touchTail (slot : Plain T) (h : Knowledge seenHead seenTail s)
    (hw : Window R seenHead s.head.last seenTail s.tail.last)
    (hslot : slot.accesses = (s.buffer (R.index s.tail.last)).accesses + 1) :
    Knowledge seenHead seenTail { s with
      buffer := Function.update s.buffer (R.index s.tail.last) slot
      producerViews := s.producerViews.write (.slot (R.index s.tail.last)) slot.accesses } := by
  have hb := le_touch hslot
  have hlow := hw.seenHead_le
  have hseen := hw.le_seenTail
  have hmid := hw.seenTail_le
  have hhigh := hw.lt_seenHead
  have hne : ∀ i j, seenHead ≤ i → j ≤ s.tail.last → ∀ k, i ≤ k → k < j →
      R.index k ≠ R.index s.tail.last := by
    intro i j hi hj k hik hkj heq
    have := (R.index_inj (h := seenHead) (by omega) (by omega) (by omega) (by omega)).mp heq
    omega
  have hother : ∀ ℓ, (∀ i, ℓ ≠ .slot i) →
      (s.producerViews.write (.slot (R.index s.tail.last)) slot.accesses).current ℓ =
        s.producerViews.current ℓ := fun ℓ hℓ => Views.write_of_ne (hℓ _)
  constructor <;> try rw [accesses_touch]
  case heads =>
    intro t m hm
    obtain ⟨hval, hcur⟩ := h.heads t m hm
    have hle : t ≤ s.head.last := Cell.le_last hm
    exact ⟨hval, hcur.touch (hne _ _ le_rfl (by omega))⟩
  case tails =>
    intro t m hm
    obtain ⟨hval, hcur⟩ := h.tails t m hm
    exact ⟨hval, hcur.touch (hne _ _ (by omega) (Cell.le_last hm))⟩
  case seenHead_le => exact (hother .head (by simp)).symm ▸ h.seenHead_le
  case seenTail_le => exact h.seenTail_le
  case tail_current => exact (hother .tail (by simp)).trans h.tail_current
  case head_current => exact h.head_current
  case producer => exact current_touch h.producer h.producer_within hslot
  case consumer => exact h.consumer.touch (hne _ _ le_rfl hmid)
  case producer_within => exact within_touch h.producer_within hslot
  case consumer_within => exact h.consumer_within.mono hb
  case head_within => exact h.head_within.mono hb
  case tail_within => exact h.tail_within.mono hb

theorem Knowledge.touchHead (slot : Plain T) (h : Knowledge seenHead seenTail s)
    (hw : Window R seenHead s.head.last seenTail s.tail.last) (hlt : s.head.last < seenTail)
    (hslot : slot.accesses = (s.buffer (R.index s.head.last)).accesses + 1) :
    Knowledge seenHead seenTail { s with
      buffer := Function.update s.buffer (R.index s.head.last) slot
      consumerViews := s.consumerViews.write (.slot (R.index s.head.last)) slot.accesses } := by
  have hb := le_touch hslot
  have hlow := hw.seenHead_le
  have hmid := hw.seenTail_le
  have hhigh := hw.lt_seenHead
  have hne : ∀ i j, (seenHead ≤ i ∧ j ≤ s.head.last) ∨ (seenTail ≤ i ∧ j ≤ seenHead + R.size) →
      ∀ k, i ≤ k → k < j → R.index k ≠ R.index s.head.last := by
    intro i j hij k hik hkj heq
    have := (R.index_inj (h := seenHead) (by omega) (by omega) (by omega) (by omega)).mp heq
    omega
  have hother : ∀ ℓ, (∀ i, ℓ ≠ .slot i) →
      (s.consumerViews.write (.slot (R.index s.head.last)) slot.accesses).current ℓ =
        s.consumerViews.current ℓ := fun ℓ hℓ => Views.write_of_ne (hℓ _)
  constructor <;> try rw [accesses_touch]
  case heads =>
    intro t m hm
    obtain ⟨hval, hcur⟩ := h.heads t m hm
    exact ⟨hval, hcur.touch (hne _ _ (.inl ⟨le_rfl, Cell.le_last hm⟩))⟩
  case tails =>
    intro t m hm
    obtain ⟨hval, hcur⟩ := h.tails t m hm
    have hle : t ≤ s.tail.last := Cell.le_last hm
    exact ⟨hval, hcur.touch (hne _ _ (.inr ⟨le_rfl, by omega⟩))⟩
  case seenHead_le => exact h.seenHead_le
  case seenTail_le => exact (hother .tail (by simp)).symm ▸ h.seenTail_le
  case tail_current => exact h.tail_current
  case head_current => exact (hother .head (by simp)).trans h.head_current
  case producer => exact h.producer.touch (hne _ _ (.inr ⟨le_rfl, le_rfl⟩))
  case consumer => exact current_touch h.consumer h.consumer_within hslot
  case producer_within => exact h.producer_within.mono hb
  case consumer_within => exact within_touch h.consumer_within hslot
  case head_within => exact h.head_within.mono hb
  case tail_within => exact h.tail_within.mono hb

end

section
variable {seenHead seenTail : ℕ} {s : State R T}

theorem accesses_pushTail (s : State R T) (m : Message (Fin R.size) (Location R))
    (v : Views (Location R)) :
    State.accesses { s with tail := s.tail.push m, producerViews := v } =
      Function.update s.accesses .tail (s.tail.last + 1) := by
  funext ℓ
  cases ℓ with
  | tail => simp [State.accesses]
  | head | slot => exact (Function.update_of_ne (by simp) ..).symm

theorem accesses_pushHead (s : State R T) (m : Message (Fin R.size) (Location R))
    (v : Views (Location R)) :
    State.accesses { s with head := s.head.push m, consumerViews := v } =
      Function.update s.accesses .head (s.head.last + 1) := by
  funext ℓ
  cases ℓ with
  | head => simp [State.accesses]
  | tail | slot => exact (Function.update_of_ne (by simp) ..).symm

theorem Current.push {accesses w : View (Location R)} {i j n : ℕ} {ℓ : Location R}
    (h : Current accesses w i j) (hℓ : ∀ i, ℓ ≠ .slot i) :
    Current (Function.update accesses ℓ n) w i j := by
  intro k hi hj
  rw [Function.update_of_ne (hℓ _).symm]
  exact h k hi hj

theorem le_push {accesses : View (Location R)} {ℓ : Location R} :
    accesses ≤ Function.update accesses ℓ (accesses ℓ + 1) := by
  intro ℓ'
  by_cases hℓ : ℓ' = ℓ
  · subst hℓ
    rw [Function.update_self]
    exact Nat.le_succ _
  · rw [Function.update_of_ne hℓ]

/-- The message of a new tail hands over the slots of all elements before it. -/
theorem Knowledge.storeTail (h : Knowledge seenHead seenTail s)
    (hroom : s.tail.last + 1 < seenHead + R.size) :
    Knowledge seenHead seenTail { s with
      tail := (s.tail.store .tail s.producerViews (R.index (s.tail.last + 1)) .release).1
      producerViews :=
        (s.tail.store .tail s.producerViews (R.index (s.tail.last + 1)) .release).2 } := by
  have hb : s.accesses ≤ Function.update s.accesses .tail (s.tail.last + 1) := le_push
  obtain ⟨hcell, hviews⟩ := Cell.Within.store .tail (R.index (s.tail.last + 1)) .release
    (h.tail_within.mono hb) (by simp) (h.producer_within.mono hb)
  have hproducer := (h.producer.push (by simp)).mono Views.le_write hviews.current
  constructor <;> dsimp only [Cell.store] <;> try rw [accesses_pushTail]
  case heads =>
    intro t m hm
    obtain ⟨hval, hcur⟩ := h.heads t m hm
    exact ⟨hval, hcur.push (by simp)⟩
  case tails =>
    intro t m hm
    rcases Cell.message_push_eq hm with ⟨-, hm⟩ | ⟨rfl, rfl⟩
    · obtain ⟨hval, hcur⟩ := h.tails t m hm
      exact ⟨hval, hcur.push (by simp)⟩
    · exact ⟨rfl, hproducer.sub le_rfl hroom.le⟩
  case seenHead_le => exact h.seenHead_le.trans (Views.le_write _)
  case seenTail_le => exact h.seenTail_le
  case tail_current =>
    rw [Cell.last_push, Views.write_self]
    exact h.tail_current.le.trans (Nat.le_succ _)
  case head_current => exact h.head_current
  case producer => exact hproducer
  case consumer => exact h.consumer.push (by simp)
  case producer_within => exact hviews
  case consumer_within => exact h.consumer_within.mono hb
  case head_within => exact h.head_within.mono hb
  case tail_within => exact hcell

/-- The message of a new head gives the slots before it back. -/
theorem Knowledge.storeHead (h : Knowledge seenHead seenTail s) (hlt : s.head.last < seenTail) :
    Knowledge seenHead seenTail { s with
      head := (s.head.store .head s.consumerViews (R.index (s.head.last + 1)) .release).1
      consumerViews :=
        (s.head.store .head s.consumerViews (R.index (s.head.last + 1)) .release).2 } := by
  have hb : s.accesses ≤ Function.update s.accesses .head (s.head.last + 1) := le_push
  obtain ⟨hcell, hviews⟩ := Cell.Within.store .head (R.index (s.head.last + 1)) .release
    (h.head_within.mono hb) (by simp) (h.consumer_within.mono hb)
  have hconsumer := (h.consumer.push (by simp)).mono Views.le_write hviews.current
  constructor <;> dsimp only [Cell.store] <;> try rw [accesses_pushHead]
  case heads =>
    intro t m hm
    rcases Cell.message_push_eq hm with ⟨-, hm⟩ | ⟨rfl, rfl⟩
    · obtain ⟨hval, hcur⟩ := h.heads t m hm
      exact ⟨hval, hcur.push (by simp)⟩
    · exact ⟨rfl, hconsumer.sub le_rfl hlt⟩
  case tails =>
    intro t m hm
    obtain ⟨hval, hcur⟩ := h.tails t m hm
    exact ⟨hval, hcur.push (by simp)⟩
  case seenHead_le => exact h.seenHead_le
  case seenTail_le => exact h.seenTail_le.trans (Views.le_write _)
  case tail_current => exact h.tail_current
  case head_current =>
    rw [Cell.last_push, Views.write_self]
    exact h.head_current.le.trans (Nat.le_succ _)
  case producer => exact h.producer.push (by simp)
  case consumer => exact hconsumer
  case producer_within => exact h.producer_within.mono hb
  case consumer_within => exact hviews
  case head_within => exact hcell
  case tail_within => exact h.tail_within.mono hb

end

theorem Knowledge.start (leave : T → T) (buffer : Fin R.size → T) :
    Knowledge 0 0 (machine R leave buffer).start where
  heads t m hm := by
    cases t with
    | zero =>
      cases hm
      exact ⟨rfl, .empty le_rfl⟩
    | succ t => cases hm
  tails t m hm := by
    cases t with
    | zero =>
      cases hm
      exact ⟨rfl, .empty le_rfl⟩
    | succ t => cases hm
  seenHead_le := Nat.zero_le _
  seenTail_le := Nat.zero_le _
  tail_current := rfl
  head_current := rfl
  producer _ _ _ := rfl
  consumer _ _ _ := rfl
  producer_within := .start
  consumer_within := .start
  head_within := .empty _
  tail_within := .empty _

end LockFree.SpscQueueViews
