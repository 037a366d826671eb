import LockFree.MpmcQueueInvariant

/-!
# Slots are owned by one thread, and a ticket carries one value

The invariant is preserved at every program point as long as fewer than `2 ^ 31`
tickets have been drawn from each counter.
-/

namespace LockFree.MpmcQueue
open BufferSize TransitionRuns

variable {R : Ring} {T Tid : Type*}
variable {es : List (Tid × Event T)} {s s' : Pool Tid (Shared R T) (Local T)} {a : Tid}

theorem draws_prefix_lt {side : Side} {fs : List (Tid × Event T)} {n : ℕ}
    (h : draws side (es ++ fs) < n) : draws side es < n := by
  rw [draws_append] at h
  omega

theorem Inv.counter_lt (h : Inv es s) (hb : ∀ side, draws side es < 2 ^ 31) (side : Side) :
    s.shared.counter side < 2 ^ 31 :=
  (h.count side).trans_lt (hb side)

theorem Inv.counter_lt_draw (h : Inv es s) (hb : ∀ side, draws side es < 2 ^ 31) (side : Side) :
    s.shared.counter side < (s.shared.draw side).counter side := by
  have := h.counter_lt hb side
  rw [Shared.counter_draw_self, Nat.mod_eq_of_lt (by omega)]
  omega

variable {j : Job T} {t : ℕ} {x : Option T} {g' : Shared R T} {l' : Local T} {e : Event T}
  [DecidableEq Tid]

theorem Inv.forget (h : Inv es s) (he : e.Quiet) (hp : l'.position? = none)
    (hc : ∀ side t, l'.candidate? = some (side, t) → t ≤ s.shared.counter side) :
    Inv (es ++ [(a, e)]) ⟨s.shared, Function.update s.threads a l'⟩ := by
  refine h.local_step he (.of_position_none hp hc) fun y hy => ?_
  cases l' <;> simp_all [Local.ticket?, Local.position?]

theorem Inv.step_idle {c : Call T} (h : Inv es s) :
    Inv (es ++ [(a, .called c)]) ⟨s.shared, Function.update s.threads a (entry c)⟩ := by
  apply h.forget ⟨rfl, rfl, rfl⟩
  · cases c <;> rfl
  · cases c <;> simp [entry, Local.candidate?]

theorem Inv.step_fetchAdd (h : Inv es s) (hb : ∀ side, draws side es < 2 ^ 31) :
    Inv (es ++ [(a, .drawn j.side (s.shared.counter j.side))])
      ⟨s.shared.draw j.side, Function.update s.threads a (.wait j (s.shared.counter j.side))⟩ := by
  have hlt := h.counter_lt hb j.side
  refine h.draw (by omega) ⟨?_, by simp [Local.candidate?], by simp [Local.checked?], ?_⟩ rfl
  · intro side t ht
    obtain ⟨rfl, rfl⟩ : j.side = side ∧ s.shared.counter j.side = t := by
      simpa [Local.ticket?] using ht
    exact h.counter_lt_draw hb j.side
  · intro t ht htlt
    obtain rfl : s.shared.counter j.side = t := by simpa [Local.position?] using ht
    rw [Shared.slot_draw]
    exact (h.slots _ htlt).expects_drawn

theorem Inv.step_wait (h : Inv es s) (hb : ∀ side, draws side es < 2 ^ 31)
    (hla : s.threads a = .wait j t) (hgen : j.generation R t = (s.shared.slot t).generation) :
    Inv (es ++ [(a, .silent)]) ⟨s.shared, Function.update s.threads a (.work j t)⟩ := by
  have hl : (Local.wait j t).Ok s.shared := hla ▸ h.locals a
  have htlt := hl.ticket_lt j.side t rfl
  have hlap := first_lap (htlt.trans (h.counter_lt hb _)) h.slots hgen
  refine h.local_step ⟨rfl, rfl, rfl⟩ ⟨hl.ticket_lt, by simp [Local.candidate?], ?_, ?_⟩
    (by simp [hla, Local.ticket?])
  · intro u hu
    obtain rfl : t = u := by simpa [Local.checked?] using hu
    exact hlap
  · intro u hu _
    obtain rfl : t = u := by simpa [Local.position?] using hu
    have hexp := hl.expects t rfl hlap
    rw [generation_first_lap hlap] at hgen
    cases j with
    | emplace v => exact hexp
    | dequeue => exact ⟨hgen.symm, hexp.2 hgen.symm⟩

theorem Inv.step_check (h : Inv es s) (hb : ∀ side, draws side es < 2 ^ 31)
    (hla : s.threads a = .check j t) (hgen : j.generation R t = (s.shared.slot t).generation) :
    Inv (es ++ [(a, .silent)]) ⟨s.shared, Function.update s.threads a (.exchange j t)⟩ := by
  have hl : (Local.check j t).Ok s.shared := hla ▸ h.locals a
  have hlap := first_lap ((hl.candidate_le j.side t rfl).trans_lt (h.counter_lt hb _)) h.slots hgen
  refine h.local_step ⟨rfl, rfl, rfl⟩ ⟨by simp [Local.ticket?], by simp [Local.candidate?], ?_, ?_⟩
    (by simp [Local.ticket?])
  · intro u hu
    obtain rfl : t = u := by simpa [Local.checked?] using hu
    exact hlap
  · intro u hu _
    obtain rfl : t = u := by simpa [Local.position?] using hu
    rw [generation_first_lap hlap] at hgen
    cases j with
    | emplace v => trivial
    | dequeue => exact hgen.le

/-- The compare-exchange succeeds: the generation seen before it is still current,
because the ticket was never drawn in between. -/
theorem Inv.step_exchange (h : Inv es s) (hb : ∀ side, draws side es < 2 ^ 31)
    (hla : s.threads a = .exchange j (s.shared.counter j.side)) :
    Inv (es ++ [(a, .drawn j.side (s.shared.counter j.side))])
      ⟨s.shared.draw j.side, Function.update s.threads a (.work j (s.shared.counter j.side))⟩ := by
  have hl : (Local.exchange j (s.shared.counter j.side)).Ok s.shared := hla ▸ h.locals a
  have hlap := hl.checked_lt _ rfl
  have hexp := hl.expects _ rfl hlap
  have hslot := h.slots _ hlap
  have hlt := h.counter_lt hb j.side
  refine h.draw (by omega) ⟨?_, by simp [Local.candidate?], ?_, ?_⟩ rfl
  · intro side u hu
    obtain ⟨rfl, rfl⟩ : j.side = side ∧ s.shared.counter j.side = u := by
      simpa [Local.ticket?] using hu
    exact h.counter_lt_draw hb j.side
  · intro u hu
    obtain rfl : s.shared.counter j.side = u := by simpa [Local.checked?] using hu
    exact hlap
  · intro u hu _
    obtain rfl : s.shared.counter j.side = u := by simpa [Local.position?] using hu
    rw [Shared.slot_draw]
    cases j with
    | emplace v => exact hslot.undrawn_tail le_rfl
    | dequeue =>
      have hund := hslot.undrawn_head le_rfl
      have hone := le_antisymm hund.1 hexp
      exact ⟨hone, hund.2 hone⟩

theorem Local.Ok.publish {g : Shared R T} {y : Slot T} (hl : (Local.work j t).Ok g)
    (hy : (Local.publish j t x).Expects y) : (Local.publish j t x).Ok (g.setSlot t y) := by
  have hlap := hl.checked_lt t rfl
  refine ⟨?_, by simp [Local.candidate?], hl.checked_lt, ?_⟩
  · intro side u hu
    simpa using hl.ticket_lt side u hu
  · intro u hu _
    obtain rfl : t = u := by simpa [Local.position?] using hu
    rwa [Shared.slot_setSlot_small _ hlap hlap, if_pos rfl]

theorem SlotOk.head_lt {g : Shared R T} (h : SlotOk g t) (hg : (g.slot t).generation = 1) :
    t < g.tail := by
  by_contra hle
  have hv := (h.undrawn_tail (not_lt.mp hle)).1
  rw [hg] at hv
  cases hv

theorem Inv.step_construct {v : T} (h : Inv es s) (hla : s.threads a = .work (.emplace v) t) :
    Inv (es ++ [(a, .constructed t v)])
      ⟨s.shared.setSlot t ((s.shared.slot t).construct v),
        Function.update s.threads a (.publish (.emplace v) t none)⟩ := by
  have hl : (Local.work (.emplace v) t).Ok s.shared := hla ▸ h.locals a
  have hlap := hl.checked_lt t rfl
  have hexp : (s.shared.slot t).Vacant := hl.expects t rfl hlap
  have hdrawn : t < s.shared.tail := hl.ticket_lt .tail t rfl
  refine h.setSlot hlap .tail (by rw [hla]; rfl) rfl (hl.publish ⟨hexp.1, rfl⟩)
    (by simp [hla, Local.ticket?]) (fun l hx hp hk => hx.construct hp hexp hk v) ?_
    (h.log.construct hlap hexp (h.held a .tail t (by rw [hla]; rfl)) v)
  have hself : (s.shared.setSlot t ((s.shared.slot t).construct v)).slot t =
      (s.shared.slot t).construct v := by
    rw [Shared.slot_setSlot_small _ hlap hlap, if_pos rfl]
  refine ⟨?_, fun hle => absurd hle (not_le.mpr hdrawn), fun _ => ?_⟩ <;> rw [hself]
  · exact (h.slots t hlap).generation_le
  · exact ⟨hexp.1.trans_le (by omega), fun _ => rfl⟩

theorem Inv.step_move (h : Inv es s) (hla : s.threads a = .work .dequeue t) :
    Inv (es ++ [(a, .moved t (s.shared.slot t).data)])
      ⟨s.shared.setSlot t (s.shared.slot t).destroy,
        Function.update s.threads a (.publish .dequeue t (s.shared.slot t).data)⟩ := by
  have hl : (Local.work (.dequeue : Job T) t).Ok s.shared := hla ▸ h.locals a
  have hlap := hl.checked_lt t rfl
  obtain ⟨hgen, hdata⟩ : (s.shared.slot t).generation = 1 ∧ (s.shared.slot t).data.isSome :=
    hl.expects t rfl hlap
  have hslot := h.slots t hlap
  have hdrawn : t < s.shared.head := hl.ticket_lt .head t rfl
  refine h.setSlot hlap .head (by rw [hla]; rfl) rfl (hl.publish ⟨hgen, rfl⟩)
    (by simp [hla, Local.ticket?]) (fun l hx hp hk => hx.destroy hp hgen hk) ?_
    (h.log.move hlap hgen hdata)
  have hself : (s.shared.setSlot t (s.shared.slot t).destroy).slot t =
      (s.shared.slot t).destroy := by
    rw [Shared.slot_setSlot_small _ hlap hlap, if_pos rfl]
  refine ⟨?_, fun hle => absurd hle (not_le.mpr (hslot.head_lt hgen)),
    fun hle => absurd hle (not_le.mpr hdrawn)⟩
  rw [hself]
  exact hslot.generation_le

theorem Inv.step_publish_emplace {v : T} (h : Inv es s)
    (hla : s.threads a = .publish (.emplace v) t x) :
    Inv (es ++ [(a, .returned (.done x))])
      ⟨s.shared.setSlot t ((s.shared.slot t).storeGeneration 1),
        Function.update s.threads a .idle⟩ := by
  have hl : (Local.publish (.emplace v) t x).Ok s.shared := hla ▸ h.locals a
  have hlap := hl.checked_lt t rfl
  obtain ⟨hgen, hdata⟩ : (s.shared.slot t).generation = 0 ∧ (s.shared.slot t).data.isSome :=
    hl.expects t rfl hlap
  have hdrawn : t < s.shared.tail := hl.ticket_lt .tail t rfl
  refine h.setSlot hlap .tail (by rw [hla]; rfl) rfl
    (.of_position_none rfl (by simp [Local.candidate?])) (by simp [Local.ticket?])
    (fun l hx hp hk => hx.publish_emplace hp hgen hdata hk) ?_
    (h.log.setSlot hlap ⟨rfl, rfl⟩ (fun _ => Or.inl le_rfl) (fun hf => ?_) rfl)
  · have hself : (s.shared.setSlot t ((s.shared.slot t).storeGeneration 1)).slot t =
        (s.shared.slot t).storeGeneration 1 := by
      rw [Shared.slot_setSlot_small _ hlap hlap, if_pos rfl]
    refine ⟨?_, fun hle => absurd hle (not_le.mpr hdrawn), fun _ => ?_⟩ <;> rw [hself]
    · exact one_le_two
    · exact ⟨le_rfl, fun _ => hdata⟩
  · rw [Slot.Emptied, hgen] at hf
    simp at hf

theorem Inv.step_publish_dequeue (h : Inv es s) (hla : s.threads a = .publish .dequeue t x) :
    Inv (es ++ [(a, .returned (.done x))])
      ⟨s.shared.setSlot t ((s.shared.slot t).storeGeneration 2),
        Function.update s.threads a .idle⟩ := by
  have hl : (Local.publish (.dequeue : Job T) t x).Ok s.shared := hla ▸ h.locals a
  have hlap := hl.checked_lt t rfl
  obtain ⟨hgen, -⟩ : (s.shared.slot t).generation = 1 ∧ (s.shared.slot t).data = none :=
    hl.expects t rfl hlap
  have hdrawn : t < s.shared.head := hl.ticket_lt .head t rfl
  refine h.setSlot hlap .head (by rw [hla]; rfl) rfl
    (.of_position_none rfl (by simp [Local.candidate?])) (by simp [Local.ticket?])
    (fun l hx hp hk => hx.publish_dequeue hp hgen hk) ?_
    (h.log.setSlot hlap ⟨rfl, rfl⟩ (fun _ => Or.inl one_le_two) (fun _ => Or.inl rfl) rfl)
  have hself : (s.shared.setSlot t ((s.shared.slot t).storeGeneration 2)).slot t =
      (s.shared.slot t).storeGeneration 2 := by
    rw [Shared.slot_setSlot_small _ hlap hlap, if_pos rfl]
  refine ⟨?_, fun hle => absurd hle (not_le.mpr ((h.slots t hlap).head_lt hgen)),
    fun hle => absurd hle (not_le.mpr hdrawn)⟩
  rw [hself]
  exact le_rfl

theorem Inv.go (h : Inv es s) (hb : ∀ side, draws side es < 2 ^ 31)
    (hn : next s.shared (s.threads a) .go = some (g', l', e)) :
    Inv (es ++ [(a, e)]) ⟨g', Function.update s.threads a l'⟩ := by
  generalize hla : s.threads a = l at hn
  have hl : l.Ok s.shared := hla ▸ h.locals a
  cases l with
  | idle => simp [next] at hn
  | fetchAdd j =>
    cases hn
    exact h.step_fetchAdd hb
  | wait j t =>
    simp only [next] at hn
    split at hn <;> cases hn
    · exact h.step_wait hb hla ‹_›
    · exact h.local_step ⟨rfl, rfl, rfl⟩ hl (by simp [hla])
  | load j =>
    cases hn
    exact h.local_step ⟨rfl, rfl, rfl⟩ (.check j) (by simp [Local.ticket?])
  | check j t =>
    simp only [next] at hn
    split at hn <;> cases hn
    · exact h.step_check hb hla ‹_›
    · exact h.forget ⟨rfl, rfl, rfl⟩ rfl (by simp [Local.candidate?])
  | exchange j t =>
    simp only [next] at hn
    split at hn <;> cases hn
    · rename_i ht
      subst ht
      exact h.step_exchange hb hla
    · exact h.local_step ⟨rfl, rfl, rfl⟩ (.check j) (by simp [Local.ticket?])
  | reload j t =>
    simp only [next] at hn
    split at hn <;> cases hn
    · exact h.forget ⟨rfl, rfl, rfl⟩ rfl (by simp [Local.candidate?])
    · exact h.local_step ⟨rfl, rfl, rfl⟩ (.check j) (by simp [Local.ticket?])
  | work j t =>
    cases j with
    | emplace v =>
      cases hn
      exact h.step_construct hla
    | dequeue =>
      cases hn
      exact h.step_move hla
  | publish j t x =>
    simp only [next, generation_first_lap (hl.checked_lt t rfl)] at hn
    cases j with
    | emplace v =>
      cases hn
      exact h.step_publish_emplace hla
    | dequeue =>
      cases hn
      exact h.step_publish_dequeue hla

theorem Inv.step (h : Inv es s) (hb : ∀ side, draws side es < 2 ^ 31)
    (hs : (machine R T Tid).Step s (a, e) s') : Inv (es ++ [(a, e)]) s' := by
  obtain ⟨c, g', l', hn, rfl⟩ := Pool.step_iff.mp hs
  cases c with
  | go => exact h.go hb hn
  | call c =>
    cases hla : s.threads a with
    | idle =>
      rw [hla] at hn
      cases hn
      exact h.step_idle
    | _ => simp [hla, next] at hn
  | spurious =>
    cases hla : s.threads a with
    | exchange j t =>
      rw [hla] at hn
      cases hn
      exact h.local_step ⟨rfl, rfl, rfl⟩ (.check j) (by simp [Local.ticket?])
    | _ => simp [hla, next] at hn

theorem Inv.fresh : Inv ([] : List (Tid × Event T)) (machine R T Tid).start where
  count side := by cases side <;> rfl
  locals _ := .of_position_none rfl fun _ _ hc => by cases hc
  held a side t ht := by simp [machine, Pool.machine, Local.ticket?] at ht
  distinct a b x ha := by simp [machine, Pool.machine, Local.ticket?] at ha
  slots t _ := by
    refine ⟨Nat.zero_le _, fun _ => ⟨rfl, rfl⟩, fun _ => ⟨Nat.zero_le _, fun h => ?_⟩⟩
    cases h
  log := by
    refine ⟨by simp, by simp, fun _ _ _ hv => ?_, by simp, List.nodup_nil, List.nodup_nil⟩
    cases hv

theorem Inv.of_run (hr : (machine R T Tid).Run es s) (hb : ∀ side, draws side es < 2 ^ 31) :
    Inv es s := by
  refine Machine.Run.invariant (I := fun es s => (∀ side, draws side es < 2 ^ 31) → Inv es s)
    (fun _ => Inv.fresh) (fun es s e s' _ ih hs hb' => ?_) hr hb
  have hprefix : ∀ side, draws side es < 2 ^ 31 := fun side => by
    have := hb' side
    rw [draws_append] at this
    omega
  exact (ih hprefix).step hprefix hs

/-- The consumer of a ticket takes what the producer of the same ticket left there. -/
theorem Inv.delivered (hr : (machine R T Tid).Run (es ++ [(a, .moved t x)]) s')
    (hb : ∀ side, draws side es < 2 ^ 31) :
    (a, Event.drawn .head t) ∈ es ∧ ∃ p v, x = some v ∧ (p, Event.constructed t v) ∈ es ∧
      (p, Event.drawn .tail t) ∈ es := by
  obtain ⟨s, hr', hs⟩ := hr.last
  have h := Inv.of_run hr' hb
  obtain ⟨c, g', l', hn, -⟩ := Pool.step_iff.mp hs
  have hl := h.locals a
  rcases hla : s.threads a with _ | j | ⟨j, u⟩ | j | ⟨j, u⟩ | ⟨j, u⟩ | ⟨j, u⟩ | ⟨_ | _, u⟩ | ⟨j, u, y⟩
  case work.dequeue =>
    rw [hla] at hn hl
    cases c <;> cases hn
    have hlap := hl.checked_lt t rfl
    obtain ⟨-, hdata⟩ := hl.expects t rfl hlap
    obtain ⟨v, hv⟩ := Option.isSome_iff_exists.mp hdata
    obtain ⟨p, hp⟩ := h.log.stored t hlap v hv
    exact ⟨h.held a .head t (by rw [hla]; rfl), p, v, hv, hp, h.log.producer p t v hp⟩
  all_goals
    rw [hla] at hn
    cases c <;> simp only [next] at hn <;> try split at hn
    all_goals simp at hn

omit [DecidableEq Tid] in
theorem Inv.owner_unique (h : Inv es s) {i : Fin R.size} {b : Tid}
    (ha : (s.threads a).OwnsSlot R i) (hb : (s.threads b).OwnsSlot R i) : a = b := by
  have key : ∀ c, (s.threads c).OwnsSlot R i → ∃ j : Job T,
      (s.threads c).ticket? = some (j.side, i.val) ∧
        (s.shared.slot i.val).generation = j.side.parity := by
    intro c hc
    obtain ⟨j, t, hc, hi⟩ := hc
    have hl := h.locals c
    have hlap : t < R.size := by
      obtain hc | ⟨x, hc⟩ := hc <;> rw [hc] at hl <;> exact hl.checked_lt t rfl
    obtain rfl : i.val = t := by rw [← hi, R.index_val, Nat.mod_eq_of_lt hlap]
    refine ⟨j, ?_, ?_⟩
    · obtain hc | ⟨x, hc⟩ := hc <;> rw [hc] <;> rfl
    · obtain hc | ⟨x, hc⟩ := hc <;> rw [hc] at hl <;> cases j <;>
        exact (hl.expects _ rfl hlap).1
  obtain ⟨j, hj, hgen⟩ := key a ha
  obtain ⟨k, hk, hgen'⟩ := key b hb
  have hside : j.side = k.side := by
    rw [hgen] at hgen'
    revert hgen'
    cases j.side <;> cases k.side <;> simp [Side.parity]
  exact h.distinct a b _ hj (hside ▸ hk)

/-- Exclusive slots, live elements where they are expected, and one value for each
ticket. -/
theorem slots_exclusive_and_tickets_paired (hr : (machine R T Tid).Run es s)
    (hb : ∀ side, draws side es < 2 ^ 31) :
    (∀ i a b, (s.threads a).OwnsSlot R i → (s.threads b).OwnsSlot R i → a = b) ∧
    (∀ a v t, s.threads a = .work (.emplace v) t → (s.shared.slot t).data = none) ∧
    (∀ a t, s.threads a = .work .dequeue t → (s.shared.slot t).data.isSome) ∧
    (∀ es₁ es₂ c t x, es = es₁ ++ (c, .moved t x) :: es₂ →
      (c, Event.drawn .head t) ∈ es₁ ∧ ∃ p v, x = some v ∧
        (p, Event.constructed t v) ∈ es₁ ∧ (p, Event.drawn .tail t) ∈ es₁) ∧
    (constructedTickets es).Nodup ∧ (movedTickets es).Nodup := by
  have h := Inv.of_run hr hb
  refine ⟨fun i a b => h.owner_unique, fun a v t hla => ?_, fun a t hla => ?_,
    fun es₁ es₂ c t x hes => ?_, h.log.constructed_nodup, h.log.moved_nodup⟩
  · have hl := hla ▸ h.locals a
    exact (hl.expects t rfl (hl.checked_lt t rfl)).2
  · have hl := hla ▸ h.locals a
    exact (hl.expects t rfl (hl.checked_lt t rfl)).2
  · subst hes
    obtain ⟨u, u', hu, hs, -⟩ := hr.at_event
    refine Inv.delivered (hu.snoc hs) fun side => ?_
    exact draws_prefix_lt (hb side)

theorem slots_exclusive_and_tickets_paired_first :
    ∃ s, (machine .smallest ℕ Bool).Run
        [(true, .called (.emplace 5)), (false, .called .dequeue), (false, .drawn .head 0),
          (true, .drawn .tail 0), (true, .silent), (false, .silent), (true, .constructed 0 5),
          (true, .returned (.done none)), (false, .silent), (false, .moved 0 (some 5))] s ∧
      ∀ i a b, Local.OwnsSlot .smallest (s.threads a) i → Local.OwnsSlot .smallest (s.threads b) i →
        a = b := by
  obtain ⟨s, hr⟩ : ∃ s, (machine .smallest ℕ Bool).Run _ s :=
    ⟨_, Machine.Path.of_exec [(true, .call (.emplace 5)), (false, .call .dequeue), (false, .go),
      (true, .go), (true, .go), (false, .go), (true, .go), (true, .go), (false, .go),
      (false, .go)] rfl⟩
  refine ⟨s, hr, (slots_exclusive_and_tickets_paired hr fun side => ?_).1⟩
  cases side <;> decide

end LockFree.MpmcQueue
