import LockFree.MpmcQueueLifetimes

/-!
# A refused TryDequeue saw an empty slot

A ticket that was drawn is held by a thread until its generation is stored. A
`TryDequeue` that gives up read a wrong generation and then the same head as before:
the head had not moved in between, so the slot it looked at was the next one.
-/

namespace LockFree.MpmcQueue
open BufferSize TransitionRuns

variable {R : Ring} {T Tid : Type*}

theorem next_tickets {g g' : Shared R T} {l l' : Local T} {c : Choice T} {e : Event T}
    (hn : next g l c = some (g', l', e)) :
    (l'.ticket? = l.ticket? ∧ (∀ side, g'.counter side = g.counter side) ∧
      ∀ t, (g'.slot t).generation = (g.slot t).generation) ∨
    (∃ side, l.ticket? = none ∧ l'.ticket? = some (side, g.counter side) ∧ g' = g.draw side) ∨
    ∃ j t x, l = .publish j t x ∧ l' = .idle ∧
      g' = g.setSlot t ((g.slot t).storeGeneration ((j.generation R t + 1) % 2 ^ 32)) := by
  have hkeep : ∀ t y, y.generation = (g.slot t).generation → ∀ u,
      ((g.setSlot t y).slot u).generation = (g.slot u).generation := by
    intro t y hy u
    rw [Shared.slot_setSlot]
    split
    · rename_i hut
      rw [hy]
      exact congrArg (fun i => (g.buffer i).generation) (R.index_eq_iff.mpr hut.symm)
    · rfl
  cases l with
  | work j t =>
    cases c with
    | go =>
      refine .inl ?_
      cases j <;> cases hn
      · exact ⟨rfl, fun side => Shared.counter_setSlot g t _ side, hkeep t _ rfl⟩
      · exact ⟨rfl, fun side => Shared.counter_setSlot g t _ side, hkeep t _ rfl⟩
    | call | spurious => cases j <;> cases hn
  | publish j t x =>
    cases c <;> cases hn
    exact .inr (.inr ⟨j, t, x, rfl, rfl, rfl⟩)
  | fetchAdd j =>
    cases c <;> cases hn
    exact .inr (.inl ⟨j.side, rfl, rfl, rfl⟩)
  | exchange j t =>
    unfold next at hn
    grind [Local.ticket?]
  | idle =>
    cases c with
    | call c =>
      cases hn
      exact .inl ⟨by cases c <;> rfl, fun _ => rfl, fun _ => rfl⟩
    | go | spurious => cases hn
  | wait | load | check | reload =>
    refine .inl ?_
    unfold next at hn
    grind [Local.ticket?]

def Served (s : Pool Tid (Shared R T) (Local T)) : Prop :=
  ∀ side t, t < s.shared.counter side → (∃ a, (s.threads a).ticket? = some (side, t)) ∨
    (t < R.size ∧ 1 ≤ (s.shared.slot t).generation)

section
variable {es : List (Tid × Event T)} {s s' : Pool Tid (Shared R T) (Local T)} {a : Tid}
  {e : Event T} {l : Local T} [DecidableEq Tid]

theorem Served.update {g : Shared R T} (h : Served s)
    (hcounter : ∀ side, g.counter side = s.shared.counter side)
    (hgen : ∀ t < R.size, (s.shared.slot t).generation ≤ (g.slot t).generation)
    (hmine : ∀ side t, (s.threads a).ticket? = some (side, t) → l.ticket? = some (side, t) ∨
      (t < R.size ∧ 1 ≤ (g.slot t).generation)) :
    Served ⟨g, Function.update s.threads a l⟩ := by
  intro side t ht
  dsimp only at ht ⊢
  rw [hcounter] at ht
  rcases h side t ht with ⟨b, hb⟩ | ⟨hlap, hserved⟩
  · by_cases hba : b = a
    · subst hba
      rcases hmine side t hb with hl | hserved
      · exact .inl ⟨b, by rwa [Function.update_self]⟩
      · exact .inr hserved
    · exact .inl ⟨b, by rwa [Function.update_of_ne hba]⟩
  · exact .inr ⟨hlap, hserved.trans (hgen t hlap)⟩

theorem Served.draw {side : Side} (h : Served s) (hlt : s.shared.counter side + 1 < 2 ^ 64)
    (hnone : (s.threads a).ticket? = none)
    (hl : l.ticket? = some (side, s.shared.counter side)) :
    Served ⟨s.shared.draw side, Function.update s.threads a l⟩ := by
  intro side' t ht
  dsimp only at ht ⊢
  by_cases hnew : side' = side ∧ t = s.shared.counter side
  · obtain ⟨rfl, rfl⟩ := hnew
    exact .inl ⟨a, by rwa [Function.update_self]⟩
  · have hold : t < s.shared.counter side' := by
      by_cases hside : side' = side
      · subst hside
        rw [Shared.counter_draw_self, Nat.mod_eq_of_lt hlt] at ht
        have hne : t ≠ s.shared.counter side' := fun heq => hnew ⟨rfl, heq⟩
        omega
      · rwa [Shared.counter_draw_ne _ hside] at ht
    rcases h side' t hold with ⟨b, hb⟩ | hserved
    · have hba : b ≠ a := by
        rintro rfl
        rw [hnone] at hb
        cases hb
      exact .inl ⟨b, by rwa [Function.update_of_ne hba]⟩
    · refine .inr ?_
      rwa [Shared.slot_draw]

theorem Served.go {g' : Shared R T} {l' : Local T} {c : Choice T} (h : Served s) (hi : Inv es s)
    (hb : ∀ side, draws side es < 2 ^ 31)
    (hn : next s.shared (s.threads a) c = some (g', l', e)) :
    Served ⟨g', Function.update s.threads a l'⟩ := by
  rcases next_tickets hn with ⟨hticket, hcounter, hgen⟩ | ⟨side, hnone, hticket, rfl⟩ |
    ⟨j, t, x, hla, rfl, rfl⟩
  · refine h.update hcounter (fun t _ => (hgen t).ge) fun side t ht => .inl ?_
    rw [hticket, ht]
  · have hlt := hi.counter_lt hb side
    exact h.draw (by omega) hnone hticket
  · have hl := hla ▸ hi.locals a
    have hlap := hl.checked_lt t rfl
    have hstored : (j.generation R t + 1) % 2 ^ 32 = j.side.parity + 1 := by
      rw [generation_first_lap hlap]
      cases j <;> rfl
    have hbefore : (s.shared.slot t).generation = j.side.parity := by
      cases j <;> exact (hl.expects t rfl hlap).1
    refine h.update (fun side => Shared.counter_setSlot _ _ _ side) (fun u hu => ?_)
      fun side u hu => .inr ?_
    · rw [Shared.slot_setSlot_small _ hlap hu]
      split
      · rename_i hut
        subst hut
        rw [Slot.storeGeneration, hstored, hbefore]
        exact Nat.le_succ _
      · exact le_rfl
    · rw [hla] at hu
      cases hu
      refine ⟨hlap, ?_⟩
      rw [Shared.slot_setSlot_small _ hlap hlap, if_pos rfl, Slot.storeGeneration, hstored]
      exact Nat.le_add_left _ _

theorem Served.of_run (hr : (machine R T Tid).Run es s) (hb : ∀ side, draws side es < 2 ^ 31) :
    Served s := by
  refine Machine.Run.invariant (I := fun es s => (∀ side, draws side es < 2 ^ 31) → Served s)
    (fun _ side t ht => ?_) (fun es s e s' hr ih hs hb' => ?_) hr hb
  · cases side <;> exact absurd ht (Nat.not_lt_zero t)
  · have hprefix : ∀ side, draws side es < 2 ^ 31 := fun side => draws_prefix_lt (hb' side)
    obtain ⟨c, g', l', hn, rfl⟩ := Pool.step_iff.mp hs
    exact (ih hprefix).go (Inv.of_run hr hprefix) hprefix hn

end

/-- The producer of the ticket at the head has not stored its odd generation: the ticket
was not drawn, or its call is not finished. -/
def Unfinished (s : Pool Tid (Shared R T) (Local T)) : Prop :=
  s.shared.tail ≤ s.shared.head ∨ ∃ p, (s.threads p).ticket? = some (.tail, s.shared.head)

def Local.job? : Local T → Option (Job T)
  | .idle => none
  | .fetchAdd j | .wait j _ | .load j | .check j _ | .exchange j _ | .reload j _ | .work j _
  | .publish j _ _ => some j

theorem next_job {g g' : Shared R T} {l l' : Local T} {c : Choice T} {e : Event T} {j : Job T}
    (hn : next g l c = some (g', l', e)) (hj : l.job? = some j) :
    l'.job? = some j ∨ ∃ r, e = .returned r := by
  cases l with
  | work k t =>
    cases k <;> cases c <;> cases hn
    · exact .inl hj
    · exact .inl hj
  | idle => cases hj
  | fetchAdd | wait | load | check | exchange | reload | publish =>
    unfold next at hn
    grind [Local.job?]

theorem next_reload {g g' : Shared R T} {l : Local T} {c : Choice T} {e : Event T} {j : Job T}
    {t : ℕ} (hn : next g l c = some (g', .reload j t, e)) :
    l = .check j t ∧ g' = g ∧ j.generation R t ≠ (g.slot t).generation := by
  cases l with
  | idle =>
    cases c with
    | call c => cases c <;> cases hn
    | go | spurious => cases hn
  | work k t => cases k <;> cases c <;> cases hn
  | fetchAdd | wait | load | check | exchange | reload | publish =>
    unfold next at hn
    grind

variable {es : List (Tid × Event T)} {s s' : Pool Tid (Shared R T) (Local T)} {a : Tid}
  {e : Event T} {t : ℕ} [DecidableEq Tid]

omit [DecidableEq Tid] in
theorem Inv.unfinished (h : Inv es s) (hserved : Served s)
    (hgen : (Job.dequeue : Job T).generation R s.shared.head ≠
      (s.shared.slot s.shared.head).generation) : Unfinished s := by
  by_cases hdrawn : s.shared.tail ≤ s.shared.head
  · exact .inl hdrawn
  · refine .inr ?_
    rcases hserved .tail s.shared.head (by rwa [not_le] at hdrawn) with hheld | ⟨hlap, hone⟩
    · exact hheld
    · -- the odd generation was there, and no consumer has drawn the ticket
      have hle := ((h.slots _ hlap).undrawn_head le_rfl).1
      rw [generation_first_lap hlap] at hgen
      exact absurd (le_antisymm hone hle) hgen

theorem head_le_step (h : Inv es s) (hb : ∀ side, draws side es < 2 ^ 31)
    (hs : (machine R T Tid).Step s (a, e) s') : s.shared.head ≤ s'.shared.head := by
  obtain ⟨c, g', l', hn, rfl⟩ := Pool.step_iff.mp hs
  rcases next_tickets hn with ⟨-, hcounter, -⟩ | ⟨side, -, -, rfl⟩ | ⟨j, t, x, -, -, rfl⟩
  · exact (hcounter .head).ge
  · have hlt := h.counter_lt hb side
    exact Shared.counter_le_draw (by omega) .head
  · exact (Shared.counter_setSlot _ _ _ .head).ge

theorem head_le_path {fs : List (Tid × Event T)} (hr : (machine R T Tid).Run es s)
    (hb : ∀ side, draws side (es ++ fs) < 2 ^ 31) (hp : (machine R T Tid).Path s fs s') :
    s.shared.head ≤ s'.shared.head := by
  induction hp with
  | nil => exact le_rfl
  | @snoc u u' fs e hp hs ih =>
    rw [← List.append_assoc] at hb
    have hb' : ∀ side, draws side (es ++ fs) < 2 ^ 31 := fun side => draws_prefix_lt (hb side)
    have hr' : (machine R T Tid).Run (es ++ fs) u := Machine.Path.trans hr hp
    exact (ih hb').trans (head_le_step (Inv.of_run hr' hb') hb' hs)

structure Looking (s₀ : Pool Tid (Shared R T) (Local T)) (a : Tid) (fs : List (Tid × Event T))
    (s : Pool Tid (Shared R T) (Local T)) : Prop where
  job : (s.threads a).job? = some .dequeue
  seen : ∀ t, s.threads a = .reload .dequeue t → ∃ fs₁ fs₂ u, fs = fs₁ ++ fs₂ ∧
    (machine R T Tid).Path s₀ fs₁ u ∧ (machine R T Tid).Path u fs₂ s ∧
    t ≤ u.shared.head ∧ (u.shared.head = t → Unfinished u)

theorem looking_of_path {s₀ : Pool Tid (Shared R T) (Local T)} {fs : List (Tid × Event T)}
    (hr : (machine R T Tid).Run es s₀) (hb : ∀ side, draws side (es ++ fs) < 2 ^ 31)
    (hp : (machine R T Tid).Path s₀ fs s) (h₀ : s₀.threads a = .load .dequeue)
    (hfs : ∀ r, (a, Event.returned r) ∉ fs) : Looking s₀ a fs s := by
  induction hp with
  | nil =>
    refine ⟨by rw [h₀]; rfl, fun t ht => ?_⟩
    rw [h₀] at ht
    cases ht
  | @snoc u u' fs e hp hs ih =>
    obtain ⟨b, e⟩ := e
    rw [← List.append_assoc] at hb
    have hb' : ∀ side, draws side (es ++ fs) < 2 ^ 31 := fun side => draws_prefix_lt (hb side)
    have hlook := ih hb' fun r hmem => hfs r (List.mem_append_left _ hmem)
    have hr' : (machine R T Tid).Run (es ++ fs) u := Machine.Path.trans hr hp
    obtain ⟨c, g', l', hn, rfl⟩ := Pool.step_iff.mp hs
    by_cases hba : b = a
    · subst hba
      constructor
      · dsimp only
        rw [Function.update_self]
        rcases next_job hn hlook.job with hjob | ⟨r, rfl⟩
        · exact hjob
        · exact absurd (List.mem_append_right _ (List.mem_singleton_self _)) (hfs r)
      · intro t ht
        dsimp only at ht
        rw [Function.update_self] at ht
        subst ht
        obtain ⟨hla, rfl, hgen⟩ := next_reload hn
        have hi := Inv.of_run hr' hb'
        have hle := (hla ▸ hi.locals b).candidate_le .head t rfl
        refine ⟨fs, [(b, e)], u, rfl, hp, .single hs, hle, fun heq => ?_⟩
        apply hi.unfinished (Served.of_run hr' hb')
        rwa [heq]
    · constructor
      · dsimp only
        rw [Function.update_of_ne (Ne.symm hba)]
        exact hlook.job
      · intro t ht
        dsimp only at ht
        rw [Function.update_of_ne (Ne.symm hba)] at ht
        obtain ⟨fs₁, fs₂, w, rfl, hp₁, hp₂, hrest⟩ := hlook.seen t ht
        exact ⟨fs₁, fs₂ ++ [(b, e)], w, List.append_assoc .., hp₁, hp₂.snoc hs, hrest⟩

theorem next_refused {g g' : Shared R T} {l l' : Local T} {c : Choice T}
    (hn : next g l c = some (g', l', .returned .refused)) (hj : l.job? = some .dequeue) :
    l = .reload .dequeue g.head := by
  cases l with
  | work k t => cases k <;> cases c <;> cases hn
  | idle => cases hj
  | reload j t =>
    cases hj
    cases c with
    | go =>
      simp only [next] at hn
      split at hn
      · rename_i heq
        rw [heq]
        rfl
      · cases hn
    | call | spurious => cases hn
  | fetchAdd | wait | load | check | exchange | publish =>
    unfold next at hn
    grind

/-- Between the call and the return of a `TryDequeue` that gave up, the run passed a state
whose next element was not there. -/
theorem refused_saw_unfinished (hr : (machine R T Tid).Run es s)
    (hb : ∀ side, draws side es < 2 ^ 31) {es₁ es₂ es₃ : List (Tid × Event T)}
    (hes : es = es₁ ++ (a, .called .tryDequeue) :: es₂ ++ (a, .returned .refused) :: es₃)
    (hcall : ∀ r, (a, Event.returned r) ∉ es₂) :
    ∃ fs fs' u, es₂ = fs ++ fs' ∧
      (machine R T Tid).Run (es₁ ++ (a, .called .tryDequeue) :: fs) u ∧
      (machine R T Tid).Path u (fs' ++ (a, .returned .refused) :: es₃) s ∧ Unfinished u := by
  subst hes
  have hb' : ∀ side, draws side (es₁ ++ [(a, .called .tryDequeue)] ++ es₂) < 2 ^ 31 := by
    intro side
    rw [List.append_assoc]
    exact draws_prefix_lt (hb side)
  obtain ⟨w, hrw, hpw⟩ := hr.split
  obtain ⟨w', hret, hrest⟩ := hpw.head
  rw [List.append_cons] at hrw
  obtain ⟨s₀, hr₀, hp⟩ := hrw.split
  have h₀ : s₀.threads a = .load .dequeue := by
    obtain ⟨v, -, hs⟩ := hr₀.last
    obtain ⟨c, g', l', hn, rfl⟩ := Pool.step_iff.mp hs
    dsimp only
    rw [Function.update_self]
    generalize hla : v.threads a = l at hn
    cases l with
    | idle =>
      cases c <;> cases hn
      rfl
    | work k t => cases k <;> cases c <;> cases hn
    | fetchAdd | wait | load | check | exchange | reload | publish =>
      unfold next at hn
      grind
  have hlook := looking_of_path hr₀ hb' hp h₀ hcall
  obtain ⟨c, g', l', hn, rfl⟩ := Pool.step_iff.mp hret
  obtain ⟨fs, fs', u, rfl, hpu, hpw', hle, hunfinished⟩ :=
    hlook.seen _ (next_refused hn hlook.job)
  have hru : (machine R T Tid).Run (es₁ ++ [(a, .called .tryDequeue)] ++ fs) u := hr₀.trans hpu
  rw [← List.append_assoc] at hb'
  have hmono := head_le_path hru hb' hpw'
  refine ⟨fs, fs', u, rfl, ?_, hpw'.trans ?_, hunfinished (le_antisymm hmono hle)⟩
  · rwa [List.append_cons]
  · exact (Machine.Path.single hret).trans hrest

theorem refused_saw_unfinished_drawn :
    ∃ fs fs' u, [(false, .silent), (true, .drawn .tail 0), (false, .silent)] = fs ++ fs' ∧
      (machine .smallest ℕ Bool).Run
        ([(true, .called (.emplace 5))] ++ (false, .called .tryDequeue) :: fs) u ∧
      Unfinished u := by
  obtain ⟨s, hr⟩ : ∃ s, (machine .smallest ℕ Bool).Run
      ([(true, .called (.emplace 5))] ++ (false, .called .tryDequeue) ::
        [(false, .silent), (true, .drawn .tail 0), (false, .silent)] ++
        (false, .returned .refused) :: []) s :=
    ⟨_, Machine.Path.of_exec [(true, .call (.emplace 5)), (false, .call .tryDequeue), (false, .go),
      (true, .go), (false, .go), (false, .go)] rfl⟩
  have hb : ∀ side, draws side ([(true, .called (.emplace 5))] ++ (false, .called .tryDequeue) ::
      [(false, .silent), (true, .drawn .tail 0), (false, .silent)] ++
      (false, Event.returned .refused) :: []) < 2 ^ 31 := by
    intro side
    cases side <;> decide
  obtain ⟨fs, fs', u, hfs, hru, -, hu⟩ := refused_saw_unfinished hr hb rfl (by simp)
  exact ⟨fs, fs', u, hfs, hru, hu⟩

end LockFree.MpmcQueue
