import Mathlib.Data.List.FinRange
import Mathlib.Data.List.Perm.Basic
import LockFree.MpmcQueueSafety

/-!
# Every element of BoundedMPMCQueue is destroyed once

Outside the hands of its owner, a slot holds a live object exactly when its generation
is odd: the destructor of the slot trusts the parity alone.
-/

namespace LockFree.MpmcQueue
open BufferSize TransitionRuns

variable {R : Ring} {T Tid : Type*}

/-- `~MPMCQueueSlot` of every slot: where it runs `Destroy`, and on which object. -/
def Shared.destructor (g : Shared R T) : List (Fin R.size × Option T) :=
  ((List.finRange R.size).filter fun i => (g.buffer i).generation &&& 1 ≠ 0).map fun i =>
    (i, (g.buffer i).data)

theorem next_cases {g g' : Shared R T} {l l' : Local T} {c : Choice T} {e : Event T}
    (hn : next g l c = some (g', l', e)) :
    (g'.buffer = g.buffer ∧ e.constructed? = none ∧ e.moved? = none ∧
      ∀ i, l.OwnsSlot R i → l'.OwnsSlot R i) ∨
    (∃ v t, l = .work (.emplace v) t ∧ l' = .publish (.emplace v) t none ∧
      e = .constructed t v ∧ g' = g.setSlot t ((g.slot t).construct v)) ∨
    (∃ t, l = .work .dequeue t ∧ l' = .publish .dequeue t (g.slot t).data ∧
      e = .moved t (g.slot t).data ∧ g' = g.setSlot t (g.slot t).destroy) ∨
    ∃ j t x, l = .publish j t x ∧ l' = .idle ∧ e = .returned (.done x) ∧
      g' = g.setSlot t ((g.slot t).storeGeneration ((j.generation R t + 1) % 2 ^ 32)) := by
  have hdraw : ∀ side, (g.draw side).buffer = g.buffer := fun side => by cases side <;> rfl
  have hfree : (∀ j t x, l ≠ .work j t ∧ l ≠ .publish j t x) →
      ∀ i, l.OwnsSlot R i → l'.OwnsSlot R i := by
    intro hl i hi
    obtain ⟨j, t, hw | ⟨x, hp⟩, -⟩ := hi
    · exact absurd hw (hl j t none).1
    · exact absurd hp (hl j t x).2
  cases l with
  | work j t =>
    cases c with
    | go =>
      cases j with
      | emplace v =>
        cases hn
        exact .inr (.inl ⟨v, t, rfl, rfl, rfl, rfl⟩)
      | dequeue =>
        cases hn
        exact .inr (.inr (.inl ⟨t, rfl, rfl, rfl, rfl⟩))
    | call | spurious => cases j <;> cases hn
  | publish j t x =>
    cases c <;> cases hn
    exact .inr (.inr (.inr ⟨j, t, x, rfl, rfl, rfl, rfl⟩))
  | idle | fetchAdd | wait | load | check | exchange | reload =>
    refine .inl ?_
    have hown := hfree (by simp)
    unfold next at hn
    grind [Event.constructed?, Event.moved?]

variable {es : List (Tid × Event T)} {s s' : Pool Tid (Shared R T) (Local T)} {a : Tid} {e : Event T}
  {t : ℕ} {x : Slot T} {l : Local T}

structure Lives (es : List (Tid × Event T)) (s : Pool Tid (Shared R T) (Local T)) : Prop where
  live : ∀ t < R.size, (s.shared.slot t).data.isSome ↔
    t ∈ constructedTickets es ∧ t ∉ movedTickets es
  settled : ∀ i, (∀ a, ¬ (s.threads a).OwnsSlot R i) →
    ((s.shared.buffer i).data.isSome ↔ (s.shared.buffer i).generation % 2 = 1)

theorem constructedTickets_snoc : constructedTickets (es ++ [(a, e)]) =
    constructedTickets es ++ e.constructed?.toList := by
  simp only [constructedTickets, List.filterMap_append]
  cases he : e.constructed? <;> simp [he]

theorem movedTickets_snoc : movedTickets (es ++ [(a, e)]) =
    movedTickets es ++ e.moved?.toList := by
  simp only [movedTickets, List.filterMap_append]
  cases he : e.moved? <;> simp [he]

variable [DecidableEq Tid]

theorem not_owns_of_update {i : Fin R.size}
    (hfree : ∀ b, ¬ (Function.update s.threads a l b).OwnsSlot R i)
    (ha : (s.threads a).OwnsSlot R i → l.OwnsSlot R i) : ∀ b, ¬ (s.threads b).OwnsSlot R i := by
  intro b hb
  have hfree := hfree b
  by_cases hba : b = a
  · subst hba
    rw [Function.update_self] at hfree
    exact hfree (ha hb)
  · rw [Function.update_of_ne hba] at hfree
    exact hfree hb

theorem Lives.setSlot (h : Lives es s) (ht : t < R.size)
    (hlive : x.data.isSome ↔ t ∈ constructedTickets (es ++ [(a, e)]) ∧
      t ∉ movedTickets (es ++ [(a, e)]))
    (hother : ∀ u, u ≠ t → (u ∈ constructedTickets (es ++ [(a, e)]) ↔ u ∈ constructedTickets es) ∧
      (u ∈ movedTickets (es ++ [(a, e)]) ↔ u ∈ movedTickets es))
    (hown : ∀ i, (s.threads a).OwnsSlot R i → i = R.index t ∨ l.OwnsSlot R i)
    (hsettled : ¬ l.OwnsSlot R (R.index t) → (x.data.isSome ↔ x.generation % 2 = 1)) :
    Lives (es ++ [(a, e)]) ⟨s.shared.setSlot t x, Function.update s.threads a l⟩ := by
  constructor
  · intro u hu
    rw [Shared.slot_setSlot_small _ ht hu]
    by_cases hut : u = t
    · rw [if_pos hut, hut]
      exact hlive
    · rw [if_neg hut, (hother u hut).1, (hother u hut).2]
      exact h.live u hu
  · intro i hfree
    dsimp only [Shared.setSlot]
    by_cases hi : i = R.index t
    · subst hi
      have hl := hfree a
      dsimp only at hl
      rw [Function.update_self] at hl
      rw [Function.update_self]
      exact hsettled hl
    · rw [Function.update_of_ne hi]
      refine h.settled i (not_owns_of_update hfree fun ha => ?_)
      exact (hown i ha).resolve_left hi

theorem Lives.go {g' : Shared R T} {l' : Local T} {c : Choice T} (h : Lives es s) (hi : Inv es s)
    (hn : next s.shared (s.threads a) c = some (g', l', e)) :
    Lives (es ++ [(a, e)]) ⟨g', Function.update s.threads a l'⟩ := by
  have hl := hi.locals a
  rcases next_cases hn with ⟨hbuffer, hc, hm, hown⟩ | ⟨v, t, hla, rfl, rfl, rfl⟩ |
    ⟨t, hla, rfl, rfl, rfl⟩ | ⟨j, t, y, hla, rfl, rfl, rfl⟩
  · constructor
    · intro t ht
      rw [constructedTickets_snoc, movedTickets_snoc, hc, hm]
      simpa [Shared.slot, hbuffer] using h.live t ht
    · intro i hfree
      dsimp only
      rw [hbuffer]
      exact h.settled i (not_owns_of_update hfree (hown i))
  · rw [hla] at hl
    have ht := hl.checked_lt t rfl
    have hvacant : (s.shared.slot t).Vacant := hl.expects t rfl ht
    have hunmoved : t ∉ movedTickets es := by
      rw [mem_movedTickets]
      rintro ⟨b, y, hb⟩
      have hemptied := (hi.log.moved b t y hb).2
      rw [Slot.Emptied, hvacant.1] at hemptied
      simp at hemptied
    refine h.setSlot ht ?_ (fun u hu => ?_) (fun i hown => ?_) fun hown => ?_
    · rw [constructedTickets_snoc, movedTickets_snoc]
      simp [Slot.construct, Event.constructed?, Event.moved?, hunmoved]
    · rw [constructedTickets_snoc, movedTickets_snoc]
      simp [Event.constructed?, Event.moved?, hu]
    · rw [hla] at hown
      obtain ⟨j, u, hw | ⟨y, hp⟩, rfl⟩ := hown
      · cases hw
        exact .inl rfl
      · cases hp
    · exact absurd ⟨_, t, .inr ⟨none, rfl⟩, rfl⟩ hown
  · rw [hla] at hl
    have ht := hl.checked_lt t rfl
    refine h.setSlot ht ?_ (fun u hu => ?_) (fun i hown => ?_) fun hown => ?_
    · rw [movedTickets_snoc]
      simp [Slot.destroy, Event.moved?]
    · rw [constructedTickets_snoc, movedTickets_snoc]
      simp [Event.constructed?, Event.moved?, hu]
    · rw [hla] at hown
      obtain ⟨j, u, hw | ⟨y, hp⟩, rfl⟩ := hown
      · cases hw
        exact .inl rfl
      · cases hp
    · exact absurd ⟨_, t, .inr ⟨_, rfl⟩, rfl⟩ hown
  · rw [hla] at hl
    have ht := hl.checked_lt t rfl
    have hexp := hl.expects t rfl ht
    refine h.setSlot ht ?_ (fun u hu => ?_) (fun i hown => ?_) fun _ => ?_
    · rw [constructedTickets_snoc, movedTickets_snoc]
      simpa [Slot.storeGeneration, Event.constructed?, Event.moved?] using h.live t ht
    · rw [constructedTickets_snoc, movedTickets_snoc]
      simp [Event.constructed?, Event.moved?]
    · rw [hla] at hown
      obtain ⟨k, u, hw | ⟨z, hp⟩, rfl⟩ := hown
      · cases hw
      · cases hp
        exact .inl rfl
    · -- the parity flips when the object comes or goes
      rw [generation_first_lap ht]
      cases j with
      | emplace v =>
        have hdata : (s.shared.slot t).data.isSome := hexp.2
        simp [Slot.storeGeneration, Job.side, Side.parity, hdata]
      | dequeue =>
        have hdata : (s.shared.slot t).data = none := hexp.2
        simp [Slot.storeGeneration, Job.side, Side.parity, hdata]

theorem Lives.of_run (hr : (machine R T Tid).Run es s) (hb : ∀ side, draws side es < 2 ^ 31) :
    Lives es s := by
  refine Machine.Run.invariant (I := fun es s => (∀ side, draws side es < 2 ^ 31) → Lives es s)
    (fun _ => ⟨fun t _ => ?_, fun i _ => ?_⟩) (fun es s e s' hr ih hs hb' => ?_) hr hb
  · simp [machine, Pool.machine, Shared.fresh, Shared.slot, constructedTickets]
  · simp [machine, Pool.machine, Shared.fresh]
  · have hprefix : ∀ side, draws side es < 2 ^ 31 := fun side => draws_prefix_lt (hb' side)
    obtain ⟨c, g', l', hn, rfl⟩ := Pool.step_iff.mp hs
    exact (ih hprefix).go (Inv.of_run hr hprefix) hn

theorem constructed_of_moved (hr : (machine R T Tid).Run es s)
    (hb : ∀ side, draws side es < 2 ^ 31) {c : Tid} {y : Option T}
    (hmem : (c, Event.moved t y) ∈ es) : y.isSome ∧ t ∈ constructedTickets es := by
  obtain ⟨es₁, es₂, rfl⟩ := List.append_of_mem hmem
  obtain ⟨u, u', hu, hs, -⟩ := hr.at_event
  obtain ⟨-, p, v, rfl, hp, -⟩ := Inv.delivered (hu.snoc hs) fun side => draws_prefix_lt (hb side)
  exact ⟨rfl, mem_constructedTickets.mpr ⟨p, v, List.mem_append_left _ hp⟩⟩

theorem Shared.slot_val (g : Shared R T) (i : Fin R.size) : g.slot i.val = g.buffer i := by
  refine congrArg g.buffer (Fin.ext ?_)
  rw [R.index_val, Nat.mod_eq_of_lt i.isLt]

/-- Objects are named by the ticket that constructed them; on the first lap, the only one
whose tickets are ever served, this is the number of the slot. -/
theorem destroyed_once (hr : (machine R T Tid).Run es s) (hb : ∀ side, draws side es < 2 ^ 31) :
    (∀ i, (∀ a, ¬ (s.threads a).OwnsSlot R i) →
      ((s.shared.buffer i).data.isSome ↔ (s.shared.buffer i).generation % 2 = 1)) ∧
    ((∀ a, s.threads a = .idle) →
      (constructedTickets es).Nodup ∧
      (movedTickets es ++ s.shared.destructor.map fun x => x.1.val).Perm (constructedTickets es) ∧
      (∀ c t x, (c, Event.moved t x) ∈ es → x.isSome) ∧
      ∀ i x, (i, x) ∈ s.shared.destructor → x.isSome) := by
  have h := Inv.of_run hr hb
  have hlives := Lives.of_run hr hb
  refine ⟨hlives.settled, fun hidle => ?_⟩
  have hparity : ∀ i, (s.shared.buffer i).data.isSome ↔ (s.shared.buffer i).generation % 2 = 1 := by
    refine fun i => hlives.settled i fun a ha => ?_
    obtain ⟨j, t, hw | ⟨x, hp⟩, -⟩ := ha
    · rw [hidle] at hw
      cases hw
    · rw [hidle] at hp
      cases hp
  have hdestructor : ∀ i x, (i, x) ∈ s.shared.destructor ↔
      (s.shared.buffer i).data.isSome ∧ x = (s.shared.buffer i).data := by
    intro i x
    rw [hparity, Shared.destructor, List.mem_map]
    constructor
    · rintro ⟨k, hk, heq⟩
      cases heq
      have hodd := (List.mem_filter.mp hk).2
      rw [Nat.and_one_is_mod] at hodd
      exact ⟨by simpa using hodd, rfl⟩
    · rintro ⟨hodd, rfl⟩
      refine ⟨i, List.mem_filter.mpr ⟨List.mem_finRange i, ?_⟩, rfl⟩
      rw [Nat.and_one_is_mod, hodd]
      rfl
  refine ⟨h.log.constructed_nodup, ?_, fun c t x hmem => (constructed_of_moved hr hb hmem).1,
    fun i x hx => ?_⟩
  · have hmap : s.shared.destructor.map (fun x => x.1.val) =
        ((List.finRange R.size).filter fun i => (s.shared.buffer i).generation &&& 1 ≠ 0).map
          Fin.val := by
      rw [Shared.destructor, List.map_map]
      rfl
    have hmem : ∀ t, t ∈ s.shared.destructor.map (fun x => x.1.val) ↔
        t ∈ constructedTickets es ∧ t ∉ movedTickets es := by
      intro t
      rw [List.mem_map]
      constructor
      · rintro ⟨⟨i, x⟩, hx, rfl⟩
        obtain ⟨hlive, -⟩ := (hdestructor i x).mp hx
        exact (hlives.live i.val i.isLt).mp (by rwa [Shared.slot_val])
      · rintro ⟨hc, hm⟩
        obtain ⟨p, v, hp⟩ := mem_constructedTickets.mp hc
        have ht := (h.log.constructed p t v hp).1
        have hlive := (hlives.live t ht).mpr ⟨hc, hm⟩
        exact ⟨(⟨t, ht⟩, _), (hdestructor ⟨t, ht⟩ _).mpr ⟨by rwa [← Shared.slot_val], rfl⟩, rfl⟩
    refine (List.perm_ext_iff_of_nodup ?_ h.log.constructed_nodup).mpr fun t => ?_
    · refine h.log.moved_nodup.append ?_ fun t ht hd => ((hmem t).mp hd).2 ht
      rw [hmap]
      exact ((List.nodup_finRange _).filter _).map Fin.val_injective
    · rw [List.mem_append, hmem]
      constructor
      · rintro (hm | ⟨hc, -⟩)
        · obtain ⟨c, x, hx⟩ := mem_movedTickets.mp hm
          exact (constructed_of_moved hr hb hx).2
        · exact hc
      · intro hc
        by_cases hm : t ∈ movedTickets es
        · exact .inl hm
        · exact .inr ⟨hc, hm⟩
  · obtain ⟨hlive, rfl⟩ := (hdestructor i x).mp hx
    exact hlive

theorem destroyed_once_left :
    ∃ es, ∃ s : Pool Bool (Shared .smallest ℕ) (Local ℕ), (machine .smallest ℕ Bool).Run es s ∧
      constructedTickets es = [0, 1] ∧ movedTickets es = [0] ∧
      (movedTickets es ++ s.shared.destructor.map fun x => x.1.val).Perm (constructedTickets es) := by
  obtain ⟨s, hr, hidle⟩ : ∃ s, (machine .smallest ℕ Bool).Run
      [(true, .called (.emplace 5)), (true, .drawn .tail 0), (true, .silent), (true, .constructed 0 5),
        (true, .returned (.done none)), (true, .called (.emplace 6)), (true, .drawn .tail 1),
        (true, .silent), (true, .constructed 1 6), (true, .returned (.done none)),
        (false, .called .dequeue), (false, .drawn .head 0), (false, .silent),
        (false, .moved 0 (some 5)), (false, .returned (.done (some 5)))] s ∧
        ∀ a, s.threads a = .idle := by
    refine ⟨_, Machine.Path.of_exec [(true, .call (.emplace 5)), (true, .go), (true, .go),
      (true, .go), (true, .go), (true, .call (.emplace 6)), (true, .go), (true, .go), (true, .go),
      (true, .go), (false, .call .dequeue), (false, .go), (false, .go), (false, .go),
      (false, .go)] rfl, ?_⟩
    intro a
    cases a <;> rfl
  refine ⟨_, s, hr, rfl, rfl, ((destroyed_once hr fun side => ?_).2 hidle).2.1⟩
  cases side <;> decide

end LockFree.MpmcQueue
