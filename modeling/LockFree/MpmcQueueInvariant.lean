import LockFree.MpmcQueue
import Mathlib.Data.List.Nodup

/-!
# The invariant of BoundedMPMCQueue

The invariant follows one slot through its generations. A slot is left with
generation 0, 1 or 2, and the ticket of a later lap asks for a generation of at
least `2 * size`, so that only the tickets below the size ever pass their check:
slot and ticket are then the same number.
-/

namespace LockFree.MpmcQueue
open BufferSize TransitionRuns

variable {R : Ring} {T Tid : Type*}

def Local.ticket? : Local T → Option (Side × ℕ)
  | .wait j t | .work j t | .publish j t _ => some (j.side, t)
  | _ => none

def Local.OwnsSlot (R : Ring) (l : Local T) (i : Fin R.size) : Prop :=
  ∃ j t, (l = .work j t ∨ ∃ e, l = .publish j t e) ∧ R.index t = i

def Event.drawn? : Event T → Option Side
  | .drawn side _ => some side
  | _ => none

def Event.constructed? : Event T → Option ℕ
  | .constructed t _ => some t
  | _ => none

def Event.moved? : Event T → Option ℕ
  | .moved t _ => some t
  | _ => none

def draws (side : Side) (es : List (Tid × Event T)) : ℕ :=
  (es.filterMap fun e => e.2.drawn?).count side

def constructedTickets (es : List (Tid × Event T)) : List ℕ :=
  es.filterMap fun e => e.2.constructed?

def movedTickets (es : List (Tid × Event T)) : List ℕ :=
  es.filterMap fun e => e.2.moved?

namespace Slot

def Vacant (s : Slot T) : Prop := s.generation = 0 ∧ s.data = none
def Undelivered (s : Slot T) : Prop := s.generation ≤ 1 ∧ (s.generation = 1 → s.data.isSome)
def Filled (s : Slot T) : Prop := 1 ≤ s.generation ∨ s.data.isSome
def Emptied (s : Slot T) : Prop := s.generation = 2 ∨ (s.generation = 1 ∧ s.data = none)

end Slot

def Local.position? : Local T → Option ℕ
  | .wait _ t | .exchange _ t | .work _ t | .publish _ t _ => some t
  | _ => none

def Local.candidate? : Local T → Option (Side × ℕ)
  | .check j t => some (j.side, t)
  | _ => none

def Local.checked? : Local T → Option ℕ
  | .exchange _ t | .work _ t | .publish _ t _ => some t
  | _ => none

def Local.Expects : Local T → Slot T → Prop
  | .wait (.emplace _) _, s | .work (.emplace _) _, s => s.Vacant
  | .wait .dequeue _, s => s.Undelivered
  | .exchange .dequeue _, s => 1 ≤ s.generation
  | .work .dequeue _, s => s.generation = 1 ∧ s.data.isSome
  | .publish (.emplace _) _ _, s => s.generation = 0 ∧ s.data.isSome
  | .publish .dequeue _ _, s => s.generation = 1 ∧ s.data = none
  | _, _ => True

structure Local.Ok (g : Shared R T) (l : Local T) : Prop where
  ticket_lt : ∀ side t, l.ticket? = some (side, t) → t < g.counter side
  candidate_le : ∀ side t, l.candidate? = some (side, t) → t ≤ g.counter side
  checked_lt : ∀ t, l.checked? = some t → t < R.size
  expects : ∀ t, l.position? = some t → t < R.size → l.Expects (g.slot t)

structure SlotOk (g : Shared R T) (t : ℕ) : Prop where
  generation_le : (g.slot t).generation ≤ 2
  undrawn_tail : g.tail ≤ t → (g.slot t).Vacant
  undrawn_head : g.head ≤ t → (g.slot t).Undelivered

structure LogOk (es : List (Tid × Event T)) (g : Shared R T) : Prop where
  constructed : ∀ p t v, (p, Event.constructed t v) ∈ es → t < R.size ∧ (g.slot t).Filled
  producer : ∀ p t v, (p, Event.constructed t v) ∈ es → (p, Event.drawn .tail t) ∈ es
  stored : ∀ t < R.size, ∀ v, (g.slot t).data = some v → ∃ p, (p, Event.constructed t v) ∈ es
  moved : ∀ c t e, (c, Event.moved t e) ∈ es → t < R.size ∧ (g.slot t).Emptied
  constructed_nodup : (constructedTickets es).Nodup
  moved_nodup : (movedTickets es).Nodup

structure Inv (es : List (Tid × Event T)) (s : Pool Tid (Shared R T) (Local T)) : Prop where
  count : ∀ side, s.shared.counter side = draws side es
  locals : ∀ a, (s.threads a).Ok s.shared
  held : ∀ a side t, (s.threads a).ticket? = some (side, t) → (a, Event.drawn side t) ∈ es
  distinct : ∀ a b x, (s.threads a).ticket? = some x → (s.threads b).ticket? = some x → a = b
  slots : ∀ t < R.size, SlotOk s.shared t
  log : LogOk es s.shared

/-- A slot is never left with the generation a later lap asks for. -/
theorem first_lap {g : Shared R T} {j : Job T} {t : ℕ} (ht : t < 2 ^ 31)
    (hslots : ∀ t < R.size, SlotOk g t) (h : j.generation R t = (g.slot t).generation) :
    t < R.size := by
  have hpos : 0 < R.size := by have := R.eight_le_size; omega
  have hs : g.slot t = g.slot (t % R.size) :=
    congrArg g.buffer (R.index_eq_iff.mpr (Nat.mod_mod t R.size).symm)
  have hle := (hslots (t % R.size) (Nat.mod_lt _ hpos)).generation_le
  rw [hs, generation_eq R j ht] at h
  by_contra hge
  have hlap : 1 ≤ t / R.size := (Nat.one_le_div_iff hpos).mpr (by omega)
  have hmul : R.size ≤ R.size * (t / R.size) := Nat.le_mul_of_pos_right _ hlap
  have h8 := R.eight_le_size
  have hp : j.side.parity ≤ 1 := by cases j.side <;> decide
  omega

theorem generation_first_lap {j : Job T} {t : ℕ} (ht : t < R.size) :
    j.generation R t = j.side.parity := by
  have := R.size_le
  rw [generation_eq R j (by omega), Nat.div_eq_of_lt ht]
  omega

theorem Shared.slot_setSlot_small (g : Shared R T) {t u : ℕ} (ht : t < R.size) (hu : u < R.size)
    (s : Slot T) : (g.setSlot t s).slot u = if u = t then s else g.slot u := by
  rw [Shared.slot_setSlot, Nat.mod_eq_of_lt ht, Nat.mod_eq_of_lt hu]

theorem draws_append (side : Side) (es fs : List (Tid × Event T)) :
    draws side (es ++ fs) = draws side es + draws side fs := by
  simp [draws]

theorem draws_snoc {es : List (Tid × Event T)} {a : Tid} {e : Event T} {side : Side} :
    draws side (es ++ [(a, e)]) = draws side es + if e.drawn? = some side then 1 else 0 := by
  rw [draws_append]
  congr 1
  cases hd : e.drawn? with
  | none => simp [draws, hd]
  | some side' => simp [draws, hd, List.count_singleton]

theorem mem_constructedTickets {es : List (Tid × Event T)} {t : ℕ} :
    t ∈ constructedTickets es ↔ ∃ p v, (p, Event.constructed t v) ∈ es := by
  simp only [constructedTickets, List.mem_filterMap]
  constructor
  · rintro ⟨⟨p, e⟩, he, ht⟩
    cases e with
    | constructed u v =>
      obtain rfl : u = t := by simpa [Event.constructed?] using ht
      exact ⟨p, v, he⟩
    | called | drawn | moved | returned | silent => simp [Event.constructed?] at ht
  · rintro ⟨p, v, he⟩
    exact ⟨_, he, rfl⟩

theorem mem_movedTickets {es : List (Tid × Event T)} {t : ℕ} :
    t ∈ movedTickets es ↔ ∃ c e, (c, Event.moved t e) ∈ es := by
  simp only [movedTickets, List.mem_filterMap]
  constructor
  · rintro ⟨⟨c, e⟩, he, ht⟩
    cases e with
    | moved u x =>
      obtain rfl : u = t := by simpa [Event.moved?] using ht
      exact ⟨c, x, he⟩
    | called | drawn | constructed | returned | silent => simp [Event.moved?] at ht
  · rintro ⟨c, e, he⟩
    exact ⟨_, he, rfl⟩

def Event.Quiet (e : Event T) : Prop :=
  e.drawn? = none ∧ e.constructed? = none ∧ e.moved? = none

theorem LogOk.quiet {es : List (Tid × Event T)} {g g' : Shared R T} (h : LogOk es g) {a : Tid}
    {e : Event T} (he : e.constructed? = none ∧ e.moved? = none)
    (hs : ∀ t, g'.slot t = g.slot t) : LogOk (es ++ [(a, e)]) g' where
  constructed p t v hm := by
    rw [hs]
    rcases List.mem_append.mp hm with hm | hm
    · exact h.constructed p t v hm
    · obtain ⟨-, rfl⟩ : p = a ∧ Event.constructed t v = e := by simpa using hm
      simp [Event.constructed?] at he
  producer p t v hm := by
    rcases List.mem_append.mp hm with hm | hm
    · exact List.mem_append_left _ (h.producer p t v hm)
    · obtain ⟨-, rfl⟩ : p = a ∧ Event.constructed t v = e := by simpa using hm
      simp [Event.constructed?] at he
  stored t ht v hv := by
    rw [hs] at hv
    obtain ⟨p, hp⟩ := h.stored t ht v hv
    exact ⟨p, List.mem_append_left _ hp⟩
  moved c t x hm := by
    rw [hs]
    rcases List.mem_append.mp hm with hm | hm
    · exact h.moved c t x hm
    · obtain ⟨-, rfl⟩ : c = a ∧ Event.moved t x = e := by simpa using hm
      simp [Event.moved?] at he
  constructed_nodup := by
    simpa [constructedTickets, he.1] using h.constructed_nodup
  moved_nodup := by
    simpa [movedTickets, he.2] using h.moved_nodup

variable {l : Local T} {x : Slot T} {t : ℕ}

theorem LogOk.setSlot {es : List (Tid × Event T)} {g : Shared R T} (h : LogOk es g) {a : Tid}
    {e : Event T} (ht : t < R.size) (he : e.constructed? = none ∧ e.moved? = none)
    (hfilled : (g.slot t).Filled → x.Filled) (hemptied : (g.slot t).Emptied → x.Emptied)
    (hdata : x.data = (g.slot t).data) : LogOk (es ++ [(a, e)]) (g.setSlot t x) := by
  have hq := h.quiet (a := a) he fun _ => rfl
  refine ⟨fun p r v hm => ?_, hq.producer, fun r hr v hv => ?_, fun c r y hm => ?_,
    hq.constructed_nodup, hq.moved_nodup⟩
  · obtain ⟨hr, hf⟩ := hq.constructed p r v hm
    refine ⟨hr, ?_⟩
    rw [Shared.slot_setSlot_small _ ht hr]
    split
    · rename_i hrt
      exact hfilled (hrt ▸ hf)
    · exact hf
  · apply hq.stored r hr v
    rw [Shared.slot_setSlot_small _ ht hr] at hv
    split at hv
    · rename_i hrt
      rw [hrt, ← hdata, hv]
    · exact hv
  · obtain ⟨hr, hf⟩ := hq.moved c r y hm
    refine ⟨hr, ?_⟩
    rw [Shared.slot_setSlot_small _ ht hr]
    split
    · rename_i hrt
      exact hemptied (hrt ▸ hf)
    · exact hf

theorem LogOk.construct {es : List (Tid × Event T)} {g : Shared R T} (h : LogOk es g) {a : Tid}
    (ht : t < R.size) (hx : (g.slot t).Vacant) (ha : (a, Event.drawn .tail t) ∈ es) (v : T) :
    LogOk (es ++ [(a, .constructed t v)]) (g.setSlot t ((g.slot t).construct v)) := by
  have hnew : t ∉ constructedTickets es := by
    rw [mem_constructedTickets]
    intro hm
    obtain ⟨p, w, hm⟩ := hm
    have hf := (h.constructed p t w hm).2
    rw [Slot.Filled, hx.1, hx.2] at hf
    simp at hf
  refine ⟨fun p r w hm => ?_, fun p r w hm => ?_, fun r hr w hw => ?_, fun c r y hm => ?_, ?_, ?_⟩
  · rcases List.mem_append.mp hm with hm | hm
    · obtain ⟨hr, hf⟩ := h.constructed p r w hm
      refine ⟨hr, ?_⟩
      rw [Shared.slot_setSlot_small _ ht hr]
      split
      · exact Or.inr rfl
      · exact hf
    · obtain ⟨-, rfl, -⟩ : p = a ∧ r = t ∧ w = v := by simpa using hm
      refine ⟨ht, ?_⟩
      rw [Shared.slot_setSlot_small _ ht ht, if_pos rfl]
      exact Or.inr rfl
  · apply List.mem_append_left _
    rcases List.mem_append.mp hm with hm | hm
    · exact h.producer p r w hm
    · obtain ⟨rfl, rfl, -⟩ : p = a ∧ r = t ∧ w = v := by simpa using hm
      exact ha
  · rw [Shared.slot_setSlot_small _ ht hr] at hw
    split at hw
    · rename_i hrt
      subst hrt
      obtain rfl : v = w := by simpa [Slot.construct] using hw
      exact ⟨a, by simp⟩
    · obtain ⟨p, hp⟩ := h.stored r hr w hw
      exact ⟨p, List.mem_append_left _ hp⟩
  · have hm' : (c, Event.moved r y) ∈ es := by simpa using hm
    obtain ⟨hr, hf⟩ := h.moved c r y hm'
    refine ⟨hr, ?_⟩
    rw [Shared.slot_setSlot_small _ ht hr]
    split
    · rename_i hrt
      subst hrt
      rw [Slot.Emptied, hx.1] at hf
      simp at hf
    · exact hf
  · have happ : constructedTickets (es ++ [(a, .constructed t v)]) = constructedTickets es ++ [t] := by
      simp [constructedTickets, Event.constructed?]
    rw [happ]
    exact h.constructed_nodup.append (List.nodup_singleton t) (by simpa using hnew)
  · simpa [movedTickets, Event.moved?] using h.moved_nodup

theorem LogOk.move {es : List (Tid × Event T)} {g : Shared R T} (h : LogOk es g) {a : Tid}
    (ht : t < R.size) (hg : (g.slot t).generation = 1) (hd : (g.slot t).data.isSome) :
    LogOk (es ++ [(a, .moved t (g.slot t).data)]) (g.setSlot t (g.slot t).destroy) := by
  have hnew : t ∉ movedTickets es := by
    rw [mem_movedTickets]
    intro hm
    obtain ⟨c, y, hm⟩ := hm
    have hf := (h.moved c t y hm).2
    rw [Slot.Emptied, hg] at hf
    rw [Option.isSome_iff_ne_none] at hd
    simp [hd] at hf
  have hold : ∀ {p r w}, (p, Event.constructed r w) ∈ es ++ [(a, .moved t (g.slot t).data)] →
      (p, Event.constructed r w) ∈ es := fun hm => by simpa using hm
  refine ⟨fun p r w hm => ?_, fun p r w hm => List.mem_append_left _ (h.producer p r w (hold hm)),
    fun r hr w hw => ?_, fun c r y hm => ?_, ?_, ?_⟩
  · obtain ⟨hr, hf⟩ := h.constructed p r w (hold hm)
    refine ⟨hr, ?_⟩
    rw [Shared.slot_setSlot_small _ ht hr]
    split
    · exact Or.inl hg.ge
    · exact hf
  · rw [Shared.slot_setSlot_small _ ht hr] at hw
    split at hw
    · cases hw
    · obtain ⟨p, hp⟩ := h.stored r hr w hw
      exact ⟨p, List.mem_append_left _ hp⟩
  · rcases List.mem_append.mp hm with hm | hm
    · obtain ⟨hr, hf⟩ := h.moved c r y hm
      refine ⟨hr, ?_⟩
      rw [Shared.slot_setSlot_small _ ht hr]
      split
      · exact Or.inr ⟨hg, rfl⟩
      · exact hf
    · obtain ⟨-, rfl, -⟩ : c = a ∧ r = t ∧ y = (g.slot t).data := by simpa using hm
      refine ⟨ht, ?_⟩
      rw [Shared.slot_setSlot_small _ ht ht, if_pos rfl]
      exact Or.inr ⟨hg, rfl⟩
  · simpa [constructedTickets, Event.constructed?] using h.constructed_nodup
  · have happ : movedTickets (es ++ [(a, .moved t (g.slot t).data)]) = movedTickets es ++ [t] := by
      simp [movedTickets, Event.moved?]
    rw [happ]
    exact h.moved_nodup.append (List.nodup_singleton t) (by simpa using hnew)

theorem Shared.counter_le_draw {g : Shared R T} {side : Side} (h : g.counter side + 1 < 2 ^ 64)
    (side' : Side) : g.counter side' ≤ (g.draw side).counter side' := by
  by_cases hs : side' = side
  · subst hs
    rw [Shared.counter_draw_self, Nat.mod_eq_of_lt h]
    omega
  · rw [Shared.counter_draw_ne _ hs]

theorem Local.Ok.of_position_none {g : Shared R T} {l : Local T} (h : l.position? = none)
    (hc : ∀ side t, l.candidate? = some (side, t) → t ≤ g.counter side) : l.Ok g := by
  cases l with
  | wait | exchange | work | publish => simp [Local.position?] at h
  | idle | fetchAdd | load | check | reload =>
    refine ⟨?_, hc, ?_, ?_⟩ <;> simp [Local.ticket?, Local.checked?, Local.position?]

theorem Local.Ok.check {g : Shared R T} (j : Job T) :
    (Local.check j (g.counter j.side)).Ok g := by
  refine .of_position_none rfl fun side t ht => ?_
  obtain ⟨rfl, rfl⟩ : j.side = side ∧ g.counter j.side = t := by simpa [Local.candidate?] using ht
  exact le_rfl

theorem SlotOk.expects_drawn {g : Shared R T} {j : Job T} (h : SlotOk g (g.counter j.side)) :
    (Local.wait j (g.counter j.side)).Expects (g.slot (g.counter j.side)) := by
  cases j with
  | emplace v => exact h.undrawn_tail le_rfl
  | dequeue => exact h.undrawn_head le_rfl

theorem Local.Expects.construct (h : l.Expects x) (hp : l.position? = some t) (hx : x.Vacant)
    (hk : l.ticket? ≠ some (.tail, t)) (v : T) : l.Expects (x.construct v) := by
  obtain ⟨hg, hd⟩ := hx
  rcases l with _ | _ | ⟨j, u⟩ | _ | _ | ⟨j, u⟩ | _ | ⟨j, u⟩ | ⟨j, u, e⟩ <;> try trivial
  all_goals
    obtain rfl : u = t := by simpa [Local.position?] using hp
    cases j <;>
      simp_all [Local.Expects, Local.ticket?, Job.side, Slot.construct, Slot.Undelivered]

theorem Local.Expects.publish_emplace (h : l.Expects x) (hp : l.position? = some t)
    (hg : x.generation = 0) (hd : x.data.isSome) (hk : l.ticket? ≠ some (.tail, t)) :
    l.Expects (x.storeGeneration 1) := by
  rcases l with _ | _ | ⟨j, u⟩ | _ | _ | ⟨j, u⟩ | _ | ⟨j, u⟩ | ⟨j, u, e⟩ <;> try trivial
  all_goals
    obtain rfl : u = t := by simpa [Local.position?] using hp
    cases j <;>
      simp_all [Local.Expects, Local.ticket?, Job.side, Slot.storeGeneration, Slot.Undelivered]

theorem Local.Expects.destroy (h : l.Expects x) (hp : l.position? = some t)
    (hg : x.generation = 1) (hk : l.ticket? ≠ some (.head, t)) : l.Expects x.destroy := by
  rcases l with _ | _ | ⟨j, u⟩ | _ | _ | ⟨j, u⟩ | _ | ⟨j, u⟩ | ⟨j, u, e⟩ <;> try trivial
  all_goals
    obtain rfl : u = t := by simpa [Local.position?] using hp
    cases j <;>
      simp_all [Local.Expects, Local.ticket?, Job.side, Slot.destroy, Slot.Vacant]

theorem Local.Expects.publish_dequeue (h : l.Expects x) (hp : l.position? = some t)
    (hg : x.generation = 1) (hk : l.ticket? ≠ some (.head, t)) :
    l.Expects (x.storeGeneration 2) := by
  rcases l with _ | _ | ⟨j, u⟩ | _ | _ | ⟨j, u⟩ | _ | ⟨j, u⟩ | ⟨j, u, e⟩ <;> try trivial
  all_goals
    obtain rfl : u = t := by simpa [Local.position?] using hp
    cases j <;>
      simp_all [Local.Expects, Local.ticket?, Job.side, Slot.storeGeneration, Slot.Vacant]

variable [DecidableEq Tid]

theorem held_update {es : List (Tid × Event T)} {f : Tid → Local T} {a : Tid} {e : Event T}
    (h : ∀ u side t, (f u).ticket? = some (side, t) → (u, Event.drawn side t) ∈ es)
    (hl : ∀ side t, l.ticket? = some (side, t) → (a, Event.drawn side t) ∈ es ++ [(a, e)]) :
    ∀ u side t, (Function.update f a l u).ticket? = some (side, t) →
      (u, Event.drawn side t) ∈ es ++ [(a, e)] := by
  intro u side t hu
  rcases eq_or_ne u a with rfl | hua
  · exact hl side t (by simpa using hu)
  · exact List.mem_append_left _ (h u side t (by simpa [hua] using hu))

theorem Inv.local_step {es : List (Tid × Event T)} {s : Pool Tid (Shared R T) (Local T)}
    (h : Inv es s) {a : Tid} {e : Event T} {l : Local T} (he : e.Quiet) (hok : l.Ok s.shared)
    (hkey : ∀ x, l.ticket? = some x → (s.threads a).ticket? = some x) :
    Inv (es ++ [(a, e)]) ⟨s.shared, Function.update s.threads a l⟩ where
  count side := by
    rw [draws_append]
    simpa [draws, he.1] using h.count side
  locals := Pool.forall_update h.locals hok fun _ _ hu => hu
  held := held_update h.held fun side t hx =>
    List.mem_append_left _ (h.held a side t (hkey _ hx))
  distinct := Pool.distinct_update h.distinct fun x hx => Or.inl (hkey x hx)
  slots := h.slots
  log := h.log.quiet he.2 fun _ => rfl

theorem Inv.draw {es : List (Tid × Event T)} {s : Pool Tid (Shared R T) (Local T)}
    (h : Inv es s) {a : Tid} {side : Side} {l : Local T} (hlt : s.shared.counter side + 1 < 2 ^ 64)
    (hok : l.Ok (s.shared.draw side)) (hkey : l.ticket? = some (side, s.shared.counter side)) :
    Inv (es ++ [(a, .drawn side (s.shared.counter side))])
      ⟨s.shared.draw side, Function.update s.threads a l⟩ where
  count side' := by
    rw [draws_append]
    by_cases hs : side' = side
    · subst hs
      rw [Shared.counter_draw_self, Nat.mod_eq_of_lt hlt, h.count]
      simp [draws, Event.drawn?]
    · rw [Shared.counter_draw_ne _ hs, h.count]
      simp [draws, Event.drawn?, Ne.symm hs]
  locals := by
    refine Pool.forall_update h.locals hok fun u _ hu => ?_
    refine ⟨fun side' t ht => ?_, fun side' t ht => ?_, hu.checked_lt, fun t ht hlt => ?_⟩
    · exact (hu.ticket_lt side' t ht).trans_le (Shared.counter_le_draw hlt side')
    · exact (hu.candidate_le side' t ht).trans (Shared.counter_le_draw hlt side')
    · simpa using hu.expects t ht hlt
  held := held_update h.held fun side' t hx => by
    obtain ⟨rfl, rfl⟩ : side = side' ∧ s.shared.counter side = t := by simpa [hkey] using hx
    simp
  distinct := by
    refine Pool.distinct_update h.distinct fun x hx => Or.inr fun u _ hu => ?_
    -- every ticket held by a thread lies below the counter
    rw [hkey] at hx
    cases hx
    exact lt_irrefl _ ((h.locals u).ticket_lt _ _ hu)
  slots t ht := by
    have hs := h.slots t ht
    refine ⟨by simpa using hs.generation_le, fun hle => ?_, fun hle => ?_⟩
    · simpa using hs.undrawn_tail ((Shared.counter_le_draw hlt .tail).trans hle)
    · simpa using hs.undrawn_head ((Shared.counter_le_draw hlt .head).trans hle)
  log := h.log.quiet ⟨rfl, rfl⟩ fun t => Shared.slot_draw _ _ t

theorem Inv.setSlot {es : List (Tid × Event T)} {s : Pool Tid (Shared R T) (Local T)}
    (h : Inv es s) {a : Tid} {e : Event T} {l' : Local T} (ht : t < R.size) (side : Side)
    (ha : (s.threads a).ticket? = some (side, t)) (he : e.drawn? = none)
    (hok : l'.Ok (s.shared.setSlot t x))
    (hkey : ∀ y, l'.ticket? = some y → (s.threads a).ticket? = some y)
    (hothers : ∀ l : Local T, l.Expects (s.shared.slot t) → l.position? = some t →
      l.ticket? ≠ some (side, t) → l.Expects x)
    (hslot : SlotOk (s.shared.setSlot t x) t) (hlog : LogOk (es ++ [(a, e)]) (s.shared.setSlot t x)) :
    Inv (es ++ [(a, e)]) ⟨s.shared.setSlot t x, Function.update s.threads a l'⟩ where
  count side := by
    rw [draws_append]
    simpa [draws, he] using h.count side
  locals := by
    refine Pool.forall_update h.locals hok fun u hua hu => ?_
    refine ⟨fun side' r hr => by simpa using hu.ticket_lt side' r hr,
      fun side' r hr => by simpa using hu.candidate_le side' r hr, hu.checked_lt,
      fun r hr hrlt => ?_⟩
    rw [Shared.slot_setSlot_small _ ht hrlt]
    split
    · rename_i hrt
      subst hrt
      exact hothers _ (hu.expects r hr hrlt) hr fun hu' => hua (h.distinct u a _ hu' ha)
    · exact hu.expects r hr hrlt
  held := held_update h.held fun side' r hx =>
    List.mem_append_left _ (h.held a side' r (hkey _ hx))
  distinct := Pool.distinct_update h.distinct fun y hy => Or.inl (hkey y hy)
  slots r hr := by
    by_cases hrt : r = t
    · subst hrt
      exact hslot
    · have hs := h.slots r hr
      have heq : (s.shared.setSlot t x).slot r = s.shared.slot r := by
        rw [Shared.slot_setSlot_small _ ht hr, if_neg hrt]
      exact ⟨by rw [heq]; exact hs.generation_le, by rw [heq]; exact hs.undrawn_tail,
        by rw [heq]; exact hs.undrawn_head⟩
  log := hlog

end LockFree.MpmcQueue
