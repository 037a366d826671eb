import Mathlib.Data.Fintype.Card
import Mathlib.Data.Int.ModEq
import LockFree.MpmcQueueLifetimes

/-!
# GetSize and IsEmpty of BoundedMPMCQueue

The counters are tickets: a ticket may have been drawn for an element that does not exist
yet, or for one that nobody has put in. What `GetSize` subtracts is off by the calls that
hold such tickets, and it subtracts in `size_t`.
-/

namespace LockFree.MpmcQueue
open BufferSize TransitionRuns

variable {R : Ring} {T Tid : Type*}

def getSize (g : Shared R T) : ℕ := (g.tail + 2 ^ 64 - g.head) % 2 ^ 64

def isEmpty (g : Shared R T) : Bool := getSize g = 0

def getCapacity (R : Ring) : ℕ := R.size

def live (g : Shared R T) : ℕ := (Finset.univ.filter fun i => (g.buffer i).data.isSome).card

def Local.underWay (side : Side) : Local T → ℕ
  | .wait j _ | .work j _ => if j.side = side then 1 else 0
  | _ => 0

def underWay [Fintype Tid] (side : Side) (s : Pool Tid (Shared R T) (Local T)) : ℕ :=
  ∑ t, (s.threads t).underWay side

def Event.served? : Event T → Option Side
  | .constructed _ _ => some .tail
  | .moved _ _ => some .head
  | _ => none

def served (side : Side) (es : List (Tid × Event T)) : ℕ :=
  (es.filterMap fun e => e.2.served?).count side

/-- The elements put in and not taken out. -/
def elements (es : List (Tid × Event T)) : ℤ := served .tail es - served .head es

theorem next_counts {g g' : Shared R T} {l l' : Local T} {c : Choice T} {e : Event T}
    (hn : next g l c = some (g', l', e)) (side : Side) :
    (l'.underWay side + if e.served? = some side then 1 else 0) =
        (l.underWay side + if e.drawn? = some side then 1 else 0) ∧
      g'.counter side = if e.drawn? = some side then (g.counter side + 1) % 2 ^ 64
        else g.counter side := by
  have hdraw : ∀ side', (g.draw side').counter side =
      if some side' = some side then (g.counter side + 1) % 2 ^ 64 else g.counter side := by
    intro side'
    by_cases hside : side' = side
    · subst hside
      rw [if_pos rfl, Shared.counter_draw_self]
    · rw [if_neg (by simpa using hside), Shared.counter_draw_ne _ (Ne.symm hside)]
  cases l with
  | work j t =>
    cases j <;> cases c <;> cases hn
    · exact ⟨by cases side <;> rfl, Shared.counter_setSlot ..⟩
    · exact ⟨by cases side <;> rfl, Shared.counter_setSlot ..⟩
  | publish j t x =>
    cases c <;> cases hn
    exact ⟨rfl, Shared.counter_setSlot ..⟩
  | fetchAdd j =>
    cases c <;> cases hn
    exact ⟨by simp [Local.underWay, Event.served?, Event.drawn?], hdraw _⟩
  | exchange j t =>
    cases c with
    | go =>
      simp only [next] at hn
      split at hn <;> cases hn
      · exact ⟨by simp [Local.underWay, Event.served?, Event.drawn?], hdraw _⟩
      · exact ⟨rfl, rfl⟩
    | spurious =>
      cases hn
      exact ⟨rfl, rfl⟩
    | call => cases hn
  | idle =>
    cases c with
    | call c =>
      cases hn
      exact ⟨by cases c <;> rfl, rfl⟩
    | go | spurious => cases hn
  | wait j t =>
    cases c with
    | go =>
      simp only [next] at hn
      split at hn <;> cases hn <;> exact ⟨rfl, rfl⟩
    | call | spurious => cases hn
  | load | check | reload =>
    unfold next at hn
    grind [Local.underWay, Event.served?, Event.drawn?]

theorem served_snoc {es : List (Tid × Event T)} {a : Tid} {e : Event T} {side : Side} :
    served side (es ++ [(a, e)]) = served side es + if e.served? = some side then 1 else 0 := by
  rw [served, List.filterMap_append, List.count_append]
  congr 1
  cases he : e.served? with
  | none => simp [he]
  | some side' => simp [he, List.count_singleton]

variable [DecidableEq Tid] [Fintype Tid] {es : List (Tid × Event T)}
  {s : Pool Tid (Shared R T) (Local T)}

theorem counts_of_run (hr : (machine R T Tid).Run es s) (side : Side) :
    s.shared.counter side = draws side es % 2 ^ 64 ∧
      draws side es = served side es + underWay side s := by
  refine hr.invariant (I := fun es s => s.shared.counter side = draws side es % 2 ^ 64 ∧
    draws side es = served side es + underWay side s) ⟨by cases side <;> rfl, ?_⟩
    fun es s e s' _ ih hs => ?_
  · simp [machine, Pool.machine, underWay, Local.underWay, draws, served]
  · obtain ⟨a, e⟩ := e
    obtain ⟨c, g', l', hn, rfl⟩ := Pool.step_iff.mp hs
    obtain ⟨hcounter, hcount⟩ := ih
    obtain ⟨hl, hg⟩ := next_counts hn side
    have hsum := Pool.sum_update (f := s.threads) (φ := Local.underWay side) (a := l')
      (Finset.mem_univ a)
    rw [draws_snoc, served_snoc, underWay]
    rw [underWay] at hcount
    dsimp only
    refine ⟨?_, by omega⟩
    rw [hg, hcounter]
    split
    · exact Nat.mod_add_mod ..
    · rfl

theorem getSize_modEq (hr : (machine R T Tid).Run es s) :
    (getSize s.shared : ℤ) ≡ elements es + underWay .tail s - underWay .head s [ZMOD 2 ^ 64] := by
  obtain ⟨htail, hdraws⟩ := counts_of_run hr .tail
  obtain ⟨hhead, hdraws'⟩ := counts_of_run hr .head
  have htail : s.shared.tail = draws .tail es % 2 ^ 64 := htail
  have hhead : s.shared.head = draws .head es % 2 ^ 64 := hhead
  rw [Int.modEq_iff_dvd, elements, getSize]
  omega

omit [DecidableEq Tid] [Fintype Tid] in
theorem served_tail (es : List (Tid × Event T)) :
    served .tail es = (constructedTickets es).length := by
  induction es using List.reverseRecOn with
  | nil => rfl
  | append_singleton es e ih =>
    obtain ⟨a, e⟩ := e
    rw [served_snoc, constructedTickets_snoc, List.length_append, ih]
    cases e <;> rfl

omit [DecidableEq Tid] [Fintype Tid] in
theorem served_head (es : List (Tid × Event T)) : served .head es = (movedTickets es).length := by
  induction es using List.reverseRecOn with
  | nil => rfl
  | append_singleton es e ih =>
    obtain ⟨a, e⟩ := e
    rw [served_snoc, movedTickets_snoc, List.length_append, ih]
    cases e <;> rfl

omit [Fintype Tid] in
theorem elements_eq_live (hr : (machine R T Tid).Run es s)
    (hb : ∀ side, draws side es < 2 ^ 31) : elements es = live s.shared := by
  have h := Inv.of_run hr hb
  have hlives := Lives.of_run hr hb
  have hsub : (movedTickets es).toFinset ⊆ (constructedTickets es).toFinset := by
    intro t ht
    rw [List.mem_toFinset] at ht ⊢
    obtain ⟨c, x, hx⟩ := mem_movedTickets.mp ht
    exact (constructed_of_moved hr hb hx).2
  have hslots : (Finset.univ.filter fun i => (s.shared.buffer i).data.isSome).map Fin.valEmbedding =
      (constructedTickets es).toFinset \ (movedTickets es).toFinset := by
    ext t
    rw [Finset.mem_map, Finset.mem_sdiff, List.mem_toFinset, List.mem_toFinset]
    constructor
    · rintro ⟨i, hi, rfl⟩
      apply (hlives.live i.val i.isLt).mp
      rw [Shared.slot_val]
      exact (Finset.mem_filter.mp hi).2
    · rintro ⟨hc, hm⟩
      obtain ⟨p, v, hp⟩ := mem_constructedTickets.mp hc
      have ht := (h.log.constructed p t v hp).1
      have hlive := (hlives.live t ht).mpr ⟨hc, hm⟩
      refine ⟨⟨t, ht⟩, Finset.mem_filter.mpr ⟨Finset.mem_univ _, ?_⟩, rfl⟩
      rwa [← Shared.slot_val]
  have hcard := congrArg Finset.card hslots
  rw [Finset.card_map, Finset.card_sdiff_of_subset hsub,
    List.toFinset_card_of_nodup h.log.constructed_nodup,
    List.toFinset_card_of_nodup h.log.moved_nodup, ← served_tail, ← served_head] at hcard
  have hle := Finset.card_le_card hsub
  rw [List.toFinset_card_of_nodup h.log.constructed_nodup,
    List.toFinset_card_of_nodup h.log.moved_nodup, ← served_tail, ← served_head] at hle
  rw [elements, live, hcard]
  omega

/-- `GetSize` and `IsEmpty` describe the contents exactly when the elements, with the
producers under way and without the consumers under way, come to a number between 0 and
the capacity, and equally many are under way on both sides of an empty queue. -/
theorem size_describes_iff (hr : (machine R T Tid).Run es s) :
    ((getSize s.shared ≤ getCapacity R ∧ (elements es = 0 → isEmpty s.shared)) ↔
      (∃ n : ℕ, n ≤ R.size ∧
        elements es + underWay .tail s - underWay .head s ≡ n [ZMOD 2 ^ 64]) ∧
      (elements es = 0 → (underWay .tail s : ℤ) ≡ underWay .head s [ZMOD 2 ^ 64])) ∧
    ((∀ side, draws side es < 2 ^ 31) → elements es = live s.shared) := by
  refine ⟨?_, elements_eq_live hr⟩
  have hsize := R.size_le
  have hmod := getSize_modEq hr
  have hlt : getSize s.shared < 2 ^ 64 := Nat.mod_lt _ (by decide)
  refine and_congr ?_ (imp_congr_right fun hempty => ?_)
  · rw [getCapacity]
    constructor
    · intro hle
      exact ⟨_, hle, hmod.symm⟩
    · rintro ⟨n, hn, hmod'⟩
      have heq : (getSize s.shared : ℤ) = n := by
        have := hmod.trans hmod'
        rw [Int.modEq_iff_dvd] at this
        omega
      omega
  · rw [hempty, Int.modEq_iff_dvd] at hmod
    rw [isEmpty, decide_eq_true_eq, Int.modEq_iff_dvd]
    omega

theorem size_describes_iff_two : ∃ s : Pool Bool (Shared .smallest ℕ) (Local ℕ),
    underWay .tail s = 1 ∧ getSize s.shared ≤ getCapacity .smallest := by
  obtain ⟨s, hr, htail, hhead⟩ : ∃ s, (machine .smallest ℕ Bool).Run
      [(true, .called (.emplace 5)), (true, .drawn .tail 0), (true, .silent), (true, .constructed 0 5),
        (true, .returned (.done none)), (false, .called (.emplace 6)), (false, .drawn .tail 1)] s ∧
      underWay .tail s = 1 ∧ underWay .head s = 0 :=
    ⟨_, Machine.Path.of_exec [(true, .call (.emplace 5)), (true, .go), (true, .go), (true, .go),
      (true, .go), (false, .call (.emplace 6)), (false, .go)] rfl, by decide, by decide⟩
  refine ⟨s, htail, ((size_describes_iff hr).1.mpr ⟨⟨2, by decide, ?_⟩, fun hempty => ?_⟩).1⟩
  · rw [htail, hhead]
    decide
  · exact absurd hempty (by decide)

/-- A consumer waits on the empty queue: its size is the largest `size_t`. -/
theorem getSize_waiting : ∃ es, ∃ s : Pool Bool (Shared .smallest ℕ) (Local ℕ),
    (machine .smallest ℕ Bool).Run es s ∧ live s.shared = 0 ∧ elements es = 0 ∧
      getSize s.shared = 2 ^ 64 - 1 ∧ ¬ getSize s.shared ≤ getCapacity .smallest ∧
        isEmpty s.shared = false := by
  refine ⟨_, _, Machine.Path.of_exec [(true, .call .dequeue), (true, .go)] rfl, ?_⟩
  exact ⟨by decide, rfl, by decide, by decide, by decide⟩

end LockFree.MpmcQueue
