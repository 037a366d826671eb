import LockFree.MpmcQueueRefusal
import LockFree.MpmcQueueSequential

/-!
# An element assignment that throws

The ticket has been drawn when `element = Move()` throws, and nobody will serve its slot
again. A state without operations in progress has drawn no ticket of a second lap, so
what the queue holds can be read off its counters.
-/

namespace LockFree.MpmcQueue
open BufferSize TransitionRuns

variable {R : Ring} {T Tid : Type*}

/-- `none` is the choice that the assignment throws: the call is left, its slot is not
touched. -/
def nextThrowing (g : Shared R T) (l : Local T) :
    Option (Choice T) → Option (Shared R T × Local T × Event T)
  | some c => next g l c
  | none =>
    match l with
    | .work .dequeue _ => some (g, .idle, .silent)
    | _ => none

def throwing (R : Ring) (T Tid : Type*) [DecidableEq Tid] :
    Machine (Pool Tid (Shared R T) (Local T)) (Tid × Option (Choice T)) (Tid × Event T) :=
  Pool.machine (Shared.fresh R T) .idle nextThrowing

inductive AloneThrows : Shared R T → Local T → Shared R T → Prop where
  | last {g : Shared R T} {t : ℕ} : AloneThrows g (.work .dequeue t) g
  | more {g g' g'' : Shared R T} {l l' : Local T} {c : Choice T} {e : Event T} :
      next g l c = some (g', l', e) → (∀ r, e ≠ .returned r) → AloneThrows g' l' g'' →
        AloneThrows g l g''

def contents (g : Shared R T) : List T :=
  (List.range' g.head (g.tail - g.head)).filterMap fun t => (g.slot t).data

/-- No sequence of `Try` calls tells the two queues apart. -/
def SameResults (g g' : Shared R T) : Prop :=
  ∀ cs : List (Call T), (∀ c ∈ cs, c.blocking = false) → ∀ rs,
    (∃ k, Executes g' cs rs k) ↔ ∃ k, Executes g cs rs k

theorem even_getGeneration (R : Ring) (t : ℕ) : getGeneration R t % 2 = 0 := by
  obtain ⟨k, hk, -, hs⟩ := R.size_eq_two_pow
  have hsize : R.size % 2 = 0 := by
    rw [hs, show k = k - 1 + 1 by omega, pow_succ]
    exact Nat.mul_mod_left _ _
  have hmask : getGenerationMask R % 2 = 0 := by
    have h8 := R.eight_le_size
    have hle := R.size_le
    rw [getGenerationMask, Ring.getIndexMask]
    omega
  have hand : (t &&& getGenerationMask R) % 2 = 0 := by
    have hlow := Nat.and_mod_two_pow (n := 1) (a := t) (b := getGenerationMask R)
    rwa [pow_one, hmask, Nat.and_zero] at hlow
  rw [getGeneration]
  omega

theorem generation_of_le_two {j : Job T} {t : ℕ} (h : j.generation R t ≤ 2) :
    j.generation R t = j.side.parity := by
  have heven := even_getGeneration R t
  cases j with
  | emplace v =>
    simp only [Job.generation, Job.side, Side.parity] at h ⊢
    omega
  | dequeue =>
    simp only [Job.generation, Job.side, Side.parity] at h ⊢
    omega

def Local.passed? : Local T → Option (Job T × ℕ)
  | .exchange j t | .work j t | .publish j t _ => some (j, t)
  | _ => none

def Local.Low (R : Ring) (l : Local T) : Prop :=
  ∀ j t, l.passed? = some (j, t) → j.generation R t ≤ 2

structure Low (s : Pool Tid (Shared R T) (Local T)) : Prop where
  slot : ∀ t, (s.shared.slot t).generation ≤ 2
  passed : ∀ a, (s.threads a).Low R

theorem next_low {g g' : Shared R T} {l l' : Local T} {c : Choice T} {e : Event T}
    (hslot : ∀ t, (g.slot t).generation ≤ 2) (hpassed : l.Low R)
    (hn : next g l c = some (g', l', e)) : (∀ t, (g'.slot t).generation ≤ 2) ∧ l'.Low R := by
  constructor
  · rcases next_tickets hn with ⟨-, -, hgen⟩ | ⟨side, -, -, rfl⟩ | ⟨j, t, x, rfl, -, rfl⟩
    · intro t
      rw [hgen]
      exact hslot t
    · intro t
      rw [Shared.slot_draw]
      exact hslot t
    · intro u
      rw [Shared.slot_setSlot]
      split
      · have hone := generation_of_le_two (hpassed j t rfl)
        dsimp only [Slot.storeGeneration]
        rw [hone]
        cases j.side <;> decide
      · exact hslot u
  · cases l with
    | work k u =>
      cases k <;> cases c <;> cases hn
      · exact hpassed
      · exact hpassed
    | idle =>
      cases c with
      | call c => cases c <;> cases hn <;> simp [Local.Low, Local.passed?, entry]
      | go | spurious => cases hn
    | check k u =>
      cases c with
      | go =>
        simp only [next] at hn
        split at hn <;> cases hn
        · rename_i hgen
          intro j t ht
          cases ht
          exact hgen.trans_le (hslot _)
        · simp [Local.Low, Local.passed?]
      | call | spurious => cases hn
    | wait k u =>
      cases c with
      | go =>
        simp only [next] at hn
        split at hn <;> cases hn
        · rename_i hgen
          intro j t ht
          cases ht
          exact hgen.trans_le (hslot _)
        · simp [Local.Low, Local.passed?]
      | call | spurious => cases hn
    | fetchAdd | load | exchange | reload | publish =>
      unfold next at hn
      grind [Local.Low, Local.passed?]

section
variable {es : List (Tid × Event T)} {s s' : Pool Tid (Shared R T) (Local T)} {a : Tid}
  {e : Event T} {l' : Local T} {g' : Shared R T} {c : Option (Choice T)} [DecidableEq Tid]

omit [DecidableEq Tid] in
theorem nextThrowing_cases {l : Local T} (hn : nextThrowing s.shared l c = some (g', l', e)) :
    (∃ c, next s.shared l c = some (g', l', e)) ∨
      ∃ t, l = .work .dequeue t ∧ g' = s.shared ∧ l' = .idle ∧ e = .silent := by
  cases c with
  | some c => exact .inl ⟨c, hn⟩
  | none =>
    refine .inr ?_
    unfold nextThrowing at hn
    grind

theorem Low.go (h : Low s) (hn : nextThrowing s.shared (s.threads a) c = some (g', l', e)) :
    Low ⟨g', Function.update s.threads a l'⟩ := by
  rcases nextThrowing_cases hn with ⟨c, hn⟩ | ⟨t, hla, rfl, rfl, rfl⟩
  · obtain ⟨hslot, hpassed⟩ := next_low h.slot (h.passed a) hn
    exact ⟨hslot, Pool.forall_update (Q := Local.Low R) h.passed hpassed fun _ _ hu => hu⟩
  · refine ⟨h.slot, Pool.forall_update (Q := Local.Low R) h.passed (fun j u hu => ?_) fun _ _ hu => hu⟩
    cases hu

theorem Low.of_run (hr : (throwing R T Tid).Run es s) : Low s := by
  refine hr.invariant (I := fun _ s => Low s) ⟨fun t => Nat.zero_le _, fun a j t ht => ?_⟩
    fun es s e s' _ ih hs => ?_
  · cases ht
  · obtain ⟨c, g', l', hn, rfl⟩ := Pool.step_iff.mp hs
    exact ih.go hn

theorem Inv.throwing (hr : (throwing R T Tid).Run es s) (hb : ∀ side, draws side es < 2 ^ 31) :
    Inv es s ∧ Served s := by
  refine Machine.Run.invariant (M := MpmcQueue.throwing R T Tid)
    (I := fun es s => (∀ side, draws side es < 2 ^ 31) → Inv es s ∧ Served s)
    (fun _ => ⟨Inv.fresh, fun side t ht => ?_⟩) (fun es s e s' _ ih hs hb' => ?_) hr hb
  · cases side <;> exact absurd ht (Nat.not_lt_zero t)
  · have hprefix : ∀ side, draws side es < 2 ^ 31 := fun side => draws_prefix_lt (hb' side)
    obtain ⟨h, hserved⟩ := ih hprefix
    obtain ⟨c, g', l', hn, rfl⟩ := Pool.step_iff.mp hs
    rcases nextThrowing_cases hn with ⟨c, hn⟩ | ⟨t, hla, rfl, rfl, he⟩
    · exact ⟨h.step hprefix (Pool.step_iff.mpr ⟨c, g', l', hn, rfl⟩), hserved.go h hprefix hn⟩
    · have hl := hla ▸ h.locals e.1
      have hlap := hl.checked_lt t rfl
      have hgen := (hl.expects t rfl hlap).1
      constructor
      · obtain ⟨b, e⟩ := e
        obtain rfl : e = .silent := he
        exact h.forget ⟨rfl, rfl, rfl⟩ rfl fun _ _ hu => by cases hu
      · -- the slot keeps the generation its consumer has seen
        refine hserved.update (fun _ => rfl) (fun _ _ => le_rfl) fun side u hu => .inr ?_
        rw [hla] at hu
        cases hu
        exact ⟨hlap, hgen.ge⟩

theorem next_drawn {g g' : Shared R T} {l l' : Local T} {c : Choice T} {e : Event T} {side : Side}
    (hn : next g l c = some (g', l', e)) (hd : e.drawn? = some side) :
    (∃ j, l = .fetchAdd j ∧ l' = .wait j (g.counter side)) ∨
      ∃ j, l = .exchange j (g.counter side) := by
  cases l with
  | work k t => cases k <;> cases c <;> cases hn <;> cases hd
  | idle | fetchAdd | wait | load | check | exchange | reload | publish =>
    unfold next at hn
    grind [Event.drawn?]

def Stuck (s : Pool Tid (Shared R T) (Local T)) : Prop :=
  ∃ a j t, s.threads a = .wait j t ∧ 2 < j.generation R t

theorem Stuck.go (h : Stuck s) (hlow : Low s)
    (hn : nextThrowing s.shared (s.threads a) c = some (g', l', e)) :
    Stuck ⟨g', Function.update s.threads a l'⟩ := by
  obtain ⟨b, j, t, hb, hgen⟩ := h
  refine ⟨b, j, t, ?_, hgen⟩
  dsimp only
  by_cases hba : b = a
  · subst hba
    rw [Function.update_self]
    rw [hb] at hn
    cases c with
    | none => cases hn
    | some c =>
      cases c with
      | go =>
        have hne : j.generation R t ≠ (s.shared.slot t).generation :=
          ((hlow.slot t).trans_lt hgen).ne'
        rw [nextThrowing, next, if_neg hne] at hn
        cases hn
        rfl
      | call | spurious => cases hn
  · rwa [Function.update_of_ne hba]

theorem stuck_or_first_lap (hr : (throwing R T Tid).Run es s) :
    (∀ side, draws side es ≤ R.size) ∨ Stuck s := by
  have hsize := R.size_le
  have h8 := R.eight_le_size
  refine hr.invariant (I := fun es s => (∀ side, draws side es ≤ R.size) ∨ Stuck s)
    (.inl fun _ => Nat.zero_le _) fun es s e s' hr ih hs => ?_
  obtain ⟨a, e⟩ := e
  obtain ⟨c, g', l', hn, rfl⟩ := Pool.step_iff.mp hs
  rcases ih with ih | hstuck
  · by_cases hfirst : ∀ side, draws side (es ++ [(a, e)]) ≤ R.size
    · exact .inl hfirst
    · -- the ticket drawn now is the first of the second lap
      refine .inr ?_
      have h := (Inv.throwing hr fun side => (ih side).trans_lt (by omega)).1
      simp only [not_forall, not_le] at hfirst
      obtain ⟨side, hside⟩ := hfirst
      have hle := ih side
      rw [draws_snoc] at hside
      have hd : e.drawn? = some side := by
        by_contra hne
        rw [if_neg hne] at hside
        omega
      have hcounter : s.shared.counter side = R.size := by
        rw [if_pos hd] at hside
        rw [h.count]
        omega
      rcases nextThrowing_cases hn with ⟨c, hn⟩ | ⟨t, -, -, -, rfl⟩
      · rcases next_drawn hn hd with ⟨j, -, rfl⟩ | ⟨j, hla⟩
        · refine ⟨a, j, s.shared.counter side, Function.update_self .., ?_⟩
          rw [hcounter]
          exact two_lt_generation_wrap R j
        · have := (hla ▸ h.locals a).checked_lt _ rfl
          omega
      · cases hd
  · exact .inr (hstuck.go (Low.of_run hr) hn)

theorem draws_le_of_idle (hr : (throwing R T Tid).Run es s) (hidle : ∀ a, s.threads a = .idle)
    (side : Side) : draws side es ≤ R.size := by
  rcases stuck_or_first_lap hr with hle | ⟨a, j, t, hla, -⟩
  · exact hle side
  · rw [hidle] at hla
    cases hla

end

structure Holds (g : Shared R T) (q : List T) : Prop where
  tail : g.tail = g.head + q.length
  bound : g.head + q.length ≤ R.size
  stored : ∀ t < R.size, g.head ≤ t →
    g.slot t = ⟨if t < g.head + q.length then 1 else 0, q[t - g.head]?⟩
  generation_le : ∀ t, (g.slot t).generation ≤ 2

theorem getElem?_filterMap_range' {f : ℕ → Option T} {h n : ℕ}
    (hf : ∀ t, h ≤ t → t < h + n → (f t).isSome) (k : ℕ) :
    ((List.range' h n).filterMap f)[k]? = if k < n then f (h + k) else none := by
  induction n generalizing h k with
  | zero => rfl
  | succ n ih =>
    obtain ⟨v, hv⟩ := Option.isSome_iff_exists.mp (hf h le_rfl (by omega))
    have hrest := ih fun t ht hlt => hf t (Nat.le_of_succ_le ht) (by omega)
    rw [List.range'_succ, List.filterMap_cons_some hv]
    cases k with
    | zero => simp [hv]
    | succ k =>
      rw [List.getElem?_cons_succ, hrest, show h.succ + k = h + (k + 1) by omega]
      simp

section
variable {g g' : Shared R T} {q : List T} {v : T}

theorem length_filterMap_range' {f : ℕ → Option T} {h n : ℕ}
    (hf : ∀ t, h ≤ t → t < h + n → (f t).isSome) :
    ((List.range' h n).filterMap f).length = n := by
  rw [List.length_filterMap_eq_countP, List.countP_eq_length.mpr, List.length_range']
  intro t ht
  obtain ⟨hle, hlt⟩ := List.mem_range'_1.mp ht
  exact hf t hle hlt

theorem Holds.contents_eq (h : Holds g q) : contents g = q := by
  have hlen : g.tail - g.head = q.length := by
    rw [h.tail]
    omega
  have hbound := h.bound
  have hdata : ∀ t, g.head ≤ t → t < g.head + q.length → (g.slot t).data = q[t - g.head]? := by
    intro t hle hlt
    rw [h.stored t (by omega) hle]
  refine List.ext_getElem? fun k => ?_
  rw [contents, hlen, getElem?_filterMap_range' fun t hle hlt => ?_]
  · split
    · rw [hdata _ (by omega) (by omega), Nat.add_sub_cancel_left]
    · rw [List.getElem?_eq_none (by omega)]
  · rw [hdata t hle hlt, List.getElem?_eq_getElem (by omega)]
    rfl

theorem Holds.ready_iff (h : Holds g q) : Ready g (.dequeue : Job T) ↔ q ≠ [] := by
  have hready : Ready g (.dequeue : Job T) ↔ (Job.dequeue : Job T).generation R g.head =
      (g.slot g.head).generation := Iff.rfl
  have hbound := h.bound
  rw [hready, ← List.length_pos_iff]
  by_cases hlt : g.head < R.size
  · rw [generation_first_lap hlt, h.stored _ hlt le_rfl]
    dsimp only [Job.side, Side.parity]
    by_cases hpos : 0 < q.length
    · rw [if_pos (by omega)]
      exact iff_of_true rfl hpos
    · rw [if_neg (by omega)]
      exact iff_of_false one_ne_zero hpos
  · have hhead : g.head = R.size := by omega
    have hwrap := two_lt_generation_wrap R (Job.dequeue : Job T)
    have hle := h.generation_le g.head
    rw [hhead] at hle ⊢
    omega

theorem Holds.draw (h : Holds g (v :: q)) : Holds (g.draw .head) q := by
  have hbound := h.bound
  have hsize := R.size_le
  have hhead : (g.draw .head).head = g.head + 1 := by
    rw [List.length_cons] at hbound
    exact Nat.mod_eq_of_lt (by omega)
  rw [List.length_cons] at hbound
  constructor
  case tail =>
    rw [hhead]
    exact h.tail.trans (by rw [List.length_cons]; omega)
  case bound =>
    rw [hhead]
    omega
  case stored =>
    intro t ht hle
    rw [hhead] at hle ⊢
    rw [Shared.slot_draw, h.stored t ht (by omega), List.length_cons,
      show t - g.head = t - (g.head + 1) + 1 by omega, List.getElem?_cons_succ,
      show g.head + (q.length + 1) = g.head + 1 + q.length by omega]
  case generation_le =>
    intro t
    rw [Shared.slot_draw]
    exact h.generation_le t

theorem Holds.setSlot {t : ℕ} {x : Slot T} (h : Holds g q) (ht : t < g.head)
    (hx : x.generation ≤ 2) : Holds (g.setSlot t x) q := by
  have hbound := h.bound
  refine ⟨h.tail, hbound, fun u hu hle => ?_, fun u => ?_⟩
  · rw [Shared.slot_setSlot_small _ (by omega) hu, if_neg (by change g.head ≤ u at hle; omega)]
    exact h.stored u hu hle
  · rw [Shared.slot_setSlot]
    split
    · exact hx
    · exact h.generation_le u

theorem Holds.serve (h : Holds g (v :: q)) :
    ∃ g', serve g .dequeue = (g', .done (some v)) ∧ Holds g' q := by
  have hbound := h.bound
  have hsize := R.size_le
  rw [List.length_cons] at hbound
  have hlt : g.head < R.size := by omega
  have hslot : g.slot g.head = ⟨1, some v⟩ := by
    rw [h.stored _ hlt le_rfl]
    simp
  have hcounter : g.counter (Job.dequeue : Job T).side = g.head := rfl
  refine ⟨_, by rw [MpmcQueue.serve, hcounter, hslot]; rfl, h.draw.setSlot ?_ ?_⟩
  · have : (g.draw .head).head = (g.head + 1) % 2 ^ 64 := rfl
    omega
  · simp only [Job.apply, generation_first_lap hlt]
    exact le_rfl

def drained (q : List T) (n : ℕ) : List (Result T) :=
  (q.map fun v => Result.done (some v)).take n ++ List.replicate (n - q.length) .refused

theorem Holds.attempts_tryDequeue (h : Holds g q) (n : ℕ) :
    attempts g (List.replicate n .tryDequeue) = some (drained q n) := by
  induction n generalizing g q with
  | zero => simp [attempts, drained]
  | succ n ih =>
    rw [List.replicate_succ, attempts, attempt, Call.job]
    cases q with
    | nil =>
      rw [if_neg (fun hready => h.ready_iff.mp hready rfl)]
      simp [Call.blocking, ih h, drained, List.replicate_succ]
    | cons v q =>
      obtain ⟨g', hserve, h'⟩ := h.serve
      rw [if_pos (h.ready_iff.mpr (by simp)), hserve]
      simp [ih h', drained]

theorem Holds.not_sameResults (h : Holds g (v :: q)) (h' : Holds g' q) : ¬ SameResults g g' := by
  intro hsame
  have hcalls : ∀ c ∈ List.replicate (q.length + 1) (Call.tryDequeue : Call T), c.blocking = false := by
    intro c hc
    rw [List.eq_of_mem_replicate hc]
    rfl
  have hresults := hsame _ hcalls (drained (v :: q) (q.length + 1))
  rw [exists_executes, exists_executes, h.attempts_tryDequeue, h'.attempts_tryDequeue] at hresults
  have heq := Option.some.inj (hresults.mpr rfl)
  -- the emptied queue refuses the last call
  have hlast : Result.refused ∈ drained q (q.length + 1) := by simp [drained]
  rw [heq] at hlast
  have hmem : Result.refused ∈ (v :: q).map fun v => Result.done (some v) := by
    apply List.mem_of_mem_take (i := q.length + 1)
    simpa [drained] using hlast
  simp at hmem

end

section
variable {g g' : Shared R T} {l l' : Local T} {c : Choice T} {e : Event T}

def Local.Throwing (g₀ g : Shared R T) (l : Local T) : Prop :=
  (g = g₀ ∧ (l = .fetchAdd .dequeue ∨ l = .load .dequeue ∨ l = .check .dequeue g₀.head ∨
    l = .exchange .dequeue g₀.head ∨ l = .reload .dequeue g₀.head)) ∨
  (g = g₀.draw .head ∧ (l = .wait .dequeue g₀.head ∨ l = .work .dequeue g₀.head)) ∨
  ∃ t x, l = .publish .dequeue t x

theorem Local.Throwing.next {g₀ : Shared R T} (h : l.Throwing g₀ g)
    (hn : MpmcQueue.next g l c = some (g', l', e)) (he : ∀ r, e ≠ .returned r) :
    l'.Throwing g₀ g' := by
  have hcounter : g.counter (Job.dequeue : Job T).side = g.head := rfl
  rcases h with ⟨rfl, rfl | rfl | rfl | rfl | rfl⟩ | ⟨rfl, rfl | rfl⟩ | ⟨t, x, rfl⟩
  · cases c <;> cases hn
    exact .inr (.inl ⟨rfl, .inl rfl⟩)
  · cases c <;> cases hn
    exact .inl ⟨rfl, .inr (.inr (.inl rfl))⟩
  · cases c with
    | go =>
      simp only [MpmcQueue.next] at hn
      split at hn <;> cases hn
      · exact .inl ⟨rfl, .inr (.inr (.inr (.inl rfl)))⟩
      · exact .inl ⟨rfl, .inr (.inr (.inr (.inr rfl)))⟩
    | call | spurious => cases hn
  · cases c with
    | go =>
      rw [MpmcQueue.next, hcounter, if_pos rfl] at hn
      cases hn
      exact .inr (.inl ⟨rfl, .inr rfl⟩)
    | spurious =>
      cases hn
      exact .inl ⟨rfl, .inr (.inr (.inl rfl))⟩
    | call => cases hn
  · cases c with
    | go =>
      rw [MpmcQueue.next, hcounter, if_pos rfl] at hn
      cases hn
      exact absurd rfl (he _)
    | call | spurious => cases hn
  · cases c with
    | go =>
      simp only [MpmcQueue.next] at hn
      split at hn <;> cases hn
      · exact .inr (.inl ⟨rfl, .inr rfl⟩)
      · exact .inr (.inl ⟨rfl, .inl rfl⟩)
    | call | spurious => cases hn
  · cases c <;> cases hn
    exact .inr (.inr ⟨_, _, rfl⟩)
  · cases c <;> cases hn
    exact absurd rfl (he _)

theorem Local.Throwing.left {g₀ : Shared R T} (h : l.Throwing g₀ g) (ht : AloneThrows g l g') :
    g' = g₀.draw .head := by
  induction ht with
  | last =>
    rcases h with ⟨-, hl⟩ | ⟨hg, -⟩ | ⟨t, x, hl⟩
    · simp at hl
    · exact hg
    · cases hl
  | more hn he _ ih => exact ih (h.next hn he)

theorem AloneThrows.eq_draw {call : Call T} (hcall : call.job = .dequeue)
    (ht : AloneThrows g (entry call) g') : g' = g.draw .head := by
  refine Local.Throwing.left (.inl ⟨rfl, ?_⟩) ht
  cases call with
  | dequeue => exact .inl rfl
  | tryDequeue => exact .inr (.inl rfl)
  | emplace | tryEmplace => cases hcall

theorem aloneThrows_tryDequeue (hready : Ready g (.dequeue : Job T)) :
    AloneThrows g (entry .tryDequeue) (g.draw .head) :=
  .more (c := .go) rfl (by simp) (.more (c := .go) (if_pos hready) (by simp)
    (.more (c := .go) (if_pos rfl) (by simp) .last))

end

section
variable {es : List (Tid × Event T)} {s : Pool Tid (Shared R T) (Local T)} [DecidableEq Tid]

theorem holds_of_idle (hr : (throwing R T Tid).Run es s) (hidle : ∀ a, s.threads a = .idle) :
    Holds s.shared (contents s.shared) := by
  have hsize := R.size_le
  have hdraws := draws_le_of_idle hr hidle
  obtain ⟨h, hserved⟩ := Inv.throwing hr fun side => (hdraws side).trans_lt (by omega)
  have hserved : ∀ side t, t < s.shared.counter side →
      t < R.size ∧ 1 ≤ (s.shared.slot t).generation := by
    intro side t ht
    rcases hserved side t ht with ⟨a, ha⟩ | hserved
    · rw [hidle] at ha
      cases ha
    · exact hserved
  have htail : s.shared.tail ≤ R.size := (h.count .tail).trans_le (hdraws .tail)
  have hhead : s.shared.head ≤ s.shared.tail := by
    by_contra hlt
    obtain ⟨hlap, hone⟩ := hserved .head s.shared.tail (not_le.mp hlt)
    have := ((h.slots _ hlap).undrawn_tail le_rfl).1
    omega
  -- between the counters every slot is full
  have hfull : ∀ t, s.shared.head ≤ t → t < s.shared.tail →
      (s.shared.slot t).generation = 1 ∧ (s.shared.slot t).data.isSome := by
    intro t hle hlt
    obtain ⟨hlap, hone⟩ := hserved .tail t hlt
    obtain ⟨hle, hdata⟩ := (h.slots t hlap).undrawn_head hle
    have hgen := le_antisymm hle hone
    exact ⟨hgen, hdata hgen⟩
  have hsome : ∀ t, s.shared.head ≤ t → t < s.shared.head + (s.shared.tail - s.shared.head) →
      (s.shared.slot t).data.isSome := fun t hle hlt => (hfull t hle (by omega)).2
  have hlength : (contents s.shared).length = s.shared.tail - s.shared.head :=
    length_filterMap_range' hsome
  constructor
  case tail =>
    rw [hlength]
    omega
  case bound =>
    rw [hlength]
    omega
  case generation_le => exact (Low.of_run hr).slot
  case stored =>
    intro t ht hle
    rw [hlength, contents, getElem?_filterMap_range' hsome]
    by_cases hlt : t < s.shared.tail
    · obtain ⟨hgen, -⟩ := hfull t hle hlt
      rw [if_pos (by omega), if_pos (by omega), Nat.add_sub_cancel' hle, ← hgen]
    · obtain ⟨hgen, hdata⟩ := (h.slots t ht).undrawn_tail (not_lt.mp hlt)
      rw [if_neg (by omega), if_neg (by omega), ← hgen, ← hdata]

/-- The element whose assignment threw is lost, and the results of later calls show it. -/
theorem throw_loses_element (hr : (throwing R T Tid).Run es s) (hidle : ∀ a, s.threads a = .idle)
    (hne : contents s.shared ≠ []) {call : Call T} {g : Shared R T} (hcall : call.job = .dequeue)
    (ht : AloneThrows s.shared (entry call) g) :
    ¬ (contents g = contents s.shared ∧ SameResults s.shared g) ∧
      (∃ v, contents s.shared = v :: contents g) ∧ ¬ SameResults s.shared g := by
  obtain ⟨v, q, hq⟩ := List.exists_cons_of_ne_nil hne
  have h := holds_of_idle hr hidle
  rw [hq] at h
  obtain rfl := ht.eq_draw hcall
  have h' := h.draw
  have hsame := h.not_sameResults h'
  refine ⟨fun hkeep => hsame hkeep.2, ⟨v, ?_⟩, hsame⟩
  rw [hq, h'.contents_eq]

theorem two_elements : ∃ s, (throwing .smallest ℕ Bool).Run
    [(true, .called (.tryEmplace 5)), (true, .silent), (true, .silent), (true, .drawn .tail 0),
      (true, .constructed 0 5), (true, .returned (.done none)), (true, .called (.tryEmplace 6)),
      (true, .silent), (true, .silent), (true, .drawn .tail 1), (true, .constructed 1 6),
      (true, .returned (.done none))] s ∧ (∀ a, s.threads a = .idle) ∧ contents s.shared = [5, 6] ∧
    AloneThrows s.shared (entry .tryDequeue) (s.shared.draw .head) ∧
    attempts s.shared [.tryDequeue, .tryDequeue] = some [.done (some 5), .done (some 6)] ∧
    attempts (s.shared.draw .head) [.tryDequeue, .tryDequeue] = some [.done (some 6), .refused] := by
  refine ⟨_, Machine.Path.of_exec [(true, some (.call (.tryEmplace 5))), (true, some .go),
    (true, some .go), (true, some .go), (true, some .go), (true, some .go),
    (true, some (.call (.tryEmplace 6))), (true, some .go), (true, some .go), (true, some .go),
    (true, some .go), (true, some .go)] rfl, ?_, by decide, ?_, by decide, by decide⟩
  · intro a
    cases a <;> rfl
  · exact aloneThrows_tryDequeue (by decide)

theorem throw_loses_element_first : ∃ s : Shared .smallest ℕ, contents s = [5, 6] ∧
    ∃ v, contents s = v :: contents (s.draw .head) := by
  obtain ⟨s, hr, hidle, hs, ht, -⟩ := two_elements
  exact ⟨s.shared, hs, (throw_loses_element hr hidle (by simp [hs]) rfl ht).2.1⟩

/-- After the throw the next call returns 6 instead of 5, and the one after it nothing. -/
theorem throw_changes_results : ∃ es, ∃ s : Pool Bool (Shared .smallest ℕ) (Local ℕ),
    (throwing .smallest ℕ Bool).Run es s ∧ (∀ a, s.threads a = .idle) ∧ contents s.shared ≠ [] ∧
      ∃ g, AloneThrows s.shared (entry .tryDequeue) g ∧
        ¬ (contents g = contents s.shared ∧ SameResults s.shared g) := by
  obtain ⟨s, hr, hidle, hs, ht, hbefore, hafter⟩ := two_elements
  refine ⟨_, s, hr, hidle, by simp [hs], _, ht, fun hkeep => ?_⟩
  have hsame := hkeep.2 [.tryDequeue, .tryDequeue] (by simp [Call.blocking])
    [.done (some 5), .done (some 6)]
  rw [exists_executes, exists_executes, hbefore, hafter] at hsame
  simp at hsame

end

end LockFree.MpmcQueue
