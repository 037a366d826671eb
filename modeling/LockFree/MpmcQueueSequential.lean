import LockFree.MpmcQueueInvariant

/-!
# BoundedMPMCQueue used by one call at a time

A call that runs alone either serves its ticket or finds the wrong generation in its
slot. Served calls are compared with a bounded FIFO: the two agree as long as the
tickets stay on the first lap, and no longer.
-/

namespace LockFree.MpmcQueue
open BufferSize

variable {R : Ring} {T : Type*}

/-- The abstract queue: `none` where a blocking call has to wait. -/
def fifo (capacity : ℕ) (q : List T) : Call T → Option (List T × Result T)
  | .emplace v => if q.length < capacity then some (q ++ [v], .done none) else none
  | .tryEmplace v => if q.length < capacity then some (q ++ [v], .done none) else some (q, .refused)
  | .dequeue =>
    match q with
    | [] => none
    | v :: q => some (q, .done (some v))
  | .tryDequeue =>
    match q with
    | [] => some ([], .refused)
    | v :: q => some (q, .done (some v))

def fifoRun (capacity : ℕ) (q : List T) : List (Call T) → Option (List (Result T))
  | [] => some []
  | c :: cs =>
    match fifo capacity q c with
    | none => none
    | some (q', r) => (fifoRun capacity q' cs).map (r :: ·)

/-- The steps of one call, up to its return. -/
inductive Alone : Shared R T → Local T → Shared R T → Result T → Prop where
  | last {g g' : Shared R T} {l l' : Local T} {c : Choice T} {r : Result T} :
      next g l c = some (g', l', .returned r) → Alone g l g' r
  | more {g g' g'' : Shared R T} {l l' : Local T} {c : Choice T} {e : Event T} {r : Result T} :
      next g l c = some (g', l', e) → (∀ r, e ≠ .returned r) → Alone g' l' g'' r → Alone g l g'' r

inductive Executes : Shared R T → List (Call T) → List (Result T) → Shared R T → Prop where
  | nil (g : Shared R T) : Executes g [] [] g
  | cons {g g' g'' : Shared R T} {c : Call T} {cs : List (Call T)} {r : Result T}
      {rs : List (Result T)} :
      Alone g (entry c) g' r → Executes g' cs rs g'' → Executes g (c :: cs) (r :: rs) g''

def Call.job : Call T → Job T
  | .emplace v | .tryEmplace v => .emplace v
  | .dequeue | .tryDequeue => .dequeue

def Call.blocking : Call T → Bool
  | .emplace _ | .dequeue => true
  | .tryEmplace _ | .tryDequeue => false

def Ready (g : Shared R T) (j : Job T) : Prop :=
  j.generation R (g.counter j.side) = (g.slot (g.counter j.side)).generation

instance (g : Shared R T) (j : Job T) : Decidable (Ready g j) :=
  inferInstanceAs (Decidable (_ = _))

def Job.apply (R : Ring) (j : Job T) (ticket : ℕ) (s : Slot T) : Slot T × Option T :=
  let generation := (j.generation R ticket + 1) % 2 ^ 32
  match j with
  | .emplace v => ((s.construct v).storeGeneration generation, none)
  | .dequeue => (s.destroy.storeGeneration generation, s.data)

def serve (g : Shared R T) (j : Job T) : Shared R T × Result T :=
  let ticket := g.counter j.side
  let served := j.apply R ticket (g.slot ticket)
  ((g.draw j.side).setSlot ticket served.1, .done served.2)

def attempt (g : Shared R T) (c : Call T) : Option (Shared R T × Result T) :=
  if Ready g c.job then some (serve g c.job)
  else if c.blocking then none else some (g, .refused)

section
variable {g g' : Shared R T} {j : Job T} {t : ℕ} {r : Result T}

theorem Shared.setSlot_setSlot (g : Shared R T) (t : ℕ) (s s' : Slot T) :
    (g.setSlot t s).setSlot t s' = g.setSlot t s' := by
  simp [Shared.setSlot]

theorem alone_work :
    Alone g (.work j t) g' r ↔
      g' = g.setSlot t (j.apply R t (g.slot t)).1 ∧ r = .done (j.apply R t (g.slot t)).2 := by
  have hpublish : ∀ {g : Shared R T} {x : Option T}, Alone g (.publish j t x) g' r →
      g' = g.setSlot t ((g.slot t).storeGeneration ((j.generation R t + 1) % 2 ^ 32)) ∧
        r = .done x := by
    intro g x h
    cases h with
    | @last _ _ _ _ c _ hn =>
      cases c <;> cases hn
      exact ⟨rfl, rfl⟩
    | @more _ _ _ _ _ c _ _ hn he =>
      cases c <;> cases hn
      exact absurd rfl (he _)
  constructor
  · intro h
    cases h with
    | @last _ _ _ _ c _ hn =>
      cases j <;> cases c <;> cases hn
    | @more _ _ _ _ _ c _ _ hn he hrest =>
      cases j <;> cases c <;> cases hn
      all_goals
        obtain ⟨rfl, rfl⟩ := hpublish hrest
        rw [Shared.setSlot_setSlot, Shared.slot_setSlot, if_pos rfl]
        exact ⟨rfl, rfl⟩
  · intro h
    obtain ⟨rfl, rfl⟩ := h
    have hpublish : ∀ {g : Shared R T} {x : Option T}, Alone g (.publish j t x)
        (g.setSlot t ((g.slot t).storeGeneration ((j.generation R t + 1) % 2 ^ 32))) (.done x) :=
      .last (c := .go) rfl
    cases j with
    | emplace v =>
      have := hpublish (g := g.setSlot t ((g.slot t).construct v)) (x := none)
      rw [Shared.setSlot_setSlot, Shared.slot_setSlot, if_pos rfl] at this
      exact .more (c := .go) rfl (by simp) this
    | dequeue =>
      have := hpublish (g := g.setSlot t (g.slot t).destroy) (x := (g.slot t).data)
      rw [Shared.setSlot_setSlot, Shared.slot_setSlot, if_pos rfl] at this
      exact .more (c := .go) rfl (by simp) this

theorem alone_draw :
    Alone (g.draw j.side) (.work j (g.counter j.side)) g' r ↔ serve g j = (g', r) := by
  rw [alone_work, Shared.slot_draw, serve, Prod.mk.injEq, eq_comm, eq_comm (a := r)]

theorem not_alone_wait (h : j.generation R t ≠ (g.slot t).generation) :
    ¬ Alone g (.wait j t) g' r := by
  intro ha
  generalize hl : Local.wait j t = l at ha
  induction ha with
  | @last _ _ _ _ c _ hn =>
    subst hl
    cases c <;> simp [next, h] at hn
  | @more _ _ _ _ _ c _ _ hn _ _ ih =>
    subst hl
    cases c with
    | go =>
      rw [next, if_neg h] at hn
      cases hn
      exact ih h rfl
    | call | spurious => cases hn

theorem alone_fetchAdd : Alone g (.fetchAdd j) g' r ↔ Ready g j ∧ serve g j = (g', r) := by
  constructor
  · intro h
    cases h with
    | @last _ _ _ _ c _ hn => cases c <;> cases hn
    | @more _ _ _ _ _ c _ _ hn he hrest =>
      cases c <;> cases hn
      by_cases hready : Ready g j
      · refine ⟨hready, ?_⟩
        cases hrest with
        | @last _ _ _ _ c _ hn => cases c <;> simp [next] at hn; split at hn <;> cases hn
        | @more _ _ _ _ _ c _ _ hn he hrest =>
          cases c with
          | go =>
            rw [next, Shared.slot_draw, if_pos (by exact hready)] at hn
            cases hn
            exact alone_draw.mp hrest
          | call | spurious => cases hn
      · exact absurd hrest (not_alone_wait (by rwa [Shared.slot_draw]))
  · intro h
    obtain ⟨hready, hserve⟩ := h
    refine .more (c := .go) rfl (by simp) (.more (c := .go) (e := .silent) ?_ (by simp)
      (alone_draw.mpr hserve))
    rw [next, Shared.slot_draw]
    exact if_pos hready

def Local.Trying (g : Shared R T) (j : Job T) (l : Local T) : Prop :=
  l = .load j ∨ l = .check j (g.counter j.side) ∨
    (Ready g j ∧ l = .exchange j (g.counter j.side)) ∨
    (¬ Ready g j ∧ l = .reload j (g.counter j.side))

theorem Local.Trying.alone {l : Local T} (hl : l.Trying g j) (h : Alone g l g' r) :
    (Ready g j ∧ serve g j = (g', r)) ∨ (¬ Ready g j ∧ g' = g ∧ r = .refused) := by
  induction h with
  | @last _ _ _ _ c _ hn =>
    rcases hl with rfl | rfl | ⟨hready, rfl⟩ | ⟨hready, rfl⟩
    · cases c <;> cases hn
    · cases c <;> simp only [next] at hn <;> try split at hn
      all_goals simp at hn
    · cases c <;> simp [next] at hn
    · cases c <;> simp [next] at hn
      obtain ⟨rfl, -, rfl⟩ := hn
      exact .inr ⟨hready, rfl, rfl⟩
  | @more _ _ _ _ _ c _ _ hn he hrest ih =>
    rcases hl with rfl | rfl | ⟨hready, rfl⟩ | ⟨hready, rfl⟩
    · cases c <;> cases hn
      exact ih (.inr (.inl rfl))
    · cases c with
      | go =>
        simp only [next] at hn
        split at hn <;> cases hn
        · exact ih (.inr (.inr (.inl ⟨‹_›, rfl⟩)))
        · exact ih (.inr (.inr (.inr ⟨‹_›, rfl⟩)))
      | call | spurious => cases hn
    · cases c with
      | go =>
        rw [next, if_pos rfl] at hn
        cases hn
        exact .inl ⟨hready, alone_draw.mp hrest⟩
      | spurious =>
        cases hn
        exact ih (.inr (.inl rfl))
      | call => cases hn
    · cases c with
      | go =>
        rw [next, if_pos rfl] at hn
        cases hn
        exact absurd rfl (he _)
      | call | spurious => cases hn

theorem alone_load :
    Alone g (.load j) g' r ↔
      (Ready g j ∧ serve g j = (g', r)) ∨ (¬ Ready g j ∧ g' = g ∧ r = .refused) := by
  constructor
  · exact Local.Trying.alone (.inl rfl)
  · intro h
    refine .more (c := .go) rfl (by simp) ?_
    rcases h with ⟨hready, hserve⟩ | ⟨hready, rfl, rfl⟩
    · have hexchange : Alone g (.exchange j (g.counter j.side)) g' r :=
        .more (c := .go) (if_pos rfl) (by simp) (alone_draw.mpr hserve)
      exact .more (c := .go) (if_pos hready) (by simp) hexchange
    · have hreload : Alone g' (.reload j (g'.counter j.side)) g' .refused :=
        .last (c := .go) (if_pos rfl)
      exact .more (c := .go) (if_neg hready) (by simp) hreload

end

theorem alone_entry {g g' : Shared R T} {c : Call T} {r : Result T} :
    Alone g (entry c) g' r ↔ attempt g c = some (g', r) := by
  unfold attempt
  by_cases hready : Ready g c.job <;> cases c <;>
    simp_all [entry, alone_fetchAdd, alone_load, Call.job, Call.blocking, eq_comm]

def attempts (g : Shared R T) : List (Call T) → Option (List (Result T))
  | [] => some []
  | c :: cs =>
    match attempt g c with
    | none => none
    | some (g', r) => (attempts g' cs).map (r :: ·)

theorem exists_executes {g : Shared R T} {cs : List (Call T)} {rs : List (Result T)} :
    (∃ g', Executes g cs rs g') ↔ attempts g cs = some rs := by
  induction cs generalizing g rs with
  | nil =>
    constructor
    · intro h
      obtain ⟨g', h⟩ := h
      cases h
      rfl
    · intro h
      cases h
      exact ⟨g, .nil g⟩
  | cons c cs ih =>
    constructor
    · intro h
      obtain ⟨g', h⟩ := h
      cases h with
      | cons hc hcs =>
        rw [attempts, alone_entry.mp hc]
        simp [ih.mp ⟨_, hcs⟩]
    · intro h
      rw [attempts] at h
      split at h
      · cases h
      · rename_i g₁ r hr
        obtain ⟨rs, hrs, rfl⟩ := Option.map_eq_some_iff.mp h
        obtain ⟨g', hg'⟩ := ih.mpr hrs
        exact ⟨g', .cons (alone_entry.mpr hr) hg'⟩

/-- A queue with `h` elements gone, the elements of `q` stored, and no ticket of a
second lap ever served. -/
structure Simulates (g : Shared R T) (h : ℕ) (q : List T) : Prop where
  head : g.head = h
  tail : g.tail = h + q.length
  bound : h + q.length ≤ R.size
  gone : ∀ t < h, g.slot t = ⟨2, none⟩
  stored : ∀ t < R.size, h ≤ t → g.slot t = ⟨if t < h + q.length then 1 else 0, q[t - h]?⟩

def Call.accepts (c : Call T) (r : Result T) : Bool :=
  match c, r with
  | .emplace _, .done _ | .tryEmplace _, .done _ => true
  | _, _ => false

def acceptances (cs : List (Call T)) (rs : List (Result T)) : ℕ :=
  ((cs.zip rs).filter fun x => x.1.accepts x.2).length

section
variable {g : Shared R T} {h : ℕ} {q : List T}

theorem Simulates.fresh : Simulates (Shared.fresh R T) 0 [] where
  head := rfl
  tail := rfl
  bound := Nat.zero_le _
  gone t ht := absurd ht (Nat.not_lt_zero t)
  stored t _ _ := by simp [Shared.fresh, Shared.slot]

theorem Simulates.generation_wrap (hs : Simulates g h q) : (g.slot R.size).generation ≤ 2 := by
  have h8 := R.eight_le_size
  have hwrap : g.slot R.size = g.slot 0 :=
    congrArg g.buffer (R.index_eq_iff.mpr (by simp))
  rw [hwrap]
  rcases Nat.eq_zero_or_pos h with rfl | hpos
  · rw [hs.stored 0 (by omega) le_rfl]
    split <;> simp
  · rw [hs.gone 0 hpos]

theorem two_lt_generation_wrap (R : Ring) (j : Job T) : 2 < j.generation R R.size := by
  have h8 := R.eight_le_size
  have hle := R.size_le
  rw [generation_eq R j (by omega), Nat.div_self (by omega)]
  omega

theorem Simulates.ready_emplace (hs : Simulates g h q) {v : T} :
    Ready g (.emplace v) ↔ h + q.length < R.size := by
  have htail : g.counter .tail = h + q.length := hs.tail
  have hready : Ready g (.emplace v) ↔ (Job.emplace v).generation R (h + q.length) =
      (g.slot (h + q.length)).generation := by
    rw [← htail]
    rfl
  rw [hready]
  constructor
  · intro heq
    refine lt_of_le_of_ne hs.bound fun hfull => ?_
    rw [hfull] at heq
    have := two_lt_generation_wrap R (Job.emplace v)
    have := hs.generation_wrap
    omega
  · intro hlt
    rw [generation_first_lap hlt, hs.stored _ hlt (by omega)]
    simp [Job.side, Side.parity]

theorem Simulates.ready_dequeue (hs : Simulates g h q) :
    Ready g (.dequeue : Job T) ↔ q ≠ [] := by
  have hhead : g.counter .head = h := hs.head
  have hready : Ready g (.dequeue : Job T) ↔ (Job.dequeue : Job T).generation R h =
      (g.slot h).generation := by
    rw [← hhead]
    rfl
  rw [hready, ← List.length_pos_iff]
  have hbound := hs.bound
  constructor
  · intro heq
    by_contra hempty
    rcases Nat.lt_or_ge h R.size with hlt | hge
    · rw [generation_first_lap hlt, hs.stored h hlt le_rfl] at heq
      rw [if_neg (by omega)] at heq
      simp [Job.side, Side.parity] at heq
    · obtain rfl : h = R.size := by omega
      have := two_lt_generation_wrap R (Job.dequeue : Job T)
      have := hs.generation_wrap
      omega
  · intro hpos
    have hlt : h < R.size := by omega
    rw [generation_first_lap hlt, hs.stored h hlt le_rfl]
    simp [Job.side, Side.parity, hpos]

theorem Simulates.serve_emplace (hs : Simulates g h q) (hlt : h + q.length < R.size) (v : T) :
    ∃ g', serve g (.emplace v) = (g', .done none) ∧ Simulates g' h (q ++ [v]) := by
  have htail : g.counter (Job.emplace v).side = h + q.length := hs.tail
  have hle := R.size_le
  refine ⟨_, rfl, ?_⟩
  simp only [htail, Job.apply, generation_first_lap hlt]
  constructor
  case head => exact hs.head
  case tail =>
    have : (g.draw (Job.emplace v).side).tail = (g.tail + 1) % 2 ^ 64 := rfl
    simp only [Shared.setSlot, this, hs.tail, List.length_append, List.length_singleton]
    omega
  case bound =>
    rw [List.length_append, List.length_singleton]
    omega
  case gone =>
    intro t ht
    rw [Shared.slot_setSlot_small _ hlt (by omega), if_neg (by omega), Shared.slot_draw]
    exact hs.gone t ht
  case stored =>
    intro t ht hht
    rw [Shared.slot_setSlot_small _ hlt ht, List.length_append, List.length_singleton]
    split
    · rename_i heq
      subst heq
      rw [if_pos (by omega), Nat.add_sub_cancel_left, List.getElem?_concat_length]
      rfl
    · rename_i hne
      rw [Shared.slot_draw, hs.stored t ht hht]
      congr 1
      · by_cases htl : t < h + q.length
        · rw [if_pos htl, if_pos (by omega)]
        · rw [if_neg htl, if_neg (by omega)]
      · by_cases htl : t < h + q.length
        · rw [List.getElem?_append_left (by omega)]
        · rw [List.getElem?_eq_none (by omega), List.getElem?_eq_none (by
            rw [List.length_append, List.length_singleton]
            omega)]

theorem Simulates.serve_dequeue {v : T} (hs : Simulates g h (v :: q)) :
    ∃ g', serve g .dequeue = (g', .done (some v)) ∧ Simulates g' (h + 1) q := by
  have hhead : g.counter (Job.dequeue : Job T).side = h := hs.head
  have hle := R.size_le
  have hbound := hs.bound
  rw [List.length_cons] at hbound
  have hlt : h < R.size := by omega
  have hslot : g.slot h = ⟨1, some v⟩ := by
    rw [hs.stored h hlt le_rfl]
    simp
  refine ⟨_, by rw [serve, hhead, hslot]; rfl, ?_⟩
  simp only [Job.apply, generation_first_lap hlt]
  constructor
  case head =>
    have : (g.draw (Job.dequeue : Job T).side).head = (g.head + 1) % 2 ^ 64 := rfl
    simp only [Shared.setSlot, this, hs.head]
    omega
  case tail =>
    have : (g.draw (Job.dequeue : Job T).side).tail = g.tail := rfl
    simp only [Shared.setSlot, this, hs.tail, List.length_cons]
    omega
  case bound => omega
  case gone =>
    intro t ht
    rw [Shared.slot_setSlot_small _ hlt (by omega)]
    split
    · rfl
    · rw [Shared.slot_draw]
      exact hs.gone t (by omega)
  case stored =>
    intro t ht hht
    rw [Shared.slot_setSlot_small _ hlt ht, if_neg (by omega), Shared.slot_draw,
      hs.stored t ht (by omega), List.length_cons, show t - h = t - (h + 1) + 1 by omega,
      List.getElem?_cons_succ, show h + (q.length + 1) = h + 1 + q.length by omega]

/-- The code agrees with the FIFO on one call, unless the FIFO accepts an element for
which the ring has no slot that was never used. -/
theorem Simulates.attempt_eq (hs : Simulates g h q) {c : Call T} {q' : List T} {r : Result T}
    (hq : fifo R.size q c = some (q', r)) (hc : c.accepts r → h + q.length < R.size) :
    ∃ g' h', attempt g c = some (g', r) ∧ Simulates g' h' q' ∧
      h' + q'.length = h + q.length + if c.accepts r then 1 else 0 := by
  have emplaced : ∀ v, h + q.length < R.size → c.job = .emplace v →
      ∃ g', attempt g c = some (g', .done none) ∧ Simulates g' h (q ++ [v]) := by
    intro v hlt hjob
    obtain ⟨g', hserve, hs'⟩ := hs.serve_emplace hlt v
    exact ⟨g', by rw [attempt, hjob, if_pos (hs.ready_emplace.mpr hlt), hserve], hs'⟩
  cases c with
  | emplace v =>
    simp only [fifo] at hq
    split at hq <;> cases hq
    obtain ⟨g', hat, hs'⟩ := emplaced v (hc rfl) rfl
    exact ⟨g', h, hat, hs', by simp [Call.accepts, Nat.add_assoc]⟩
  | tryEmplace v =>
    simp only [fifo] at hq
    split at hq <;> cases hq
    · obtain ⟨g', hat, hs'⟩ := emplaced v (hc rfl) rfl
      exact ⟨g', h, hat, hs', by simp [Call.accepts, Nat.add_assoc]⟩
    · refine ⟨g, h, ?_, hs, by simp [Call.accepts]⟩
      rw [attempt, Call.job, if_neg (fun hready => ?_)]
      · rfl
      · have := hs.ready_emplace.mp hready
        omega
  | dequeue | tryDequeue =>
    cases q with
    | nil =>
      cases hq
      all_goals
        refine ⟨g, h, ?_, hs, by simp [Call.accepts]⟩
        rw [attempt, Call.job, if_neg (fun hready => hs.ready_dequeue.mp hready rfl)]
        rfl
    | cons v q =>
      cases hq
      obtain ⟨g', hserve, hs'⟩ := hs.serve_dequeue
      refine ⟨g', h + 1, ?_, hs', ?_⟩
      · rw [attempt, Call.job, if_pos (hs.ready_dequeue.mpr (by simp)), hserve]
      · simp [Call.accepts]
        omega

theorem Simulates.attempt_ne (hs : Simulates g h q) {c : Call T} {r : Result T}
    (hc : c.accepts r) (hfull : h + q.length = R.size) (g' : Shared R T) :
    attempt g c ≠ some (g', r) := by
  have hready : ∀ v, ¬ Ready g (.emplace v) := fun v hr => by
    have := hs.ready_emplace.mp hr
    omega
  cases c with
  | emplace v => simp [attempt, Call.job, hready, Call.blocking]
  | tryEmplace v =>
    cases r with
    | done x => simp [attempt, Call.job, hready, Call.blocking]
    | refused => cases hc
  | dequeue | tryDequeue => cases hc

theorem Simulates.attempts_iff (hs : Simulates g h q) {cs : List (Call T)} {rs : List (Result T)}
    (hq : fifoRun R.size q cs = some rs) :
    attempts g cs = some rs ↔ h + q.length + acceptances cs rs ≤ R.size := by
  induction cs generalizing g h q rs with
  | nil =>
    cases hq
    simpa [attempts, acceptances] using hs.bound
  | cons c cs ih =>
    rw [fifoRun] at hq
    split at hq
    · cases hq
    · rename_i q' r hc
      obtain ⟨rs, hrs, rfl⟩ := Option.map_eq_some_iff.mp hq
      have hcount : acceptances (c :: cs) (r :: rs) =
          (if c.accepts r then 1 else 0) + acceptances cs rs := by
        simp only [acceptances, List.zip_cons_cons, List.filter_cons]
        split <;> simp [Nat.add_comm]
      by_cases hfull : c.accepts r ∧ h + q.length = R.size
      · -- the code refuses the element, or spins on its slot
        obtain ⟨hacc, hfull⟩ := hfull
        constructor
        · intro hat
          rw [attempts] at hat
          split at hat
          · cases hat
          · rename_i g' r' hr'
            obtain ⟨rs', -, hrs'⟩ := Option.map_eq_some_iff.mp hat
            cases hrs'
            exact absurd hr' (hs.attempt_ne hacc hfull g')
        · intro hle
          rw [hcount, if_pos hacc] at hle
          omega
      · have hbound := hs.bound
        obtain ⟨g', h', hat, hs', hsum⟩ := hs.attempt_eq hc fun hacc => by
          have : h + q.length ≠ R.size := fun hfull' => hfull ⟨hacc, hfull'⟩
          omega
        rw [attempts, hat, hcount, ← Nat.add_assoc, ← hsum, ← ih hs' hrs]
        simp

end

/-- The calls have an execution, and every execution returns the FIFO's results. -/
def MeetsFifo (R : Ring) (cs : List (Call T)) (rs : List (Result T)) : Prop :=
  (∃ g, Executes (Shared.fresh R T) cs rs g) ∧
    ∀ rs' g, Executes (Shared.fresh R T) cs rs' g → rs' = rs

theorem meetsFifo_of_attempts {cs : List (Call T)} {rs : List (Result T)} :
    MeetsFifo R cs rs ↔ attempts (Shared.fresh R T) cs = some rs := by
  constructor
  · intro h
    exact exists_executes.mp h.1
  · intro h
    refine ⟨exists_executes.mpr h, fun rs' g' hx => ?_⟩
    have h' := exists_executes.mp ⟨g', hx⟩
    rw [h] at h'
    exact (Option.some.inj h').symm

/-- The queue is a FIFO exactly as long as no more elements were accepted than the ring
has slots: the generations of later laps are never stored. -/
theorem meetsFifo_iff_acceptances_le {cs : List (Call T)} {rs : List (Result T)}
    (hq : fifoRun R.size [] cs = some rs) : MeetsFifo R cs rs ↔ acceptances cs rs ≤ R.size := by
  rw [meetsFifo_of_attempts, Simulates.fresh.attempts_iff hq]
  simp

theorem meetsFifo_iff_acceptances_le_two :
    MeetsFifo .smallest [tryEnqueue 1, enqueue 2, .dequeue, .tryDequeue, .tryDequeue]
      [.done none, .done none, .done (some 1), .done (some 2), .refused] :=
  (meetsFifo_iff_acceptances_le rfl).mpr (by decide)

theorem not_meetsFifo_second_lap :
    let cs := (List.replicate 8 [Call.tryEmplace 7, .tryDequeue]).flatten ++ [.tryEmplace 7]
    ∃ rs, fifoRun Ring.smallest.size [] cs = some rs ∧ ¬ MeetsFifo .smallest cs rs := by
  refine ⟨_, rfl, fun h => ?_⟩
  have hle := (Simulates.fresh.attempts_iff rfl).mp (meetsFifo_of_attempts.mp h)
  revert hle
  decide

end LockFree.MpmcQueue
