import LockFree.SeqLock
import LockFree.TransitionRuns

/-!
# SeqLock excludes writers

Threads that call `Lock` and then `Unlock` with the value it returned, over and over. The
counter goes all the way round as often as it likes: a stale even value that a waiting
thread still compares with is only ever taken when nobody holds the lock.
-/

namespace LockFree.SeqLockExclusion
open SeqLock TransitionRuns

inductive Writer
  | idle
  | locking (p : Locking)
  | held (seq : ℕ)
  | unlocking (seq : ℕ)

inductive Event
  | locked (seq : ℕ)
  | unlocked
  | silent

inductive Choice
  | lock
  | unlock
  | step (spurious : Bool)

def next (counter : ℕ) : Writer → Choice → Option (ℕ × Writer × Event)
  | .idle, .lock => some (counter, .locking .load, .silent)
  | .locking p, .step spurious =>
    match lock counter spurious p with
    | (counter', .locked seq) => some (counter', .held seq, .locked seq)
    | (counter', p') => some (counter', .locking p', .silent)
  | .held seq, .unlock => some (counter, .unlocking seq, .silent)
  | .unlocking seq, .step _ => some (unlock seq, .idle, .unlocked)
  | _, _ => none

def machine (Tid : Type*) [DecidableEq Tid] :
    Machine (Pool Tid ℕ Writer) (Tid × Choice) (Tid × Event) :=
  Pool.machine 0 .idle next

def Writer.saved? : Writer → Option ℕ
  | .held seq | .unlocking seq => some seq
  | _ => none

def Writer.holds (l : Writer) : Bool := l.saved?.isSome

def Event.isUnlocked : Event → Bool
  | .unlocked => true
  | _ => false

variable {Tid : Type*}

def unlocks (es : List (Tid × Event)) : ℕ := es.countP fun e => e.2.isUnlocked

def Writer.Waits (l : Writer) : Prop := ∀ p, l = .locking p → p.Waits

theorem next_cases {counter counter' : ℕ} {l l' : Writer} {c : Choice} {e : Event} (hw : l.Waits)
    (hn : next counter l c = some (counter', l', e)) :
    (counter' = counter ∧ e = .silent ∧ l'.saved? = l.saved? ∧ l'.Waits) ∨
    (isLocked counter = false ∧ counter' = (counter + 1) % counterSize ∧
      e = .locked counter ∧ l.saved? = none ∧ l' = .held counter) ∨
    ∃ seq, l.saved? = some seq ∧ counter' = unlock seq ∧ e = .unlocked ∧ l' = .idle := by
  cases l with
  | locking p =>
    cases c with
    | step spurious =>
      rcases lock_cases counter spurious (hw p rfl) with hlock | ⟨hfree, hlock⟩ <;>
        simp only [next, hlock] at hn
      · refine .inl ?_
        have hread := Locking.waits_read counter
        cases hp : Locking.read counter with
        | locked seq =>
          rw [hp] at hread
          rcases hread with h | ⟨_, h, -⟩ <;> cases h
        | load | exchange seq =>
          rw [hp] at hread hn
          cases hn
          exact ⟨rfl, rfl, rfl, fun p' heq => by cases heq; exact hread⟩
      · cases hn
        exact .inr (.inl ⟨hfree, rfl, rfl, rfl, rfl⟩)
    | lock | unlock => cases hn
  | idle =>
    cases c <;> cases hn
    exact .inl ⟨rfl, rfl, rfl, fun p heq => by cases heq; exact .inl rfl⟩
  | held seq =>
    cases c <;> cases hn
    exact .inl ⟨rfl, rfl, rfl, fun p heq => by cases heq⟩
  | unlocking seq =>
    cases c <;> cases hn
    exact .inr (.inr ⟨seq, rfl, rfl, rfl, rfl⟩)

variable [DecidableEq Tid] {es : List (Tid × Event)} {s s' : Pool Tid ℕ Writer} {t : Tid}
  {e : Event}

def Writer.Saves (n : ℕ) (l : Writer) : Prop :=
  ∀ seq, l.saved? = some seq → seq = 2 * n % counterSize

structure Inv (es : List (Tid × Event)) (s : Pool Tid ℕ Writer) : Prop where
  exclusive : Pool.Exclusive Writer.holds (isLocked s.shared) s.threads
  counter : Counts s.shared (unlocks es)
  saves : ∀ t, (s.threads t).Saves (unlocks es)
  waits : ∀ t, (s.threads t).Waits

omit [DecidableEq Tid] in
theorem unlocks_snoc : unlocks (es ++ [(t, e)]) = unlocks es + if e.isUnlocked then 1 else 0 := by
  simp [unlocks, List.countP_append, List.countP_cons]

theorem Inv.step (h : Inv es s) (hs : (machine Tid).Step s (t, e) s') :
    Inv (es ++ [(t, e)]) s' := by
  obtain ⟨c, counter, l, hn, rfl⟩ := Pool.step_iff.mp hs
  rcases next_cases (h.waits t) hn with ⟨rfl, rfl, hsaved, hwaits⟩ |
    ⟨hfree, rfl, rfl, hnone, rfl⟩ | ⟨seq, hseq, rfl, rfl, rfl⟩
  · have hunlocks : unlocks (es ++ [(t, .silent)]) = unlocks es := unlocks_snoc
    refine ⟨h.exclusive.keep (by rw [Writer.holds, Writer.holds, hsaved]), ?_, ?_, ?_⟩
    · rw [hunlocks]
      exact h.counter
    · rw [hunlocks]
      exact Pool.forall_update h.saves (fun seq heq => h.saves t seq (hsaved ▸ heq))
        fun _ _ hu => hu
    · exact Pool.forall_update h.waits hwaits fun _ _ hu => hu
  · have hunlocks : unlocks (es ++ [(t, .locked s.shared)]) = unlocks es := unlocks_snoc
    obtain ⟨hcounter, hlocked, hcounts⟩ := h.counter.lock hfree
    have hexclusive := h.exclusive
    rw [hfree] at hexclusive
    refine ⟨?_, ?_, ?_, ?_⟩
    · rw [hlocked]
      exact hexclusive.acquire rfl
    · rw [hunlocks]
      exact hcounts
    · rw [hunlocks]
      refine Pool.forall_update h.saves ?_ fun _ _ hu => hu
      intro seq heq
      cases heq
      exact hcounter
    · exact Pool.forall_update h.waits (fun p heq => by cases heq) fun _ _ hu => hu
  · have hunlocks : unlocks (es ++ [(t, .unlocked)]) = unlocks es + 1 := unlocks_snoc
    obtain rfl := h.saves t seq hseq
    have hholds : (s.threads t).holds = true := by rw [Writer.holds, hseq]; rfl
    have hexclusive := h.exclusive.release hholds (l := .idle) rfl
    refine ⟨?_, ?_, ?_, ?_⟩
    · rw [unlock_eq, isLocked_mod]
      exact hexclusive
    · rw [hunlocks]
      exact counts_unlock _
    · intro u seq hu
      -- whoever still held the lock would have held it together with `t`
      have hnone : ∀ u, (Function.update s.threads t .idle u).saved? = none := by
        intro u
        have hidle : ¬ (Function.update s.threads t .idle u).holds = true := fun hu => by
          have := hexclusive.locked_iff.mpr ⟨u, hu⟩
          cases this
        simpa [Writer.holds] using hidle
      rw [hnone u] at hu
      cases hu
    · exact Pool.forall_update h.waits (fun p heq => by cases heq) fun _ _ hu => hu

theorem Inv.start : Inv [] (machine Tid).start where
  exclusive := by
    have hfree : isLocked 0 = false := by decide
    change Pool.Exclusive Writer.holds (isLocked 0) _
    rw [hfree]
    exact .unlocked fun _ => rfl
  counter := counts_zero
  saves t seq h := by cases h
  waits t p h := by cases h

theorem Inv.of_run (hr : (machine Tid).Run es s) : Inv es s :=
  hr.invariant Inv.start fun _ _ _ _ _ h hs => h.step hs

omit [DecidableEq Tid] in
theorem saved_next {counter counter' seq : ℕ} {l l' : Writer} {c : Choice}
    (hn : next counter l c = some (counter', l', e)) (hl : l.saved? = some seq)
    (he : e ≠ .unlocked) : l'.saved? = some seq := by
  cases l with
  | idle | locking => cases hl
  | held =>
    cases c <;> cases hn
    exact hl
  | unlocking =>
    cases c <;> cases hn
    exact absurd rfl he

theorem saved_of_path {seq : ℕ} (hp : (machine Tid).Path s es s')
    (hl : (s.threads t).saved? = some seq) (hopen : (t, .unlocked) ∉ es) :
    (s'.threads t).saved? = some seq := by
  induction hp with
  | nil => exact hl
  | @snoc u _ es e _ hs ih =>
    obtain ⟨a, e⟩ := e
    simp only [List.mem_append, List.mem_singleton, Prod.mk.injEq, not_or, not_and] at hopen
    have hu := ih hopen.1
    obtain ⟨c, counter, l, hn, rfl⟩ := Pool.step_iff.mp hs
    rcases eq_or_ne t a with rfl | hta
    · simp only [Function.update_self]
      exact saved_next hn hu fun he => hopen.2 rfl he.symm
    · simp only [Function.update_of_ne hta]
      exact hu

theorem pair_advances {es₁ es₂ : List (Tid × Event)} {seq : ℕ}
    (hr : (machine Tid).Run (es₁ ++ (t, .locked seq) :: (es₂ ++ [(t, .unlocked)])) s)
    (hopen : (t, .unlocked) ∉ es₂) :
    ∃ u, (machine Tid).Run es₁ u ∧ u.shared = seq ∧ s.shared = (seq + 2) % counterSize := by
  obtain ⟨u, u', hr₁, hlock, hp⟩ := hr.at_event
  obtain ⟨v, hbetween, hunlock⟩ := hp.last
  obtain ⟨c, counter, l, hn, rfl⟩ := Pool.step_iff.mp hlock
  have hw := (Inv.of_run hr₁).waits t
  rcases next_cases hw hn with ⟨-, he, -⟩ | ⟨-, -, he, -, rfl⟩ | ⟨_, -, -, he, -⟩ <;> cases he
  refine ⟨u, hr₁, rfl, ?_⟩
  have hsaved : (v.threads t).saved? = some u.shared :=
    saved_of_path hbetween (by simp only [Function.update_self]; rfl) hopen
  obtain ⟨c', counter', l', hn', rfl⟩ := Pool.step_iff.mp hunlock
  have hv : (machine Tid).Run (es₁ ++ [(t, .locked u.shared)] ++ es₂) v :=
    (hr₁.snoc hlock).trans hbetween
  rcases next_cases ((Inv.of_run hv).waits t) hn' with ⟨-, he, -⟩ | ⟨-, -, he, -⟩ |
    ⟨seq, hseq, rfl, -, -⟩
  · cases he
  · cases he
  · rw [hsaved] at hseq
    cases hseq
    rfl

/-- Any number of critical sections, and with them of laps of the counter. -/
theorem mutual_exclusion (hr : (machine Tid).Run es s) :
    (∀ a b, (s.threads a).holds = true → (s.threads b).holds = true → a = b) ∧
    (s.shared % 2 = 1 ↔ ∃ a, (s.threads a).holds = true) ∧
    (∀ t seq, (s.threads t).saved? = some seq → s.shared = (seq + 1) % counterSize) ∧
    (∀ es₁ es₂ t seq, es = es₁ ++ (t, .locked seq) :: (es₂ ++ [(t, .unlocked)]) →
      (t, .unlocked) ∉ es₂ → ∃ u, (machine Tid).Run es₁ u ∧ u.shared = seq ∧
        s.shared = (seq + 2) % counterSize) := by
  have h := Inv.of_run hr
  refine ⟨h.exclusive.holder_unique, ?_, fun t seq hsaved => ?_, ?_⟩
  · rw [← isLocked_true]
    exact h.exclusive.locked_iff
  · have hlocked := h.exclusive.locked_iff.mpr ⟨t, by rw [Writer.holds, hsaved]; rfl⟩
    have hcounter := h.counter
    rw [Counts, hlocked, Bool.toNat_true] at hcounter
    rw [hcounter, h.saves t seq hsaved, counterSize]
    omega
  · rintro es₁ es₂ t seq rfl hopen
    exact pair_advances hr hopen

theorem mutual_exclusion_stale :
    ∃ s, (machine Bool).Run
        [(true, .silent), (true, .silent), (false, .silent), (false, .silent),
          (false, .locked 0), (true, .silent), (false, .silent), (false, .unlocked)] s ∧
      (∀ a b, (s.threads a).holds = true → (s.threads b).holds = true → a = b) ∧
      s.shared = (0 + 2) % counterSize := by
  obtain ⟨s, hr⟩ : ∃ s, (machine Bool).Run _ s :=
    ⟨_, Machine.Path.of_exec [(true, .lock), (true, .step false), (false, .lock),
      (false, .step false), (false, .step false), (true, .step false), (false, .unlock),
      (false, .step false)] rfl⟩
  obtain ⟨hunique, -, -, hpair⟩ := mutual_exclusion hr
  obtain ⟨-, -, -, hadvance⟩ := hpair [(true, .silent), (true, .silent), (false, .silent),
    (false, .silent)] [(true, .silent), (false, .silent)] false 0 rfl (by simp)
  exact ⟨s, hr, hunique, hadvance⟩

end LockFree.SeqLockExclusion
