import LockFree.SpinLockExclusion

/-!
# What the holder of a SpinLock sees

The exchanges that take the lock release but do not acquire. A thread sees the last
critical section before its own if it ended that section itself or has loaded
`locked_` since; otherwise it may miss it.
-/

namespace LockFree.SpinLock
open ReleaseAcquire TransitionRuns

variable {Tid : Type*} [DecidableEq Tid]

def Event.isUnlocked : Event → Bool
  | .unlocked => true
  | _ => false

def unlocks (es : List (Tid × Event)) : ℕ := es.countP fun e => e.2.isUnlocked

/-- The latest `Unlock` was another thread's, and `t` has not loaded `locked_` since. -/
def overlooks (t : Tid) (es : List (Tid × Event)) : Bool :=
  es.foldl (fun missed e =>
    match e.2 with
    | .unlocked => e.1 ≠ t
    | .loaded _ => missed && e.1 ≠ t
    | _ => missed) false

def Publishes (es : List (Tid × Event)) : Prop :=
  ∀ es₁ es₂ t v, es = es₁ ++ (t, .acquired v) :: es₂ → ∀ n < unlocks es₁, n ∈ v

def NeverOverlooks (es : List (Tid × Event)) : Prop :=
  ∀ es₁ es₂ t v, es = es₁ ++ (t, .acquired v) :: es₂ → overlooks t es₁ = false

structure Views (es : List (Tid × Event)) (s : Pool Tid Shared Local) : Prop where
  ended : s.shared.ended = unlocks es
  attached_le : s.shared.locked.attached ≤ Finset.range (unlocks es)
  view_le : ∀ t, (s.threads t).view ≤ Finset.range (unlocks es)
  missed : ∀ t, overlooks t es = true → ∃ n < unlocks es, n ∉ (s.threads t).view

structure Complete (es : List (Tid × Event)) (s : Pool Tid Shared Local) : Prop where
  attached : Finset.range (unlocks es) ≤ s.shared.locked.attached
  view : ∀ t, overlooks t es = false → Finset.range (unlocks es) ≤ (s.threads t).view
  holder : ∀ t, (s.threads t).point.holds = true → overlooks t es = false

variable {es : List (Tid × Event)} {s s' : Pool Tid Shared Local} {t u : Tid} {e : Event}

omit [DecidableEq Tid] in
theorem unlocks_snoc : unlocks (es ++ [(u, e)]) = unlocks es + if e.isUnlocked then 1 else 0 := by
  simp [unlocks, List.countP_append, List.countP_cons]

theorem overlooks_snoc : overlooks t (es ++ [(u, e)]) =
    match e with
    | .unlocked => decide (u ≠ t)
    | .loaded _ => overlooks t es && decide (u ≠ t)
    | _ => overlooks t es := by
  rw [overlooks, List.foldl_append]
  rfl

theorem Views.keep (h : Views es s) {g : Shared} {l : Local}
    (he : e.isUnlocked = false) (ho : ∀ t, overlooks t (es ++ [(u, e)]) = overlooks t es)
    (hended : g.ended = s.shared.ended) (hview : l.view = (s.threads u).view)
    (hg : g.locked.attached ≤ Finset.range (unlocks es)) :
    Views (es ++ [(u, e)]) ⟨g, Function.update s.threads u l⟩ := by
  have hun : unlocks (es ++ [(u, e)]) = unlocks es := by simp [unlocks_snoc, he]
  have hviews : ∀ t, (Function.update s.threads u l t).view = (s.threads t).view := by
    intro t
    by_cases htu : t = u
    · subst htu
      rw [Function.update_self, hview]
    · rw [Function.update_of_ne htu]
  constructor
  · rw [hun, hended, h.ended]
  · rwa [hun]
  · intro t
    rw [hun, hviews]
    exact h.view_le t
  · intro t ht
    rw [ho] at ht
    rw [hun, hviews]
    exact h.missed t ht

theorem Views.step (h : Views es s) (hs : (machine Tid).Step s (u, e) s') :
    Views (es ++ [(u, e)]) s' := by
  obtain ⟨g, l, heff, rfl⟩ := effect_of_step hs
  have hexchange : (s.shared.locked.after (s.threads u).view (.exchange true .release)).attached ≤
      Finset.range (unlocks es) := Cell.attached_after_le (h.view_le u) h.attached_le
  cases heff with
  | called => exact h.keep rfl (fun t => overlooks_snoc) rfl rfl h.attached_le
  | lost => exact h.keep rfl (fun t => overlooks_snoc) rfl rfl hexchange
  | acquired => exact h.keep rfl (fun t => overlooks_snoc) rfl rfl hexchange
  | @loaded seen p =>
    have hun : unlocks (es ++ [(u, .loaded seen)]) = unlocks es := by
      simp [unlocks_snoc, Event.isUnlocked]
    constructor
    · rw [hun]
      exact h.ended
    · rw [hun]
      exact h.attached_le
    · rw [hun]
      exact Pool.forall_update (P := fun l : Local => l.view ≤ Finset.range (unlocks es))
        (Q := fun l : Local => l.view ≤ Finset.range (unlocks es)) h.view_le
        (sup_le (h.view_le u) h.attached_le) fun _ _ hle => hle
    · intro t ht
      obtain ⟨hmissed, htu⟩ : overlooks t es = true ∧ u ≠ t := by
        simpa [overlooks_snoc] using ht
      dsimp only
      rw [hun, Function.update_of_ne htu.symm]
      exact h.missed t hmissed
  | unlocked =>
    have hun : unlocks (es ++ [(u, .unlocked)]) = unlocks es + 1 := by
      simp [unlocks_snoc, Event.isUnlocked]
    have hmono : Finset.range (unlocks es) ≤ Finset.range (unlocks es + 1) :=
      Finset.range_mono (Nat.le_succ _)
    have hmine : (s.threads u).view ⊔ {s.shared.ended} ≤ Finset.range (unlocks es + 1) := by
      apply sup_le ((h.view_le u).trans hmono)
      rw [h.ended, Finset.singleton_subset_iff, Finset.mem_range]
      exact Nat.lt_succ_self _
    constructor
    · rw [hun, ← h.ended]
    · rw [hun]
      exact hmine
    · rw [hun]
      exact Pool.forall_update (P := fun l : Local => l.view ≤ Finset.range (unlocks es))
        (Q := fun l : Local => l.view ≤ Finset.range (unlocks es + 1)) h.view_le hmine
        fun _ _ hle => hle.trans hmono
    · intro t ht
      have htu : u ≠ t := by simpa [overlooks_snoc] using ht
      dsimp only
      rw [hun, Function.update_of_ne htu.symm]
      refine ⟨unlocks es, Nat.lt_succ_self _, fun hmem => ?_⟩
      have := Finset.mem_range.mp (h.view_le t hmem)
      omega

theorem Complete.keep (h : Complete es s) {g : Shared} {l : Local}
    (he : e.isUnlocked = false) (ho : ∀ t, overlooks t (es ++ [(u, e)]) = overlooks t es)
    (hview : l.view = (s.threads u).view) (hholds : l.point.holds = true → overlooks u es = false)
    (hg : s.shared.locked.attached ≤ g.locked.attached) :
    Complete (es ++ [(u, e)]) ⟨g, Function.update s.threads u l⟩ := by
  have hun : unlocks (es ++ [(u, e)]) = unlocks es := by simp [unlocks_snoc, he]
  constructor
  · rw [hun]
    exact h.attached.trans hg
  · intro t ht
    rw [ho] at ht
    rw [hun]
    by_cases htu : t = u
    · subst htu
      dsimp only
      rw [Function.update_self, hview]
      exact h.view t ht
    · dsimp only
      rw [Function.update_of_ne htu]
      exact h.view t ht
  · intro t ht
    rw [ho]
    by_cases htu : t = u
    · subst htu
      dsimp only at ht
      rw [Function.update_self] at ht
      exact hholds ht
    · dsimp only at ht
      rw [Function.update_of_ne htu] at ht
      exact h.holder t ht

theorem Complete.step (h : Complete es s) (hv : Views es s) (hx : Exclusive s)
    (hs : (machine Tid).Step s (u, e) s')
    (hfresh : ∀ v, e = .acquired v → overlooks u es = false) : Complete (es ++ [(u, e)]) s' := by
  obtain ⟨g, l, heff, rfl⟩ := effect_of_step hs
  cases heff with
  | called henter =>
    refine h.keep rfl (fun t => overlooks_snoc) rfl (fun hl => h.holder u ?_) le_rfl
    rwa [← holds_enter henter]
  | lost hp hp' =>
    exact h.keep rfl (fun t => overlooks_snoc) rfl (by simp [hp']) Cell.attached_le_exchange
  | acquired =>
    exact h.keep rfl (fun t => overlooks_snoc) rfl (fun _ => hfresh _ rfl)
      Cell.attached_le_exchange
  | @loaded seen p hp hp' =>
    have hun : unlocks (es ++ [(u, .loaded seen)]) = unlocks es := by
      simp [unlocks_snoc, Event.isUnlocked]
    have hothers : ∀ {t}, t ≠ u →
        overlooks t (es ++ [(u, .loaded seen)]) = overlooks t es := fun htu => by
      simp [overlooks_snoc, Ne.symm htu]
    constructor
    · rw [hun]
      exact h.attached
    · intro t ht
      rw [hun]
      by_cases htu : t = u
      · subst htu
        dsimp only
        rw [Function.update_self]
        exact h.attached.trans le_sup_right
      · rw [hothers htu] at ht
        dsimp only
        rw [Function.update_of_ne htu]
        exact h.view t ht
    · intro t ht
      by_cases htu : t = u
      · subst htu
        simp [hp'] at ht
      · dsimp only at ht
        rw [Function.update_of_ne htu] at ht
        rw [hothers htu]
        exact h.holder t ht
  | unlocked hp =>
    have hun : unlocks (es ++ [(u, .unlocked)]) = unlocks es + 1 := by
      simp [unlocks_snoc, Event.isUnlocked]
    -- the holder saw all earlier sections, and sees the one it ends
    have hmine : Finset.range (unlocks es + 1) ≤ (s.threads u).view ⊔ {s.shared.ended} := by
      rw [hv.ended, Finset.range_add_one]
      apply Finset.insert_subset (Finset.mem_union_right _ (Finset.mem_singleton_self _))
      exact (h.view u (h.holder u hp)).trans Finset.subset_union_left
    constructor
    · rw [hun]
      exact hmine
    · intro t ht
      obtain rfl : u = t := by simpa [overlooks_snoc] using ht
      dsimp only
      rw [hun, Function.update_self]
      exact hmine
    · intro t ht
      by_cases htu : t = u
      · subst htu
        simp [Point.holds] at ht
      · dsimp only at ht
        rw [Function.update_of_ne htu] at ht
        exact absurd (hx.holder_unique t u ht hp) htu

theorem Views.of_run (hr : (machine Tid).Run es s) : Views es s := by
  refine Machine.Run.invariant (I := Views) ?_ (fun _ _ e _ _ h hs => h.step hs) hr
  exact ⟨rfl, le_rfl, fun _ => le_rfl, fun t ht => by simp [overlooks] at ht⟩

theorem NeverOverlooks.of_append {fs : List (Tid × Event)} (h : NeverOverlooks (es ++ fs)) :
    NeverOverlooks es := fun es₁ es₂ t v hes =>
  h es₁ (es₂ ++ fs) t v (by rw [hes, List.append_assoc, List.cons_append])

theorem Complete.of_run (hr : (machine Tid).Run es s) (hn : NeverOverlooks es) :
    Complete es s := by
  refine Machine.Run.invariant (I := fun es s => NeverOverlooks es → Complete es s) ?_ ?_ hr hn
  · intro _
    refine ⟨le_rfl, fun _ _ => le_rfl, fun t ht => ?_⟩
    simp [machine, Pool.machine, Point.holds] at ht
  · intro es s e s' hr ih hs hn
    refine (ih hn.of_append).step (Views.of_run hr) (Exclusive.of_run hr) hs fun v he => ?_
    exact hn es [] e.1 v (by rw [← he])

theorem step_acquired {v : Finset ℕ} (hs : (machine Tid).Step s (t, .acquired v) s') :
    v = (s.threads t).view := by
  obtain ⟨g, l, heff, -⟩ := effect_of_step hs
  cases heff
  rfl

/-- Critical sections are published in a run exactly when no thread takes the lock
having overlooked the latest `Unlock`. -/
theorem publishes_iff_neverOverlooks (hr : (machine Tid).Run es s) :
    Publishes es ↔ NeverOverlooks es := by
  constructor
  · intro hp es₁ es₂ t v hes
    subst hes
    obtain ⟨w, w', hw, hs, -⟩ := hr.at_event
    have hseen := hp es₁ es₂ t v rfl
    rw [step_acquired hs] at hseen
    by_contra hover
    obtain ⟨n, hn, hmissed⟩ := (Views.of_run hw).missed t (by simpa using hover)
    exact hmissed (hseen n hn)
  · intro hn es₁ es₂ t v hes n hlt
    subst hes
    obtain ⟨w, w', hw, hs, -⟩ := hr.at_event
    rw [step_acquired hs]
    have hprefix : NeverOverlooks es₁ := hn.of_append
    exact (Complete.of_run hw hprefix).view t (hn es₁ es₂ t v rfl) (Finset.mem_range.mpr hlt)

theorem publishes_after_spinning :
    Publishes [(true, .called .lock), (true, .acquired ∅), (false, .called .lock), (false, .lost),
      (true, .called .unlock), (true, .unlocked), (false, .loaded false),
      (false, .acquired {0})] := by
  have hr : ∃ s, (machine Bool).Run [(true, .called .lock), (true, .acquired ∅),
      (false, .called .lock), (false, .lost), (true, .called .unlock), (true, .unlocked),
      (false, .loaded false), (false, .acquired {0})] s :=
    ⟨_, Machine.Path.of_exec [(true, .call .lock), (true, .step), (false, .call .lock),
      (false, .step), (true, .call .unlock), (true, .step), (false, .step), (false, .step)] rfl⟩
  obtain ⟨s, hr⟩ := hr
  refine (publishes_iff_neverOverlooks hr).mpr fun es₁ es₂ t v hes => ?_
  simp [List.cons_eq_append_iff] at hes
  obtain ⟨_, rfl, ⟨rfl, ⟨rfl, -⟩, -⟩ | ⟨rfl, ⟨rfl, -⟩, -⟩⟩ := hes <;> decide

theorem not_publishes_first_exchange :
    ∃ s, (machine Bool).Run [(true, .called .lock), (true, .acquired ∅), (true, .called .unlock),
        (true, .unlocked), (false, .called .lock), (false, .acquired ∅)] s ∧
      ¬ Publishes [(true, .called .lock), (true, .acquired ∅), (true, .called .unlock),
        (true, .unlocked), (false, .called .lock), (false, .acquired ∅)] := by
  refine ⟨_, Machine.Path.of_exec [(true, .call .lock), (true, .step),
    (true, .call .unlock), (true, .step), (false, .call .lock), (false, .step)] rfl, fun h => ?_⟩
  have := h [(true, .called .lock), (true, .acquired ∅), (true, .called .unlock),
    (true, .unlocked), (false, .called .lock)] [] false ∅ rfl 0 (by decide)
  revert this
  decide

end LockFree.SpinLock
