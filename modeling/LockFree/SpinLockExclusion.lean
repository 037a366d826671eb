import LockFree.SpinLock

/-!
# SpinLock excludes

Losers write to `locked_` as well, but only `true` over `true`. A thread is the holder
from the exchange that found `false` to its store in `Unlock`.
-/

namespace LockFree.SpinLock
open ReleaseAcquire TransitionRuns

variable {Tid : Type*} [DecidableEq Tid]

inductive Effect (s : Pool Tid Shared Local) (t : Tid) : Event → Shared → Local → Prop where
  | called {c : Call} {p : Point} : (s.threads t).point.enter c = some p →
      Effect s t (.called c) s.shared ⟨p, (s.threads t).view⟩
  | loaded {seen : Bool} {p : Point} : (s.threads t).point.holds = false → p.holds = false →
      Effect s t (.loaded seen) s.shared
        ⟨p, (s.threads t).view ⊔ s.shared.locked.attached⟩
  | lost {p : Point} : (s.threads t).point.holds = false → p.holds = false →
      s.shared.locked.value = true →
      Effect s t .lost ⟨s.shared.locked.after (s.threads t).view (.exchange true .release),
        s.shared.ended⟩ ⟨p, (s.threads t).view⟩
  | acquired : (s.threads t).point.holds = false → s.shared.locked.value = false →
      Effect s t (.acquired (s.threads t).view)
        ⟨s.shared.locked.after (s.threads t).view (.exchange true .release), s.shared.ended⟩
        ⟨.held, (s.threads t).view⟩
  | unlocked : (s.threads t).point.holds = true →
      Effect s t .unlocked ⟨⟨false, (s.threads t).view ⊔ {s.shared.ended}⟩, s.shared.ended + 1⟩
        ⟨.idle, (s.threads t).view ⊔ {s.shared.ended}⟩

theorem effect_of_step {s s' : Pool Tid Shared Local} {t : Tid} {e : Event}
    (hs : (machine Tid).Step s (t, e) s') :
    ∃ g l, Effect s t e g l ∧ s' = ⟨g, Function.update s.threads t l⟩ := by
  obtain ⟨c, g, l, hn, rfl⟩ := Pool.step_iff.mp hs
  refine ⟨g, l, ?_, rfl⟩
  cases c with
  | call c =>
    simp only [next] at hn
    split at hn <;> cases hn
    exact .called ‹_›
  | step =>
    cases hp : (s.threads t).point with
    | idle | held =>
      simp only [next, hp, Point.access] at hn
      cases hn
    | lockExchange | tryExchange =>
      cases hv : s.shared.locked.value <;> simp only [next, hp, Point.access, hv] at hn <;> cases hn
      · exact .acquired (by rw [hp]; rfl) hv
      · exact .lost (by rw [hp]; rfl) rfl hv
    | lockLoad | tryLoad =>
      simp only [next, hp, Point.access] at hn
      cases hn
      refine .loaded (by rw [hp]; rfl) ?_
      cases s.shared.locked.value <;> rfl
    | unlockStore =>
      simp only [next, hp, Point.access] at hn
      cases hn
      exact .unlocked (by rw [hp]; rfl)

def Exclusive (s : Pool Tid Shared Local) : Prop :=
  Pool.Exclusive (fun l : Local => l.point.holds) s.shared.locked.value s.threads

theorem holds_enter {p p' : Point} {c : Call} (h : p.enter c = some p') : p'.holds = p.holds := by
  cases p <;> cases c <;> cases h <;> rfl

theorem Exclusive.step {s s' : Pool Tid Shared Local} {t : Tid} {e : Event} (h : Exclusive s)
    (hs : (machine Tid).Step s (t, e) s') : Exclusive s' := by
  obtain ⟨g, l, heff, rfl⟩ := effect_of_step hs
  cases heff with
  | called henter => exact Pool.Exclusive.keep h (holds_enter henter)
  | loaded hp hp' => exact Pool.Exclusive.keep h (hp'.trans hp.symm)
  | lost hp hp' hv =>
    rw [Exclusive, hv] at h
    exact h.keep (hp'.trans hp.symm)
  | acquired hp hv =>
    rw [Exclusive, hv] at h
    exact h.acquire rfl
  | unlocked hp => exact Pool.Exclusive.release h hp rfl

theorem Exclusive.of_run {es : List (Tid × Event)} {s : Pool Tid Shared Local}
    (hr : (machine Tid).Run es s) : Exclusive s := by
  refine Machine.Run.invariant (I := fun _ s => Exclusive s) ?_ (fun _ _ e _ _ h hs => h.step hs) hr
  exact Pool.Exclusive.unlocked fun _ => rfl

theorem value_of_loser {s s' : Pool Tid Shared Local} {t : Tid} {e : Event}
    (hs : (machine Tid).Step s (t, e) s') (hbefore : (s.threads t).point.holds = false)
    (hafter : (s'.threads t).point.holds = false) :
    s'.shared.locked.value = s.shared.locked.value := by
  obtain ⟨g, l, heff, rfl⟩ := effect_of_step hs
  simp only [Function.update_self] at hafter
  cases heff with
  | called | loaded => rfl
  | lost _ _ hv => exact hv.symm
  | acquired => cases hafter
  | unlocked hp =>
    rw [hbefore] at hp
    cases hp

theorem exclusion {es : List (Tid × Event)} {s : Pool Tid Shared Local}
    (hr : (machine Tid).Run es s) :
    (∀ a b, (s.threads a).point.holds = true → (s.threads b).point.holds = true → a = b) ∧
    (s.shared.locked.value = true ↔ ∃ a, (s.threads a).point.holds = true) ∧
    (∀ t e s', (machine Tid).Step s (t, e) s' → (s.threads t).point.holds = false →
      (s'.threads t).point.holds = false → s'.shared.locked.value = s.shared.locked.value) := by
  have h := Exclusive.of_run hr
  exact ⟨h.holder_unique, h.locked_iff, fun t e s' hs => value_of_loser hs⟩

theorem exclusion_outdated :
    ∃ s s', (machine Bool).Run [(false, .called .tryLock), (false, .loaded false),
        (true, .called .lock), (true, .acquired ∅)] s ∧ (machine Bool).Step s (false, .lost) s' ∧
      (s.shared.locked.value = true ↔ ∃ a, (s.threads a).point.holds = true) ∧
      s'.shared.locked.value = s.shared.locked.value := by
  obtain ⟨s, s', hr, hs, hbefore, hafter⟩ : ∃ s s', (machine Bool).Run _ s ∧
      (machine Bool).Step s (false, .lost) s' ∧ (s.threads false).point.holds = false ∧
      (s'.threads false).point.holds = false :=
    ⟨_, _, Machine.Path.of_exec [(false, .call .tryLock), (false, .step), (true, .call .lock),
      (true, .step)] rfl, ⟨(false, .step), rfl⟩, rfl, rfl⟩
  obtain ⟨-, hlocked, hloser⟩ := exclusion hr
  exact ⟨s, s', hr, hs, hlocked, hloser _ _ _ hs hbefore hafter⟩

end LockFree.SpinLock
