import LockFree.LockedStack

/-!
# UnboundedLockedStack is a stack

Between its acquisition and its last access to `stack_`, a thread is the only one that
touches the elements; what it finishes with is what `std::stack` does with the elements
it found.
-/

namespace LockFree.LockedStack
open Linearizability TransitionRuns

variable {T Tid : Type*} {leave spoil : T → T}

def Local.holds : Local T → Bool
  | .idle | .locking _ _ => false
  | _ => true

def Local.phase : Local T → Phase (Call T) (Result T)
  | .idle => .idle
  | .locking c _ | .placing c _ => .called c
  | .testing | .assigning | .removing _ => .called .pop
  | .unlocking c r => .committed c r

def Local.working? : Local T → Option (Call T)
  | .placing c _ => some c
  | .testing | .assigning | .removing _ => some .pop
  | _ => none

def Local.Progress (q : List (Element T)) (l : Local T) (stack : List (Element T)) : Prop :=
  match l with
  | .placing c v => stack = q ∧ c.element? = some v
  | .testing => stack = q
  | .assigning => stack = q ∧ q ≠ []
  | .removing v => ∃ x q' y, q = x :: q' ∧ x.value = v ∧ stack = ⟨x.id, y⟩ :: q'
  | _ => False

structure Accepted (spoil : T → T) (es : List (Tid × Event T)) (q : List (Element T))
    (s : Pool Tid (Shared T) (Local T)) : Prop where
  accepts : Accepts (StdStack spoil) [] ((finished es).map fun x => x.2) q
  resting : (∀ a, (s.threads a).working? = none) →
    s.shared.stack = q ∧ acquired es = (finished es).map fun x => (x.1, x.2.1)
  working : ∀ a c, (s.threads a).working? = some c →
    (s.threads a).Progress q s.shared.stack ∧
      acquired es = ((finished es).map fun x => (x.1, x.2.1)) ++ [(a, c)]

section
variable {g g' : Shared T} {l l' : Local T} {a : Choice T} {c : Call T} {r : Result T} {e : Event T}

theorem holds_of_working (h : l.working? = some c) : l.holds = true := by
  cases l <;> first | rfl | cases h

theorem phase_of_working (h : l.working? = some c) : l.phase = .called c := by
  cases l <;> cases h <;> rfl

theorem next_working (hw : l.working? = some c) (hids : ∀ x ∈ g.stack, x.id < g.created)
    (hn : next leave spoil g l a = some (g', l', e)) :
    (e = .silent ∧ l'.working? = some c ∧ ∀ q, l.Progress q g.stack → l'.Progress q g'.stack) ∨
      ∃ r, e = .finished c r ∧ l' = .unlocking c r ∧
        ∀ q, l.Progress q g.stack → StdStack spoil q c r g'.stack := by
  cases l with
  | idle | locking | unlocking => cases hw
  | placing c' v =>
    obtain rfl : c' = c := by simpa [Local.working?] using hw
    cases a
    case call => cases hn
    case step =>
      cases hn
      refine .inr ⟨.done, rfl, rfl, fun q hp => ?_⟩
      obtain ⟨rfl, hv⟩ := hp
      exact .push hv fun x hx => (hids x hx).ne
    case throw =>
      cases hn
      refine .inr ⟨.threw, rfl, rfl, fun q hp => ?_⟩
      obtain ⟨rfl, hv⟩ := hp
      exact .throwPush hv
  | testing =>
    obtain rfl : .pop = c := by simpa [Local.working?] using hw
    cases a <;> simp only [next, reduceCtorEq] at hn
    split at hn <;> cases hn
    · rename_i hempty
      refine .inr ⟨.empty, rfl, rfl, fun q hp => ?_⟩
      obtain rfl : g.stack = q := hp
      rw [List.isEmpty_iff.mp hempty]
      exact .popEmpty
    · rename_i hempty
      refine .inl ⟨rfl, rfl, fun q hp => ⟨hp, fun hq => hempty ?_⟩⟩
      rw [show g.stack = q from hp, hq]
      rfl
  | assigning =>
    obtain rfl : .pop = c := by simpa [Local.working?] using hw
    cases hstack : g.stack with
    | nil => cases a <;> simp only [next, hstack, reduceCtorEq] at hn
    | cons x q' =>
      cases a <;> simp only [next, hstack, reduceCtorEq] at hn
      case step =>
        cases hn
        refine .inl ⟨rfl, rfl, fun q hp => ?_⟩
        exact ⟨x, q', leave x.value, hp.1.symm, rfl, rfl⟩
      case throw =>
        cases hn
        refine .inr ⟨.threw, rfl, rfl, fun q hp => ?_⟩
        rw [← hp.1]
        exact .throwPop x q'
  | removing v =>
    obtain rfl : .pop = c := by simpa [Local.working?] using hw
    cases hstack : g.stack with
    | nil => cases a <;> simp only [next, hstack, reduceCtorEq] at hn
    | cons x q' =>
      cases a <;> simp only [next, hstack, reduceCtorEq] at hn
      cases hn
      refine .inr ⟨.popped v, rfl, rfl, fun q hp => ?_⟩
      obtain ⟨x', q'', y, rfl, rfl, heq⟩ := hp
      cases heq
      exact .pop x' q'

theorem next_working_frame (hw : l.working? = some c) (hids : ∀ x ∈ g.stack, x.id < g.created)
    (hn : next leave spoil g l a = some (g', l', e)) :
    g'.locked = g.locked ∧ ∀ x ∈ g'.stack, x.id < g'.created := by
  unfold next at hn
  cases l <;> grind [Local.working?]

theorem next_unlocking (hn : next leave spoil g (.unlocking c r) a = some (g', l', e)) :
    g' = { g with locked := false } ∧ l' = .idle ∧ e = .released c r := by
  cases a <;> cases hn
  exact ⟨rfl, rfl, rfl⟩

def Local.Spins (l : Local T) : Prop :=
  ∀ c p, l = .locking c p → p = .lockExchange ∨ p = .lockLoad

theorem next_locking {p : SpinLock.Point} (hp : p = .lockExchange ∨ p = .lockLoad)
    (hn : next leave spoil g (.locking c p) a = some (g', l', e)) :
    (g' = g ∧ e = .silent ∧ ∃ p', (p' = .lockExchange ∨ p' = .lockLoad) ∧ l' = .locking c p') ∨
      (g.locked = false ∧ g' = { g with locked := true } ∧ e = .acquired c ∧ l' = body c) := by
  obtain ⟨locked, stack, created⟩ := g
  cases a
  case step =>
    rcases hp with rfl | rfl <;> cases locked <;> cases hn
    · exact .inr ⟨rfl, rfl, rfl, rfl⟩
    · exact .inl ⟨rfl, rfl, _, .inr rfl, rfl⟩
    · exact .inl ⟨rfl, rfl, _, .inl rfl, rfl⟩
    · exact .inl ⟨rfl, rfl, _, .inr rfl, rfl⟩
  all_goals cases hn

theorem next_waiting (hl : l.Spins) (hholds : l.holds = false) (hlocked : g.locked = true)
    (hn : next leave spoil g l a = some (g', l', e)) : g' = g := by
  cases l with
  | idle =>
    cases a <;> cases hn
    rfl
  | locking c p =>
    rcases next_locking (hl c p rfl) hn with ⟨rfl, -⟩ | ⟨hfree, -⟩
    · rfl
    · rw [hlocked] at hfree
      cases hfree
  | placing | testing | assigning | removing | unlocking => cases hholds

theorem working_body (c : Call T) : (body c).working? = some c := by
  cases c <;> rfl

theorem next_acquired (hl : l.Spins) (hn : next leave spoil g l a = some (g', l', .acquired c)) :
    l' = body c ∧ g'.stack = g.stack := by
  cases l with
  | locking c' p =>
    rcases next_locking (hl c' p rfl) hn with ⟨-, he, -⟩ | ⟨-, rfl, he, rfl⟩
    · cases he
    · cases he
      exact ⟨rfl, rfl⟩
  | idle | placing | testing | assigning | removing | unlocking =>
    unfold next at hn
    grind

theorem progress_body (c : Call T) (q : List (Element T)) : (body c).Progress q q := by
  cases c with
  | emplace | push | pushMove => exact ⟨rfl, rfl⟩
  | pop => rfl

theorem next_spins (hl : l.Spins) (hn : next leave spoil g l a = some (g', l', e)) : l'.Spins := by
  intro c p hl'
  cases l with
  | locking c' p' =>
    rcases next_locking (hl c' p' rfl) hn with ⟨-, -, p'', hp'', rfl⟩ | ⟨-, -, -, hbody⟩
    · cases hl'
      exact hp''
    · have := working_body c'
      rw [← hbody, hl'] at this
      cases this
  | idle | placing | testing | assigning | removing | unlocking =>
    unfold next at hn
    grind

end

variable [DecidableEq Tid]

structure Inv (spoil : T → T) (es : List (Tid × Event T)) (s : Pool Tid (Shared T) (Local T)) :
    Prop where
  exclusive : Pool.Exclusive Local.holds s.shared.locked s.threads
  phases : Follows (history es) (Local.phase ∘ s.threads)
  ids : ∀ x ∈ s.shared.stack, x.id < s.shared.created
  accepted : ∃ q, Accepted spoil es q s

variable {es : List (Tid × Event T)} {s s' : Pool Tid (Shared T) (Local T)} {t : Tid} {e : Event T}
  {g : Shared T} {l : Local T} {c : Call T}

theorem Inv.others_rest (h : Inv spoil es s) (ht : (s.threads t).holds = true) {a : Tid}
    (hat : a ≠ t) : (s.threads a).working? = none := by
  cases ha : (s.threads a).working? with
  | none => rfl
  | some c => exact absurd (h.exclusive.holder_unique a t (holds_of_working ha) ht) hat

theorem Inv.aside (h : Inv spoil es s) (hx : Pool.Exclusive Local.holds g.locked
      (Function.update s.threads t l))
    (hm : (s.threads t).phase.Moves e.mark? l.phase) (he : e.acquired? = none ∧ e.finished? = none)
    (hg : g.stack = s.shared.stack ∧ g.created = s.shared.created)
    (hw : (s.threads t).working? = none ∧ l.working? = none) :
    Inv spoil (es ++ [(t, e)]) ⟨g, Function.update s.threads t l⟩ := by
  have hacq : acquired (es ++ [(t, e)]) = acquired es := by simp [acquired, he.1]
  have hfin : finished (es ++ [(t, e)]) = finished es := by simp [finished, he.2]
  have hsame : ∀ a, (Function.update s.threads t l a).working? = (s.threads a).working? := by
    intro a
    by_cases hat : a = t
    · subst hat
      rw [Function.update_self, hw.1, hw.2]
    · rw [Function.update_of_ne hat]
  obtain ⟨q, hq⟩ := h.accepted
  refine ⟨hx, h.phases.emit hm, by rw [hg.1, hg.2]; exact h.ids, q, ?_⟩
  constructor
  · rw [hfin]
    exact hq.accepts
  · intro hrest
    rw [hfin, hacq, hg.1]
    exact hq.resting fun a => (hsame a).symm.trans (hrest a)
  · intro a c ha
    simp only [hsame] at ha
    have hat : a ≠ t := fun heq => by simp [heq, hw.1] at ha
    rw [hfin, hacq, hg.1]
    simp only [Function.update_of_ne hat]
    exact hq.working a c ha

theorem Inv.acquire (h : Inv spoil es s) (hlocked : s.shared.locked = false)
    (ht : (s.threads t).phase = .called c) (hg : g = { s.shared with locked := true }) :
    Inv spoil (es ++ [(t, .acquired c)]) ⟨g, Function.update s.threads t (body c)⟩ := by
  subst hg
  have hacq : acquired (es ++ [(t, .acquired c)]) = acquired es ++ [(t, c)] := by
    simp [acquired, Event.acquired?]
  have hfin : finished (es ++ [(t, .acquired c)]) = finished es := by
    simp [finished, Event.finished?]
  have hrest : ∀ a, (s.threads a).working? = none := by
    intro a
    cases ha : (s.threads a).working? with
    | none => rfl
    | some c =>
      have := h.exclusive.locked_iff.mpr ⟨a, holds_of_working ha⟩
      rw [hlocked] at this
      cases this
  obtain ⟨q, hq⟩ := h.accepted
  obtain ⟨hstack, hdone⟩ := hq.resting hrest
  have hx := h.exclusive
  rw [hlocked] at hx
  refine ⟨hx.acquire (holds_of_working (working_body c)), h.phases.emit ?_, h.ids, q, ?_⟩
  · rw [ht]
    exact phase_of_working (working_body c)
  · constructor
    · rw [hfin]
      exact hq.accepts
    · intro hnone
      have := hnone t
      simp [working_body] at this
    · intro a d ha
      by_cases hat : a = t
      · subst hat
        simp only [Function.update_self, working_body] at ha ⊢
        cases ha
        rw [hfin, hacq, hdone, hstack]
        exact ⟨progress_body c q, rfl⟩
      · simp [Function.update_of_ne hat, hrest a] at ha

theorem Inv.progress (h : Inv spoil es s) (ht : (s.threads t).working? = some c)
    (hl : l.working? = some c) (hg : g.locked = s.shared.locked)
    (hids : ∀ x ∈ g.stack, x.id < g.created)
    (hp : ∀ q, (s.threads t).Progress q s.shared.stack → l.Progress q g.stack) :
    Inv spoil (es ++ [(t, .silent)]) ⟨g, Function.update s.threads t l⟩ := by
  have hacq : acquired (es ++ [(t, .silent)]) = acquired es := by
    simp [acquired, Event.acquired?]
  have hfin : finished (es ++ [(t, .silent)]) = finished es := by
    simp [finished, Event.finished?]
  obtain ⟨q, hq⟩ := h.accepted
  obtain ⟨hprog, hdone⟩ := hq.working t c ht
  refine ⟨?_, h.phases.emit ?_, hids, q, ?_⟩
  · rw [hg]
    exact h.exclusive.keep ((holds_of_working hl).trans (holds_of_working ht).symm)
  · exact (phase_of_working hl).trans (phase_of_working ht).symm
  · constructor
    · rw [hfin]
      exact hq.accepts
    · intro hnone
      have := hnone t
      simp [hl] at this
    · intro a d ha
      by_cases hat : a = t
      · subst hat
        simp only [Function.update_self, hl] at ha ⊢
        cases ha
        rw [hfin, hacq]
        exact ⟨hp q hprog, hdone⟩
      · simp [Function.update_of_ne hat, h.others_rest (holds_of_working ht) hat] at ha

theorem Inv.finish (h : Inv spoil es s) {r : Result T} (ht : (s.threads t).working? = some c)
    (hg : g.locked = s.shared.locked)
    (hids : ∀ x ∈ g.stack, x.id < g.created)
    (hp : ∀ q, (s.threads t).Progress q s.shared.stack → StdStack spoil q c r g.stack) :
    Inv spoil (es ++ [(t, .finished c r)]) ⟨g, Function.update s.threads t (.unlocking c r)⟩ := by
  have hacq : acquired (es ++ [(t, .finished c r)]) = acquired es := by
    simp [acquired, Event.acquired?]
  have hfin : finished (es ++ [(t, .finished c r)]) = finished es ++ [(t, c, r)] := by
    simp [finished, Event.finished?]
  obtain ⟨q, hq⟩ := h.accepted
  obtain ⟨hprog, hdone⟩ := hq.working t c ht
  have hrest : ∀ a, (Function.update s.threads t (.unlocking c r) a).working? = none := by
    intro a
    by_cases hat : a = t
    · subst hat
      rw [Function.update_self]
      rfl
    · rw [Function.update_of_ne hat]
      exact h.others_rest (holds_of_working ht) hat
  refine ⟨?_, h.phases.emit ?_, hids, g.stack, ?_⟩
  · rw [hg]
    exact h.exclusive.keep (holds_of_working ht).symm
  · rw [phase_of_working ht]
    exact .commit c r
  · constructor
    · rw [hfin, List.map_append]
      exact hq.accepts.snoc (hp q hprog)
    · intro _
      rw [hacq, hfin, hdone, List.map_append]
      exact ⟨rfl, rfl⟩
    · intro a d ha
      rw [hrest a] at ha
      cases ha

theorem Inv.lock {p : SpinLock.Point} {a : Choice T} (h : Inv spoil es s)
    (hp : p = .lockExchange ∨ p = .lockLoad) (hla : s.threads t = .locking c p)
    (hn : next leave spoil s.shared (.locking c p) a = some (g, l, e)) :
    Inv spoil (es ++ [(t, e)]) ⟨g, Function.update s.threads t l⟩ := by
  rcases next_locking hp hn with ⟨rfl, rfl, p', -, rfl⟩ | ⟨hfree, rfl, rfl, rfl⟩
  · refine h.aside (h.exclusive.keep ?_) ?_ ⟨rfl, rfl⟩ ⟨rfl, rfl⟩ ⟨by rw [hla]; rfl, rfl⟩
    · rw [hla]
      rfl
    · rw [hla]
      rfl
  · refine h.acquire hfree ?_ rfl
    rw [hla]
    rfl

theorem Inv.work {a : Choice T} (h : Inv spoil es s) (ht : (s.threads t).working? = some c)
    (hn : next leave spoil s.shared (s.threads t) a = some (g, l, e)) :
    Inv spoil (es ++ [(t, e)]) ⟨g, Function.update s.threads t l⟩ := by
  obtain ⟨hlocked, hids⟩ := next_working_frame ht h.ids hn
  rcases next_working ht h.ids hn with ⟨rfl, hl, hp⟩ | ⟨r, rfl, rfl, hp⟩
  · exact h.progress ht hl hlocked hids hp
  · exact h.finish ht hlocked hids hp

theorem Inv.unlock {a : Choice T} {r : Result T} (h : Inv spoil es s)
    (hla : s.threads t = .unlocking c r)
    (hn : next leave spoil s.shared (.unlocking c r) a = some (g, l, e)) :
    Inv spoil (es ++ [(t, e)]) ⟨g, Function.update s.threads t l⟩ := by
  obtain ⟨rfl, rfl, rfl⟩ := next_unlocking hn
  have hrelease : Pool.Exclusive Local.holds false (Function.update s.threads t .idle) :=
    h.exclusive.release (by rw [hla]; rfl) rfl
  refine h.aside hrelease ?_ ⟨rfl, rfl⟩ ⟨rfl, rfl⟩ ⟨by rw [hla]; rfl, rfl⟩
  rw [hla]
  exact .ret c r

theorem Inv.call {p : SpinLock.Point} (h : Inv spoil es s) (hla : s.threads t = .idle) :
    Inv spoil (es ++ [(t, .called c)])
      ⟨s.shared, Function.update s.threads t (.locking c p)⟩ := by
  refine h.aside (h.exclusive.keep ?_) ?_ ⟨rfl, rfl⟩ ⟨rfl, rfl⟩ ⟨by rw [hla]; rfl, rfl⟩
  · rw [hla]
    rfl
  · rw [hla]
    exact .call c

theorem Inv.step (h : Inv spoil es s) (hspins : ∀ a, (s.threads a).Spins)
    (hs : (machine leave spoil Tid).Step s (t, e) s') : Inv spoil (es ++ [(t, e)]) s' := by
  obtain ⟨a, g, l, hn, rfl⟩ := Pool.step_iff.mp hs
  cases hla : s.threads t with
  | idle =>
    rw [hla] at hn
    cases a <;> cases hn
    exact h.call hla
  | locking c p =>
    rw [hla] at hn
    exact h.lock (hspins t c p hla) hla hn
  | placing | testing | assigning | removing => exact h.work (by rw [hla]; rfl) hn
  | unlocking c r =>
    rw [hla] at hn
    exact h.unlock hla hn

theorem Inv.start : Inv spoil [] (machine leave spoil Tid).start where
  exclusive := .unlocked fun _ => rfl
  phases := .nil
  ids x hx := by cases hx
  accepted := ⟨[], .nil [], fun _ => ⟨rfl, rfl⟩, fun a c hc => by cases hc⟩

theorem spins_of_run (h : (machine leave spoil Tid).Run es s) : ∀ a, (s.threads a).Spins := by
  refine h.invariant (I := fun _ s => ∀ a, (s.threads a).Spins) ?_ ?_
  · intro a c p heq
    cases heq
  · intro es s e s' _ hi hs
    obtain ⟨a, g, l, hn, rfl⟩ := Pool.step_iff.mp hs
    exact Pool.forall_update hi (next_spins (hi e.1) hn) fun _ _ h => h

theorem Inv.of_run (h : (machine leave spoil Tid).Run es s) : Inv spoil es s := by
  apply h.invariant .start
  intro es s e s' hr hi hs
  exact hi.step (spins_of_run hr) hs

/-- The thread acquired the lock for `c` when the stack was `q`, and has not given it back. -/
def Local.Amid (spoil : T → T) (c : Call T) (q : List (Element T)) (l : Local T)
    (stack : List (Element T)) : Prop :=
  (l.working? = some c ∧ l.Progress q stack) ∨
    ∃ r, l = .unlocking c r ∧ StdStack spoil q c r stack

section
variable {q : List (Element T)}

omit [DecidableEq Tid] in
theorem Local.Amid.holds (h : l.Amid spoil c q g.stack) : l.holds = true := by
  rcases h with ⟨hw, -⟩ | ⟨r, rfl, -⟩
  · exact holds_of_working hw
  · rfl

theorem Inv.amid_step {u : Tid} (h : Inv spoil es s) (hspins : ∀ a, (s.threads a).Spins)
    (ht : (s.threads t).Amid spoil c q s.shared.stack)
    (hs : (machine leave spoil Tid).Step s (u, e) s')
    (he : u = t → ∀ r, e ≠ .released c r) : (s'.threads t).Amid spoil c q s'.shared.stack := by
  obtain ⟨a, g, l, hn, rfl⟩ := Pool.step_iff.mp hs
  dsimp only
  by_cases hut : u = t
  · subst hut
    rw [Function.update_self]
    rcases ht with ⟨hw, hprog⟩ | ⟨r, hl, -⟩
    · rcases next_working hw h.ids hn with ⟨-, hl, hp⟩ | ⟨r, -, rfl, hp⟩
      · exact .inl ⟨hl, hp q hprog⟩
      · exact .inr ⟨r, rfl, hp q hprog⟩
    · rw [hl] at hn
      obtain ⟨-, -, hr⟩ := next_unlocking hn
      exact absurd hr (he rfl r)
  · rw [Function.update_of_ne (Ne.symm hut)]
    have hlocked : s.shared.locked = true := h.exclusive.locked_iff.mpr ⟨t, ht.holds⟩
    have hwaits : (s.threads u).holds = false := by
      by_contra hu
      exact hut (h.exclusive.holder_unique u t (by simpa using hu) ht.holds)
    obtain rfl := next_waiting (hspins u) hwaits hlocked hn
    exact ht

/-- Until the thread gives the lock back, the stack is what its operation made of `q`. -/
theorem amid_of_path {fs : List (Tid × Event T)} (h : (machine leave spoil Tid).Run es s)
    (ht : (s.threads t).Amid spoil c q s.shared.stack)
    (hp : (machine leave spoil Tid).Path s fs s') (hfs : ∀ c' r, (t, .released c' r) ∉ fs) :
    (s'.threads t).Amid spoil c q s'.shared.stack := by
  induction hp with
  | nil => exact ht
  | @snoc u u' fs e hp hs ih =>
    obtain ⟨a, e⟩ := e
    have hr : (machine leave spoil Tid).Run (es ++ fs) u := Machine.Path.trans h hp
    have hu := ih fun c' r hmem => hfs c' r (List.mem_append_left _ hmem)
    apply (Inv.of_run hr).amid_step (spins_of_run hr) hu hs
    rintro rfl r rfl
    exact hfs c r (List.mem_append_right _ (List.mem_singleton_self _))

omit [DecidableEq Tid] in
theorem StdStack.ids_of_threw {q' : List (Element T)} (h : StdStack spoil q c .threw q') :
    q'.map Element.id = q.map Element.id := by
  cases h <;> rfl

theorem stack_of_threw {fs : List (Tid × Event T)} (h : (machine leave spoil Tid).Run es s)
    (hp : (machine leave spoil Tid).Path s ((t, .acquired c) :: fs ++ [(t, .released c .threw)]) s')
    (hfs : ∀ c' r, (t, .released c' r) ∉ fs) :
    s'.shared.stack.map Element.id = s.shared.stack.map Element.id ∧
      s'.shared.locked = false := by
  obtain ⟨w, hinit, hlast⟩ := hp.last
  obtain ⟨u, hfirst, hmid⟩ := hinit.head
  have hr : (machine leave spoil Tid).Run (es ++ [(t, .acquired c)]) u := h.snoc hfirst
  have hu : (u.threads t).Amid spoil c s.shared.stack u.shared.stack := by
    obtain ⟨a, g, l, hn, rfl⟩ := Pool.step_iff.mp hfirst
    obtain ⟨hl, hg⟩ := next_acquired (spins_of_run h t) hn
    refine .inl ?_
    dsimp only
    rw [Function.update_self, hl, hg]
    exact ⟨working_body c, progress_body c _⟩
  have hw := amid_of_path hr hu hmid hfs
  obtain ⟨a, g, l, hn, rfl⟩ := Pool.step_iff.mp hlast
  rcases hw with ⟨hw, -⟩ | ⟨r, hl, hstd⟩
  · rcases next_working hw (Inv.of_run (hr.trans hmid)).ids hn with ⟨he, -⟩ | ⟨r, he, -⟩ <;> cases he
  · rw [hl] at hn
    obtain ⟨rfl, -, he⟩ := next_unlocking hn
    cases he
    exact ⟨hstd.ids_of_threw, rfl⟩

end

omit [DecidableEq Tid] in
theorem commits_history : commits (history es) = (finished es).map fun x => x.2 := by
  induction es using List.reverseRecOn with
  | nil => rfl
  | append_singleton es e ih =>
    obtain ⟨t, e⟩ := e
    simp only [commits, history, marks, finished, List.filterMap_append, List.map_append] at ih ⊢
    rw [ih]
    cases e <;> rfl

theorem lifo_in_lock_order (h : (machine leave spoil Tid).Run es s) :
    Linearizable (history es) (StdStack spoil) [] ∧
    (∃ ph, Follows (history es) ph) ∧
    (∃ q pending, Accepts (StdStack spoil) [] ((finished es).map fun x => x.2) q ∧
      acquired es = ((finished es).map fun x => (x.1, x.2.1)) ++ pending ∧ pending.length ≤ 1) ∧
    ∀ {es₁ es₂ : List (Tid × Event T)} {t c u}, (machine leave spoil Tid).Run es₁ u →
      (machine leave spoil Tid).Path u ((t, .acquired c) :: es₂ ++ [(t, .released c .threw)]) s →
      (∀ c' r, (t, .released c' r) ∉ es₂) →
      s.shared.stack.map Element.id = u.shared.stack.map Element.id ∧ s.shared.locked = false := by
  have hi := Inv.of_run h
  obtain ⟨q, hq⟩ := hi.accepted
  refine ⟨?_, ⟨_, hi.phases⟩, ⟨q, ?_⟩, fun hr hp hfs => stack_of_threw hr hp hfs⟩
  · refine hi.phases.linearizable (?_ : Accepts _ _ _ q)
    rw [commits_history]
    exact hq.accepts
  · by_cases hrest : ∀ a, (s.threads a).working? = none
    · refine ⟨[], hq.accepts, ?_, Nat.zero_le 1⟩
      rw [List.append_nil]
      exact (hq.resting hrest).2
    · simp only [not_forall] at hrest
      obtain ⟨a, ha⟩ := hrest
      obtain ⟨c, hc⟩ := Option.ne_none_iff_exists'.mp ha
      exact ⟨[(a, c)], hq.accepts, (hq.working a c hc).2, le_rfl⟩

theorem lifo_in_lock_order_throw :
    ∃ es s, (machine (T := ℕ) id id Bool).Run es s ∧
      Linearizable (history es) (StdStack id) [] ∧ s.shared.stack.map Element.value = [5] ∧
      s.shared.locked = false := by
  have hr : ∃ s, (machine (T := ℕ) id id Bool).Run [(true, .called (.push 5)),
      (true, .acquired (.push 5)), (false, .called .pop), (false, .silent),
      (true, .finished (.push 5) .done), (true, .released (.push 5) .done), (false, .silent),
      (false, .acquired .pop), (false, .silent), (false, .finished .pop .threw),
      (false, .released .pop .threw)] s ∧ s.shared.stack = [⟨0, 5⟩] ∧ s.shared.locked = false :=
    ⟨_, Machine.Path.of_exec [(true, .call (.push 5)), (true, .step), (false, .call .pop),
      (false, .step), (true, .step), (true, .step), (false, .step), (false, .step), (false, .step),
      (false, .throw), (false, .step)] rfl, rfl, rfl⟩
  obtain ⟨s, hr, hstack, hlocked⟩ := hr
  refine ⟨_, s, hr, (lifo_in_lock_order hr).1, ?_, hlocked⟩
  rw [hstack]
  rfl

end LockFree.LockedStack
