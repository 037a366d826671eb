import Mathlib.Tactic.Ring
import LockFree.LockFreeStackEffort

/-!
# UnboundedLockFreeStack is lock-free

Every step of a call brings it nearer to its end, uses up one of its changes of the word
`head_`, or exchanges the pointer. So all threads together take a number of steps that is
bounded by the number of calls, and whoever runs, some call returns.
-/

namespace LockFree.LockFreeStack
open AtomicSharedPtr Contention Linearizability TransitionRuns

section
variable {T Tid : Type*} [DecidableEq Tid] [Fintype Tid] {P : List ℕ} {g : Shared T} {l : Local T}
  {s s' : Pool Tid (Shared T) (Local T)} {t u : Tid} {f : Event T} {leave : T → T} {spurious : Bool}
  {c : Choice T} {e : Tid × Event T} {es : List (Tid × Event T)} {cs : List (Tid × Choice T)}

/-- Nobody has to repeat an attempt because of a step that does not exchange the pointer. -/
theorem Inv.other_pointer (h : Inv P s) (hsafe : SafeAt P s t g l f) (hu : u ≠ t)
    (hptr : pointer g.packedPtr = pointer s.shared.packedPtr) :
    (s.threads u).changes g = (s.threads u).changes s.shared ∧
      (s.threads u).effort g ≤ (s.threads u).effort s.shared + 3 := by
  have hretries : (s.threads u).retries g = (s.threads u).retries s.shared := by
    rw [Local.retries, Local.retries, fresh_congr hptr (h.sees u) fun n node =>
      h.pending_after hsafe hu]
  have hown : (s.threads u).ownEffort g ≤ (s.threads u).ownEffort s.shared + 3 * 1 :=
    (s.threads u).ownEffort_le fun expected => (g.stale_le expected).trans (Nat.le_add_left _ _)
  rw [Local.changes, Local.changes, Local.effort, Local.effort, hretries]
  exact ⟨rfl, by omega⟩

theorem Inv.other_word (h : Inv P s) (hsafe : SafeAt P s t g l f) (hu : u ≠ t)
    (hword : g.packedPtr = s.shared.packedPtr) :
    (s.threads u).changes g = (s.threads u).changes s.shared ∧
      (s.threads u).effort g ≤ (s.threads u).effort s.shared := by
  have hretries : (s.threads u).retries g = (s.threads u).retries s.shared := by
    rw [Local.retries, Local.retries, fresh_congr (congrArg pointer hword) (h.sees u) fun n node =>
      h.pending_after hsafe hu]
  have hown : (s.threads u).ownEffort g ≤ (s.threads u).ownEffort s.shared + 3 * 0 :=
    (s.threads u).ownEffort_le fun expected => (Shared.stale_congr hword expected).le
  rw [Local.changes, Local.changes, Local.effort, Local.effort, hretries]
  exact ⟨rfl, by omega⟩

def Choice.price (n : ℕ) : Choice T → ℕ
  | .call _ | .destroy => rates.callPrice n
  | .step spurious => if spurious then 3 else 0

theorem Inv.keeps_step (h : Inv P s) (hsafe : SafeAt P s t g l f)
    (hl : (s.threads t).ending = false → s.shared.destroyed = false)
    (hstep : LockFreeStack.step leave s.shared spurious (s.threads t) = some (g, l, f)) :
    ∃ k : Kind, (budget T).Keeps s t g l (k.terms rates) ∧
      rates.price (Fintype.card Tid) k ≤ if spurious then 3 else 0 := by
  rcases (h.ready hl).proceeds hstep with ⟨hdecisions, hspends⟩ | hdecides
  · cases hspends with
    | quiet hword hchanges heffort =>
      have hflushes : g.flushes = s.shared.flushes := by
        rw [Shared.flushes, Shared.flushes, hword]
      have hkeeps : ∀ worked ownEffort, (budget T).effort g l + (budget T).sharedEffort g + worked ≤
          (budget T).effort s.shared (s.threads t) + (budget T).sharedEffort s.shared + ownEffort →
          (budget T).Keeps s t g l ⟨0, 0, 0, 0, worked, ownEffort, 0, 0⟩ := by
        intro worked ownEffort hle
        refine ⟨hdecisions, ?_, hle, fun u hu => (h.other_word hsafe hu hword).1.le,
          fun u hu => (h.other_word hsafe hu hword).2⟩
        simp only [budget]
        omega
      cases spurious with
      | true =>
        exact ⟨.slip, hkeeps _ _ (by simp only [budget, rates, if_true] at heffort ⊢; omega), le_rfl⟩
      | false =>
        exact ⟨.quiet, hkeeps _ _ (by
          simp only [budget, Bool.false_eq_true, if_false] at heffort ⊢
          omega), Nat.zero_le _⟩
    | change hptr hchanges heffort =>
      refine ⟨.change, ⟨hdecisions, ?_, ?_, fun u hu => (h.other_pointer hsafe hu hptr).1.le,
        fun u hu => (h.other_pointer hsafe hu hptr).2⟩, Nat.zero_le _⟩
      · simp only [budget, Kind.terms]
        omega
      · simp only [budget, Kind.terms, rates]
        omega
  · refine ⟨.decide, ⟨hdecides.decisions, hdecides.changes, hdecides.effort, fun _ _ => changes_le,
      fun _ _ => effort_le⟩, Nat.zero_le _⟩

omit [DecidableEq Tid] [Fintype Tid] in
theorem create_live (g : Shared T) (v : T) : (create g v).1.live ≤ g.live + 1 := by
  have hsub : ((Finset.range ((create g v).1.created + 1)).filter fun b =>
        ((create g v).1.blocks b).isSome) ⊆
      insert (g.created + 1) ((Finset.range (g.created + 1)).filter fun b => (g.blocks b).isSome) := by
    intro b hb
    obtain ⟨hle, hlive⟩ := Finset.mem_filter.mp hb
    rw [Finset.mem_range] at hle
    by_cases hnew : b = g.created + 1
    · exact hnew ▸ Finset.mem_insert_self _ _
    · apply Finset.mem_insert_of_mem
      simp only [create, Function.update_of_ne hnew] at hle hlive
      exact Finset.mem_filter.mpr ⟨Finset.mem_range.mpr (by omega), hlive⟩
  exact (Finset.card_le_card hsub).trans (Finset.card_insert_le _ _)

omit [DecidableEq Tid] [Fintype Tid] in
theorem keeps_begun (hword : g.packedPtr = s.shared.packedPtr)
    (hchanges : l.changes g ≤ 6) (heffort : l.effort g + 2 * g.live ≤ 2 * s.shared.live + 36)
    (hothers : ∀ u, u ≠ t → (s.threads u).changes g = (s.threads u).changes s.shared ∧
      (s.threads u).effort g ≤ (s.threads u).effort s.shared) :
    (budget T).Keeps s t g l (Kind.call.terms rates) := by
  have hdecisions := decisions_le_one l
  have hflushes : g.flushes = s.shared.flushes := by rw [Shared.flushes, Shared.flushes, hword]
  refine ⟨?_, ?_, ?_, fun u hu => (hothers u hu).1.le, fun u hu => (hothers u hu).2⟩
  · simp only [budget, Kind.terms]
    omega
  · simp only [budget, Kind.terms, rates]
    omega
  · simp only [budget, Kind.terms, rates]
    omega

theorem Inv.safe_call {call : Call T} (h : Inv P s)
    (hn : next leave s.shared (s.threads t) (.call call) = some (g, l, f)) :
    SafeAt P s t g l f := by
  have hguard := hn
  simp only [next] at hguard
  split at hguard
  · rename_i hidle
    have hready : Ready P s.shared (s.threads t) _ _ := h.ready fun _ => by simpa using hidle.2
    rw [eq_idle hidle.1] at hn hready
    rw [SafeAt, eq_idle hidle.1]
    exact hready.call hn
  · cases hguard

theorem Inv.keeps_call {call : Call T} (h : Inv P s)
    (hn : next leave s.shared (s.threads t) (.call call) = some (g, l, f)) :
    (budget T).Keeps s t g l (Kind.call.terms rates) := by
  have hsafe := h.safe_call hn
  simp only [next] at hn
  split at hn
  · cases call with
    | push v =>
      cases hn
      have hlive := create_live s.shared v
      refine keeps_begun rfl ?_ ?_ fun u hu => h.other_word hsafe hu rfl
      · rw [Local.changes, retries_of_fresh rfl]
        exact le_rfl
      · rw [Local.effort, retries_of_fresh rfl]
        simp only [Local.ownEffort, Get.effort]
        omega
    | pop =>
      cases hn
      refine keeps_begun rfl ?_ ?_ fun u hu => h.other_word hsafe hu rfl
      · rw [Local.changes, retries_of_fresh rfl]
        exact le_rfl
      · rw [Local.effort, retries_of_fresh rfl]
        simp only [Local.ownEffort, Fast.effort]
        omega
  · cases hn

theorem Inv.keeps_destroy (h : Inv P s) (hidle : ∀ u, s.threads u = .idle)
    (hn : next leave s.shared (s.threads t) .destroy = some (g, l, f)) :
    (budget T).Keeps s t g l (Kind.call.terms rates) := by
  simp only [next] at hn
  split at hn
  · rename_i hguard
    obtain ⟨hzero, -⟩ := h.close hidle t (by simpa using hguard.2)
    rw [if_neg (not_not.mpr hzero)] at hn
    cases hn
    refine keeps_begun rfl ?_ ?_ fun u _ => ?_
    · rw [Local.changes, retries_of_decided rfl]
      exact Nat.zero_le _
    · rw [Local.effort, retries_of_decided rfl]
      simp only [Local.ownEffort, Shared.live]
      omega
    · rw [hidle u]
      exact ⟨rfl, le_rfl⟩
  · cases hn

theorem next_pool (hn : (machine Tid leave).next s (t, c) = some (s', e)) :
    (c = .destroy → ∀ u, s.threads u = .idle) ∧
      ∃ g l f, next leave s.shared (s.threads t) c = some (g, l, f) ∧
        s' = ⟨g, Function.update s.threads t l⟩ ∧ e = (t, f) := by
  have hpool : (Pool.machine s.shared .idle (next leave)).next s (t, c) = some (s', e) →
      ∃ g l f, next leave s.shared (s.threads t) c = some (g, l, f) ∧
        s' = ⟨g, Function.update s.threads t l⟩ ∧ e = (t, f) := Pool.next_eq_some_iff.mp
  cases c with
  | call | step => exact ⟨nofun, hpool hn⟩
  | destroy =>
    simp only [machine] at hn
    split at hn
    · rename_i hidle
      exact ⟨fun _ u => eq_idle (hidle u), hpool hn⟩
    · cases hn

/-- A step leaves less to do than there was, up to the price of the choice. -/
theorem Inv.left_le (h : Inv P s) (hn : (machine Tid leave).next s (t, c) = some (s', e)) :
    (budget T).left rates s' + 1 ≤ (budget T).left rates s + c.price (Fintype.card Tid) := by
  obtain ⟨hidle, g, l, f, hnext, rfl, rfl⟩ := next_pool hn
  cases c with
  | call call => exact (h.keeps_call hnext).left_le
  | destroy => exact (h.keeps_destroy (hidle rfl) hnext).left_le
  | step spurious =>
    simp only [next] at hnext
    split at hnext
    · cases hnext
    · rename_i hbusy
      have hbusy : (s.threads t).isIdle = false := by simpa using hbusy
      have hl := h.alive_of_busy hbusy
      obtain ⟨g', l', f', hstep, hsafe⟩ := (h.ready hl).step leave hbusy spurious
      rw [hstep] at hnext
      cases hnext
      obtain ⟨k, hkeeps, hprice⟩ := h.keeps_step hsafe hl hstep
      have hle := hkeeps.left_le
      simp only [Choice.price]
      omega

def Choice.isCall : Choice T → Bool
  | .step _ => false
  | _ => true

def Choice.isSpurious : Choice T → Bool
  | .step spurious => spurious
  | _ => false

def Event.isEnd : Event T → Bool
  | .returned _ | .destroyed => true
  | _ => false

omit [DecidableEq Tid] [Fintype Tid] in
theorem sum_price (n : ℕ) (cs : List (Tid × Choice T)) :
    (cs.map fun c => c.2.price n).sum =
      rates.callPrice n * cs.countP (fun c => c.2.isCall) + 3 * cs.countP fun c => c.2.isSpurious := by
  induction cs with
  | nil => rfl
  | cons c cs ih =>
    obtain ⟨t, c⟩ := c
    rw [List.map_cons, List.sum_cons, ih, List.countP_cons, List.countP_cons]
    cases c with
    | call call | destroy =>
      simp only [Choice.price, Choice.isCall, Choice.isSpurious, if_true, Bool.false_eq_true,
        if_false, Nat.mul_add, Nat.mul_one]
      omega
    | step spurious =>
      cases spurious <;> simp [Choice.price, Choice.isCall, Choice.isSpurious]
      omega

theorem test_busy (top : Handle) : (test top : Local T).isIdle = false := by
  rw [test]
  split <;> rfl

theorem step_ends {g' : Shared T} {l' : Local T}
    (hstep : LockFreeStack.step leave g spurious l = some (g', l', f)) : l'.isIdle = f.isEnd := by
  cases l with
  | idle => cases hstep
  | pushGet | popLeave | destroyAdd | destroySub | popMove | pushExchange =>
    simp only [LockFreeStack.step] at hstep
    split at hstep <;> cases hstep <;> rfl
  | pushAssign =>
    simp only [LockFreeStack.step] at hstep
    split at hstep
    · cases hstep
    · split at hstep
      · cases hstep
      · split at hstep <;> cases hstep <;> rfl
  | pushRelease new v queue =>
    cases queue with
    | nil =>
      simp only [LockFreeStack.step] at hstep
      split at hstep
      · cases hstep
      · split at hstep
        · cases hstep
        · split at hstep
          · cases hstep
            rfl
          · split at hstep <;> cases hstep
            rfl
    | cons block queue =>
      simp only [LockFreeStack.step] at hstep
      split at hstep <;> cases hstep
      rfl
  | pushLeave queue | destroyRelease queue =>
    cases queue with
    | nil =>
      cases hstep
      rfl
    | cons block queue =>
      simp only [LockFreeStack.step] at hstep
      split at hstep <;> cases hstep
      rfl
  | popGet old x =>
    simp only [LockFreeStack.step] at hstep
    split at hstep
    · cases hstep
    · split at hstep <;> cases hstep
      · exact test_busy _
      · rfl
    · split at hstep <;> cases hstep
      split <;> rfl
    · cases hstep
      rfl
  | popAssign top old x =>
    simp only [LockFreeStack.step] at hstep
    split at hstep <;> cases hstep
    · exact test_busy _
    · rfl
  | popCopy top =>
    simp only [LockFreeStack.step] at hstep
    split at hstep
    · cases hstep
    · split at hstep
      · cases hstep
        rfl
      · split at hstep
        · cases hstep
        · split at hstep <;> cases hstep
          rfl
  | popExchange top copy x =>
    simp only [LockFreeStack.step] at hstep
    split at hstep
    · cases hstep
    · cases hstep
      rfl
    · split at hstep <;> cases hstep
      rfl
    · cases hstep
      rfl
  | popRelease top result queue =>
    cases queue with
    | nil =>
      cases hstep
      cases result <;> rfl
    | cons block queue =>
      simp only [LockFreeStack.step] at hstep
      split at hstep <;> cases hstep
      rfl

def Local.busy (l : Local T) : ℕ := if l.isIdle then 0 else 1

theorem next_busy {g' : Shared T} {l' : Local T} (hn : next leave g l c = some (g', l', f)) :
    l'.busy + f.isEnd.toNat = l.busy + c.isCall.toNat := by
  cases c with
  | call call =>
    simp only [next] at hn
    split at hn
    · rename_i hidle
      rw [eq_idle hidle.1]
      cases call <;> cases hn <;> rfl
    · cases hn
  | destroy =>
    simp only [next] at hn
    split at hn
    · rename_i hidle
      cases hn
      rw [eq_idle hidle.1]
      split <;> rfl
    · cases hn
  | step spurious =>
    simp only [next] at hn
    split at hn
    · cases hn
    · rename_i hbusy
      split at hn
      · cases hn
        rfl
      · rename_i hstep
        cases hn
        have hends := step_ends hstep
        rw [Local.busy, Local.busy, if_neg hbusy, hends]
        cases f.isEnd <;> rfl

theorem busy_of_exec {s s' : Pool Tid (Shared T) (Local T)}
    (h : (bounded leave Tid).exec s cs = some (s', es)) :
    (∑ u, (s'.threads u).busy) + es.countP (fun e => e.2.isEnd) =
      (∑ u, (s.threads u).busy) + cs.countP fun c => c.2.isCall := by
  induction cs generalizing s es with
  | nil =>
    obtain ⟨rfl, rfl⟩ : s = s' ∧ [] = es := by simpa [Machine.exec] using h
    rfl
  | cons c cs ih =>
    obtain ⟨t, c⟩ := c
    obtain ⟨s₁, e, fs, hn, hx, rfl⟩ := Machine.exec_cons h
    obtain ⟨-, g, l, f, hnext, rfl, rfl⟩ := next_pool (Option.filter_eq_some_iff.mp hn).1
    have hrest := ih hx
    have hsum := Pool.sum_update (f := s.threads) (φ := Local.busy) (a := l) (Finset.mem_univ t)
    have hone := next_busy hnext
    rw [List.countP_cons, List.countP_cons]
    have hend : (if f.isEnd = true then 1 else 0) = f.isEnd.toNat := by cases f.isEnd <;> rfl
    have hcall : (if c.isCall = true then 1 else 0) = c.isCall.toNat := by cases c.isCall <;> rfl
    dsimp only at hrest ⊢
    omega

theorem start_left : (budget T).left rates (bounded leave Tid).start = 2 := by
  have hflushes : Shared.flushes (bounded leave Tid).start.shared = 0 := if_pos (localCount_pack 1)
  have hlive : Shared.live (bounded leave Tid).start.shared = 1 := rfl
  have hchanges : ∀ u, Local.changes (bounded leave Tid).start.shared
      ((bounded leave Tid).start.threads u) = 0 := fun u => rfl
  have heffort : ∀ u, Local.effort (bounded leave Tid).start.shared
      ((bounded leave Tid).start.threads u) = 0 := fun u => rfl
  have hdecisions : ∀ u, Local.decisions ((bounded leave Tid).start.threads u) = 0 := fun u => rfl
  simp only [Budget.left, budget, hflushes, hlive, hchanges, heffort, hdecisions,
    Finset.sum_const_zero]
  rfl

/-- Whoever runs, for every so many steps some call returns. -/
theorem lock_free (h : (bounded leave Tid).exec (bounded leave Tid).start cs = some (s, es)) :
    cs.length ≤ (18 * Fintype.card Tid ^ 2 + 105 * Fintype.card Tid + 102) *
        (es.countP (fun e => e.2.isEnd) + Fintype.card Tid) +
      3 * cs.countP (fun c => c.2.isSpurious) + 2 := by
  have hsteps : cs.length + (budget T).left rates s ≤ (budget T).left rates
      (bounded leave Tid).start + (cs.map fun c => c.2.price (Fintype.card Tid)).sum :=
    length_le (fun es s c s' e hr hn =>
      (inv_of_run hr).1.left_le (Option.filter_eq_some_iff.mp hn).1) (.nil _) h
  have hcalls : cs.countP (fun c => c.2.isCall) ≤ es.countP (fun e => e.2.isEnd) +
      Fintype.card Tid := by
    have hcount := busy_of_exec h
    have hbusy : ∑ u, (s.threads u).busy ≤ (Finset.univ : Finset Tid).card * 1 :=
      Finset.sum_le_card_nsmul _ _ _ fun u _ => by
        rw [Local.busy]
        split <;> omega
    rw [Finset.card_univ] at hbusy
    omega
  have hprice : rates.callPrice (Fintype.card Tid) =
      18 * Fintype.card Tid ^ 2 + 105 * Fintype.card Tid + 102 := by
    simp only [Rates.callPrice, Rates.decisionWorth, Rates.changeWorth, rates]
    ring
  rw [sum_price, start_left, hprice] at hsteps
  calc cs.length
      ≤ 2 + ((18 * Fintype.card Tid ^ 2 + 105 * Fintype.card Tid + 102) *
          cs.countP (fun c => c.2.isCall) + 3 * cs.countP fun c => c.2.isSpurious) := by omega
    _ ≤ 2 + ((18 * Fintype.card Tid ^ 2 + 105 * Fintype.card Tid + 102) *
          (es.countP (fun e => e.2.isEnd) + Fintype.card Tid) +
          3 * cs.countP fun c => c.2.isSpurious) := by gcongr
    _ = _ := by ring

theorem lock_free_pop :
    ∃ (cs : List (Fin 2 × Choice ℕ)) (s : _) (es : List (Fin 2 × Event ℕ)),
      (bounded id (Fin 2)).exec (bounded id (Fin 2)).start cs = some (s, es) ∧
      es.countP (fun e => e.2.isEnd) = 1 ∧
      cs.length ≤ (18 * Fintype.card (Fin 2) ^ 2 + 105 * Fintype.card (Fin 2) + 102) *
          (es.countP (fun e => e.2.isEnd) + Fintype.card (Fin 2)) +
        3 * cs.countP (fun c => c.2.isSpurious) + 2 := by
  obtain ⟨s, es, hrun, hend⟩ : ∃ s es, (bounded id (Fin 2)).exec (bounded id (Fin 2)).start
      [(0, .call (.push 7)), (1, .call .pop), (1, .step false), (1, .step false), (1, .step true),
        (1, .step false)] = some (s, es) ∧ es.countP (fun e => e.2.isEnd) = 1 := ⟨_, _, rfl, rfl⟩
  exact ⟨_, s, es, hrun, hend, lock_free hrun⟩

end
end LockFree.LockFreeStack
