import LockFree.Contention
import LockFree.LockFreeStackCalls
import LockFree.SharedPtrEffort

/-!
# The effort of UnboundedLockFreeStack

How much a thread has left to do in its call. An attempt of `Push` or `Pop` to exchange the
pointer fails only if another call has exchanged it since the attempt began.
-/

namespace LockFree.LockFreeStack
open AtomicSharedPtr Contention Linearizability TransitionRuns

section
variable {T : Type*}

def Local.decisions : Local T → ℕ
  | .pushGet _ _ _ | .pushAssign _ _ _ | .pushRelease _ _ _ => 1
  | .popGet _ _ | .popAssign _ _ _ | .popCopy _ => 1
  | .pushExchange _ _ _ x | .popExchange _ _ x => if x.moved then 0 else 1
  | .popRelease _ result _ => if result then 0 else 1
  | _ => 0

def Local.fresh (g : Shared T) : Local T → Bool
  | .pushGet _ _ x => x.fresh (pointer g.packedPtr)
  | .pushAssign _ _ block => block = pointer g.packedPtr
  | .pushRelease new _ _ => (g.nodes new).any fun node => node.prev = pointer g.packedPtr
  | .pushExchange _ _ expected x =>
    expected = dataOf (pointer g.packedPtr) ∧ x.fresh (pointer g.packedPtr) = true
  | .popGet _ x => x.fresh (pointer g.packedPtr)
  | .popAssign top _ _ | .popCopy top => pointer top.known = pointer g.packedPtr
  | .popExchange top _ x =>
    pointer top.known = pointer g.packedPtr ∧ x.fresh (pointer g.packedPtr) = true
  | _ => false

def Local.retries (g : Shared T) (l : Local T) : ℕ :=
  if l.decisions = 1 ∧ l.fresh g = false then 1 else 0

def Local.ownChanges : Local T → ℕ
  | .pushGet _ _ x => 3 + x.changes
  | .pushAssign _ _ _ | .pushRelease _ _ _ => 3
  | .pushExchange _ _ _ x => x.changes
  | .popGet old x => old.elim 0 (fun _ => 1) + 3 + x.changes
  | .popAssign _ _ x => 4 + x.changes
  | .popCopy _ => 4
  | .popExchange _ _ x => 1 + x.changes
  | .popRelease _ _ _ | .popMove _ => 1
  | .popLeave _ _ x => x.changes
  | _ => 0

def Local.ownEffort (g : Shared T) : Local T → ℕ
  | .idle => 0
  | .pushGet _ _ x => 21 + x.effort g
  | .pushAssign _ _ _ => 21
  | .pushRelease _ _ queue => 19 + queue.length
  | .pushExchange _ _ _ x => 3 + x.effort g
  | .pushLeave queue => 1 + queue.length
  | .popGet _ x => 33 + x.effort
  | .popAssign _ _ x => 27 + x.effort g
  | .popCopy _ => 27
  | .popExchange _ _ x => 11 + x.effort g
  | .popRelease _ _ queue => 9 + queue.length
  | .popMove _ => 8
  | .popLeave _ _ x => x.effort g
  | .destroyAdd _ => 3
  | .destroySub _ => 2
  | .destroyRelease queue => 1 + queue.length

def Local.changes (g : Shared T) (l : Local T) : ℕ := l.ownChanges + 6 * l.retries g

def Local.effort (g : Shared T) (l : Local T) : ℕ := l.ownEffort g + 36 * l.retries g

def budget (T : Type*) : Budget (Shared T) (Local T) where
  decisions := Local.decisions
  changes := Local.changes
  effort := Local.effort
  sharedChanges := Shared.flushes
  sharedEffort g := 2 * g.live

/-- Another thread that changes the word may make a compare-exchange fail, and one that
exchanges the pointer makes the attempt fail. -/
def rates : Rates := ⟨3, 6, 39, 4, 36, 2⟩

variable {P : List ℕ} {g g' : Shared T} {l l' : Local T} {o ol : ℕ → ℕ} {e : Event T} {n : ℕ}
  {leave : T → T} {spurious : Bool}

theorem retries_le_one (g : Shared T) (l : Local T) : l.retries g ≤ 1 := by
  rw [Local.retries]
  split <;> omega

theorem retries_of_decided (h : l.decisions = 0) : l.retries g = 0 := if_neg (by simp [h])

theorem retries_of_fresh (h : l.fresh g = true) : l.retries g = 0 := if_neg (by simp [h])

theorem retries_of_not_fresh (hl : l.decisions = 1) (h : l.fresh g = false) : l.retries g = 1 :=
  if_pos ⟨hl, h⟩

theorem retries_le (h : l'.decisions = 1 → l.decisions = 1 ∧
    (l.fresh g = true → l'.fresh g' = true)) : l'.retries g' ≤ l.retries g := by
  rw [Local.retries, Local.retries]
  split
  · rename_i hl'
    obtain ⟨hl, hfresh⟩ := h hl'.1
    rw [if_pos ⟨hl, by
      by_contra hnot
      rw [hfresh (by simpa using hnot)] at hl'
      exact absurd hl'.2 (by simp)⟩]
  · exact Nat.zero_le _

structure Proceeds (spurious : Bool) (g g' : Shared T) (l l' : Local T) : Prop where
  decisions : l'.decisions ≤ l.decisions
  spends : Spends spurious g g' (l.changes g) (l.effort g) (l'.changes g') (l'.effort g')

theorem decisions_le_one (l : Local T) : l.decisions ≤ 1 := by
  cases l with
  | pushGet | pushAssign | pushRelease | popGet | popAssign | popCopy => exact le_rfl
  | pushExchange | popExchange | popRelease =>
    simp only [Local.decisions]
    split <;> omega
  | idle | pushLeave | popMove | popLeave | destroyAdd | destroySub | destroyRelease =>
    exact Nat.zero_le _

theorem Proceeds.of_own (hdecisions : l'.decisions ≤ l.decisions)
    (hspends : Spends spurious g g' l.ownChanges (l.ownEffort g) l'.ownChanges (l'.ownEffort g'))
    (hfresh : l'.decisions = 1 → l.fresh g = true → l'.fresh g' = true) :
    Proceeds spurious g g' l l' := by
  have hle : l'.retries g' ≤ l.retries g := by
    have hone := decisions_le_one l
    exact retries_le fun hl => ⟨by omega, hfresh hl⟩
  refine ⟨hdecisions, hspends.lift ?_ ?_⟩
  · rw [Local.changes, Local.changes]
    omega
  · rw [Local.effort, Local.effort]
    omega

theorem Proceeds.of_decided (hl' : l'.decisions = 0)
    (hspends : Spends spurious g g' l.ownChanges (l.ownEffort g) l'.ownChanges
      (l'.ownEffort g')) : Proceeds spurious g g' l l' :=
  .of_own (hl'.le.trans (Nat.zero_le _)) hspends fun hl => absurd (hl'.symm.trans hl) Nat.zero_ne_one

theorem Proceeds.again (hdecisions : l'.decisions ≤ l.decisions) (hfailed : l.retries g = 1)
    (hfresh : l'.fresh g' = true)
    (hspends : Spends spurious g g' (l.ownChanges + 6) (l.ownEffort g + 36) l'.ownChanges
      (l'.ownEffort g')) : Proceeds spurious g g' l l' := by
  refine ⟨hdecisions, ?_⟩
  rw [Local.changes, Local.effort, Local.changes, Local.effort, hfailed, retries_of_fresh hfresh]
  exact hspends

structure Decides (g g' : Shared T) (l l' : Local T) : Prop where
  decisions : l'.decisions < l.decisions
  changes : l'.changes g' + g'.flushes ≤ l.changes g + g.flushes + 6
  effort : l'.effort g' + 2 * g'.live ≤ l.effort g + 2 * g.live + 4

theorem Ready.pushGet_proceeds {new : ℕ} {v : T} {x : Get} (h : Ready P g (.pushGet new v x) o ol)
    (hstep : LockFreeStack.step leave g spurious (.pushGet new v x) = some (g', l', e)) :
    Proceeds spurious g g' (.pushGet new v x) l' := by
  obtain ⟨-, hok, -⟩ := h.ok
  simp only [LockFreeStack.step] at hstep
  split at hstep
  · cases hstep
  · rename_i block hdone
    cases hstep
    have hspends := Get.spends hok (h.lt rfl) hdone
    refine .of_own le_rfl (hspends.lift ?_ ?_) fun _ hfresh => ?_
    · simp only [Local.ownChanges]
      omega
    · simp only [Local.ownEffort, Get.after]
      omega
    · have hblock := Get.fresh_step hfresh hdone
      simp only [Local.fresh, hspends.pointer]
      exact hblock
  · rename_i x' hnot hmore
    cases hstep
    have hafter : Get.after g' x' = x'.effort g' := by
      cases x' with
      | done block => exact absurd rfl (hnot block)
      | addLocal | refAdd | cas | refSub => rfl
    have hspends := Get.spends hok (h.lt rfl) hmore
    refine .of_own le_rfl (hspends.lift ?_ ?_) fun _ hfresh => ?_
    · simp only [Local.ownChanges]
      omega
    · simp only [Local.ownEffort, hafter]
      omega
    · simp only [Local.fresh, hspends.pointer]
      exact Get.fresh_step hfresh hmore

theorem Ready.pushAssign_proceeds {new block : ℕ} {v : T}
    (h : Ready P g (.pushAssign new v block) o ol)
    (hstep : LockFreeStack.step leave g spurious (.pushAssign new v block) = some (g', l', e)) :
    Proceeds spurious g g' (.pushAssign new v block) l' := by
  obtain ⟨node, hnode, -⟩ := h.sees
  obtain ⟨c, hc, hnew⟩ := block_of_node h.balanced hnode
  simp only [LockFreeStack.step, hc, hnew, hnode] at hstep
  split at hstep
  · rename_i hsame
    cases hstep
    refine .of_own le_rfl (.rest le_rfl ?_) fun _ hfresh => ?_
    · simp only [Local.ownEffort, List.length_singleton]
      omega
    · simpa [Local.fresh, hnode, hsame] using hfresh
  · cases hstep
    refine .of_own le_rfl (.quiet rfl le_rfl ?_) fun _ hfresh => ?_
    · simp only [Local.ownEffort, List.length_singleton, Shared.live]
      omega
    · simpa [Local.fresh] using hfresh

theorem Ready.pushRelease_proceeds {new : ℕ} {v : T} {queue : List ℕ}
    (h : Ready P g (.pushRelease new v queue) o ol)
    (hstep : LockFreeStack.step leave g spurious (.pushRelease new v queue) = some (g', l', e)) :
    Proceeds spurious g g' (.pushRelease new v queue) l' := by
  obtain ⟨node, hnode, -, hmem⟩ := h.sees
  cases queue with
  | nil =>
    obtain ⟨c, hc, hnew⟩ := block_of_node h.balanced hnode
    have hprev := (h.order.created _ hmem).1
    obtain ⟨-, d, hd, hdata⟩ := prev_live h.balanced hnode hprev
    simp only [LockFreeStack.step, hc, hnew, hnode, if_neg hprev, hd] at hstep
    cases hstep
    refine .of_own le_rfl (.rest le_rfl ?_) fun _ hfresh => ?_
    · simp only [Local.ownEffort, Exchange.effort, List.length_nil]
      omega
    · have hptr : node.prev = pointer g.packedPtr := by simpa [Local.fresh, hnode] using hfresh
      simp [Local.fresh, Exchange.fresh, hdata, hptr]
  | cons block queue =>
    obtain ⟨g₁, queue₁, hrelease, hkeeps, hbalanced⟩ := release_held h.balanced h.others
      fun _ => Nat.zero_le _
    have hnode' : g₁.nodes new = some node := node_stays h.balanced hbalanced hkeeps hnode (by
      rw [single_self]
      omega)
    simp only [LockFreeStack.step, hrelease] at hstep
    cases hstep
    obtain ⟨hlive, hword⟩ := release_live h.balanced.fresh hrelease
    refine .of_own le_rfl (.quiet hword le_rfl ?_) fun _ hfresh => ?_
    · simp only [Local.ownEffort]
      omega
    · simpa [Local.fresh, hnode, hnode', hword] using hfresh

def exchangeAfter (g : Shared T) : Exchange → ℕ
  | .done _ _ => 0
  | x => 1 + x.effort g

structure Attempt (spurious : Bool) (g g' : Shared T) (expected : ℕ) (x x' : Exchange) : Prop where
  notSwap : ∀ holder packed, x' ≠ .destroyOld holder packed
  moved : x'.moved = x.moved
  result : ∀ result moved, x' = .done result moved → moved = result
  spends : Spends spurious g g' x.changes (1 + x.effort g) x'.changes (exchangeAfter g' x')
  fresh : x'.moved = false → expected = dataOf (pointer g.packedPtr) →
    x.fresh (pointer g.packedPtr) = true → x'.fresh (pointer g.packedPtr) = true

theorem exchange_attempt {x x' : Exchange} {expected new : ℕ}
    (h : Balanced dataOf g (fun b => o b + x.refs new b) fun b => ol b + x.loose b)
    (hol : ∀ b, ol b ≤ o b) (hok : x.Ok dataOf expected new) (hother : dataOf new ≠ expected)
    (hne : new ≠ 0) (hdirect : x.Direct fun b => b ∈ P) (halive : g.destroyed = false)
    (hhead : pointer g.packedPtr ∈ P) (hlt : localCount g.packedPtr < 65535)
    (hstep : x.step g expected new spurious = some (g', x')) :
    Attempt spurious g g' expected x x' ∨ ∃ holder packed, x = .swap holder packed ∧
      x' = .destroyOld holder packed ∧ g'.live = g.live := by
  obtain ⟨g₁, x₁, hstep₁, hok', heffect, -, hmoved, -⟩ :=
    Exchange.step_direct spurious h hol hok hne hdirect halive hhead hlt
  cases hstep.symm.trans hstep₁
  rcases heffect with ⟨hnotSwap, -⟩ | ⟨holder, rfl, rfl, -, rfl⟩
  · have hresult : ∀ result moved, x' = .done result moved → moved = result := by
      rintro result moved rfl
      exact hok'.resolve_right hother
    refine .inl ⟨hnotSwap, hmoved hnotSwap, hresult, ?_, fun hfalse hexpected hfresh => ?_⟩
    · have hafter : exchangeAfter g' x' ≤ 1 + x'.effort g' := by
        cases x' <;> simp [exchangeAfter]
      by_cases hrest : ∃ result moved, x = .done result moved
      · obtain ⟨result, moved, rfl⟩ := hrest
        cases hstep
        exact .rest le_rfl (by simp only [exchangeAfter]; omega)
      · apply (Exchange.spends h.fresh hok hdirect hlt hstep
          (fun result moved heq => hrest ⟨result, moved, heq⟩) hnotSwap).lift
        · omega
        · omega
    · rcases Exchange.fresh_step (fun b c hc => (h.data b c hc).1) hok hdirect hlt hexpected
        hfresh hstep with hsame | htrue | ⟨moved, rfl⟩
      · exact hsame
      · rw [htrue] at hfalse
        cases hfalse
      · obtain rfl : moved = true := hresult _ _ rfl
        cases hfalse
  · exact .inr ⟨holder, _, rfl, rfl, rfl⟩

theorem exchangeAfter_of_not_done {x : Exchange} (h : ∀ result moved, x ≠ .done result moved) :
    exchangeAfter g x = 1 + x.effort g := by
  cases x with
  | done result moved => exact absurd rfl (h result moved)
  | compare | getFast | flushAdd | flushCas | flushSub | swap | destroyOld | releaseOld | destroy =>
    rfl

theorem Ready.pushExchange_proceeds {new expected : ℕ} {v : T} {x : Exchange}
    (h : Ready P g (.pushExchange new v expected x) o ol)
    (hstep : LockFreeStack.step leave g spurious (.pushExchange new v expected x) =
      some (g', l', e)) :
    Proceeds spurious g g' (.pushExchange new v expected x) l' ∨
      Decides g g' (.pushExchange new v expected x) l' := by
  obtain ⟨hne, hother, hok, hdirect⟩ := h.ok
  have hx : ∀ {g' x'}, x.step g expected new spurious = some (g', x') → _ := fun {g' x'} =>
    exchange_attempt h.balanced h.others hok hother hne hdirect (h.alive rfl) h.order.head (h.lt rfl)
  have hdecisions : ∀ {x' : Exchange}, x'.moved = x.moved → Local.decisions (.pushExchange new v
      expected x') = Local.decisions (.pushExchange new v expected x) := fun hmoved => by
    simp only [Local.decisions, hmoved]
  simp only [LockFreeStack.step] at hstep
  split at hstep
  · cases hstep
  · rename_i moved hdone
    cases hstep
    rcases hx hdone with hattempt | ⟨holder, packed, -, heq, -⟩
    · obtain rfl := hattempt.result _ _ rfl
      refine .inl (.of_decided rfl (hattempt.spends.lift ?_ ?_))
      · simp only [Local.ownChanges]
        omega
      · simp only [Local.ownEffort, exchangeAfter, if_true, List.length_nil]
        omega
    · cases heq
  · rename_i moved hdone
    cases hstep
    rcases hx hdone with hattempt | ⟨holder, packed, -, heq, -⟩
    · obtain rfl := hattempt.result _ _ rfl
      have hundecided : x.moved = false := hattempt.moved.symm
      have hopen : Local.decisions (.pushExchange new v expected x) = 1 := by
        simp [Local.decisions, hundecided]
      refine .inl (.again hopen.ge (retries_of_not_fresh hopen ?_) rfl
        (hattempt.spends.lift ?_ ?_))
      · by_contra hnot
        have hboth := eq_true_of_ne_false hnot
        simp only [Local.fresh, decide_eq_true_eq] at hboth
        exact absurd (hattempt.fresh rfl hboth.1 hboth.2) (by simp [Exchange.fresh])
      · simp only [Local.ownChanges, Get.changes, Exchange.changes]
        omega
      · simp only [Local.ownEffort, exchangeAfter, Get.effort]
        omega
    · cases heq
  · rename_i holder packed hswap
    cases hstep
    rcases hx hswap with hattempt | ⟨holder', packed', rfl, heq, hlive⟩
    · exact absurd rfl (hattempt.notSwap _ _)
    · have hle := Shared.flushes_le g'
      refine .inr ⟨Nat.one_pos, ?_, ?_⟩
      · rw [Local.changes, retries_of_decided rfl, Local.changes]
        simp only [Local.ownChanges, Exchange.changes]
        omega
      · rw [Local.effort, retries_of_decided rfl, Local.effort]
        simp only [Local.ownEffort, Exchange.effort]
        omega
  · rename_i x' hnotTrue hnotFalse hnotSwap hmore
    cases hstep
    rcases hx hmore with hattempt | ⟨holder, packed, -, rfl, -⟩
    · have hafter := hattempt.spends
      rw [exchangeAfter_of_not_done fun result moved heq => by
        cases result with
        | true => exact hnotTrue moved heq
        | false => exact hnotFalse moved heq] at hafter
      refine .inl (.of_own (hdecisions hattempt.moved).le (hafter.lift ?_ ?_) fun hl hboth => ?_)
      · simp only [Local.ownChanges]
        omega
      · simp only [Local.ownEffort]
        omega
      · have hundecided : x'.moved = false := by simpa [Local.decisions] using hl
        simp only [Local.fresh, decide_eq_true_eq, hafter.pointer] at hboth ⊢
        exact ⟨hboth.1, hattempt.fresh hundecided hboth.1 hboth.2⟩
    · exact absurd rfl (hnotSwap _ _)

theorem Ready.pushLeave_proceeds {queue : List ℕ} (h : Ready P g (.pushLeave queue) o ol)
    (hstep : LockFreeStack.step leave g spurious (.pushLeave queue) = some (g', l', e)) :
    Proceeds spurious g g' (.pushLeave queue) l' := by
  cases queue with
  | nil =>
    cases hstep
    exact .of_decided rfl (.rest le_rfl (by simp only [Local.ownEffort]; omega))
  | cons block queue =>
    simp only [LockFreeStack.step] at hstep
    split at hstep
    · cases hstep
    · rename_i hrelease
      cases hstep
      obtain ⟨hlive, hword⟩ := release_live h.balanced.fresh hrelease
      exact .of_decided rfl (.quiet hword le_rfl (by simp only [Local.ownEffort]; omega))

theorem test_effort (top : Handle) (g : Shared T) :
    (test top : Local T).decisions ≤ 1 ∧ (test top : Local T).ownChanges ≤ 4 ∧
      (test top : Local T).ownEffort g ≤ 27 ∧ ((test top : Local T).decisions = 1 →
        pointer top.known = pointer g.packedPtr → (test top : Local T).fresh g = true) := by
  have hstart := Destroy.start_effort (g := g) top
  rw [test]
  split
  · simp only [Local.decisions, Local.ownChanges, Local.ownEffort]
    exact ⟨by omega, by omega, by omega, fun hl => absurd hl Nat.zero_ne_one⟩
  · exact ⟨le_rfl, le_rfl, le_rfl, fun _ hptr => by simp [Local.fresh, hptr]⟩

theorem Ready.popGet_proceeds {old : Option Handle} {x : Fast} (h : Ready P g (.popGet old x) o ol)
    (hstep : LockFreeStack.step leave g spurious (.popGet old x) = some (g', l', e)) :
    Proceeds spurious g g' (.popGet old x) l' := by
  obtain ⟨-, -, hdirect⟩ := h.ok
  have hspends : ∀ {g' x'}, x.step g = some (g', x') →
      Spends spurious g g' x.changes x.effort x'.changes x'.after := fun hx =>
    Fast.spends hdirect (h.lt rfl) hx
  have hfresh : ∀ {g' x'}, x.step g = some (g', x') → x.fresh (pointer g.packedPtr) = true →
      x'.fresh (pointer g'.packedPtr) = true := fun {g' x'} hx hold => by
    rw [(hspends hx).pointer]
    exact Fast.fresh_step hdirect (h.lt rfl) hold hx
  have hmore : ∀ {g' x'}, x.step g = some (g', x') → (∀ top, x' ≠ .done top) →
      Proceeds spurious g g' (.popGet old x) (.popGet old x') := fun {g' x'} hx hnot => by
    have hafter : Fast.after x' = x'.effort := by
      cases x' with
      | done top => exact absurd rfl (hnot top)
      | addLocal | readData | migrateAdd | migrateCas | migrateSub => rfl
    refine .of_own le_rfl ((hspends hx).lift ?_ ?_) fun _ => hfresh hx
    · simp only [Local.ownChanges]
      omega
    · simp only [Local.ownEffort, hafter]
      omega
  simp only [LockFreeStack.step] at hstep
  split at hstep
  · cases hstep
  · rename_i top hdone
    cases old with
    | none =>
      cases hstep
      obtain ⟨hdecisions, hchanges, heffort, htest⟩ := test_effort top g'
      have hbefore : Local.ownChanges (.popGet none x : Local T) = 0 + 3 + x.changes ∧
        Local.ownEffort g (.popGet none x) = 33 + x.effort := ⟨rfl, rfl⟩
      have hafter : Fast.changes (.done top) = 1 ∧ Fast.after (.done top) = 0 := ⟨rfl, rfl⟩
      refine .of_own hdecisions ((hspends hdone).lift ?_ ?_) fun hl hold => htest hl ?_
      · omega
      · omega
      · simpa [Fast.fresh] using hfresh hdone hold
    | some old =>
      cases hstep
      have hstart := Destroy.start_effort (g := g') old
      refine .of_own le_rfl ((hspends hdone).lift ?_ ?_) fun _ hold => ?_
      · simp only [Local.ownChanges, Fast.changes, Option.elim]
        omega
      · simp only [Local.ownEffort, Fast.after]
        omega
      · simpa [Fast.fresh, Local.fresh] using hfresh hdone hold
  · rename_i hx
    split at hstep
    · cases hstep
    · cases hstep
      exact hmore hx fun top => Fast.noConfusion
  · rename_i hnot hread hx
    cases hstep
    exact hmore hx hnot

theorem Ready.popAssign_proceeds {top old : Handle} {x : Destroy}
    (h : Ready P g (.popAssign top old x) o ol)
    (hstep : LockFreeStack.step leave g spurious (.popAssign top old x) = some (g', l', e)) :
    Proceeds spurious g g' (.popAssign top old x) l' := by
  obtain ⟨-, -, hdirect⟩ := h.ok
  have hbefore : Local.ownChanges (.popAssign top old x : Local T) = 4 + x.changes ∧
    Local.ownEffort g (.popAssign top old x) = 27 + x.effort g := ⟨rfl, rfl⟩
  simp only [LockFreeStack.step] at hstep
  split at hstep
  · cases hstep
  · rename_i hdone
    cases hstep
    have hspends := Destroy.spends h.balanced.fresh hdirect hdone
    obtain ⟨hdecisions, hchanges, heffort, htest⟩ := test_effort top g'
    have hafter : Destroy.changes .done = 0 ∧ Destroy.after g' .done = 0 := ⟨rfl, rfl⟩
    refine .of_own hdecisions (hspends.lift ?_ ?_) fun hl hold => htest hl ?_
    · omega
    · omega
    · rw [hspends.pointer]
      simpa [Local.fresh] using hold
  · rename_i x' hnot hmore
    cases hstep
    have hspends := Destroy.spends h.balanced.fresh hdirect hmore
    have hafter : Destroy.after g' x' = x'.effort g' := by
      cases x' with
      | done => exact absurd rfl hnot
      | cas | refSub | releasing => rfl
    refine .of_own le_rfl (hspends.lift ?_ ?_) fun _ hold => ?_
    · simp only [Local.ownChanges]
      omega
    · simp only [Local.ownEffort, hafter]
      omega
    · simp only [Local.fresh, hspends.pointer] at hold ⊢
      exact hold

theorem popCopy_proceeds {top : Handle}
    (hstep : LockFreeStack.step leave g spurious (.popCopy top) = some (g', l', e)) :
    Proceeds spurious g g' (.popCopy top) l' := by
  have hnext : ∀ {g'} (copy : ℕ), g'.live = g.live → g'.packedPtr = g.packedPtr →
      Proceeds spurious g g' (.popCopy top) (.popExchange top copy .compare) := by
    intro g' copy hlive hword
    refine .of_own le_rfl (.quiet hword le_rfl ?_) fun _ hold => ?_
    · simp only [Local.ownEffort, Exchange.effort]
      omega
    · simp only [Local.fresh, Exchange.fresh, hword, decide_eq_true_eq] at hold ⊢
      exact ⟨hold, trivial⟩
  simp only [LockFreeStack.step] at hstep
  split at hstep
  · cases hstep
  · split at hstep
    · cases hstep
      exact hnext 0 rfl rfl
    · split at hstep
      · cases hstep
      · rename_i hadd
        obtain ⟨hlive, hword⟩ := fetchAdd_live hadd
        split at hstep <;> cases hstep
        exact hnext _ hlive hword

theorem Ready.popRelease_proceeds {top : Handle} {result : Bool} {queue : List ℕ}
    (h : Ready P g (.popRelease top result queue) o ol)
    (hstep : LockFreeStack.step leave g spurious (.popRelease top result queue) =
      some (g', l', e)) :
    Proceeds spurious g g' (.popRelease top result queue) l' := by
  cases queue with
  | nil =>
    cases hstep
    cases result with
    | true =>
      exact .of_decided rfl (.rest le_rfl (by
        simp only [Local.ownEffort, if_true, List.length_nil]
        omega))
    | false =>
      refine .again le_rfl (retries_of_not_fresh rfl rfl) rfl (.rest le_rfl ?_)
      simp only [Local.ownEffort, Bool.false_eq_true, if_false, Fast.effort]
      omega
  | cons block queue =>
    simp only [LockFreeStack.step] at hstep
    split at hstep
    · cases hstep
    · rename_i hrelease
      cases hstep
      obtain ⟨hlive, hword⟩ := release_live h.balanced.fresh hrelease
      exact .of_own le_rfl (.quiet hword le_rfl (by simp only [Local.ownEffort]; omega)) fun _ hold =>
        absurd hold Bool.false_ne_true

theorem popMove_proceeds {top : Handle}
    (hstep : LockFreeStack.step leave g spurious (.popMove top) = some (g', l', e)) :
    Proceeds spurious g g' (.popMove top) l' := by
  have hnext : ∀ {g'} (r : Result T), g'.live = g.live → g'.packedPtr = g.packedPtr →
      Proceeds spurious g g' (.popMove top) (.popLeave top r (.start top)) := by
    intro g' r hlive hword
    have hstart := Destroy.start_effort (g := g') top
    refine .of_decided rfl (.quiet hword hstart.2 ?_)
    simp only [Local.ownEffort]
    omega
  simp only [LockFreeStack.step] at hstep
  split at hstep
  · cases hstep
  · cases hstep
    exact hnext _ rfl rfl

theorem Ready.popLeave_proceeds {top : Handle} {r : Result T} {x : Destroy}
    (h : Ready P g (.popLeave top r x) o ol)
    (hstep : LockFreeStack.step leave g spurious (.popLeave top r x) = some (g', l', e)) :
    Proceeds spurious g g' (.popLeave top r x) l' := by
  obtain ⟨-, hdirect⟩ := h.ok
  simp only [LockFreeStack.step] at hstep
  split at hstep
  · cases hstep
  · rename_i hdone
    cases hstep
    exact .of_decided rfl (Destroy.spends h.balanced.fresh hdirect hdone)
  · rename_i x' hnot hmore
    cases hstep
    have hspends := Destroy.spends h.balanced.fresh hdirect hmore
    have hafter : Destroy.after g' x' = x'.effort g' := by
      cases x' with
      | done => exact absurd rfl hnot
      | cas | refSub | releasing => rfl
    rw [hafter] at hspends
    exact .of_decided rfl hspends

theorem Ready.popExchange_proceeds {top : Handle} {copy : ℕ} {x : Exchange}
    (h : Ready P g (.popExchange top copy x) o ol)
    (hstep : LockFreeStack.step leave g spurious (.popExchange top copy x) = some (g', l', e)) :
    Proceeds spurious g g' (.popExchange top copy x) l' ∨
      Decides g g' (.popExchange top copy x) l' := by
  obtain ⟨htop, -, hcopy, hother, hok, hdirect⟩ := h.ok
  have hx : ∀ {g' x'}, x.step g top.data copy spurious = some (g', x') → _ := fun {g' x'} =>
    exchange_attempt (h.balanced.congr (fun b => Nat.add_assoc _ _ _) fun b => Nat.add_assoc _ _ _)
      (fun b => Nat.add_le_add (h.others b) (top.loose_le_refs b)) hok hother
      (h.order.created _ hcopy).1 hdirect (h.alive rfl) h.order.head (h.lt rfl)
  have hdata : pointer top.known = pointer g.packedPtr → top.data = dataOf (pointer g.packedPtr) :=
    fun hptr => hptr ▸ htop.ok.data
  simp only [LockFreeStack.step] at hstep
  split at hstep
  · cases hstep
  · rename_i result moved hdone
    cases hstep
    rcases hx hdone with hattempt | ⟨holder, packed, -, heq, -⟩
    · obtain rfl := hattempt.result _ _ rfl
      have hmoved : x.moved = moved := hattempt.moved.symm
      have hqueue : (if moved = true then [] else [copy]).length ≤ 1 := by split <;> simp
      refine .inl (.of_own ?_ (hattempt.spends.lift ?_ ?_) fun hl hold => ?_)
      · simp only [Local.decisions, hmoved, le_refl]
      · simp only [Local.ownChanges, Exchange.changes]
        omega
      · simp only [Local.ownEffort, exchangeAfter]
        omega
      · simp only [Local.fresh, decide_eq_true_eq] at hold
        have hundecided : moved = false := by simpa [Local.decisions] using hl
        exact absurd (hattempt.fresh hundecided (hdata hold.1) hold.2) (by simp [Exchange.fresh])
    · cases heq
  · rename_i holder packed hswap
    split at hstep
    · cases hstep
    · cases hstep
      rcases hx hswap with hattempt | ⟨holder', packed', rfl, heq, hlive⟩
      · exact absurd rfl (hattempt.notSwap _ _)
      · have hle := Shared.flushes_le g'
        refine .inr ⟨Nat.one_pos, ?_, ?_⟩
        · rw [Local.changes, retries_of_decided rfl, Local.changes]
          simp only [Local.ownChanges, Exchange.changes]
          omega
        · rw [Local.effort, retries_of_decided rfl, Local.effort]
          simp only [Local.ownEffort, Exchange.effort]
          omega
  · rename_i x' hnotDone hnotSwap hmore
    cases hstep
    rcases hx hmore with hattempt | ⟨holder, packed, -, rfl, -⟩
    · have hafter := hattempt.spends
      rw [exchangeAfter_of_not_done hnotDone] at hafter
      refine .inl (.of_own ?_ (hafter.lift ?_ ?_) fun hl hold => ?_)
      · simp only [Local.decisions, hattempt.moved, le_refl]
      · simp only [Local.ownChanges]
        omega
      · simp only [Local.ownEffort]
        omega
      · have hundecided : x'.moved = false := by simpa [Local.decisions] using hl
        simp only [Local.fresh, decide_eq_true_eq, hafter.pointer] at hold ⊢
        exact ⟨hold.1, hattempt.fresh hundecided (hdata hold.1) hold.2⟩
    · exact absurd rfl (hnotSwap _ _)

theorem Ready.proceeds (h : Ready P g l o ol)
    (hstep : LockFreeStack.step leave g spurious l = some (g', l', e)) :
    Proceeds spurious g g' l l' ∨ Decides g g' l l' := by
  cases l with
  | idle => cases hstep
  | pushGet => exact .inl (h.pushGet_proceeds hstep)
  | pushAssign => exact .inl (h.pushAssign_proceeds hstep)
  | pushRelease => exact .inl (h.pushRelease_proceeds hstep)
  | pushExchange => exact h.pushExchange_proceeds hstep
  | pushLeave => exact .inl (h.pushLeave_proceeds hstep)
  | popGet => exact .inl (h.popGet_proceeds hstep)
  | popAssign => exact .inl (h.popAssign_proceeds hstep)
  | popCopy => exact .inl (popCopy_proceeds hstep)
  | popExchange => exact h.popExchange_proceeds hstep
  | popRelease => exact .inl (h.popRelease_proceeds hstep)
  | popMove => exact .inl (popMove_proceeds hstep)
  | popLeave => exact .inl (h.popLeave_proceeds hstep)
  | destroyAdd => exact h.ok.elim
  | destroySub copy =>
    simp only [LockFreeStack.step] at hstep
    split at hstep
    · cases hstep
    · rename_i hdrop
      cases hstep
      obtain ⟨hlive, hword⟩ := dropRef_live h.balanced.fresh hdrop
      exact .inl (.of_decided rfl (.quiet hword le_rfl (by simp only [Local.ownEffort]; omega)))
  | destroyRelease queue =>
    cases queue with
    | nil =>
      cases hstep
      exact .inl (.of_decided rfl (.rest le_rfl (by simp only [Local.ownEffort]; omega)))
    | cons block queue =>
      simp only [LockFreeStack.step] at hstep
      split at hstep
      · cases hstep
      · rename_i hrelease
        cases hstep
        obtain ⟨hlive, hword⟩ := release_live h.balanced.fresh hrelease
        exact .inl (.of_decided rfl (.quiet hword le_rfl (by simp only [Local.ownEffort]; omega)))

theorem Local.ownEffort_le (hstale : ∀ expected, g'.stale expected ≤ g.stale expected + n)
    (l : Local T) : l.ownEffort g' ≤ l.ownEffort g + 3 * n := by
  cases l with
  | pushGet new v x =>
    have := Get.effort_le hstale x
    simp only [ownEffort]
    omega
  | popAssign top old x | popLeave top r x =>
    have := Destroy.effort_le hstale x
    simp only [ownEffort]
    omega
  | pushExchange new v expected x | popExchange top copy x =>
    have := Exchange.effort_le hstale x
    simp only [ownEffort]
    omega
  | idle | pushAssign | pushRelease | pushLeave | popGet | popCopy | popRelease | popMove
  | destroyAdd | destroySub | destroyRelease => exact Nat.le_add_right _ _

theorem fresh_congr (hptr : pointer g'.packedPtr = pointer g.packedPtr) (hsees : l.Sees P g)
    (hnode : ∀ n node, l.pending? = some n → g.nodes n = some node →
      ∃ node', g'.nodes n = some node' ∧ node'.prev = node.prev ∧ node'.data = node.data) :
    l.fresh g' = l.fresh g := by
  cases l with
  | pushRelease new v queue =>
    obtain ⟨node, hn, -⟩ := hsees
    obtain ⟨node', hn', hprev, -⟩ := hnode new node rfl hn
    simp [Local.fresh, hn, hn', hprev, hptr]
  | idle | pushGet | pushAssign | pushExchange | pushLeave | popGet | popAssign | popCopy
  | popExchange | popRelease | popMove | popLeave | destroyAdd | destroySub | destroyRelease =>
    simp only [Local.fresh, hptr]

theorem changes_le : l.changes g' ≤ l.changes g + 6 := by
  have hle := retries_le_one g' l
  rw [Local.changes, Local.changes]
  omega

theorem effort_le : l.effort g' ≤ l.effort g + 39 := by
  have hle := retries_le_one g' l
  have hown : l.ownEffort g' ≤ l.ownEffort g + 3 * 1 := l.ownEffort_le fun expected =>
    (g'.stale_le expected).trans (Nat.le_add_left _ _)
  rw [Local.effort, Local.effort]
  omega

end
end LockFree.LockFreeStack
