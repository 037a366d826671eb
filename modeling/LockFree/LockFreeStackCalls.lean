import LockFree.LockFreeStackInvariant

/-!
# The calls of UnboundedLockFreeStack

A `Push` takes effect when it brings its node into `head_`, and a `Pop` when it takes one out
or when it gets a handle of the empty stack.
-/

namespace LockFree.LockFreeStack
open AtomicSharedPtr Linearizability TransitionRuns

inductive Lifo {T : Type*} : List T → Call T → Result T → List T → Prop where
  | push (v : T) (q : List T) : Lifo q (.push v) .done (v :: q)
  | pop (v : T) (q : List T) : Lifo (v :: q) .pop (.popped v) q
  | empty : Lifo [] .pop .empty []

section
variable {T Tid : Type*}

def Event.mark? : Event T → Option (Mark (Call T) (Result T))
  | .called c => some (.call c)
  | .pushed _ v => some (.commit (.push v) .done)
  | .popped _ v => some (.commit .pop (.popped v))
  | .sawEmpty => some (.commit .pop .empty)
  | .returned r => some (.ret r)
  | _ => none

def history (es : List (Tid × Event T)) : List (Tid × Mark (Call T) (Result T)) :=
  marks Event.mark? es

end

def Fast.isNull : Fast → Bool
  | .readData known => dataOf (pointer known) = 0
  | .done h => h.data = 0
  | _ => false

section
variable {T : Type*}

def popPhase (isNull : Bool) : Phase (Call T) (Result T) :=
  if isNull then .committed .pop .empty else .called .pop

def Took (g : Shared T) (n : ℕ) (p : Phase (Call T) (Result T)) : Prop :=
  ∃ node, g.nodes n = some node ∧ p = .committed .pop (.popped node.data)

def Local.Phased (g : Shared T) (l : Local T) (p : Phase (Call T) (Result T)) : Prop :=
  match l with
  | .idle | .destroyAdd _ | .destroySub _ | .destroyRelease _ => p = .idle
  | .pushGet _ v _ | .pushAssign _ v _ | .pushRelease _ v _ => p = .called (.push v)
  | .pushExchange _ v _ x => p = if x.moved then .committed (.push v) .done else .called (.push v)
  | .pushLeave _ => ∃ v, p = .committed (.push v) .done
  | .popGet _ x => p = popPhase (Fast.isNull x)
  | .popAssign top _ _ => p = popPhase (top.data = 0)
  | .popCopy _ => p = .called .pop
  | .popExchange top _ x => if x.moved then Took g top.data p else p = .called .pop
  | .popRelease top result _ => if result then Took g top.data p else p = .called .pop
  | .popMove top => Took g top.data p
  | .popLeave _ r _ => p = .committed .pop r

variable {P : List ℕ} {g g' : Shared T} {l l' : Local T} {o ol : ℕ → ℕ} {e : Event T} {n : ℕ}
  {p : Phase (Call T) (Result T)} {leave : T → T} {spurious : Bool}

def StillHolds (g g' : Shared T) (n : ℕ) : Prop :=
  ∀ node, g.nodes n = some node → ∃ node', g'.nodes n = some node' ∧ node'.data = node.data

theorem Took.mono (h : Took g n p) (hkeep : StillHolds g g' n) : Took g' n p := by
  obtain ⟨node, hnode, rfl⟩ := h
  obtain ⟨node', hnode', hdata⟩ := hkeep node hnode
  exact ⟨node', hnode', by rw [hdata]⟩

theorem Local.Phased.mono (h : l.Phased g p) (hkeep : ∀ n, l.taken? = some n → StillHolds g g' n) :
    l.Phased g' p := by
  cases l with
  | popExchange top copy x =>
    simp only [Local.Phased, Local.taken?] at h hkeep ⊢
    split
    · rename_i hmoved
      rw [if_pos hmoved] at h hkeep
      exact h.mono (hkeep _ rfl)
    · rename_i hmoved
      rwa [if_neg hmoved] at h
  | popRelease top result queue =>
    cases result with
    | true => exact Took.mono h (hkeep _ rfl)
    | false => exact h
  | popMove top => exact Took.mono h (hkeep _ rfl)
  | idle | pushGet | pushAssign | pushRelease | pushExchange | pushLeave | popGet | popAssign
  | popCopy | popLeave | destroyAdd | destroySub | destroyRelease => exact h

theorem test_phased {top : Handle} (hp : p = popPhase (top.data = 0)) :
    (test top : Local T).Phased g p := by
  subst hp
  rw [test]
  split
  · rename_i hdata
    simp [Local.Phased, popPhase, hdata]
  · rename_i hdata
    simp [Local.Phased, popPhase, hdata]

theorem exchange_moved {x x' : Exchange} {expected new : ℕ}
    (h : Balanced dataOf g (fun b => o b + x.refs new b) fun b => ol b + x.loose b)
    (hol : ∀ b, ol b ≤ o b) (hok : x.Ok dataOf expected new) (hother : dataOf new ≠ expected)
    (hne : new ≠ 0) (hdirect : x.Direct fun b => b ∈ P) (halive : g.destroyed = false)
    (hhead : pointer g.packedPtr ∈ P) (hlt : localCount g.packedPtr < 65535)
    (hstep : x.step g expected new spurious = some (g', x')) :
    (∀ result moved, x' = .done result moved → moved = result) ∧
      ((x'.moved = x.moved ∧ ∀ holder packed, x' ≠ .destroyOld holder packed) ∨
        (x.moved = false ∧ ∃ holder packed, x' = .destroyOld holder packed)) := by
  obtain ⟨g₁, x₁, hstep₁, hok', heffect, -, hmoved, -⟩ :=
    Exchange.step_direct spurious h hol hok hne hdirect halive hhead hlt
  cases hstep.symm.trans hstep₁
  refine ⟨fun result moved hdone => ?_, ?_⟩
  · subst hdone
    exact hok'.resolve_right hother
  · rcases heffect with ⟨hnot, -⟩ | ⟨holder, rfl, rfl, -⟩
    · exact .inl ⟨hmoved hnot, hnot⟩
    · exact .inr ⟨rfl, holder, _, rfl⟩

theorem Ready.pushExchange_phased {new expected : ℕ} {v : T} {x : Exchange}
    (h : Ready P g (.pushExchange new v expected x) o ol)
    (hstep : LockFreeStack.step leave g spurious (.pushExchange new v expected x) =
      some (g', l', e))
    (hp : Local.Phased g (.pushExchange new v expected x) p) :
    ∃ p', p.Moves e.mark? p' ∧ l'.Phased g' p' := by
  obtain ⟨hne, hother, hok, hdirect⟩ := h.ok
  have hx : ∀ g' x', x.step g expected new spurious = some (g', x') → _ := fun g' x' =>
    exchange_moved h.balanced h.others hok hother hne hdirect (h.alive rfl) h.order.head (h.lt rfl)
  simp only [LockFreeStack.step] at hstep
  split at hstep
  · cases hstep
  · rename_i moved hdone
    cases hstep
    obtain ⟨hresult, ⟨hmoved, -⟩ | ⟨-, holder, packed, heq⟩⟩ := hx _ _ hdone
    · obtain rfl := hresult _ _ rfl
      exact ⟨p, rfl, v, hp.trans (if_pos hmoved.symm)⟩
    · cases heq
  · rename_i moved hdone
    cases hstep
    obtain ⟨hresult, ⟨hmoved, -⟩ | ⟨-, holder, packed, heq⟩⟩ := hx _ _ hdone
    · obtain rfl := hresult _ _ rfl
      refine ⟨p, rfl, hp.trans (if_neg ?_)⟩
      rw [← hmoved]
      exact Bool.false_ne_true
    · cases heq
  · rename_i holder packed hswap
    cases hstep
    obtain ⟨-, ⟨-, hnot⟩ | ⟨hmoved, -⟩⟩ := hx _ _ hswap
    · exact absurd rfl (hnot _ _)
    · rw [Local.Phased, hmoved] at hp
      subst hp
      exact ⟨.committed (.push v) .done, .commit _ _, rfl⟩
  · rename_i hnotSwap hmore
    cases hstep
    obtain ⟨-, ⟨hmoved, -⟩ | ⟨-, holder, packed, rfl⟩⟩ := hx _ _ hmore
    · refine ⟨p, rfl, ?_⟩
      rw [Local.Phased, hmoved]
      exact hp
    · exact absurd rfl (hnotSwap holder packed)

theorem Ready.popGet_phased {old : Option Handle} {x : Fast} (h : Ready P g (.popGet old x) o ol)
    (hstep : LockFreeStack.step leave g spurious (.popGet old x) = some (g', l', e))
    (hp : Local.Phased g (.popGet old x) p) : ∃ p', p.Moves e.mark? p' ∧ l'.Phased g' p' := by
  obtain ⟨-, -, hdirect⟩ := h.ok
  have key : ∀ top, x.step g = some (g, .done top) → Fast.isNull x = decide (top.data = 0) →
      ∃ p', p.Moves e.mark? p' ∧ l'.Phased g' p' := by
    intro top hdone hnull
    rw [Local.Phased, hnull] at hp
    simp only [LockFreeStack.step, hdone] at hstep
    cases old with
    | none =>
      cases hstep
      exact ⟨p, rfl, test_phased hp⟩
    | some old =>
      cases hstep
      exact ⟨p, rfl, hp⟩
  cases x with
  | addLocal =>
    simp only [LockFreeStack.step, Fast.step] at hstep
    split at hstep
    · cases hstep
    · rename_i c hc
      have hdata := (h.balanced.data _ c hc).1
      cases hstep
      by_cases hnull : c.data = 0
      · subst hp
        rw [if_pos hnull]
        refine ⟨.committed .pop .empty, .commit _ _, ?_⟩
        simp [Local.Phased, Fast.isNull, ← hdata, hnull, popPhase]
      · rw [if_neg hnull]
        refine ⟨p, rfl, hp.trans ?_⟩
        simp [Fast.isNull, ← hdata, hnull, popPhase]
  | readData known =>
    cases hc : g.blocks (pointer known) with
    | none => simp [LockFreeStack.step, Fast.step, hc] at hstep
    | some c =>
      refine key ⟨known, true, c.data⟩ ?_ ?_
      · have hfew := hdirect.2.2
        simp only [Fast.step, hc, Fast.check]
        rw [if_neg (by omega)]
      · rw [Fast.isNull, (h.balanced.data _ c hc).1]
  | migrateAdd | migrateCas | migrateSub => exact hdirect.elim
  | done top => exact key top rfl rfl

theorem Ready.popExchange_phased {top : Handle} {copy : ℕ} {x : Exchange}
    (h : Ready P g (.popExchange top copy x) o ol)
    (hstep : LockFreeStack.step leave g spurious (.popExchange top copy x) = some (g', l', e))
    (hp : Local.Phased g (.popExchange top copy x) p)
    (hkeep : ∀ n, l'.taken? = some n → StillHolds g g' n) :
    ∃ p', p.Moves e.mark? p' ∧ l'.Phased g' p' := by
  obtain ⟨-, -, hcopy, hother, hok, hdirect⟩ := h.ok
  have hx : ∀ g' x', x.step g top.data copy spurious = some (g', x') → _ := fun g' x' =>
    exchange_moved (h.balanced.congr (fun b => Nat.add_assoc _ _ _) fun b => Nat.add_assoc _ _ _)
      (fun b => Nat.add_le_add (h.others b) (top.loose_le_refs b)) hok hother
      (h.order.created _ hcopy).1 hdirect (h.alive rfl) h.order.head (h.lt rfl)
  simp only [LockFreeStack.step] at hstep
  split at hstep
  · cases hstep
  · rename_i result moved hdone
    cases hstep
    obtain ⟨hresult, ⟨hmoved, -⟩ | ⟨-, holder, packed, heq⟩⟩ := hx _ _ hdone
    · obtain rfl := hresult _ _ rfl
      refine ⟨p, rfl, Local.Phased.mono (g := g) ?_ hkeep⟩
      simp only [Local.Phased, ← hmoved] at hp ⊢
      exact hp
    · cases heq
  · rename_i holder packed hswap
    split at hstep
    · cases hstep
    · rename_i node hnode
      cases hstep
      obtain ⟨-, ⟨-, hnot⟩ | ⟨hmoved, -⟩⟩ := hx _ _ hswap
      · exact absurd rfl (hnot _ _)
      · simp only [Local.Phased, hmoved] at hp
        subst hp
        exact ⟨.committed .pop (.popped node.data), .commit _ _,
          Took.mono (g := g) ⟨node, hnode, rfl⟩ (hkeep _ rfl)⟩
  · rename_i hnotSwap hmore
    cases hstep
    obtain ⟨-, ⟨hmoved, -⟩ | ⟨-, holder, packed, rfl⟩⟩ := hx _ _ hmore
    · refine ⟨p, rfl, Local.Phased.mono (g := g) ?_ hkeep⟩
      simp only [Local.Phased, hmoved] at hp ⊢
      exact hp
    · exact absurd rfl (hnotSwap holder packed)

theorem call_phased {c : Call T} (hn : next leave g .idle (.call c) = some (g', l', e))
    (hp : p = .idle) : ∃ p', p.Moves e.mark? p' ∧ l'.Phased g' p' := by
  subst hp
  simp only [next] at hn
  split at hn
  · cases c with
    | push v =>
      cases hn
      exact ⟨.called (.push v), .call _, rfl⟩
    | pop =>
      cases hn
      exact ⟨.called .pop, .call _, rfl⟩
  · cases hn

theorem pushAssign_phased {new : ℕ} {v : T} {block : ℕ}
    (hstep : LockFreeStack.step leave g spurious (.pushAssign new v block) = some (g', l', e))
    (hp : Local.Phased g (.pushAssign new v block) p) :
    ∃ p', p.Moves e.mark? p' ∧ l'.Phased g' p' := by
  simp only [LockFreeStack.step] at hstep
  split at hstep
  · cases hstep
  · split at hstep
    · cases hstep
    · split at hstep <;> cases hstep <;> exact ⟨p, rfl, hp⟩

theorem pushRelease_phased {new : ℕ} {v : T} {queue : List ℕ}
    (hstep : LockFreeStack.step leave g spurious (.pushRelease new v queue) = some (g', l', e))
    (hp : Local.Phased g (.pushRelease new v queue) p) :
    ∃ p', p.Moves e.mark? p' ∧ l'.Phased g' p' := by
  cases queue with
  | nil =>
    simp only [LockFreeStack.step] at hstep
    split at hstep
    · cases hstep
    · split at hstep
      · cases hstep
      · split at hstep
        · cases hstep
          exact ⟨p, rfl, hp⟩
        · split at hstep <;> cases hstep
          exact ⟨p, rfl, hp⟩
  | cons block queue =>
    simp only [LockFreeStack.step] at hstep
    split at hstep <;> cases hstep
    exact ⟨p, rfl, hp⟩

theorem pushLeave_phased {queue : List ℕ}
    (hstep : LockFreeStack.step leave g spurious (.pushLeave queue) = some (g', l', e))
    (hp : Local.Phased g (.pushLeave queue) p) :
    ∃ p', p.Moves e.mark? p' ∧ l'.Phased g' p' := by
  cases queue with
  | nil =>
    cases hstep
    obtain ⟨v, rfl⟩ := hp
    exact ⟨.idle, .ret _ _, rfl⟩
  | cons block queue =>
    simp only [LockFreeStack.step] at hstep
    split at hstep <;> cases hstep
    exact ⟨p, rfl, hp⟩

theorem popAssign_phased {top old : Handle} {x : Destroy}
    (hstep : LockFreeStack.step leave g spurious (.popAssign top old x) = some (g', l', e))
    (hp : Local.Phased g (.popAssign top old x) p) :
    ∃ p', p.Moves e.mark? p' ∧ l'.Phased g' p' := by
  simp only [LockFreeStack.step] at hstep
  split at hstep <;> cases hstep
  · exact ⟨p, rfl, test_phased hp⟩
  · exact ⟨p, rfl, hp⟩

theorem popCopy_phased {top : Handle}
    (hstep : LockFreeStack.step leave g spurious (.popCopy top) = some (g', l', e))
    (hp : Local.Phased g (.popCopy top) p) :
    ∃ p', p.Moves e.mark? p' ∧ l'.Phased g' p' := by
  simp only [LockFreeStack.step] at hstep
  split at hstep
  · cases hstep
  · split at hstep
    · cases hstep
      exact ⟨p, rfl, hp⟩
    · split at hstep
      · cases hstep
      · split at hstep <;> cases hstep
        exact ⟨p, rfl, hp⟩

theorem popRelease_phased {top : Handle} {result : Bool} {queue : List ℕ}
    (hstep : LockFreeStack.step leave g spurious (.popRelease top result queue) = some (g', l', e))
    (hp : Local.Phased g (.popRelease top result queue) p)
    (hkeep : ∀ n, l'.taken? = some n → StillHolds g g' n) :
    ∃ p', p.Moves e.mark? p' ∧ l'.Phased g' p' := by
  cases queue with
  | nil =>
    cases hstep
    cases result with
    | true => exact ⟨p, rfl, hp⟩
    | false => exact ⟨p, rfl, hp⟩
  | cons block queue =>
    simp only [LockFreeStack.step] at hstep
    split at hstep <;> cases hstep
    refine ⟨p, rfl, Local.Phased.mono (g := g) ?_ hkeep⟩
    exact hp

theorem popMove_phased {top : Handle}
    (hstep : LockFreeStack.step leave g spurious (.popMove top) = some (g', l', e))
    (hp : Local.Phased g (.popMove top) p) :
    ∃ p', p.Moves e.mark? p' ∧ l'.Phased g' p' := by
  obtain ⟨node, hnode, rfl⟩ := hp
  simp only [LockFreeStack.step, hnode] at hstep
  cases hstep
  exact ⟨_, rfl, rfl⟩

theorem popLeave_phased {top : Handle} {r : Result T} {x : Destroy}
    (hstep : LockFreeStack.step leave g spurious (.popLeave top r x) = some (g', l', e))
    (hp : Local.Phased g (.popLeave top r x) p) :
    ∃ p', p.Moves e.mark? p' ∧ l'.Phased g' p' := by
  simp only [LockFreeStack.step] at hstep
  split at hstep <;> cases hstep
  · subst hp
    exact ⟨.idle, .ret _ _, rfl⟩
  · exact ⟨p, rfl, hp⟩

theorem destroyRelease_phased {queue : List ℕ}
    (hstep : LockFreeStack.step leave g spurious (.destroyRelease queue) = some (g', l', e))
    (hp : Local.Phased g (.destroyRelease queue) p) :
    ∃ p', p.Moves e.mark? p' ∧ l'.Phased g' p' := by
  cases queue with
  | nil =>
    cases hstep
    exact ⟨p, rfl, hp⟩
  | cons block queue =>
    simp only [LockFreeStack.step] at hstep
    split at hstep <;> cases hstep
    exact ⟨p, rfl, hp⟩

theorem Ready.phased (h : Ready P g l o ol)
    (hstep : LockFreeStack.step leave g spurious l = some (g', l', e)) (hp : l.Phased g p)
    (hkeep : ∀ n, l'.taken? = some n → StillHolds g g' n) :
    ∃ p', p.Moves e.mark? p' ∧ l'.Phased g' p' := by
  cases l with
  | idle => cases hstep
  | pushGet new v x =>
    simp only [LockFreeStack.step] at hstep
    split at hstep <;> cases hstep <;> exact ⟨p, rfl, hp⟩
  | pushAssign => exact pushAssign_phased hstep hp
  | pushRelease => exact pushRelease_phased hstep hp
  | pushExchange => exact h.pushExchange_phased hstep hp
  | pushLeave => exact pushLeave_phased hstep hp
  | popGet => exact h.popGet_phased hstep hp
  | popAssign => exact popAssign_phased hstep hp
  | popCopy => exact popCopy_phased hstep hp
  | popExchange => exact h.popExchange_phased hstep hp hkeep
  | popRelease => exact popRelease_phased hstep hp hkeep
  | popMove => exact popMove_phased hstep hp
  | popLeave => exact popLeave_phased hstep hp
  | destroyAdd copy => exact h.ok.elim
  | destroySub copy =>
    simp only [LockFreeStack.step] at hstep
    split at hstep <;> cases hstep
    exact ⟨p, rfl, hp⟩
  | destroyRelease => exact destroyRelease_phased hstep hp

end
end LockFree.LockFreeStack
