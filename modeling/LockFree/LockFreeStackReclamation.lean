import LockFree.LockFreeStackInvariant

/-!
# Safe reclamation in UnboundedLockFreeStack

No step touches what has been deleted, every reference is accounted for, and a stack that has
been destroyed leaves nothing behind.
-/

namespace LockFree.LockFreeStack
open AtomicSharedPtr TransitionRuns

variable {T Tid : Type*} [DecidableEq Tid] [Fintype Tid] {leave : T → T} {P : List ℕ}
  {g g' g'' : Shared T} {s s' : Pool Tid (Shared T) (Local T)} {e : Tid × Event T}
  {es : List (Tid × Event T)} {n b : ℕ} {node : Node T}

def Dead (g : Shared T) (b : ℕ) : Prop :=
  b ≠ 0 ∧ b ≤ g.created ∧ g.blocks b = none ∧ g.nodes b = none

structure Later (g g' : Shared T) : Prop where
  created : g.created ≤ g'.created
  dead : ∀ b, Dead g b → Dead g' b
  born : ∀ b, g.created < b → b ≤ g'.created → (g'.blocks b).isSome ∧ (g'.nodes b).isSome

theorem SafeAt.later {t : Tid} {l : Local T} {f : Event T} (h : Inv P s)
    (hsafe : SafeAt P s t g l f) : Later s.shared g where
  created := hsafe.frame.created
  dead b hb := by
    obtain ⟨hne, hle, hblock, hnode⟩ := hb
    refine ⟨hne, hle.trans hsafe.frame.created, hsafe.frame.blocks b hle hblock, ?_⟩
    refine Option.not_isSome_iff_eq_none.mp fun hlive => ?_
    obtain ⟨-, hlive⟩ := (hsafe.balanced.node b).mp hlive
    rw [hsafe.frame.blocks b hle hblock] at hlive
    cases hlive
  born b hlt hle := by
    have hblock := hsafe.frame.born b hlt hle
    have hone := (h.order.created _ h.order.head).2
    have hne := (h.order.created _ h.order.head).1
    refine ⟨hblock, (hsafe.balanced.node b).mpr ⟨?_, hblock⟩⟩
    rw [dataOf, if_neg (by omega)]
    omega

theorem Inv.later (h : Inv P s) (hs : (bounded leave Tid).Step s e s') :
    Later s.shared s'.shared := by
  obtain ⟨t, c, g, l, f, -, -, rfl, -, hsafe | ⟨-, -, rfl, -⟩⟩ := h.step hs
  · exact hsafe.later h
  · exact ⟨le_rfl, fun _ hb => hb, fun _ hlt hle => absurd hle hlt.not_ge⟩

theorem Inv.dead_of_path (h : Inv P s) (hp : (bounded leave Tid).Path s es s')
    (hb : Dead s.shared b) : Dead s'.shared b := by
  have key : (∃ Q, Inv Q s') ∧ Dead s'.shared b := by
    induction hp with
    | nil => exact ⟨⟨P, h⟩, hb⟩
    | snoc _ hs ih =>
      obtain ⟨⟨Q, hQ⟩, hdead⟩ := ih
      obtain ⟨t, c, g, l, f, -, -, -, hinv, -⟩ := hQ.step hs
      exact ⟨⟨_, hinv⟩, (hQ.later hs).dead b hdead⟩
  exact key.2

def Deleted (leave : T → T) (es : List (Tid × Event T)) (s : Pool Tid (Shared T) (Local T))
    (b : ℕ) : Prop :=
  ∃ xs e ys u u', es = xs ++ e :: ys ∧ (bounded leave Tid).Run xs u ∧
    (bounded leave Tid).Step u e u' ∧ (bounded leave Tid).Path u' ys s ∧
    (u.shared.blocks b).isSome ∧ ((u.shared.nodes b).isSome ↔ b ≠ 1) ∧ Dead u'.shared b

theorem deleted_of_dead (h : (bounded leave Tid).Run es s) (hb : Dead s.shared b) :
    Deleted leave es s b := by
  refine Machine.Run.invariant (M := bounded leave Tid)
    (I := fun es s => Dead s.shared b → Deleted leave es s b) (fun hb => ?_) ?_ h hb
  · obtain ⟨hne, hle, hblock, -⟩ := hb
    obtain rfl : b = 1 := by
      have hle : b ≤ 1 := hle
      omega
    cases hblock
  rintro es s e s' hr ih hs hb
  have hinv := (inv_of_run hr).1
  have hlater := hinv.later hs
  by_cases hlive : (s.shared.blocks b).isSome
  · refine ⟨es, e, [], s, s', rfl, hr, hs, .nil s', hlive, ?_, hb⟩
    rw [hinv.balanced.node b, dataOf]
    have := hb.1
    split <;> simp_all
  · have hblock := Option.not_isSome_iff_eq_none.mp hlive
    have hle : b ≤ s.shared.created := by
      by_contra hgt
      have hborn := (hlater.born b (by omega) hb.2.1).1
      rw [hb.2.2.1] at hborn
      cases hborn
    have hnode : s.shared.nodes b = none := Option.not_isSome_iff_eq_none.mp fun hsome =>
      hlive ((hinv.balanced.node b).mp hsome).2
    obtain ⟨xs, f, ys, u, u', rfl, hrun, hstep, hpath, hrest⟩ := ih ⟨hb.1, hle, hblock, hnode⟩
    exact ⟨xs, f, ys ++ [e], u, u', by simp, hrun, hstep, hpath.snoc hs, hrest⟩

theorem Balanced.exists_prev {δ : ℕ → ℕ} {R L : ℕ → ℕ} (h : Balanced δ g R L)
    (hd : g.destroyed = true) (hR : R b = 0) (hb : b ≠ 0) (hlive : (g.blocks b).isSome) :
    ∃ n node, g.nodes n = some node ∧ node.prev = b := by
  have howned := (h.owned b hb).mp hlive
  rw [Shared.owners, Shared.headRef, if_pos hd, hR, Nat.zero_add, Nat.add_zero,
    Shared.prevs] at howned
  obtain ⟨n, -, hn⟩ := Finset.exists_ne_zero_of_sum_ne_zero howned.ne'
  cases hnode : g.nodes n with
  | none => simp [hnode, prevRef] at hn
  | some node =>
    refine ⟨n, node, hnode, ?_⟩
    by_contra hne
    simp [hnode, prevRef, single, hne] at hn

omit [DecidableEq Tid] in
theorem Inv.nodes_none (h : Inv P s) (hd : s.shared.destroyed = true)
    (hidle : ∀ t, (s.threads t).isIdle = true) (n : ℕ) : s.shared.nodes n = none := by
  have hR : ∀ b, ∑ t, (s.threads t).refs b = 0 := fun b =>
    Finset.sum_eq_zero fun t _ => by rw [eq_idle (hidle t)]; rfl
  have habove : ∀ n node, s.shared.nodes n = some node →
      ∃ m node', s.shared.nodes m = some node' ∧ node'.prev = n := by
    intro n node hnode
    obtain ⟨-, hlive⟩ := (h.balanced.node n).mp (by rw [hnode]; rfl)
    obtain ⟨c, hc⟩ := Option.isSome_iff_exists.mp hlive
    exact Balanced.exists_prev h.balanced hd (hR n) (h.balanced.data n c hc).2 hlive
  have hmem : ∀ n node, s.shared.nodes n = some node → n ∈ P := by
    intro n node hnode
    obtain ⟨m, node', hm, rfl⟩ := habove n node hnode
    obtain ⟨-, hlive⟩ := (h.balanced.node _).mp (by rw [hnode]; rfl)
    obtain ⟨c, hc⟩ := Option.isSome_iff_exists.mp hlive
    exact (h.order.prev m node' hm).resolve_left (h.balanced.data _ c hc).2
  have key : ∀ k n node, s.shared.nodes n = some node → P.idxOf n + k < P.length := by
    intro k
    induction k with
    | zero =>
      intro n node hnode
      exact List.idxOf_lt_length_of_mem (hmem n node hnode)
    | succ k ih =>
      intro n node hnode
      obtain ⟨m, node', hm, rfl⟩ := habove n node hnode
      have := h.order.idxOf_lt (hmem m node' hm) hm
      have := ih m node' hm
      omega
  cases hnode : s.shared.nodes n with
  | none => rfl
  | some node =>
    have := key P.length n node hnode
    omega

omit [DecidableEq Tid] in
theorem Inv.dead_of_destroyed (h : Inv P s) (hd : s.shared.destroyed = true)
    (hidle : ∀ t, (s.threads t).isIdle = true) (hb : b ≠ 0) (hle : b ≤ s.shared.created) :
    Dead s.shared b := by
  have hnone := h.nodes_none hd hidle
  refine ⟨hb, hle, Option.not_isSome_iff_eq_none.mp fun hlive => ?_, hnone b⟩
  have hR : ∑ t, (s.threads t).refs b = 0 :=
    Finset.sum_eq_zero fun t _ => by rw [eq_idle (hidle t)]; rfl
  obtain ⟨n, node, hnode, -⟩ := Balanced.exists_prev h.balanced hd hR hb hlive
  rw [hnone n] at hnode
  cases hnode

/-- `fault` is the step that would touch something deleted. The owners of a block are the word
`head_`, the `prev_` of nodes and what the threads hold: `SharedPtr`s, handles, amounts of
flushes in progress. -/
theorem safe_reclamation (h : (bounded leave Tid).Run es s) :
    (∀ e ∈ es, e.2 ≠ .fault) ∧
    (∀ b c, s.shared.blocks b = some c → c.refCount + s.shared.headCount b =
      s.shared.owners b fun b => ∑ t, (s.threads t).refs b) ∧
    (∀ b, b ≠ 0 → s.shared.blocks b = none →
      (s.shared.owners b fun b => ∑ t, (s.threads t).refs b) = 0) ∧
    (∀ b, Dead s.shared b → Deleted leave es s b ∧
      ∀ fs s', (bounded leave Tid).Path s fs s' → Dead s'.shared b) ∧
    (s.shared.destroyed = true → (∀ t, (s.threads t).isIdle = true) →
      ∀ b, b ≠ 0 → b ≤ s.shared.created → Dead s.shared b) := by
  obtain ⟨hinv, hsafe⟩ := inv_of_run h
  refine ⟨hsafe, hinv.balanced.counted, fun b hb hnone => ?_, fun b hb =>
    ⟨deleted_of_dead h hb, fun fs s' hp => hinv.dead_of_path hp hb⟩,
    fun hd hidle b hb hle => hinv.dead_of_destroyed hd hidle hb hle⟩
  by_contra hpos
  have hlive := (hinv.balanced.owned b hb).mpr (Nat.pos_of_ne_zero hpos)
  rw [hnone] at hlive
  cases hlive

theorem safe_reclamation_one : ∃ es s, (bounded id Unit : Machine _ (Unit × Choice ℕ) _).Run es s ∧
    Dead s.shared 1 ∧ Dead s.shared 2 := by
  obtain ⟨es, s, hrun, hd, hidle, hcreated⟩ : ∃ es s,
      (bounded id Unit : Machine _ (Unit × Choice ℕ) _).Run es s ∧ s.shared.destroyed = true ∧
        (∀ t, (s.threads t).isIdle = true) ∧ s.shared.created = 2 := by
    refine ⟨_, _, Machine.Path.of_exec
      ((((), .call (.push 7)) :: List.replicate 22 ((), .step false)) ++
        (((), .call .pop) :: List.replicate 24 ((), .step false)) ++
        (((), .destroy) :: List.replicate 2 ((), .step false))) rfl, ?_, fun _ => ?_, ?_⟩ <;> rfl
  have hdead := (safe_reclamation hrun).2.2.2.2 hd hidle
  exact ⟨es, s, hrun, hdead 1 (by decide) (by omega), hdead 2 (by decide) (by omega)⟩

end LockFree.LockFreeStack
