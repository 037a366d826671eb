import LockFree.SharedPtrRuns

/-!
# Migrations

The word that a failed migration loads becomes the known value of the handle. If it has another
block, `getFast` returns a handle whose block is not the one whose data it has. If its local
count is zero, the destruction of the handle takes one from the pointer. A migration that
succeeds leaves a handle whose reference is never released: with a thousand handles alive the
next one is such a handle.
-/

namespace LockFree.SharedPtrClients
open AtomicSharedPtr TransitionRuns

section
variable {Tid : Type*} [DecidableEq Tid] {δ : ℕ → ℕ} {g g' : Shared Unit} {f : Tid → Client}
  {t : Tid} {l l' : Client} {c : Choice} {e : Event}

theorem step_of_next (hnext : next δ g l c = some (g', l', e))
    (hfits : fits ⟨g, Function.update f t l⟩ (t, c) = true) :
    (machine δ Tid).Step ⟨g, Function.update f t l⟩ (t, e) ⟨g', Function.update f t l'⟩ := by
  refine ⟨(t, c), (if_pos hfits).trans (Pool.next_eq_some_iff.mpr ⟨g', l', e, ?_, ?_, rfl⟩)⟩
  · exact (congrArg (next δ g · c) (Function.update_self ..)).trans hnext
  · rw [Function.update_idem]

variable [Fintype Tid] {s : Pool Tid (Shared Unit) Client} {es : List (Tid × Event)}
  {known data block : ℕ}

/-- The handle that `getFast` returns when it has loaded the word of `head_` and does not try
again. -/
theorem Kept.returns (h : Kept δ es s)
    (hop : (s.threads t).op = .getFast (.migrateCas known data block))
    (hfails : s.shared.packedPtr ≠ known)
    (hlast : block ≠ pointer s.shared.packedPtr ∨ localCount s.shared.packedPtr = 0) :
    ∃ c n fs, (machine δ Tid).Path s fs ⟨s.shared.setRefCount block c n,
      Function.update s.threads t ⟨⟨s.shared.packedPtr, true, data⟩ :: (s.threads t).handles,
        (s.threads t).shared, .idle⟩⟩ := by
  have hclient : s.threads t = ⟨(s.threads t).handles, (s.threads t).shared,
      .getFast (.migrateCas known data block)⟩ := by rw [← hop]
  obtain ⟨rfl, hne, hdata, hcount⟩ : (Op.getFast (.migrateCas known data block)).Ok δ :=
    hop ▸ (h.clients t).op
  have hbalanced := h.balanced_rest t
  obtain ⟨before, c, hsub, -⟩ := hbalanced.fetchSub (d := localCount known)
    (fun b => (skipped es b + Pool.rest Client.refs s.threads t b) +
      (stock (s.threads t).handles (s.threads t).shared b + single (pointer known) b)) hne
    (fun b => by
      simp only [Client.refs, hop, Op.refs, Fast.refs]
      omega)
    (by
      rw [single_self]
      omega)
    (fun b => by
      have hrest := h.rest_loose_le t b
      have hstock := looseStock_le (s.threads t).handles (s.threads t).shared b
      simp only [Client.loose, hop, Op.loose, Fast.loose]
      omega)
  have hcas : (machine δ Tid).Step ⟨s.shared, Function.update s.threads t (s.threads t)⟩
      (t, .silent) ⟨s.shared, Function.update s.threads t ⟨(s.threads t).handles,
        (s.threads t).shared,
        .getFast (.migrateSub s.shared.packedPtr data (pointer known) (localCount known))⟩⟩ := by
    refine step_of_next (c := .step false) ?_ ?_
    · rw [hclient]
      simp only [next, Op.isIdle, SharedPtrClients.step, Fast.step, if_neg hfails,
        Bool.false_eq_true, if_false]
    · simp only [fits, Function.update_self, hop, Op.addsLocal, Bool.not_false, Bool.true_or]
  have hdone : Fast.check s.shared.packedPtr data (pointer known) =
      .done ⟨s.shared.packedPtr, true, data⟩ := by
    refine if_neg fun hagain => ?_
    rcases hlast with hother | hzero
    · exact hother hagain.2
    · omega
  have hheld : (machine δ Tid).Step ⟨s.shared, Function.update s.threads t
      ⟨(s.threads t).handles, (s.threads t).shared,
        .getFast (.migrateSub s.shared.packedPtr data (pointer known) (localCount known))⟩⟩
      (t, .held ⟨s.shared.packedPtr, true, data⟩)
      ⟨s.shared.setRefCount (pointer known) c (c.refCount - localCount known),
        Function.update s.threads t ⟨⟨s.shared.packedPtr, true, data⟩ :: (s.threads t).handles,
          (s.threads t).shared, .idle⟩⟩ := by
    refine step_of_next (c := .step false) ?_ ?_
    · simp only [next, Op.isIdle, SharedPtrClients.step, Fast.step, hsub, hdone,
        Bool.false_eq_true, if_false]
    · simp only [fits, Function.update_self, Op.addsLocal, Bool.not_false, Bool.true_or]
  rw [Function.update_eq_self] at hcas
  exact ⟨c, _, _, (Machine.Path.single hcas).snoc hheld⟩

/-- The accounts are wrong, or the next step moves the pointer without a swap. -/
def Spoiled (δ : ℕ → ℕ) (s : Pool Tid (Shared Unit) Client) : Prop :=
  ¬ Accounts s ∨ ∃ e s', (machine δ Tid).Step s e s' ∧ e.2 ≠ .swapped ∧
    pointer s'.shared.packedPtr ≠ pointer s.shared.packedPtr

theorem spoiled_of_other (h : Kept δ es s)
    (hop : (s.threads t).op = .getFast (.migrateCas known data block))
    (hdata : δ (pointer s.shared.packedPtr) ≠ δ (pointer known)) :
    ∃ fs s', (machine δ Tid).Path s fs s' ∧ Spoiled δ s' := by
  obtain ⟨rfl, -, hblock, -⟩ : (Op.getFast (.migrateCas known data block)).Ok δ :=
    hop ▸ (h.clients t).op
  have hother : pointer known ≠ pointer s.shared.packedPtr := fun heq => hdata (heq ▸ rfl)
  obtain ⟨c, n, fs, hpath⟩ := h.returns hop (fun heq => hother (heq ▸ rfl)) (.inl hother)
  refine ⟨fs, _, hpath, .inl fun haccounts => ?_⟩
  obtain ⟨c', hc', hdata'⟩ := haccounts.handles t ⟨s.shared.packedPtr, true, data⟩ (by
    simp [Client.held, Function.update_self])
  have hsame : s.shared.blocks (pointer s.shared.packedPtr) = some c' :=
    (Function.update_of_ne hother.symm _ _).symm.trans hc'
  exact hdata ((h.balanced.data _ c' hsame).1.symm.trans (hdata'.trans hblock))

theorem spoiled_of_zero (h : Kept δ es s)
    (hop : (s.threads t).op = .getFast (.migrateCas known data block))
    (hfails : s.shared.packedPtr ≠ known) (hzero : localCount s.shared.packedPtr = 0) :
    ∃ fs s', (machine δ Tid).Path s fs s' ∧ Spoiled δ s' := by
  obtain ⟨c, n, fs, hpath⟩ := h.returns hop hfails (.inr hzero)
  have hcalled := step_of_next (δ := δ) (f := s.threads) (t := t) (c := .destroy 0)
    (g := s.shared.setRefCount block c n) (l := ⟨⟨s.shared.packedPtr, true, data⟩ ::
      (s.threads t).handles, (s.threads t).shared, .idle⟩) rfl rfl
  have hborrow : (machine δ Tid).Step ⟨s.shared.setRefCount block c n, Function.update s.threads t
      ⟨(s.threads t).handles, (s.threads t).shared,
        .destroy ⟨s.shared.packedPtr, true, data⟩ (.cas s.shared.packedPtr)⟩⟩ (t, .silent)
      ⟨{ s.shared.setRefCount block c n with packedPtr := s.shared.packedPtr - 1 },
        Function.update s.threads t ⟨(s.threads t).handles, (s.threads t).shared, .idle⟩⟩ := by
    refine step_of_next (c := .step false) ?_ ?_
    · simp [next, Op.isIdle, SharedPtrClients.step, Destroy.step, Shared.setRefCount]
    · simp only [fits, Function.update_self, Op.addsLocal, Bool.not_false, Bool.true_or]
  refine ⟨_, _, hpath.snoc hcalled, .inr ⟨_, _, hborrow, by simp, ?_⟩⟩
  have hne := h.balanced.pointer_ne h.alive
  rw [pointer_eq] at hne
  rw [localCount_eq] at hzero
  change pointer (s.shared.packedPtr - 1) ≠ pointer s.shared.packedPtr
  rw [pointer_eq, pointer_eq]
  omega

theorem spoiled_of_not_loads (h : Kept δ es s)
    (hop : (s.threads t).op = .getFast (.migrateCas known data block))
    (hloads : loads s.shared (.migrateCas known data block) = false)
    (hdata : data ≠ 0 ∨ pointer s.shared.packedPtr = pointer known) :
    ∃ fs s', (machine δ Tid).Path s fs s' ∧ Spoiled δ s' := by
  obtain ⟨rfl, -, hblock, -⟩ : (Op.getFast (.migrateCas known data block)).Ok δ :=
    hop ▸ (h.clients t).op
  simp only [loads, Bool.or_eq_false_iff, beq_eq_false_iff_ne, Bool.and_eq_false_imp, beq_iff_eq,
    bne_eq_false_iff_eq] at hloads
  obtain ⟨hfails, hzero⟩ := hloads
  by_cases hptr : pointer s.shared.packedPtr = pointer known
  · exact spoiled_of_zero h hop hfails (hzero hptr)
  · refine spoiled_of_other h hop fun heq => ?_
    have hne : δ (pointer known) ≠ 0 := hblock ▸ hdata.resolve_right hptr
    have hknown := (h.balanced.value (pointer known)).resolve_left hne
    have hother := (h.balanced.value (pointer s.shared.packedPtr)).resolve_left (heq ▸ hne)
    exact hptr (hother.symm.trans (heq.trans hknown))

/-- In a sound run the accounts are kept exactly as long as no `destroy` has been skipped.
Nothing faults, and nothing but a swap moves the pointer. A `getFast` that is about to load
another word than a sound run allows can spoil the accounts. -/
theorem accounts_iff_released (hδ : ∀ b, δ b = 0 ∨ δ b = b)
    (h : ((machine δ Tid).restrict sound).Run es s) :
    (Accounts s ↔ ((∀ t, (s.threads t).op.isIdle) → ∀ e ∈ es, e.2.skipped? = none)) ∧
      (∀ e ∈ es, e.2 ≠ .fault) ∧
      (∀ e s', ((machine δ Tid).restrict sound).Step s e s' → e.2 ≠ .swapped →
        pointer s'.shared.packedPtr = pointer s.shared.packedPtr) ∧
      ∀ t known data block, (s.threads t).op = .getFast (.migrateCas known data block) →
        loads s.shared (.migrateCas known data block) = false →
        data ≠ 0 ∨ pointer s.shared.packedPtr = pointer known →
        ∃ fs s', (machine δ Tid).Path s fs s' ∧ Spoiled δ s' := by
  have hkept := kept_of_run hδ h
  exact ⟨hkept.accounts_iff, hkept.noFault, fun _ _ hs => (hkept.step hs).2,
    fun _ _ _ _ hop hloads hdata => spoiled_of_not_loads hkept hop hloads hdata⟩

end

theorem accounts_iff_released_swap : ∃ es s, ((machine (fun b => b) Unit).restrict sound).Run
    es s ∧ Accounts s ∧ s.shared.blocks 1 = none ∧ owners s 2 = 1 := by
  obtain ⟨s, hrun, hnone, howners⟩ : ∃ s, ((machine (fun b => b) Unit).restrict sound).Run _ s ∧
      s.shared.blocks 1 = none ∧ owners s 2 = 1 :=
    ⟨_, Machine.Path.of_exec ([((), .getFast), ((), .step false), ((), .step false), ((), .make),
      ((), .exchange 1 0)] ++ List.replicate 15 ((), .step false) ++
      ((), .destroy 0) :: List.replicate 4 ((), .step false)) rfl, rfl, rfl⟩
  exact ⟨_, s, hrun, (accounts_iff_released (fun b => .inr rfl) hrun).1.mpr fun _ => by decide,
    hnone, howners⟩

theorem solo_next {δ : ℕ → ℕ} {g g' : Shared Unit} {l l' : Client} {c : Choice} {e : Event}
    (hnext : next δ g l c = some (g', l', e)) (hfits : fits ⟨g, fun _ : Unit => l⟩ ((), c)) :
    (machine δ Unit).next ⟨g, fun _ => l⟩ ((), c) = some (⟨g', fun _ => l'⟩, (), e) := by
  refine (if_pos hfits).trans (Pool.next_eq_some_iff.mpr ⟨g', l', e, hnext, ?_, rfl⟩)
  exact congrArg _ (funext fun _ => (Function.update_self () l' fun _ => l).symm)

def crowdHandles : ℕ → List Handle
  | 0 => []
  | n + 1 => ⟨pack 1 + n + 1, true, 1⟩ :: crowdHandles n

def crowdShared (n : ℕ) : Shared Unit := { start (fun b => b) with packedPtr := pack 1 + n }

def crowd (n : ℕ) : Pool Unit (Shared Unit) Client :=
  ⟨crowdShared n, fun _ => ⟨crowdHandles n, [], .idle⟩⟩

theorem crowd_packed {n : ℕ} (hn : n < 65536) :
    pointer (pack 1 + n) = 1 ∧ localCount (pack 1 + n) = n := by
  rw [pointer_eq, localCount_eq, pack_eq]
  omega

theorem crowd_count {n : ℕ} (hn : n < 65536) :
    ((crowdHandles n).map fun h => pointer h.known).count 1 = n := by
  induction n with
  | zero => rfl
  | succ n ih =>
    have hptr := (crowd_packed hn).1
    rw [← Nat.add_assoc] at hptr
    rw [crowdHandles, List.map_cons, hptr, List.count_cons_self, ih (by omega)]

theorem crowd_owners {g : Shared Unit} {n : ℕ} (hn : n < 65536) (hhead : pointer g.packedPtr = 1) :
    owners ⟨g, fun _ : Unit => ⟨crowdHandles n, [], .idle⟩⟩ 1 = 1 + n := by
  rw [owners, if_pos hhead, Finset.univ_unique, Finset.sum_singleton]
  change 1 + (0 + ((crowdHandles n).map fun h => pointer h.known).count 1) = 1 + n
  rw [crowd_count hn, Nat.zero_add]

theorem crowd_addLocal {n : ℕ} (hn : n < 65535) :
    ∃ es, (machine (fun b => b) Unit).Path (crowd n) es ⟨crowdShared (n + 1), fun _ =>
      ⟨crowdHandles n, [], .getFast (.readData (pack 1 + n + 1))⟩⟩ := by
  have hcount := (crowd_packed (n := n) (by omega)).2
  have hcalled : (machine (fun b => b) Unit).Step (crowd n) ((), .called)
      ⟨crowdShared n, fun _ => ⟨crowdHandles n, [], .getFast .addLocal⟩⟩ :=
    ⟨((), .getFast), solo_next rfl rfl⟩
  refine ⟨_, (Machine.Path.single hcalled).snoc (e := ((), .silent))
    ⟨((), .step false), solo_next rfl ?_⟩⟩
  simp only [fits, crowdShared, hcount, kMagicMask, Op.addsLocal]
  simpa using hn

theorem crowd_succ {n : ℕ} (hn : n < 1000) :
    ∃ es, (machine (fun b => b) Unit).Path (crowd n) es (crowd (n + 1)) := by
  obtain ⟨es, hpath⟩ := crowd_addLocal (n := n) (by omega)
  obtain ⟨hptr, hcount⟩ := crowd_packed (n := n + 1) (by omega)
  rw [← Nat.add_assoc] at hptr hcount
  refine ⟨_, hpath.snoc (e := ((), .held ⟨pack 1 + n + 1, true, 1⟩))
    ⟨((), .step false), solo_next ?_ rfl⟩⟩
  have hfew : ¬ 1000 < localCount (pack 1 + n + 1) := by omega
  simp only [next, Op.isIdle, step, Fast.step, hptr, crowdShared, start, Function.update_self,
    Fast.check, if_neg (not_and_of_not_left _ hfew)]
  rfl

theorem crowd_run {n : ℕ} (hn : n ≤ 1000) : ∃ es, (machine (fun b => b) Unit).Run es (crowd n) := by
  induction n with
  | zero => exact ⟨[], .nil _⟩
  | succ n ih =>
    obtain ⟨es, hrun⟩ := ih (by omega)
    obtain ⟨fs, hpath⟩ := crowd_succ (n := n) (by omega)
    exact ⟨es ++ fs, hrun.trans hpath⟩

def leaked : Pool Unit (Shared Unit) Client :=
  ⟨(crowdShared 0).setRefCount 1 ⟨1, 1⟩ 1002, fun _ => ⟨crowdHandles 1000, [], .idle⟩⟩

theorem leaked_run : ∃ es, (machine (fun b => b) Unit).Run es leaked := by
  obtain ⟨es, hrun⟩ := crowd_run (n := 1000) le_rfl
  obtain ⟨fs, hpath⟩ := crowd_addLocal (n := 1000) (by omega)
  have hread : (machine (fun b => b) Unit).Step _ ((), .silent)
      ⟨crowdShared 1001, fun _ =>
        ⟨crowdHandles 1000, [], .getFast (.migrateAdd (pack 1 + 1001) 1 1)⟩⟩ :=
    ⟨((), .step false), solo_next (g := crowdShared 1001) (l := ⟨crowdHandles 1000, [],
      .getFast (.readData (pack 1 + 1001))⟩) rfl rfl⟩
  have hadd : (machine (fun b => b) Unit).Step _ ((), .silent)
      ⟨(crowdShared 1001).setRefCount 1 ⟨1, 1⟩ 1002, fun _ =>
        ⟨crowdHandles 1000, [], .getFast (.migrateCas (pack 1 + 1001) 1 1)⟩⟩ :=
    ⟨((), .step false), solo_next (g := crowdShared 1001) (l := ⟨crowdHandles 1000, [],
      .getFast (.migrateAdd (pack 1 + 1001) 1 1)⟩) rfl rfl⟩
  have hcas : (machine (fun b => b) Unit).Step _ ((), .held ⟨pack 1 + 1001, false, 1⟩)
      ⟨(crowdShared 0).setRefCount 1 ⟨1, 1⟩ 1002, fun _ =>
        ⟨⟨pack 1 + 1001, false, 1⟩ :: crowdHandles 1000, [], .idle⟩⟩ :=
    ⟨((), .step false), solo_next (g := (crowdShared 1001).setRefCount 1 ⟨1, 1⟩ 1002)
      (l := ⟨crowdHandles 1000, [], .getFast (.migrateCas (pack 1 + 1001) 1 1)⟩) rfl rfl⟩
  have hdestroy : (machine (fun b => b) Unit).Step _ ((), .skipped ⟨pack 1 + 1001, false, 1⟩)
      ⟨(crowdShared 0).setRefCount 1 ⟨1, 1⟩ 1002, fun _ =>
        ⟨crowdHandles 1000, [], .destroy ⟨pack 1 + 1001, false, 1⟩ .done⟩⟩ :=
    ⟨((), .destroy 0), solo_next (g := (crowdShared 0).setRefCount 1 ⟨1, 1⟩ 1002)
      (l := ⟨⟨pack 1 + 1001, false, 1⟩ :: crowdHandles 1000, [], .idle⟩) rfl rfl⟩
  have hdone : (machine (fun b => b) Unit).Step _ ((), .silent) leaked :=
    ⟨((), .step false), solo_next (g := (crowdShared 0).setRefCount 1 ⟨1, 1⟩ 1002)
      (l := ⟨crowdHandles 1000, [], .destroy ⟨pack 1 + 1001, false, 1⟩ .done⟩) rfl rfl⟩
  exact ⟨_, (((((hrun.trans hpath).snoc hread).snoc hadd).snoc hcas).snoc hdestroy).snoc hdone⟩

theorem not_accounts : ¬ ∀ (es : List (Unit × Event)) (s : Pool Unit (Shared Unit) Client),
    (machine (fun b => b) Unit).Run es s → Accounts s := by
  intro h
  obtain ⟨es, hrun⟩ := leaked_run
  have hcounted := (h es leaked hrun).counted (fun _ => rfl) 1 ⟨1, 1002⟩ rfl
  rw [leaked, crowd_owners (by omega) (by decide)] at hcounted
  exact absurd hcounted (by decide)

end LockFree.SharedPtrClients
