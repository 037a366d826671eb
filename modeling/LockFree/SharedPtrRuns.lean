import LockFree.SharedPtrAccounts

/-!
# Runs of the clients of AtomicSharedPtr

The ledger of all clients together, with the references that have been skipped, is balanced
in every state of a sound run.
-/

namespace LockFree.SharedPtrClients
open AtomicSharedPtr TransitionRuns

theorem Op.loose_le_refs {δ : ℕ → ℕ} {op : Op} (hok : op.Ok δ) (b : ℕ) :
    op.loose b ≤ op.refs b := by
  cases op with
  | idle | unref => exact Nat.zero_le _
  | getFast x => exact Fast.loose_le_refs hok b
  | destroy h x => exact Destroy.loose_le_refs h x b
  | get x => exact Get.loose_le_refs x b
  | exchange expected new x => exact Exchange.loose_le_refs hok.2 b

theorem Client.loose_le_refs {δ : ℕ → ℕ} {l : Client} (hok : l.Ok δ) (b : ℕ) :
    l.loose b ≤ l.refs b :=
  Nat.add_le_add (looseStock_le _ _ b) (Op.loose_le_refs hok.op b)

theorem start_balanced {δ : ℕ → ℕ} (hδ : ∀ b, δ b = 0 ∨ δ b = b) :
    Balanced δ (start δ) (fun _ => 0) fun _ => 0 := by
  refine .start hδ ?_ fun b hb => ?_
  · split <;> simp_all
  · split
    · rfl
    · exact if_neg (Ne.symm hb)

section
variable {Tid : Type*} {es : List (Tid × Event)} {e : Tid × Event}

theorem skipped_snoc (es : List (Tid × Event)) (e : Tid × Event) (b : ℕ) :
    skipped (es ++ [e]) b = skipped es b + e.2.skipped?.toList.count b := by
  rw [skipped, List.filterMap_append, List.count_append, skipped, List.filterMap_cons]
  cases e.2.skipped? <;> rfl

theorem skipped_eq_zero (h : ∀ e ∈ es, e.2.skipped? = none) (b : ℕ) : skipped es b = 0 := by
  rw [skipped, List.filterMap_eq_nil_iff.mpr h, List.count_nil]

theorem skipped_pos {b : ℕ} (he : e ∈ es) (hb : e.2.skipped? = some b) : 0 < skipped es b :=
  List.count_pos_iff.mpr (List.mem_filterMap.mpr ⟨e, he, hb⟩)

end

section
variable {Tid : Type*} [Fintype Tid] {δ : ℕ → ℕ} {s s' : Pool Tid (Shared Unit) Client}
  {es : List (Tid × Event)} {e : Tid × Event}

structure Kept (δ : ℕ → ℕ) (es : List (Tid × Event)) (s : Pool Tid (Shared Unit) Client) :
    Prop where
  balanced : Balanced δ s.shared (fun b => skipped es b + ∑ t, (s.threads t).refs b)
    fun b => ∑ t, (s.threads t).loose b
  clients : ∀ t, (s.threads t).Ok δ
  alive : s.shared.destroyed = false
  plain : Plain s.shared
  skippedNe : ∀ e ∈ es, ∀ b ∈ e.2.skipped?, b ≠ 0
  noFault : ∀ e ∈ es, e.2 ≠ .fault

theorem Kept.held (h : Kept δ es s) {t : Tid} {b : ℕ} (hb : b ≠ 0)
    (hrefs : 0 < (s.threads t).refs b) : ∃ c, s.shared.blocks b = some c ∧ c.data = δ b := by
  have hle := Finset.single_le_sum (f := fun t => (s.threads t).refs b)
    (fun _ _ => Nat.zero_le _) (Finset.mem_univ t)
  obtain ⟨c, hc⟩ := h.balanced.exists_block hb (Nat.add_pos_right _ (hrefs.trans_le hle))
  exact ⟨c, hc, (h.balanced.data b c hc).1⟩

theorem Op.holder_ok {op : Op} {h : Handle} (hok : op.Ok δ) (hop : op.holder? = some h) :
    h.Ok δ ∧ 0 < op.refs (pointer h.known) := by
  cases op with
  | idle | getFast | destroy | get | unref => cases hop
  | exchange expected new x =>
    obtain ⟨-, hok⟩ := hok
    cases x with
    | compare | getFast | destroy | done => cases hop
    | flushAdd | flushCas | flushSub | swap | destroyOld =>
      cases hop
      refine ⟨hok.1, ?_⟩
      simp only [Op.refs, Exchange.refs, Handle.refs, single_self]
      omega
    | releaseOld =>
      cases hop
      refine ⟨hok, ?_⟩
      simp only [Op.refs, Exchange.refs, Handle.refs, single_self]
      omega

theorem Client.held_ok {l : Client} {h : Handle} (hok : l.Ok δ) (hh : h ∈ l.held) :
    h.Ok δ ∧ 0 < l.refs (pointer h.known) := by
  rcases List.mem_append.mp hh with hh | hh
  · refine ⟨hok.handles h hh, ?_⟩
    have hself : h.refs (pointer h.known) = 1 := if_pos rfl
    have hle := List.le_sum_of_mem
      (List.mem_map_of_mem (f := fun h' => h'.refs (pointer h.known)) hh)
    rw [Client.refs, stock]
    omega
  · obtain ⟨hhandle, hpos⟩ := Op.holder_ok hok.op (Option.mem_toList.mp hh)
    exact ⟨hhandle, Nat.add_pos_right _ hpos⟩

theorem handle_count (handles : List Handle) (b : ℕ) :
    (handles.map fun h => h.refs b).sum = (handles.map fun h => pointer h.known).count b := by
  induction handles with
  | nil => rfl
  | cons h handles ih =>
    rw [List.map_cons, List.sum_cons, List.map_cons, count_cons_single, ih, Handle.refs,
      Nat.add_comm]

theorem Kept.owners_eq (h : Kept δ es s) (hidle : ∀ t, (s.threads t).op.isIdle) {b : ℕ}
    (hb : b ≠ 0) :
    s.shared.owners b (fun b => skipped es b + ∑ t, (s.threads t).refs b) =
      owners s b + skipped es b := by
  have hprevs : s.shared.prevs b = 0 := by
    refine Finset.sum_eq_zero fun n _ => ?_
    cases hn : s.shared.nodes n with
    | none => rfl
    | some node =>
      rw [prevRef, h.plain n node hn]
      exact if_neg (Ne.symm hb)
  have hrefs : ∀ t, (s.threads t).refs b = (s.threads t).shared.count b +
      ((s.threads t).handles.map fun h => pointer h.known).count b := by
    intro t
    have hop : (s.threads t).op.refs b = 0 := by
      have := hidle t
      cases hop : (s.threads t).op with
      | idle => rfl
      | getFast | destroy | get | exchange | unref =>
        rw [hop] at this
        cases this
    rw [Client.refs, hop, stock, handle_count]
    omega
  rw [owners, Shared.owners, Shared.headRef, h.alive, hprevs]
  simp only [hrefs, single, Bool.false_eq_true, if_false]
  omega

theorem Kept.counted_iff (h : Kept δ es s) (hidle : ∀ t, (s.threads t).op.isIdle) {b : ℕ}
    {c : ControlBlock} (hc : s.shared.blocks b = some c) :
    c.refCount + localOf s.shared b = owners s b ↔ skipped es b = 0 := by
  have hcount : localOf s.shared b = s.shared.headCount b := by
    rw [localOf, Shared.headCount, h.alive, single]
    split <;> simp
  have hcounted := h.balanced.counted b c hc
  rw [h.owners_eq hidle (h.balanced.data b c hc).2] at hcounted
  omega

theorem Kept.accounts_iff (h : Kept δ es s) :
    Accounts s ↔ ((∀ t, (s.threads t).op.isIdle) → ∀ e ∈ es, e.2.skipped? = none) := by
  refine ⟨fun hs hidle e he => ?_, fun hnone => ⟨fun t hd hmem => ?_, fun hidle b c hc => ?_,
    fun hidle b hb hdead => ?_⟩⟩
  · by_contra hne
    obtain ⟨b, hb⟩ := Option.ne_none_iff_exists'.mp hne
    have hpos := skipped_pos he hb
    -- the reference that has been skipped keeps the block alive
    obtain ⟨c, hc⟩ := h.balanced.exists_block (h.skippedNe e he b hb) (Nat.add_pos_left hpos _)
    exact hpos.ne' ((h.counted_iff hidle hc).mp (hs.counted hidle b c hc))
  · obtain ⟨hok, hpos⟩ := Client.held_ok (h.clients t) hmem
    obtain ⟨c, hc, hdata⟩ := h.held hok.ne hpos
    exact ⟨c, hc, hdata.trans hok.data.symm⟩
  · exact (h.counted_iff hidle hc).mpr (skipped_eq_zero (hnone hidle) b)
  · have howned := h.balanced.owned b hb
    rw [hdead, h.owners_eq hidle hb] at howned
    simp only [Option.isSome_none, Bool.false_eq_true, false_iff, Nat.not_lt] at howned
    omega

variable [DecidableEq Tid]

theorem kept_start (hδ : ∀ b, δ b = 0 ∨ δ b = b) :
    Kept δ [] ((machine δ Tid).restrict sound).start where
  balanced := (start_balanced hδ).congr
    (fun b => (Nat.zero_add _).trans (Finset.sum_eq_zero fun _ _ => rfl))
    fun b => Finset.sum_eq_zero fun _ _ => rfl
  clients := fun t => ⟨nofun, nofun, trivial⟩
  alive := rfl
  plain := by
    intro n node hn
    by_cases hn1 : n = 1
    · subst hn1
      simp only [machine, Machine.restrict, unlimited, Pool.machine, start,
        Function.update_self] at hn
      split at hn
      · cases hn
      · cases hn
        rfl
    · simp [machine, Machine.restrict, unlimited, Pool.machine, start, hn1] at hn
  skippedNe := nofun
  noFault := nofun

theorem Kept.balanced_rest (h : Kept δ es s) (t : Tid) : Balanced δ s.shared
    (fun b => (skipped es b + Pool.rest Client.refs s.threads t b) + (s.threads t).refs b)
    fun b => Pool.rest Client.loose s.threads t b + (s.threads t).loose b := by
  refine h.balanced.congr (fun b => ?_) fun b => (Pool.sum_eq_rest (i := t) b).symm
  have := Pool.sum_eq_rest (φ := Client.refs) (f := s.threads) (i := t) b
  omega

theorem Kept.rest_loose_le (h : Kept δ es s) (t : Tid) (b : ℕ) :
    Pool.rest Client.loose s.threads t b ≤
      skipped es b + Pool.rest Client.refs s.threads t b :=
  Nat.le_add_left_of_le (Finset.sum_le_sum fun u _ => Client.loose_le_refs (h.clients u) b)

theorem Kept.step (h : Kept δ es s) (hs : ((machine δ Tid).restrict sound).Step s e s') :
    Kept δ (es ++ [e]) s' ∧
      (e.2 ≠ .swapped → pointer s'.shared.packedPtr = pointer s.shared.packedPtr) := by
  obtain ⟨⟨t, c⟩, hsound, hnext⟩ := Machine.restrict_step_iff.mp hs
  obtain ⟨hfits, hnext⟩ := Machine.restrict_next_eq_some hnext
  obtain ⟨g, l, f, hn, rfl, rfl⟩ := Pool.next_eq_some_iff.mp hnext
  have hsafe : Safe δ s.shared (fun b => skipped es b + Pool.rest Client.refs s.threads t b)
      (Pool.rest Client.loose s.threads t) g l f := by
    by_cases hidle : (s.threads t).op.isIdle
    · have hcall : call δ s.shared (s.threads t) c = some (g, l, f) := by
        cases c with
        | step spurious =>
          simp only [next, if_pos hidle] at hn
          cases hn
        | getFast | destroy | get | make | copy | drop | exchange =>
          simpa only [next, if_pos hidle] using hn
      refine call_safe (h.balanced_rest t) (h.clients t) h.alive hidle (fun i hi => ?_) hcall
      subst hi
      exact hsound
    · cases c with
      | step spurious =>
        simp only [next, if_neg hidle] at hn
        obtain ⟨g', l', f', hstep, hsafe⟩ := step_safe (h.balanced_rest t) (h.rest_loose_le t)
          (h.clients t) h.alive (by simpa using hidle) (fun hadd => by
            simp only [fits, hadd, Bool.not_true, Bool.false_or, decide_eq_true_eq] at hfits
            exact hfits) hsound
        rw [hstep] at hn
        cases hn
        exact hsafe
      | getFast | destroy | get | make | copy | drop | exchange =>
        simp only [next, if_neg hidle] at hn
        cases hn
  refine ⟨⟨hsafe.balanced.congr (fun b => ?_) fun b => Pool.sum_update_eq_rest b,
    Pool.forall_update h.clients hsafe.ok fun _ _ hu => hu, hsafe.alive, hsafe.plain h.plain,
    fun e he => ?_, fun e he => ?_⟩, hsafe.pointer⟩
  · have := Pool.sum_update_eq_rest (φ := Client.refs) (f := s.threads) (i := t) (a := l) b
    rw [skipped_snoc]
    dsimp only
    omega
  · rcases List.mem_append.mp he with he | he
    · exact h.skippedNe e he
    · exact List.mem_singleton.mp he ▸ hsafe.skipped
  · rcases List.mem_append.mp he with he | he
    · exact h.noFault e he
    · exact List.mem_singleton.mp he ▸ hsafe.noFault

theorem kept_of_run (hδ : ∀ b, δ b = 0 ∨ δ b = b)
    (h : ((machine δ Tid).restrict sound).Run es s) : Kept δ es s :=
  h.invariant (kept_start hδ) fun _ _ _ _ _ hi hs => (hi.step hs).1

end
end LockFree.SharedPtrClients
