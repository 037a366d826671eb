import LockFree.ReferenceLedger

/-!
# The steps of AtomicSharedPtr keep the ledger

What a step of a call does to the references that the call holds; `o` and `ol` are what is
held, and held loosely, elsewhere. A step that is not a swap moves neither the pointer of
`head_` nor anything in the nodes, unless it deletes them.
-/

namespace LockFree.AtomicSharedPtr

structure Keeps {T : Type*} (g g' : Shared T) : Prop where
  pointer : pointer g'.packedPtr = pointer g.packedPtr
  destroyed : g'.destroyed = g.destroyed
  created : g'.created = g.created
  nodes : ∀ n, g'.nodes n = none ∨ g'.nodes n = g.nodes n
  blocks : ∀ b, g.blocks b = none → g'.blocks b = none

structure Handle.Ok (δ : ℕ → ℕ) (h : Handle) : Prop where
  ne : pointer h.known ≠ 0
  data : h.data = δ (pointer h.known)
  count : h.foreign = true → localCount h.known ≠ 0

def Handle.refs (h : Handle) (b : ℕ) : ℕ := single (pointer h.known) b

def Handle.loose (h : Handle) (b : ℕ) : ℕ :=
  if h.foreign then single (pointer h.known) b else 0

namespace Fast

def refs (x : Fast) (b : ℕ) : ℕ :=
  match x with
  | .addLocal => 0
  | .readData known | .migrateAdd known _ _ => single (pointer known) b
  | .migrateCas known _ block => single block b + localCount known * single block b
  | .migrateSub _ _ block diff => single block b + diff * single block b
  | .done h => h.refs b

def loose (x : Fast) (b : ℕ) : ℕ :=
  match x with
  | .addLocal => 0
  | .readData known | .migrateAdd known _ _ | .migrateCas known _ _ | .migrateSub known _ _ _ =>
    single (pointer known) b
  | .done h => h.loose b

def Ok (δ : ℕ → ℕ) : Fast → Prop
  | .addLocal => True
  | .readData known => pointer known ≠ 0 ∧ localCount known ≠ 0
  | .migrateAdd known data block | .migrateCas known data block | .migrateSub known data block _ =>
    block = pointer known ∧ block ≠ 0 ∧ data = δ block ∧ localCount known ≠ 0
  | .done h => h.Ok δ

end Fast

namespace Destroy

def refs (h : Handle) (x : Destroy) (b : ℕ) : ℕ :=
  match x with
  | .cas _ | .refSub => h.refs b
  | .releasing queue => queue.count b
  | .done => 0

def loose (h : Handle) (x : Destroy) (b : ℕ) : ℕ :=
  match x with
  | .cas _ => single (pointer h.known) b
  | _ => 0

def Ok (δ : ℕ → ℕ) (h : Handle) : Destroy → Prop
  | .cas expected => h.Ok δ ∧ pointer expected = pointer h.known ∧ localCount expected ≠ 0
  | .refSub => h.Ok δ
  | .releasing _ | .done => True

end Destroy

namespace Get

def refs (x : Get) (b : ℕ) : ℕ :=
  match x with
  | .addLocal => 0
  | .refAdd copy => single (pointer copy) b
  | .cas copy _ | .refSub copy => single (pointer copy) b + 1 * single (pointer copy) b
  | .done block => single block b

def loose (x : Get) (b : ℕ) : ℕ :=
  match x with
  | .refAdd copy | .cas copy _ => single (pointer copy) b
  | _ => 0

def Ok : Get → Prop
  | .addLocal => True
  | .refAdd copy => pointer copy ≠ 0 ∧ localCount copy < 65535
  | .cas copy expected =>
    pointer copy ≠ 0 ∧ pointer expected = pointer copy ∧ localCount expected ≠ 0
  | .refSub copy => pointer copy ≠ 0
  | .done block => block ≠ 0

end Get

namespace Exchange

def refs (new : ℕ) (x : Exchange) (b : ℕ) : ℕ :=
  match x with
  | .compare => single new b
  | .getFast x => single new b + x.refs b
  | .flushAdd holder _ | .swap holder _ => single new b + holder.refs b
  | .flushCas holder expected =>
    single new b + holder.refs b + localCount expected * single (pointer holder.known) b
  | .flushSub holder _ diff =>
    single new b + holder.refs b + diff * single (pointer holder.known) b
  | .destroyOld holder expected => single (pointer expected) b + holder.refs b
  | .releaseOld holder queue => queue.count b + holder.refs b
  | .destroy moved holder x => (if moved then 0 else single new b) + x.refs holder b
  | .done _ moved => if moved then 0 else single new b

def loose (x : Exchange) (b : ℕ) : ℕ :=
  match x with
  | .compare | .done _ _ => 0
  | .getFast x => x.loose b
  | .flushAdd holder _ | .flushCas holder _ | .flushSub holder _ _ | .swap holder _
  | .destroyOld holder _ | .releaseOld holder _ => holder.loose b
  | .destroy _ holder x => x.loose holder b

def skipped (x : Exchange) : List ℕ :=
  match x with
  | .destroy _ holder .done => [pointer holder.known]
  | _ => []

def Ok (δ : ℕ → ℕ) (expected new : ℕ) : Exchange → Prop
  | .compare => True
  | .getFast x => x.Ok δ ∧ δ new ≠ expected
  | .flushAdd holder packed | .flushCas holder packed =>
    holder.Ok δ ∧ δ new ≠ expected ∧ holder.data = expected ∧
      pointer packed = pointer holder.known ∧ localCount packed ≠ 0
  | .flushSub holder _ _ => holder.Ok δ ∧ δ new ≠ expected ∧ holder.data = expected
  | .swap holder packed =>
    holder.Ok δ ∧ δ new ≠ expected ∧ holder.data = expected ∧
      pointer packed = pointer holder.known ∧ localCount packed = 0
  | .destroyOld holder packed => holder.Ok δ ∧ pointer packed = pointer holder.known
  | .releaseOld holder _ => holder.Ok δ
  | .destroy _ holder x => pointer holder.known ≠ 0 ∧ x.Ok δ holder
  | .done result moved => moved = result ∨ δ new = expected

end Exchange

section
variable {T : Type*} {δ : ℕ → ℕ} {g g' : Shared T} {R R' L L' o ol : ℕ → ℕ} {b d : ℕ}

theorem Keeps.refl (g : Shared T) : Keeps g g := ⟨rfl, rfl, rfl, fun _ => .inr rfl, fun _ => id⟩

theorem Keeps.setPacked {w : ℕ}
    (h : AtomicSharedPtr.pointer w = AtomicSharedPtr.pointer g.packedPtr) :
    Keeps g { g with packedPtr := w } :=
  ⟨h, rfl, rfl, fun _ => .inr rfl, fun _ => id⟩

theorem Keeps.setRefCount {c : ControlBlock} {n : ℕ} (hc : g.blocks b = some c) :
    Keeps g (g.setRefCount b c n) := by
  refine ⟨rfl, rfl, rfl, fun _ => .inr rfl, fun x hx => ?_⟩
  have hxb : x ≠ b := by
    rintro rfl
    rw [hc] at hx
    cases hx
  exact (Function.update_of_ne hxb _ _).trans hx

theorem Keeps.fetchAdd {n : ℕ} (h : AtomicSharedPtr.fetchAdd g b d = some (n, g')) :
    Keeps g g' := by
  rw [AtomicSharedPtr.fetchAdd] at h
  split at h
  · cases h
  · rename_i hc
    cases h
    exact .setRefCount hc

theorem Keeps.fetchSub {n : ℕ} (h : AtomicSharedPtr.fetchSub g b d = some (n, g')) :
    Keeps g g' := by
  rw [AtomicSharedPtr.fetchSub] at h
  split at h
  · cases h
  · rename_i hc
    split at h
    · cases h
    · cases h
      exact .setRefCount hc

theorem Keeps.delete {queue : List ℕ} (h : AtomicSharedPtr.delete g b d = some (g', queue)) :
    Keeps g g' := by
  have hblocks : ∀ x, g.blocks x = none → Function.update g.blocks b none x = none := by
    intro x hx
    by_cases hxb : x = b
    · subst hxb
      exact Function.update_self ..
    · exact (Function.update_of_ne hxb _ _).trans hx
  rw [AtomicSharedPtr.delete] at h
  split at h
  · cases h
    exact ⟨rfl, rfl, rfl, fun _ => .inr rfl, hblocks⟩
  · split at h
    · cases h
    · cases h
      refine ⟨rfl, rfl, rfl, fun n => ?_, hblocks⟩
      by_cases hn : n = d
      · subst hn
        exact .inl (Function.update_self ..)
      · exact .inr (Function.update_of_ne hn _ _)

theorem Keeps.dropRef {data : ControlBlock → ℕ} {queue : List ℕ}
    (h : AtomicSharedPtr.dropRef g b data = some (g', queue)) : Keeps g g' := by
  rw [AtomicSharedPtr.dropRef] at h
  split at h
  · cases h
  · rename_i hc
    split at h
    · cases h
    · split at h
      · exact .delete h
      · cases h
        exact .setRefCount hc

theorem Balanced.congr (h : Balanced δ g R L) (hR : ∀ b, R' b = R b) (hL : ∀ b, L' b = L b) :
    Balanced δ g R' L' := by
  obtain rfl : R' = R := funext hR
  obtain rfl : L' = L := funext hL
  exact h

theorem Balanced.congr_ne (h : Balanced δ g R L) (hR : ∀ b, b ≠ 0 → R' b = R b)
    (hloose : L 0 ≤ R' 0) : Balanced δ g R' L := by
  refine ⟨h.value, fun b c hc => ?_, fun b hb => ?_, fun b => ?_, h.head, h.data, h.node, h.fresh,
    h.pointer_ne⟩
  · rw [Shared.owners, hR b (h.data b c hc).2]
    exact h.counted b c hc
  · rw [Shared.owners, hR b hb]
    exact h.owned b hb
  · by_cases hb : b = 0
    · exact hb ▸ hloose
    · rw [hR b hb]
      exact h.loose b

theorem Balanced.dropRef_keeps (h : Balanced δ g R L) (data : ControlBlock → ℕ) (hb : b ≠ 0)
    (hLb : L b < R b) (hdata : ∀ c, g.blocks b = some c → data c = δ b) :
    ∃ g' queue, AtomicSharedPtr.dropRef g b data = some (g', queue) ∧ Keeps g g' ∧
      ∀ R', (∀ x, R' x + single b x = R x + queue.count x) → Balanced δ g' R' L := by
  obtain ⟨g', queue, hstep, hbalanced⟩ := h.dropRef hb hLb hdata
  exact ⟨g', queue, hstep, .dropRef hstep, hbalanced⟩

theorem Balanced.release {queue : List ℕ}
    (h : Balanced δ g (fun x => o x + (b :: queue).count x) ol) (hol : ∀ x, ol x ≤ o x) :
    ∃ g' queue', AtomicSharedPtr.release g b queue = some (g', queue') ∧ Keeps g g' ∧
      Balanced δ g' (fun x => o x + queue'.count x) ol := by
  by_cases hb : b = 0
  · refine ⟨g, queue, if_pos hb, .refl g, h.congr_ne (fun x hx => ?_) ?_⟩
    · rw [List.count_cons_of_ne (by rw [hb]; exact Ne.symm hx)]
    · exact Nat.le_add_right_of_le (hol 0)
  · have hself : (b :: queue).count b = queue.count b + 1 := List.count_cons_self
    obtain ⟨g', pushed, hdrop, hkeeps, hbalanced⟩ := h.dropRef_keeps (b := b)
      ControlBlock.data hb (Nat.lt_of_le_of_lt (hol b) (by rw [hself]; omega)) fun c hc =>
        (h.data b c hc).1
    refine ⟨g', pushed ++ queue, ?_, hkeeps, hbalanced _ fun x => ?_⟩
    · simp only [AtomicSharedPtr.release, if_neg hb, hdrop]
    · rw [List.count_append, List.count_cons, single]
      simp only [beq_iff_eq]
      omega

theorem Handle.loose_le_refs (h : Handle) (b : ℕ) : h.loose b ≤ h.refs b := by
  rw [Handle.loose, Handle.refs]
  split
  · exact le_rfl
  · exact Nat.zero_le _

theorem Fast.loose_le_refs {x : Fast} (hok : x.Ok δ) (b : ℕ) : x.loose b ≤ x.refs b := by
  cases x with
  | addLocal => exact le_rfl
  | readData known | migrateAdd known data block => exact le_rfl
  | migrateCas known data block | migrateSub known data block diff =>
    obtain ⟨rfl, -⟩ := hok
    exact Nat.le_add_right _ _
  | done h => exact h.loose_le_refs b

theorem Destroy.loose_le_refs (h : Handle) (x : Destroy) (b : ℕ) : x.loose h b ≤ x.refs h b := by
  cases x with
  | cas expected => exact le_rfl
  | refSub | releasing | done => exact Nat.zero_le _

theorem Get.loose_le_refs (x : Get) (b : ℕ) : x.loose b ≤ x.refs b := by
  cases x with
  | refAdd copy => exact le_rfl
  | cas copy expected => exact Nat.le_add_right _ _
  | addLocal | refSub | done => exact Nat.zero_le _

theorem Exchange.loose_le_refs {x : Exchange} {expected new : ℕ} (hok : x.Ok δ expected new)
    (b : ℕ) : x.loose b ≤ x.refs new b := by
  cases x with
  | compare | done => exact Nat.zero_le _
  | getFast x => exact Nat.le_add_left_of_le (Fast.loose_le_refs hok.1 b)
  | flushAdd hd packed | swap hd packed | destroyOld hd packed | releaseOld hd queue =>
    exact Nat.le_add_left_of_le (hd.loose_le_refs b)
  | flushCas hd packed | flushSub hd packed diff =>
    exact Nat.le_add_right_of_le (Nat.le_add_left_of_le (hd.loose_le_refs b))
  | destroy moved hd x => exact Nat.le_add_left_of_le (Destroy.loose_le_refs hd x b)

theorem Fast.check_refs {known data block : ℕ} (b : ℕ) :
    (Fast.check known data block).refs b = single (pointer known) b := by
  rw [check]
  split <;> rfl

theorem Fast.check_loose {known data block : ℕ} (b : ℕ) :
    (Fast.check known data block).loose b = single (pointer known) b := by
  rw [check]
  split <;> rfl

theorem Fast.check_ok {known data block : ℕ} (hblock : block = pointer known) (hne : block ≠ 0)
    (hdata : data = δ block) (hcount : localCount known ≠ 0) :
    (Fast.check known data block).Ok δ := by
  rw [check]
  split
  · exact ⟨hblock, hne, hdata, hcount⟩
  · exact ⟨hblock ▸ hne, hblock ▸ hdata, fun _ => hcount⟩

/-- A step of `getFast`, as long as the local count does not overflow and a migration that fails
loads a word of the same block, with references in it. -/
theorem Fast.step_keeps {x : Fast}
    (h : Balanced δ g (fun b => o b + x.refs b) (fun b => ol b + x.loose b))
    (hol : ∀ b, ol b ≤ o b) (hok : x.Ok δ) (halive : g.destroyed = false)
    (hadd : x = .addLocal → localCount g.packedPtr < 65535)
    (hcas : ∀ known data block, x = .migrateCas known data block → g.packedPtr ≠ known →
      pointer g.packedPtr = pointer known ∧ localCount g.packedPtr ≠ 0) :
    ∃ g' x', x.step g = some (g', x') ∧ x'.Ok δ ∧ Keeps g g' ∧
      Balanced δ g' (fun b => o b + x'.refs b) (fun b => ol b + x'.loose b) := by
  cases x with
  | addLocal =>
    obtain ⟨hptr, hcount⟩ := packed_succ (hadd rfl)
    have hne : pointer (g.packedPtr + 1) ≠ 0 := by
      rw [hptr]
      exact h.pointer_ne halive
    refine ⟨_, _, rfl, ⟨hne, by omega⟩, .setPacked hptr, ?_⟩
    refine h.addLocal halive (hadd rfl) (fun b => ?_) fun b => ?_
    · simp only [refs, hptr, Nat.add_zero]
    · simp only [loose, hptr, Nat.add_zero]
  | readData known =>
    obtain ⟨hne, hcount⟩ := hok
    obtain ⟨c, hc⟩ := h.exists_block hne (by simp [refs, single])
    refine ⟨g, .check known c.data (pointer known), by simp only [step, hc],
      check_ok rfl hne (h.data _ c hc).1 hcount, .refl g, ?_⟩
    refine h.congr (fun b => ?_) fun b => ?_
    · rw [check_refs, refs]
    · rw [check_loose, loose]
  | migrateAdd known data block =>
    obtain ⟨rfl, hne, hdata, hcount⟩ := hok
    have hlive : 0 < g.owners (pointer known) fun b =>
        o b + refs (.migrateAdd known data (pointer known)) b := by
      simp [Shared.owners, refs, single]
    obtain ⟨before, -, c, hadd, hbalanced⟩ := h.fetchAdd (fun b => o b +
      refs (.migrateCas known data (pointer known)) b) hne hlive (fun b => by
        simp only [refs, Nat.add_assoc]) (Nat.pos_of_ne_zero hcount)
    refine ⟨_, .migrateCas known data (pointer known), by simp only [step, hadd],
      ⟨rfl, hne, hdata, hcount⟩, .fetchAdd hadd, hbalanced⟩
  | migrateCas known data block =>
    obtain ⟨rfl, hne, hdata, hcount⟩ := hok
    by_cases heq : g.packedPtr = known
    · subst heq
      obtain ⟨hptr, -⟩ := packed_clear g.packedPtr
      refine ⟨_, _, if_pos rfl, ⟨hne, hdata, fun hl => absurd hl Bool.false_ne_true⟩, .setPacked hptr,
        h.flush halive (fun b => ?_) fun b => ?_⟩
      · simp only [refs, Handle.refs, Nat.add_assoc]
      · exact Nat.le_add_right_of_le (hol b)
    · obtain ⟨hptr, hloaded⟩ := hcas known data _ rfl heq
      refine ⟨g, _, if_neg heq, ⟨hptr.symm, hne, hdata, hloaded⟩, .refl g,
        h.congr (fun b => rfl) fun b => ?_⟩
      simp only [loose, hptr]
  | migrateSub known data block diff =>
    obtain ⟨rfl, hne, hdata, hcount⟩ := hok
    obtain ⟨before, c, hsub, hbalanced⟩ := h.fetchSub (d := diff)
      (fun b => o b + single (pointer known) b) hne (fun b => by
        simp only [refs, Nat.add_assoc]) (by simp [single]) fun b => by
        exact Nat.add_le_add_right (hol b) _
    refine ⟨_, .check known data (pointer known), by simp only [step, hsub],
      check_ok rfl hne hdata hcount, .fetchSub hsub, hbalanced.congr (fun b => ?_) fun b => ?_⟩
    · rw [check_refs]
    · rw [check_loose, loose]
  | done h' => exact ⟨g, _, rfl, hok, .refl g, h⟩

theorem Destroy.start_refs {h : Handle} (hforeign : h.foreign = true) (b : ℕ) :
    (Destroy.start h).refs h b = h.refs b ∧ (Destroy.start h).loose h b = h.loose b := by
  rw [start, if_pos hforeign]
  exact ⟨rfl, by rw [loose, Handle.loose, if_pos hforeign]⟩

theorem Exchange.start_refs (moved : Bool) (new : ℕ) (hd : Handle) (b : ℕ) :
    (Exchange.destroy moved hd (.start hd)).refs new b +
        (Exchange.destroy moved hd (.start hd)).skipped.count b =
      (if moved then 0 else single new b) + hd.refs b ∧
    (Exchange.destroy moved hd (.start hd)).loose b = hd.loose b := by
  rw [Destroy.start]
  split
  · rename_i hforeign
    exact ⟨rfl, by rw [loose, Destroy.loose, Handle.loose, if_pos hforeign]⟩
  · rename_i hforeign
    refine ⟨?_, by simp only [loose, Destroy.loose, Handle.loose, if_neg hforeign]⟩
    rw [refs, Destroy.refs, skipped, count_cons_single, List.count_nil, Handle.refs]
    omega

theorem Destroy.start_ok {h : Handle} (hok : h.Ok δ) : (Destroy.start h).Ok δ h := by
  rw [start]
  split
  · rename_i hforeign
    exact ⟨hok, rfl, hok.count hforeign⟩
  · trivial

theorem Destroy.step_keeps (spurious : Bool) {x : Destroy} {hd : Handle}
    (h : Balanced δ g (fun b => o b + x.refs hd b) (fun b => ol b + x.loose hd b))
    (hol : ∀ b, ol b ≤ o b) (hok : x.Ok δ hd) (halive : g.destroyed = false) :
    ∃ g' x', x.step g hd spurious = some (g', x') ∧ x'.Ok δ hd ∧ Keeps g g' ∧
      Balanced δ g' (fun b => o b + x'.refs hd b) (fun b => ol b + x'.loose hd b) := by
  cases x with
  | cas expected =>
    obtain ⟨hhandle, hptr, hcount⟩ := hok
    by_cases hswap : g.packedPtr = expected ∧ ¬ spurious
    · obtain ⟨rfl, hspurious⟩ := hswap
      refine ⟨_, _, if_pos ⟨rfl, hspurious⟩, trivial, .setPacked (packed_pred hcount).1,
        h.subLocal halive hcount (fun b => ?_) fun b => ?_⟩
      · simp only [refs, Handle.refs, hptr, Nat.add_zero]
      · simp only [loose, hptr, Nat.add_zero]
    · by_cases hgone : pointer g.packedPtr ≠ pointer hd.known ∨ localCount g.packedPtr = 0
      · refine ⟨g, .refSub, ?_, hhandle, .refl g, h.decide hgone fun b => ?_⟩
        · rw [step, if_neg hswap, if_pos hgone]
        · simp only [loose, Nat.add_zero]
      · refine ⟨g, .cas g.packedPtr, ?_, ⟨hhandle, ?_⟩, .refl g, h⟩
        · rw [step, if_neg hswap, if_neg hgone]
        · simp only [not_or, not_not] at hgone
          exact hgone
  | refSub =>
    obtain ⟨g', queue, hdrop, hkeeps, hbalanced⟩ := h.dropRef_keeps
      (fun _ => hd.data) hok.ne (by
        simp only [refs, loose, Handle.refs, single_self]
        exact Nat.lt_succ_of_le (hol _)) fun _ _ => hok.data
    refine ⟨g', .releasing queue, by simp only [step, hdrop], trivial, hkeeps,
      hbalanced _ fun b => ?_⟩
    simp only [refs, Handle.refs]
    omega
  | releasing queue =>
    cases queue with
    | nil => exact ⟨g, .done, rfl, trivial, .refl g, h⟩
    | cons block queue =>
      obtain ⟨g', queue', hrelease, hkeeps, hbalanced⟩ := h.release hol
      exact ⟨g', .releasing queue', by simp only [step, hrelease], trivial, hkeeps, hbalanced⟩
  | done => exact ⟨g, .done, rfl, trivial, .refl g, h⟩

theorem Get.step_keeps (spurious : Bool) {x : Get}
    (h : Balanced δ g (fun b => o b + x.refs b) (fun b => ol b + x.loose b))
    (hol : ∀ b, ol b ≤ o b) (hok : x.Ok) (halive : g.destroyed = false)
    (hadd : x = .addLocal → localCount g.packedPtr < 65535) :
    ∃ g' x', x.step g spurious = some (g', x') ∧ x'.Ok ∧ Keeps g g' ∧
      Balanced δ g' (fun b => o b + x'.refs b) (fun b => ol b + x'.loose b) := by
  cases x with
  | addLocal =>
    have hptr := (packed_succ (hadd rfl)).1
    refine ⟨_, _, rfl, ⟨h.pointer_ne halive, hadd rfl⟩, .setPacked hptr,
      h.addLocal halive (hadd rfl) (fun b => ?_) fun b => ?_⟩
    · simp only [refs, Nat.add_zero]
    · simp only [loose, Nat.add_zero]
  | refAdd copy =>
    obtain ⟨hne, hlt⟩ := hok
    obtain ⟨hptr, hcount⟩ := packed_succ hlt
    have hlive : 0 < g.owners (pointer copy) fun b => o b + refs (.refAdd copy) b := by
      simp [Shared.owners, refs, single]
    obtain ⟨before, hbefore, c, hfetch, hbalanced⟩ := h.fetchAdd (d := 1) (fun b => o b +
      refs (.cas copy (copy + 1)) b) hne hlive (fun b => by
        simp only [refs, Nat.add_assoc]) Nat.one_pos
    refine ⟨_, .cas copy (copy + 1), ?_, ⟨hne, hptr, by omega⟩, .fetchAdd hfetch, hbalanced⟩
    simp only [step, hfetch, if_neg hbefore]
  | cas copy expected =>
    obtain ⟨hne, hptr, hcount⟩ := hok
    by_cases hswap : g.packedPtr = expected ∧ ¬ spurious
    · obtain ⟨rfl, hspurious⟩ := hswap
      refine ⟨{ g with packedPtr := g.packedPtr - 1 }, .done (pointer copy), ?_, hne,
        .setPacked (packed_pred hcount).1, h.subLocal halive hcount (fun b => ?_) fun b => ?_⟩
      · rw [step, if_neg hcount, if_pos ⟨rfl, hspurious⟩]
      · simp only [refs, hptr]
        omega
      · simp only [loose, hptr, Nat.add_zero]
    · by_cases hgone : pointer g.packedPtr ≠ pointer copy ∨ localCount g.packedPtr = 0
      · refine ⟨g, .refSub copy, ?_, hne, .refl g, h.decide hgone fun b => ?_⟩
        · rw [step, if_neg hcount, if_neg hswap, if_pos hgone]
        · simp only [loose, Nat.add_zero]
      · refine ⟨g, .cas copy g.packedPtr, ?_, ⟨hne, ?_⟩, .refl g, h⟩
        · rw [step, if_neg hcount, if_neg hswap, if_neg hgone]
        · simp only [not_or, not_not] at hgone
          exact hgone
  | refSub copy =>
    obtain ⟨before, c, hsub, hbalanced⟩ := h.fetchSub (d := 1)
      (fun b => o b + single (pointer copy) b) hok (fun b => by
        simp only [refs, Nat.add_assoc]) (by simp [single]) fun b => by
        simp only [loose, Nat.add_zero]
        exact Nat.le_add_right_of_le (hol b)
    exact ⟨_, .done (pointer copy), by simp only [step, hsub], hok, .fetchSub hsub, hbalanced⟩
  | done block => exact ⟨g, _, rfl, hok, .refl g, h⟩

theorem Exchange.loop_keeps (packed : ℕ) {new expected : ℕ} {hd : Handle} (hok : hd.Ok δ)
    (hnew : δ new ≠ expected) (hdata : hd.data = expected) :
    (loop hd packed).Ok δ expected new ∧ (∀ h e, loop hd packed ≠ .destroyOld h e) ∧
      ∀ b, (loop hd packed).refs new b + (loop hd packed).skipped.count b =
          single new b + hd.refs b ∧
        (loop hd packed).loose b = hd.loose b := by
  rw [loop]
  split
  · exact ⟨⟨hok.ne, Destroy.start_ok hok⟩, nofun, start_refs false new hd⟩
  · rename_i heq
    have hptr : pointer packed = pointer hd.known := (not_not.mp heq).symm
    split
    · rename_i hcount
      exact ⟨⟨hok, hnew, hdata, hptr, hcount⟩, nofun, fun b => ⟨rfl, rfl⟩⟩
    · rename_i hcount
      exact ⟨⟨hok, hnew, hdata, hptr, not_not.mp hcount⟩, nofun, fun b => ⟨rfl, rfl⟩⟩

theorem Exchange.hold_keeps {new expected : ℕ} {hd : Handle} (hok : hd.Ok δ)
    (hnew : δ new ≠ expected) :
    (hold expected hd).Ok δ expected new ∧ (∀ h e, hold expected hd ≠ .destroyOld h e) ∧
      ∀ b, (hold expected hd).refs new b + (hold expected hd).skipped.count b =
          single new b + hd.refs b ∧
        (hold expected hd).loose b = hd.loose b := by
  rw [hold]
  split
  · rename_i hdata
    exact loop_keeps _ hok hnew hdata
  · exact ⟨⟨hok.ne, Destroy.start_ok hok⟩, nofun, start_refs false new hd⟩

def Exchange.Effect (g g' : Shared T) (new : ℕ) (x x' : Exchange) : Prop :=
  ((∀ h e, x' ≠ .destroyOld h e) ∧ Keeps g g') ∨
    ∃ hd, x = .swap hd g.packedPtr ∧ x' = .destroyOld hd g.packedPtr ∧
      pointer g.packedPtr = pointer hd.known ∧ g' = { g with packedPtr := pack new }

def Exchange.Keeping (δ : ℕ → ℕ) (g : Shared T) (o ol : ℕ → ℕ) (expected new : ℕ) (spurious : Bool)
    (x : Exchange) : Prop :=
  ∃ g' x', x.step g expected new spurious = some (g', x') ∧ x'.Ok δ expected new ∧
    Effect g g' new x x' ∧
    Balanced δ g' (fun b => o b + (x'.refs new b + x'.skipped.count b))
      (fun b => ol b + x'.loose b)

section
variable {expected new : ℕ} {spurious : Bool} {hd : Handle} {packed : ℕ}

theorem Exchange.getFast_keeps {y : Fast}
    (h : Balanced δ g (fun b => o b + refs new (.getFast y) b) fun b => ol b + loose (.getFast y) b)
    (hol : ∀ b, ol b ≤ o b) (hok : Exchange.Ok δ expected new (.getFast y))
    (halive : g.destroyed = false) (hadd : y = .addLocal → localCount g.packedPtr < 65535)
    (hcas : ∀ known data block, y = .migrateCas known data block → g.packedPtr ≠ known →
      pointer g.packedPtr = pointer known ∧ localCount g.packedPtr ≠ 0) :
    Keeping δ g o ol expected new spurious (.getFast y) := by
  obtain ⟨hy, hnew⟩ := hok
  obtain ⟨g', y', hstep, hy', hkeeps, hbalanced⟩ := Fast.step_keeps
    (o := fun b => o b + single new b)
    (h.congr (fun b => by simp only [refs, Nat.add_assoc]) fun b => rfl)
    (fun b => Nat.le_add_right_of_le (hol b)) hy halive hadd hcas
  by_cases hdone : ∃ hd, y' = .done hd
  · obtain ⟨hd, rfl⟩ := hdone
    have hresult : step g expected new spurious (.getFast y) = some (g', .hold expected hd) := by
      simp only [step, hstep]
    obtain ⟨hok', hnot, hrefs⟩ := hold_keeps hy' hnew
    refine ⟨g', _, hresult, hok', .inl ⟨hnot, hkeeps⟩, hbalanced.congr (fun b => ?_) fun b => ?_⟩
    · rw [(hrefs b).1, Nat.add_assoc]
      rfl
    · rw [(hrefs b).2]
      rfl
  · refine ⟨g', .getFast y', ?_, ⟨hy', hnew⟩, .inl ⟨by simp, hkeeps⟩,
      hbalanced.congr (fun b => ?_) fun b => rfl⟩
    · cases y' with
      | done hd => exact absurd ⟨hd, rfl⟩ hdone
      | addLocal | readData | migrateAdd | migrateCas | migrateSub => simp only [step, hstep]
    · simp only [refs, skipped, List.count_nil, Nat.add_zero, Nat.add_assoc]

theorem Exchange.flushAdd_keeps
    (h : Balanced δ g (fun b => o b + refs new (.flushAdd hd packed) b)
      fun b => ol b + loose (.flushAdd hd packed) b)
    (hok : Exchange.Ok δ expected new (.flushAdd hd packed)) :
    Keeping δ g o ol expected new spurious (.flushAdd hd packed) := by
  obtain ⟨hhd, hnew, hdata, hptr, hcount⟩ := hok
  have hlive : 0 < g.owners (pointer hd.known) fun b =>
      o b + refs new (.flushAdd hd packed) b := by
    simp [Shared.owners, refs, Handle.refs, single]
  obtain ⟨before, -, c, hfetch, hbalanced⟩ := h.fetchAdd (d := localCount packed)
    (fun b => o b + refs new (.flushCas hd packed) b) hhd.ne hlive (fun b => by
      simp only [refs, Nat.add_assoc]) (Nat.pos_of_ne_zero hcount)
  exact ⟨_, .flushCas hd packed, by simp only [step, hfetch], ⟨hhd, hnew, hdata, hptr, hcount⟩,
    .inl ⟨by simp, .fetchAdd hfetch⟩, hbalanced⟩

theorem Exchange.flushCas_keeps
    (h : Balanced δ g (fun b => o b + refs new (.flushCas hd packed) b)
      fun b => ol b + loose (.flushCas hd packed) b)
    (hol : ∀ b, ol b ≤ o b) (hok : Exchange.Ok δ expected new (.flushCas hd packed))
    (halive : g.destroyed = false) :
    Keeping δ g o ol expected new spurious (.flushCas hd packed) := by
  obtain ⟨hhd, hnew, hdata, hptr, hcount⟩ := hok
  by_cases hswap : g.packedPtr = packed ∧ ¬ spurious
  · obtain ⟨rfl, hspurious⟩ := hswap
    obtain ⟨hok', hnot, hrefs⟩ := loop_keeps g.packedPtr hhd hnew hdata
    refine ⟨_, _, if_pos ⟨rfl, hspurious⟩, hok', .inl ⟨hnot, .setPacked (packed_clear _).1⟩,
      h.flush halive (fun b => ?_) fun b => ?_⟩
    · rw [(hrefs b).1]
      simp only [refs, hptr, Nat.add_assoc]
    · rw [(hrefs b).1, (hrefs b).2, Handle.loose, Handle.refs]
      have := hol b
      split <;> omega
  · refine ⟨g, _, if_neg hswap, ⟨hhd, hnew, hdata⟩, .inl ⟨by simp, .refl g⟩, h⟩

theorem Exchange.flushSub_keeps {diff : ℕ}
    (h : Balanced δ g (fun b => o b + refs new (.flushSub hd packed diff) b)
      fun b => ol b + loose (.flushSub hd packed diff) b)
    (hol : ∀ b, ol b ≤ o b) (hok : Exchange.Ok δ expected new (.flushSub hd packed diff)) :
    Keeping δ g o ol expected new spurious (.flushSub hd packed diff) := by
  obtain ⟨hhd, hnew, hdata⟩ := hok
  have hloose : ∀ b, ol b + hd.loose b ≤ o b + (single new b + hd.refs b) := by
    intro b
    have := hol b
    rw [Handle.loose, Handle.refs]
    split <;> omega
  obtain ⟨before, c, hsub, hbalanced⟩ := h.fetchSub (d := diff)
    (fun b => o b + (single new b + hd.refs b)) hhd.ne (fun b => by
      simp only [refs, Nat.add_assoc]) (by simp [Handle.refs, single]) hloose
  have hresult : step g expected new spurious (.flushSub hd packed diff) =
      some (g.setRefCount (pointer hd.known) c (c.refCount - diff), .loop hd packed) := by
    simp only [step, hsub]
  obtain ⟨hok', hnot, hrefs⟩ := loop_keeps packed hhd hnew hdata
  exact ⟨_, _, hresult, hok', .inl ⟨hnot, .fetchSub hsub⟩,
    hbalanced.congr (fun b => by rw [(hrefs b).1]) fun b => by rw [(hrefs b).2]; rfl⟩

theorem Exchange.swap_keeps
    (h : Balanced δ g (fun b => o b + refs new (.swap hd packed) b)
      fun b => ol b + loose (.swap hd packed) b)
    (hol : ∀ b, ol b ≤ o b) (hok : Exchange.Ok δ expected new (.swap hd packed)) (hne : new ≠ 0)
    (halive : g.destroyed = false) :
    Keeping δ g o ol expected new spurious (.swap hd packed) := by
  obtain ⟨hhd, hnew, hdata, hptr, hcount⟩ := hok
  have hother : pointer packed ≠ new := by
    rintro rfl
    rw [hptr, ← hhd.data, hdata] at hnew
    exact hnew rfl
  by_cases hswap : g.packedPtr = packed ∧ ¬ spurious
  · obtain ⟨rfl, hspurious⟩ := hswap
    refine ⟨_, .destroyOld hd g.packedPtr, ?_, ⟨hhd, hptr⟩, .inr ⟨hd, rfl, rfl, hptr, rfl⟩,
      h.swap halive hcount hne (fun b => ?_) fun b => ?_⟩
    · rw [step, if_neg hother, if_pos ⟨rfl, hspurious⟩]
    · simp only [refs, skipped, List.count_nil]
      omega
    · simp only [refs, skipped, loose, Handle.loose, Handle.refs, List.count_nil]
      have := hol b
      split <;> omega
  · have hresult : step g expected new spurious (.swap hd packed) =
        some (g, .loop hd g.packedPtr) := by
      rw [step, if_neg hother, if_neg hswap]
    obtain ⟨hok', hnot, hrefs⟩ := loop_keeps g.packedPtr hhd hnew hdata
    exact ⟨g, _, hresult, hok', .inl ⟨hnot, .refl g⟩,
      h.congr (fun b => by rw [(hrefs b).1]; rfl) fun b => by rw [(hrefs b).2]; rfl⟩

theorem Exchange.destroyOld_keeps
    (h : Balanced δ g (fun b => o b + refs new (.destroyOld hd packed) b)
      fun b => ol b + loose (.destroyOld hd packed) b)
    (hol : ∀ b, ol b ≤ o b) (hok : Exchange.Ok δ expected new (.destroyOld hd packed)) :
    Keeping δ g o ol expected new spurious (.destroyOld hd packed) := by
  obtain ⟨hhd, hptr⟩ := hok
  have hloose : ∀ b, ol b + hd.loose b ≤ o b + hd.refs b := fun b =>
    Nat.add_le_add (hol b) (hd.loose_le_refs b)
  obtain ⟨g', queue, hdrop, hkeeps, hbalanced⟩ := h.dropRef_keeps (b := pointer packed)
    ControlBlock.data (hptr ▸ hhd.ne) (by
      have := hloose (pointer packed)
      simp only [refs, loose, single_self]
      omega) fun c hc => (h.data _ c hc).1
  refine ⟨g', .releaseOld hd queue, by simp only [step, hdrop], hhd, .inl ⟨by simp, hkeeps⟩,
    hbalanced _ fun b => ?_⟩
  simp only [refs, skipped, List.count_nil]
  omega

theorem Exchange.releaseOld_keeps {queue : List ℕ}
    (h : Balanced δ g (fun b => o b + refs new (.releaseOld hd queue) b)
      fun b => ol b + loose (.releaseOld hd queue) b)
    (hol : ∀ b, ol b ≤ o b) (hok : Exchange.Ok δ expected new (.releaseOld hd queue)) :
    Keeping δ g o ol expected new spurious (.releaseOld hd queue) := by
  cases queue with
  | nil =>
    have hstart := start_refs true new hd
    refine ⟨g, .destroy true hd (.start hd), rfl, ⟨hok.ne, Destroy.start_ok hok⟩,
      .inl ⟨by simp, .refl g⟩,
      h.congr (fun b => ?_) fun b => ?_⟩
    · rw [(hstart b).1, refs, List.count_nil, if_pos rfl]
    · rw [(hstart b).2, loose]
  | cons block queue =>
    have hloose : ∀ b, ol b + hd.loose b ≤ o b + hd.refs b := fun b =>
      Nat.add_le_add (hol b) (hd.loose_le_refs b)
    have hqueue : Balanced δ g (fun b => (o b + hd.refs b) + (block :: queue).count b)
        fun b => ol b + hd.loose b := by
      refine h.congr (fun b => ?_) fun b => rfl
      simp only [refs]
      omega
    obtain ⟨g', queue', hrelease, hkeeps, hbalanced⟩ := hqueue.release hloose
    refine ⟨g', .releaseOld hd queue', by simp only [step, hrelease], hok, .inl ⟨by simp, hkeeps⟩,
      hbalanced.congr (fun b => ?_) fun b => rfl⟩
    simp only [refs, skipped, List.count_nil]
    omega

theorem Exchange.destroy_keeps {moved : Bool} {y : Destroy}
    (h : Balanced δ g (fun b => o b + refs new (.destroy moved hd y) b)
      fun b => ol b + loose (.destroy moved hd y) b)
    (hol : ∀ b, ol b ≤ o b) (hok : Exchange.Ok δ expected new (.destroy moved hd y))
    (halive : g.destroyed = false) :
    Keeping δ g o ol expected new spurious (.destroy moved hd y) := by
  obtain ⟨g', y', hstep, hy', hkeeps, hbalanced⟩ := Destroy.step_keeps spurious
    (o := fun b => o b + if moved then 0 else single new b)
    (h.congr (fun b => by simp only [refs, Nat.add_assoc]) fun b => rfl)
    (fun b => Nat.le_add_right_of_le (hol b)) hok.2 halive
  by_cases hdone : y' = .done
  · subst hdone
    refine ⟨g', .done moved moved, by simp only [step, hstep], .inl rfl, .inl ⟨by simp, hkeeps⟩,
      hbalanced.congr (fun b => ?_) fun b => rfl⟩
    simp only [refs, Destroy.refs, skipped, List.count_nil, Nat.add_zero]
  · refine ⟨g', .destroy moved hd y', ?_, ⟨hok.1, hy'⟩, .inl ⟨by simp, hkeeps⟩,
      hbalanced.congr (fun b => ?_) fun b => rfl⟩
    · cases y' with
      | done => exact absurd rfl hdone
      | cas | refSub | releasing => simp only [step, hstep]
    · have hskipped : (Exchange.destroy moved hd y').skipped = [] := by
        cases y' with
        | done => exact absurd rfl hdone
        | cas | refSub | releasing => rfl
      rw [hskipped, refs, List.count_nil, Nat.add_zero, Nat.add_assoc]

end

theorem Exchange.step_keeps (spurious : Bool) {x : Exchange} {expected new : ℕ}
    (h : Balanced δ g (fun b => o b + x.refs new b) (fun b => ol b + x.loose b))
    (hol : ∀ b, ol b ≤ o b) (hok : x.Ok δ expected new) (hne : new ≠ 0)
    (halive : g.destroyed = false)
    (hadd : x = .getFast .addLocal → localCount g.packedPtr < 65535)
    (hcas : ∀ known data block, x = .getFast (.migrateCas known data block) →
      g.packedPtr ≠ known → pointer g.packedPtr = pointer known ∧ localCount g.packedPtr ≠ 0) :
    Keeping δ g o ol expected new spurious x := by
  cases x with
  | compare =>
    obtain ⟨c, hc⟩ := h.exists_block hne (by simp [refs, single])
    have hdata := (h.data _ c hc).1
    by_cases heq : expected = c.data
    · refine ⟨g, .done true false, ?_, .inr (hdata ▸ heq.symm), .inl ⟨by simp, .refl g⟩, h⟩
      simp only [step, if_neg hne, hc, if_pos heq]
    · refine ⟨g, .getFast .addLocal, ?_, ⟨trivial, fun hd => heq ?_⟩, .inl ⟨by simp, .refl g⟩, h⟩
      · simp only [step, if_neg hne, hc, if_neg heq]
      · rw [hdata, hd]
  | getFast y =>
    exact getFast_keeps h hol hok halive (fun heq => hadd (congrArg _ heq))
      fun known data block heq => hcas known data block (congrArg _ heq)
  | flushAdd hd packed => exact flushAdd_keeps h hok
  | flushCas hd packed => exact flushCas_keeps h hol hok halive
  | flushSub hd packed diff => exact flushSub_keeps h hol hok
  | swap hd packed => exact swap_keeps h hol hok hne halive
  | destroyOld hd packed => exact destroyOld_keeps h hol hok
  | releaseOld hd queue => exact releaseOld_keeps h hol hok
  | destroy moved hd y => exact destroy_keeps h hol hok halive
  | done result moved => exact ⟨g, _, rfl, hok, .inl ⟨by simp, .refl g⟩, h⟩

end
end LockFree.AtomicSharedPtr
