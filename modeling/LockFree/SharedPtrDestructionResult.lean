import LockFree.SharedPtrDestructionRuns

/-!
# What is left after a release

Releases find the counts of a block one after the other, from its number of owners down to
the owners that it keeps. If the tests of `unref` say of all of these what they say of the
numbers, the queue and the recursion both end, with the same heap. If not, they do not.
-/

namespace LockFree.SharedPtrDestruction
open OwnedHeap TransitionRuns

variable {B : Type*} [DecidableEq B] [Fintype B]

structure Starts (v : Variant) (h : Heap B) (remaining : List (Option B)) (op : Op B)
    (s₁ : State B) : Prop where
  inv : Inv v h remaining s₁ [] s₁
  loops : Loops s₁
  refs : ∀ b, s₁.refs remaining b = OwnedHeap.refs h (op.pending ++ remaining) b
  deleting : ∀ b, s₁.frames.count (.deleteBlock b) =
    if (h b).isSome ∧ s₁.refs remaining b = 0 then 1 else 0
  absent : ∀ b, h b = none → s₁.refs remaining b = 0

variable {v w : Variant} {h g : Heap B} {remaining : List (Option B)} {op : Op B}
  {s s' s₁ : State B} {es : List (Event B)} {b : B} {c : Block B}

theorem Inv.restart (hi : Inv v h remaining s₁ es s) (hes : ∀ b, es.count (.deleted b) = 0) :
    Inv w h remaining s [] s where
  le _ := le_rfl
  count := hi.count
  tested b n hlow hhigh := absurd hhigh (Nat.not_le_of_lt hlow)
  deleted b := by simp
  gone b := by
    rw [hi.gone b, hes b]
    simp
  emptied := hi.emptied
  intact := hi.intact

theorem Inv.of_heap {frames : List (Frame B)} (hmembers : ∀ x, members g x = members h x)
    (hnone : ∀ x, g x = none ↔ h x = none)
    (hcount : ∀ x, refCount g x = State.refs ⟨g, [], false, frames⟩ remaining x)
    (hframes : ∀ b, .deleteBlock b ∉ frames) :
    Inv v h remaining ⟨g, [], false, frames⟩ [] ⟨g, [], false, frames⟩ where
  le _ := le_rfl
  count b c hb := by
    dsimp only at hb
    rw [← hcount b, refCount_some hb]
  tested b n hlow hhigh := absurd hhigh (Nat.not_le_of_lt hlow)
  deleted b := by simp
  gone b := by
    rw [hnone b]
    simp
  emptied b c _ hdel := absurd hdel (hframes b)
  intact b c hb _ := by
    dsimp only at hb
    cases hold : h b with
    | none =>
      rw [(hnone b).mpr hold] at hb
      cases hb
    | some c₀ =>
      have heq := hmembers b
      rw [members_some hb, members_some hold] at heq
      exact ⟨c₀, rfl, heq⟩

theorem refs_of_members (hmembers : ∀ x, members g x = members h x) (owners : List (Option B))
    (b : B) : refs g owners b = refs h owners b := by
  simp only [refs, owned, hmembers]

theorem refs_start (frames : List (Frame B)) (hmembers : ∀ x, members g x = members h x) (b : B) :
    State.refs ⟨g, [], false, frames⟩ remaining b =
      refs h (frames.flatMap Frame.pending ++ remaining) b := by
  rw [State.refs, refs_of_members hmembers]
  rfl

omit [Fintype B] in
theorem retain_spec {p : Option B} (hg : retain v h p = some g) :
    (∀ x, members g x = members h x) ∧ (∀ x, g x = none ↔ h x = none) ∧
      ∀ x, refCount g x = refCount h x + [p].count (some x) := by
  cases p with
  | none =>
    cases hg
    simp
  | some b =>
    simp only [retain] at hg
    split at hg
    · cases hg
    · rename_i c hb
      split at hg
      · cases hg
      · cases hg
        refine ⟨fun x => ?_, fun x => ?_, fun x => ?_⟩ <;> rcases eq_or_ne x b with rfl | hne
        · simp [members, hb]
        · simp [members, hne]
        · simp [hb]
        · simp [hne]
        · simp [refCount, hb]
        · simp [refCount, hne, hne.symm]

theorem Valid.isSome (hv : Valid h remaining op)
    (hrefs : 0 < refs h (op.owner ++ remaining) b) : (h b).isSome = true := by
  cases hb : h b with
  | some c => rfl
  | none =>
    rw [← hv.counts b, refCount_none hb] at hrefs
    have hpos : 0 < op.taken.count (some b) := by simpa using hrefs
    have := hv.taken b (List.count_pos_iff.mp hpos)
    rw [hb] at this
    cases this

theorem Valid.refs_pos (hv : Valid h remaining op) (hb : h b = some c) :
    0 < refs h (op.owner ++ remaining) b := by
  have hpos := hv.positive b c hb
  have hcount := hv.counts b
  rw [refCount_some hb] at hcount
  omega

theorem Valid.starts_of_heap {frames : List (Frame B)} (hv : Valid h remaining op)
    (hpending : frames.flatMap Frame.pending = op.pending) (howner : op.pending = op.owner)
    (hmembers : ∀ x, members g x = members h x) (hnone : ∀ x, g x = none ↔ h x = none)
    (hcount : ∀ x, refCount g x = refCount h x + op.taken.count (some x))
    (hframes : ∀ b, .deleteBlock b ∉ frames) (hloop : .loop ∉ frames) :
    Starts v h remaining op ⟨g, [], false, frames⟩ := by
  have hrefs : ∀ x, State.refs ⟨g, [], false, frames⟩ remaining x =
      refs h (op.pending ++ remaining) x := by
    intro x
    rw [refs_start frames hmembers, hpending]
  constructor
  case inv =>
    refine .of_heap hmembers hnone (fun x => ?_) hframes
    rw [hrefs, howner, ← hv.counts x, hcount x]
  case loops => exact ⟨List.count_eq_zero.mpr hloop, fun _ => rfl⟩
  case refs => exact hrefs
  case deleting =>
    intro b
    rw [List.count_eq_zero.mpr (hframes b), if_neg]
    rintro ⟨hb, hzero⟩
    obtain ⟨c, hc⟩ := Option.isSome_iff_exists.mp hb
    have hpos := hv.refs_pos hc
    rw [hrefs, howner] at hzero
    omega
  case absent =>
    intro b hb
    rw [hrefs, howner]
    by_contra hne
    have hsome := hv.isSome (Nat.pos_of_ne_zero hne)
    rw [hb] at hsome
    cases hsome

omit [Fintype B] in
theorem fetchSub_frames (frames frames' : List (Frame B)) (c : Block B) (last : Bool)
    (k : List (Frame B)) :
    fetchSub ⟨h, [], false, frames⟩ b c last k = fetchSub ⟨h, [], false, frames'⟩ b c last k := by
  cases last <;> rfl

theorem Valid.starts_fastDestroy (hv : Valid h remaining (.fastDestroy b)) (hb : h b = some c) :
    Starts v h remaining (.fastDestroy b)
      (fetchSub ⟨h, [], false, []⟩ b c (c.refCount = 1) []) := by
  have hinv : Inv recursive h remaining ⟨h, [], false, [.unref (some b)]⟩ []
      ⟨h, [], false, [.unref (some b)]⟩ := by
    refine .of_heap (fun x => rfl) (fun x => Iff.rfl) (fun x => ?_) (by simp)
    rw [refs_start _ fun _ => rfl]
    exact hv.counts x
  have hpos := hv.positive b c hb
  have hrelease := hinv.release hb (by simpa [recursive] using hpos.ne')
    (releases_fetchSub rfl hb _)
  have hlast : decide (recursive.before c.refCount = 1) = decide (c.refCount = 1) :=
    decide_eq_decide.mpr (by simp only [recursive]; omega)
  rw [hlast, fetchSub_frames _ []] at hrelease
  have hcounts : ∀ x, refs h remaining x + (if x = b then 1 else 0) = refCount h x := by
    intro x
    have hx := hv.counts x
    simp only [Op.taken, Op.owner, refs, List.count_append, List.count_singleton, beq_iff_eq,
      Option.some.injEq, List.count_nil, eq_comm (a := b)] at hx ⊢
    omega
  have hrefs : ∀ x, State.refs (fetchSub ⟨h, [], false, []⟩ b c (c.refCount = 1) []) remaining x =
      refs h remaining x := by
    intro x
    have hstep : State.refs (fetchSub ⟨h, [], false, [.unref (some b)]⟩ b c (c.refCount = 1) [])
        remaining x + (if x = b then 1 else 0) =
          State.refs ⟨h, [], false, [.unref (some b)]⟩ remaining x := refs_fetchSub rfl hb _ x
    rw [fetchSub_frames _ [], refs_start _ fun _ => rfl] at hstep
    have hx := hv.counts x
    exact Nat.add_right_cancel (hstep.trans (hx.symm.trans (hcounts x).symm))
  constructor
  case inv => exact hrelease.restart fun b => by simp
  case loops =>
    rw [fetchSub_frames [] [.unref (some b)]]
    exact Loops.release ⟨rfl, fun _ => rfl⟩ rfl
  case refs => exact hrefs
  case deleting =>
    intro x
    rw [fetchSub_deleting, List.count_nil, Nat.zero_add, hrefs]
    have hx := hcounts x
    refine if_congr ⟨?_, ?_⟩ rfl rfl
    · rintro ⟨hone, rfl⟩
      rw [refCount_some hb, if_pos rfl] at hx
      refine ⟨by rw [hb]; rfl, ?_⟩
      have := of_decide_eq_true hone
      omega
    · rintro ⟨hsome, hzero⟩
      obtain ⟨d, hd⟩ := Option.isSome_iff_exists.mp hsome
      have hpos' := hv.positive x d hd
      rw [hzero, refCount_some hd] at hx
      split at hx
      · subst x
        rw [hb] at hd
        cases hd
        exact ⟨decide_eq_true (by omega), rfl⟩
      · omega
  case absent =>
    intro x hx
    have hzero := hcounts x
    rw [refCount_none hx] at hzero
    rw [hrefs]
    exact Nat.eq_zero_of_add_eq_zero_right hzero

theorem Valid.starts (hv : Valid h remaining op) (hs : op.start v h = some s₁) :
    Starts v h remaining op s₁ := by
  cases op with
  | destroy p =>
    cases hs
    exact hv.starts_of_heap rfl rfl (fun _ => rfl) (fun _ => Iff.rfl) (fun _ => rfl) (by simp)
      (by simp)
  | copyAssign p other =>
    obtain ⟨g, hg, rfl⟩ := Option.map_eq_some_iff.mp hs
    obtain ⟨hmembers, hnone, hcount⟩ := retain_spec hg
    exact hv.starts_of_heap rfl rfl hmembers hnone hcount (by simp) (by simp)
  | moveAssign p other =>
    cases hs
    refine hv.starts_of_heap ?_ rfl (fun _ => rfl) (fun _ => Iff.rfl) (fun _ => rfl) ?_ ?_ <;>
      by_cases heq : p = other <;> simp [heq, Op.pending, Op.owner, Frame.pending]
  | fastDestroy b =>
    simp only [Op.start] at hs
    split at hs
    · cases hs
    · rename_i c hb
      cases hs
      exact hv.starts_fastDestroy hb

/-- A copy assignment is the only one that can fail before it releases. -/
theorem Valid.start_iff (hv : Valid h remaining op) :
    (∃ s₁, op.start v h = some s₁) ↔ ∀ b, some b ∈ op.taken → v.before (refCount h b) ≠ 0 := by
  cases op with
  | destroy p => simp [Op.start, Op.taken]
  | moveAssign p other => simp [Op.start, Op.taken]
  | copyAssign p other =>
    rcases other with _ | b
    · simp [Op.start, Op.taken, retain]
    · obtain ⟨c, hc⟩ := Option.isSome_iff_exists.mp (hv.taken b (by simp [Op.taken]))
      simp [Op.start, Op.taken, retain, refCount, hc]
  | fastDestroy b =>
    have hb : (h b).isSome = true := by
      apply hv.isSome
      simp [refs, Op.owner]
    obtain ⟨c, hc⟩ := Option.isSome_iff_exists.mp hb
    simp [Op.start, Op.taken, hc]

/-- Of the counts that releases find, `before` takes none for 0 and none but 1 for 1. -/
def Fits (v : Variant) (h : Heap B) (remaining : List (Option B)) (op : Op B) : Prop :=
  ∀ b n, kept h remaining b < n → n ≤ refs h (op.pending ++ remaining) b →
    v.before n ≠ 0 ∧ (v.before n = 1 → n = 1)

theorem card_filter_eq_one {f : ℕ → Prop} [DecidablePred f] {m n : ℕ}
    (hf : ∀ i, m < i → i ≤ n → (f i ↔ i = 1)) :
    ((Finset.Ioc m n).filter f).card = if m = 0 ∧ 0 < n then 1 else 0 := by
  split
  · rename_i hone
    refine Finset.card_eq_one.mpr ⟨1, ?_⟩
    ext i
    simp only [Finset.mem_filter, Finset.mem_Ioc, Finset.mem_singleton]
    constructor
    · rintro ⟨⟨hlow, hhigh⟩, hi⟩
      exact (hf i hlow hhigh).mp hi
    · rintro rfl
      have hlow : m < 1 := by omega
      exact ⟨⟨hlow, hone.2⟩, (hf 1 hlow hone.2).mpr rfl⟩
  · rename_i hone
    refine Finset.card_eq_zero.mpr (Finset.filter_eq_empty_iff.mpr fun i hi hfi => hone ?_)
    obtain ⟨hlow, hhigh⟩ := Finset.mem_Ioc.mp hi
    have := (hf i hlow hhigh).mp hfi
    omega

structure Fitting (v : Variant) (h : Heap B) (remaining : List (Option B)) (s₁ : State B)
    (es : List (Event B)) (s : State B) : Prop where
  inv : Inv v h remaining s₁ es s
  loops : Loops s
  bound : ∀ b, kept h remaining b ≤ s.refs remaining b

section
variable (hone : v.before 1 = 1) (hfits : Fits v h remaining op)
  (hst : Starts v h remaining op s₁) (hi : Fitting v h remaining s₁ es s)
include hone hfits hst hi

theorem Fitting.deleted (b : B) :
    es.count (.deleted b) + s.frames.count (.deleteBlock b) =
      if (h b).isSome ∧ s.refs remaining b = 0 then 1 else 0 := by
  have htests : ∀ n, s.refs remaining b < n → n ≤ s₁.refs remaining b →
      (v.before n = 1 ↔ n = 1) := by
    intro n hlow hhigh
    constructor
    · exact (hfits b n ((hi.bound b).trans_lt hlow) (hst.refs b ▸ hhigh)).2
    · rintro rfl
      exact hone
  have hle := hi.inv.le b
  have habsent := hst.absent b
  rw [hi.inv.deleted b, hst.deleting b, card_filter_eq_one htests]
  cases hb : h b with
  | none =>
    have := habsent hb
    simp only [Option.isSome_none, Bool.false_eq_true, false_and, if_false]
    rw [if_neg (by omega)]
  | some c =>
    simp only [Option.isSome_some, true_and]
    split <;> split <;> split <;> omega

theorem Fitting.intact (hb : Reached h remaining b) :
    (h b).isSome = true ∧ es.count (.deleted b) = 0 ∧ Frame.deleteBlock b ∉ s.frames := by
  have hpos : 0 < s.refs remaining b := (kept_pos hb).trans_le (hi.bound b)
  have hdeleted := hi.deleted hone hfits hst b
  rw [if_neg fun hzero => hpos.ne' hzero.2] at hdeleted
  refine ⟨?_, by omega, List.count_eq_zero.mp (by omega)⟩
  cases hold : h b with
  | some c => rfl
  | none =>
    have := hst.absent b hold
    have := hi.inv.le b
    omega

theorem Fitting.members_eq (hb : Reached h remaining b) : members s.heap b = members h b := by
  obtain ⟨hsome, hevents, hframes⟩ := hi.intact hone hfits hst hb
  cases hnow : s.heap b with
  | none =>
    rcases (hi.inv.gone b).mp hnow with hnone | hpos
    · rw [hnone] at hsome
      cases hsome
    · omega
  | some c =>
    obtain ⟨c₀, hc₀, heq⟩ := hi.inv.intact b c hnow hframes
    rw [members_some hnow, members_some hc₀, heq]

theorem Fitting.kept_add_le (b : B) :
    kept h remaining b + s.pending.count (some b) ≤ s.refs remaining b :=
  OwnedHeap.kept_add_le fun _ ha => hi.members_eq hone hfits hst ha

theorem Fitting.step {e : Event B} (hn : next v s = some (s', e)) :
    Fitting v h remaining s₁ (es ++ [e]) s' where
  inv := hi.inv.step hn
  loops := hi.loops.step hn
  bound b := by
    have := hi.kept_add_le hone hfits hst b
    have := hi.inv.refs_step hn b
    omega

theorem Fitting.unref {k : List (Frame B)} (hf : s.frames = .unref (some b) :: k) :
    ∃ c, s.heap b = some c ∧ v.before c.refCount ≠ 0 := by
  have hbound := hi.kept_add_le hone hfits hst b
  have hpos := refs_pos_of_unref hf
  have hle := hi.inv.le b
  cases hb : s.heap b with
  | none =>
    exfalso
    have hdeleted := hi.deleted hone hfits hst b
    rw [if_neg (by omega)] at hdeleted
    rcases (hi.inv.gone b).mp hb with hnone | hevents
    · have := hst.absent b hnone
      omega
    · omega
  | some c =>
    refine ⟨c, rfl, (hfits b _ ?_ (hst.refs b ▸ ?_)).1⟩
    · rw [hi.inv.count b c hb]
      omega
    · rw [hi.inv.count b c hb]
      exact hle

theorem Fitting.deleteBlock {k : List (Frame B)} (hf : s.frames = .deleteBlock b :: k) :
    s.heap b ≠ none := by
  intro hb
  have hdeleted := hi.deleted hone hfits hst b
  rw [hf, List.count_cons_self] at hdeleted
  rcases (hi.inv.gone b).mp hb with hnone | hevents
  · rw [if_neg (by simp [hnone])] at hdeleted
    omega
  · split at hdeleted <;> omega

theorem Fitting.done (hn : next v s = none) : s.frames = [] := by
  rcases stuck_cases hn with hf | ⟨b, k, hf, hfails⟩ | ⟨b, k, hf, hnone⟩
  · exact hf
  · obtain ⟨c, hc, hbefore⟩ := hi.unref hone hfits hst hf
    exact absurd (hfails c hc) hbefore
  · exact absurd hnone (hi.deleteBlock hone hfits hst hf)

end

theorem Inv.of_run (hi : Inv v h remaining s₁ [] s₁) (hr : (machine v s₁).Run es s) :
    Inv v h remaining s₁ es s := by
  apply Machine.Run.invariant (I := Inv v h remaining s₁) hi ?_ hr
  rintro es s e s' - hi ⟨_, hn⟩
  exact hi.step hn

theorem Fitting.of_run (hone : v.before 1 = 1) (hfits : Fits v h remaining op)
    (hst : Starts v h remaining op s₁) (hr : (machine v s₁).Run es s) :
    Fitting v h remaining s₁ es s := by
  have hstart : Fitting v h remaining s₁ [] s₁ := by
    refine ⟨hst.inv, hst.loops, fun b => ?_⟩
    have hkept : kept h remaining b + op.pending.count (some b) ≤
        refs h (op.pending ++ remaining) b := OwnedHeap.kept_add_le fun _ _ => rfl
    rw [hst.refs b]
    omega
  apply Machine.Run.invariant (I := Fitting v h remaining s₁) hstart ?_ hr
  rintro es s e s' - hi ⟨_, hn⟩
  exact hi.step hone hfits hst hn

omit [Fintype B] in
theorem Loops.idle (hl : Loops s) (hf : s.frames = []) : s.inProgress = false ∧ s.queue = [] := by
  have hframes := hl.frames
  rw [hf, List.count_nil] at hframes
  have hin : s.inProgress = false := by
    cases hin : s.inProgress with
    | false => rfl
    | true =>
      rw [hin] at hframes
      cases hframes
  exact ⟨hin, hl.queue hin⟩

theorem refs_of_idle (hf : s.frames = []) (hq : s.queue = []) (b : B) :
    s.refs remaining b = refs s.heap remaining b := by
  simp [State.refs, State.pending, hf, hq]

theorem Inv.heap_eq_some (hi : Inv v h remaining s₁ es s) (hf : s.frames = []) (hb : h b = some c)
    (hes : es.count (.deleted b) = 0) : s.heap b = some ⟨s.refs remaining b, c.members⟩ := by
  cases hnow : s.heap b with
  | none =>
    rcases (hi.gone b).mp hnow with hnone | hpos
    · rw [hb] at hnone
      cases hnone
    · omega
  | some d =>
    obtain ⟨c₀, hc₀, hmembers⟩ := hi.intact b d hnow (by simp [hf])
    rw [hb] at hc₀
    cases hc₀
    rw [← hi.count b d hnow, ← hmembers]

theorem exists_settled (hv : Valid h remaining op) (hs : op.start v h = some s₁)
    (hone : v.before 1 = 1) (hfits : Fits v h remaining op) :
    ∃ es s, (machine v s₁).Run es s ∧ s.frames = [] ∧ s.queue = [] ∧ s.inProgress = false ∧
      Settled h s.heap remaining ∧ ∀ b c, h b = some c →
        es.count (.deleted b) = if refs s.heap remaining b = 0 then 1 else 0 := by
  have hst := hv.starts hs
  obtain ⟨es, s, hr, hstop⟩ := exists_stop v s₁ s₁
  have hi := Fitting.of_run hone hfits hst hr
  have hf := hi.done hone hfits hst hstop
  obtain ⟨hin, hq⟩ := hi.loops.idle hf
  have hdeleted : ∀ b c, h b = some c →
      es.count (.deleted b) = if refs s.heap remaining b = 0 then 1 else 0 := by
    intro b c hb
    have hcount := hi.deleted hone hfits hst b
    rw [hf, hb, refs_of_idle hf hq] at hcount
    simpa using hcount
  refine ⟨es, s, hr, hf, hq, hin, fun b => ?_, hdeleted⟩
  cases hb : h b with
  | none => exact (hi.inv.gone b).mpr (.inl hb)
  | some c =>
    have hcount := hdeleted b c hb
    dsimp only
    split
    · rename_i hzero
      rw [if_pos hzero] at hcount
      exact (hi.inv.gone b).mpr (.inr (by omega))
    · rename_i hzero
      rw [if_neg hzero] at hcount
      rw [hi.inv.heap_eq_some hf hb hcount, refs_of_idle hf hq]

theorem Valid.present (hv : Valid h remaining op) (b : B) (hb : Reached h remaining b) :
    (h b).isSome = true := by
  have hpos := hb.refs_pos
  apply hv.isSome
  rw [refs] at hpos ⊢
  rw [List.count_append]
  omega

theorem fits_recursive (h : Heap B) (remaining : List (Option B)) (op : Op B) :
    Fits recursive h remaining op := by
  intro b n hlow _
  simp only [recursive]
  omega

theorem toInt_eq_zero_iff (n : ℕ) : toInt n = 0 ↔ n % 2 ^ 32 = 0 := by
  unfold toInt Int.bmod
  dsimp only
  split <;> omega

theorem toInt_eq_one_iff (n : ℕ) : toInt n = 1 ↔ n % 2 ^ 32 = 1 := by
  unfold toInt Int.bmod
  dsimp only
  split <;> omega

theorem fits_queued_iff (h : Heap B) (remaining : List (Option B)) (op : Op B) :
    Fits queued h remaining op ↔ ∀ b n, kept h remaining b < n →
      n ≤ refs h (op.pending ++ remaining) b → n = 1 ∨ 2 ≤ n % 2 ^ 32 := by
  refine forall_congr' fun b => forall_congr' fun n => forall_congr' fun _ =>
    forall_congr' fun _ => ?_
  simp only [queued, ne_eq, toInt_eq_zero_iff, toInt_eq_one_iff]
  constructor
  · rintro ⟨hzero, hone⟩
    by_cases hlast : n % 2 ^ 32 = 1
    · exact .inl (hone hlast)
    · right
      omega
  · rintro (rfl | htwo)
    · simp
    · omega

theorem Valid.releases (hv : Valid h remaining op)
    (htaken : ∀ b, some b ∈ op.taken → refCount h b % 2 ^ 32 ≠ 0)
    (hfits : Fits queued h remaining op) : ReleasesLikeRecursion h remaining op := by
  obtain ⟨s₁, hs⟩ : ∃ s₁, op.start queued h = some s₁ := by
    refine hv.start_iff.mpr fun b hb => ?_
    rw [queued, ne_eq, toInt_eq_zero_iff]
    exact htaken b hb
  obtain ⟨r₁, hr⟩ : ∃ r₁, op.start recursive h = some r₁ := by
    refine hv.start_iff.mpr fun b hb => ?_
    obtain ⟨c, hc⟩ := Option.isSome_iff_exists.mp (hv.taken b hb)
    have hpos := hv.positive b c hc
    rw [refCount_some hc, recursive]
    dsimp only
    omega
  obtain ⟨es, s, hrun, hf, hq, hin, hsettled, hdeleted⟩ :=
    exists_settled hv hs ((toInt_eq_one_iff 1).mpr rfl) hfits
  obtain ⟨fs, r, hrun', hf', -, -, hsettled', -⟩ :=
    exists_settled hv hr rfl (fits_recursive h remaining op)
  refine ⟨s₁, es, s, hs, hrun, hf, hq, hin, ⟨r₁, fs, r, hr, hrun', hf', ?_⟩, fun b c hb => ?_⟩
  · exact hsettled'.unique hsettled hv.acyclic hv.present
  · have hcount := hdeleted b c hb
    split
    · rename_i hzero
      rw [if_pos hzero] at hcount
      rw [hsettled b, hb]
      exact ⟨if_pos hzero, hcount⟩
    · rename_i hzero
      rw [if_neg hzero] at hcount
      exact ⟨hsettled.eq_some hb hzero, hcount⟩

theorem Valid.fits_of_releases (hv : Valid h remaining op)
    (hr : ReleasesLikeRecursion h remaining op) : Fits queued h remaining op := by
  obtain ⟨s₁, es, s, hs, hrun, hf, hq, -, -, hleft⟩ := hr
  have hst := hv.starts hs
  have hi := hst.inv.of_run hrun
  have hsettled : Settled h s.heap remaining := by
    intro b
    cases hb : h b with
    | none => exact (hi.gone b).mpr (.inl hb)
    | some c =>
      have hc := hleft b c hb
      dsimp only
      split
      · rename_i hzero
        rw [if_pos hzero] at hc
        exact hc.1
      · rename_i hzero
        rw [if_neg hzero] at hc
        exact hc.1
  intro b n hlow hhigh
  have hkept := hsettled.refs_eq_kept hv.acyclic hv.present b
  have hrefs : s.refs remaining b = refs s.heap remaining b := refs_of_idle hf hq b
  have hlow' : s.refs remaining b < n := by omega
  have hhigh' : n ≤ s₁.refs remaining b := by
    rw [hst.refs b]
    exact hhigh
  refine ⟨hi.tested b n hlow' hhigh', fun hlast => ?_⟩
  by_contra hne
  have hmem : n ∈ (Finset.Ioc (s.refs remaining b) (s₁.refs remaining b)).filter
      fun n => queued.before n = 1 :=
    Finset.mem_filter.mpr ⟨Finset.mem_Ioc.mpr ⟨hlow', hhigh'⟩, hlast⟩
  have hdeleted := hi.deleted b
  rw [hf, List.count_nil] at hdeleted
  obtain ⟨c, hc⟩ : ∃ c, h b = some c := by
    cases hb : h b with
    | none =>
      have := hst.absent b hb
      omega
    | some c => exact ⟨c, rfl⟩
  have hend := hleft b c hc
  split at hend
  · rename_i hzero
    have hone : 1 ∈ (Finset.Ioc (s.refs remaining b) (s₁.refs remaining b)).filter
        fun n => queued.before n = 1 := by
      refine Finset.mem_filter.mpr ⟨Finset.mem_Ioc.mpr ⟨?_, ?_⟩, (toInt_eq_one_iff 1).mpr rfl⟩ <;>
        omega
    have htwo := Finset.one_lt_card.mpr ⟨n, hmem, 1, hone, hne⟩
    omega
  · have hpos := Finset.card_pos.mpr ⟨n, hmem⟩
    omega

/-- The tests of `unref` look at the low half of a count. -/
theorem releases_like_recursion_iff (hv : Valid h remaining op) :
    ReleasesLikeRecursion h remaining op ↔
      (∀ b, some b ∈ op.taken → refCount h b % 2 ^ 32 ≠ 0) ∧
        ∀ b n, kept h remaining b < n → n ≤ refs h (op.pending ++ remaining) b →
          n = 1 ∨ 2 ≤ n % 2 ^ 32 := by
  rw [← fits_queued_iff]
  constructor
  · intro hr
    refine ⟨fun b hb => ?_, hv.fits_of_releases hr⟩
    obtain ⟨s₁, -, -, hs, -⟩ := hr
    have hbefore := (hv.start_iff (v := queued)).mp ⟨s₁, hs⟩ b hb
    simp only [queued, ne_eq, toInt_eq_zero_iff] at hbefore
    exact hbefore
  · rintro ⟨htaken, hfits⟩
    exact hv.releases htaken hfits

def pair : Heap (Fin 2)
  | 0 => some ⟨1, [some 1]⟩
  | 1 => some ⟨2, [none]⟩

theorem pair_valid : Valid pair [some 1] (.destroy (some 0)) := by
  have hpos : ∀ b, 0 < refCount pair b := by decide
  have hrank : ∀ a b : Fin 2, some b ∈ members pair a → 1 - b.val < 1 - a.val := by decide
  constructor
  case counts => decide
  case positive =>
    intro b c hb
    rw [← refCount_some hb]
    exact hpos b
  case acyclic => exact .of_rank (fun b => 1 - b.val) hrank
  case taken => simp [Op.taken]

theorem releases_like_recursion_iff_pair :
    ReleasesLikeRecursion pair [some 1] (.destroy (some 0)) := by
  refine (releases_like_recursion_iff pair_valid).mpr ⟨by simp [Op.taken], fun b n _ hhigh => ?_⟩
  have hle : ∀ b, refs pair ((Op.destroy (some 0)).pending ++ [some 1]) b ≤ 2 := by decide
  have := hle b
  omega

def sole (n : ℕ) : Heap Unit := fun _ => some ⟨n + 1, []⟩

theorem sole_valid (n : ℕ) : Valid (sole n) (List.replicate n (some ())) (.destroy (some ())) := by
  constructor
  case counts =>
    intro b
    simp [sole, refCount, Op.taken, Op.owner, refs, owned, members]
  case positive =>
    intro b c hb
    cases hb
    exact Nat.succ_pos n
  case acyclic =>
    refine .of_rank (fun _ => 0) fun a b hown => ?_
    simp [Owns, members, sole] at hown
  case taken => simp [Op.taken]

theorem kept_sole (n : ℕ) : kept (sole n) (List.replicate n (some ())) () = n := by
  simp [kept, sole, members]

/-- The release of one of `2 ^ 32 + 1` owners deletes the block. -/
theorem not_releases_like_recursion :
    Valid (sole (2 ^ 32)) (List.replicate (2 ^ 32) (some ())) (.destroy (some ())) ∧
      ¬ ReleasesLikeRecursion (sole (2 ^ 32)) (List.replicate (2 ^ 32) (some ()))
        (.destroy (some ())) := by
  refine ⟨sole_valid _, fun hr => ?_⟩
  have hfits := (sole_valid (2 ^ 32)).fits_of_releases hr
  rw [fits_queued_iff] at hfits
  have hlow := kept_sole (2 ^ 32)
  have hhigh := (sole_valid (2 ^ 32)).counts ()
  have hcount : refCount (sole (2 ^ 32)) () = 2 ^ 32 + 1 := rfl
  have htest := hfits () (2 ^ 32 + 1) (by omega) (by rw [hcount] at hhigh; exact hhigh.le)
  omega

/-- With fewer than `2 ^ 32` owners to a block the queue does what the recursion would. -/
theorem Valid.releases_of_lt (hv : Valid h remaining op)
    (hlt : ∀ b, refs h (op.owner ++ remaining) b < 2 ^ 32) :
    ReleasesLikeRecursion h remaining op := by
  apply hv.releases
  · intro b hb
    obtain ⟨c, hc⟩ := Option.isSome_iff_exists.mp (hv.taken b hb)
    have hpos := hv.positive b c hc
    have hcount := hv.counts b
    rw [refCount_some hc] at hcount ⊢
    have := hlt b
    omega
  · rw [fits_queued_iff]
    intro b n hlow hhigh
    have hpending : op.pending.count (some b) ≤ op.owner.count (some b) := by
      cases op with
      | fastDestroy b => exact Nat.zero_le _
      | _ => exact le_rfl
    have := hlt b
    simp only [refs, List.count_append] at hhigh this
    omega

end LockFree.SharedPtrDestruction
