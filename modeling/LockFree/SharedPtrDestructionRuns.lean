import Mathlib.Order.Interval.Finset.Nat
import LockFree.SharedPtrDestruction

/-!
# What a release deletes

The references to a block, whether they are members, queued or about to be released, only
ever go down, one with each `fetch_sub`. So the counts that the releases of a block find
are known beforehand, in whatever order they come, and with them what is deleted.
-/

namespace LockFree.SharedPtrDestruction
open OwnedHeap TransitionRuns

variable {B : Type*} [DecidableEq B]

def Frame.pending : Frame B → List (Option B)
  | .destroy p | .unref p => [p]
  | .loop | .deleteBlock _ => []

def State.pending (s : State B) : List (Option B) := s.queue ++ s.frames.flatMap Frame.pending

def State.refs [Fintype B] (s : State B) (remaining : List (Option B)) (b : B) : ℕ :=
  OwnedHeap.refs s.heap (s.pending ++ remaining) b

def Frame.weight : Frame B → ℕ
  | .destroy _ => 5
  | .unref _ => 2
  | .loop | .deleteBlock _ => 1

def weights : List (Frame B) → ℕ
  | [] => 0
  | f :: k => f.weight + weights k

def State.weight [Fintype B] (s : State B) : ℕ :=
  5 * (∑ a, (members s.heap a).length) + 3 * s.queue.length + weights s.frames

variable {v : Variant} {s s' s₁ : State B} {e : Event B}

omit [DecidableEq B] in
theorem weights_append (k k' : List (Frame B)) : weights (k ++ k') = weights k + weights k' := by
  induction k with
  | nil => exact (Nat.zero_add _).symm
  | cons f k ih => rw [List.cons_append, weights, weights, ih, Nat.add_assoc]

omit [DecidableEq B] in
theorem weights_destroy (ps : List (Option B)) : weights (ps.map .destroy) = 5 * ps.length := by
  induction ps with
  | nil => rfl
  | cons p ps ih =>
    rw [List.map_cons, weights, ih, List.length_cons, Frame.weight]
    omega

structure Loops (s : State B) : Prop where
  frames : s.frames.count .loop = s.inProgress.toNat
  queue : s.inProgress = false → s.queue = []

structure Idles (s s' : State B) : Prop where
  heap : s'.heap = s.heap
  lighter : 3 * s'.queue.length + weights s'.frames < 3 * s.queue.length + weights s.frames
  pending : ∀ b, s'.pending.count (some b) = s.pending.count (some b)
  deleting : ∀ b, s'.frames.count (.deleteBlock b) = s.frames.count (.deleteBlock b)
  loops : Loops s → Loops s'

section
variable {p : Option B} {q : List (Option B)} {k : List (Frame B)}

theorem idles_push (hf : s.frames = .destroy p :: k) (hin : s.inProgress = true) :
    Idles s { s with queue := p :: s.queue, frames := k } := by
  constructor
  case heap => rfl
  case lighter =>
    simp only [hf, weights, Frame.weight, List.length_cons]
    omega
  case pending =>
    intro b
    simp only [State.pending, hf, List.flatMap_cons, Frame.pending, List.cons_append,
      List.nil_append, List.count_append, List.count_cons]
    omega
  case deleting =>
    intro b
    simp [hf]
  case loops =>
    intro hl
    refine ⟨?_, fun hout => ?_⟩
    · rw [← hl.frames, hf]
      simp
    · rw [hin] at hout
      cases hout

theorem idles_enter (hf : s.frames = .destroy p :: k) (hout : s.inProgress = false) :
    Idles s { s with queue := p :: s.queue, inProgress := true, frames := .loop :: k } := by
  constructor
  case heap => rfl
  case lighter =>
    simp only [hf, weights, Frame.weight, List.length_cons]
    omega
  case pending =>
    intro b
    simp only [State.pending, hf, List.flatMap_cons, Frame.pending, List.cons_append,
      List.nil_append, List.count_append, List.count_cons]
    omega
  case deleting =>
    intro b
    simp [hf]
  case loops =>
    intro hl
    refine ⟨?_, fun hout => by cases hout⟩
    have hframes := hl.frames
    rw [hf, hout] at hframes
    simpa using hframes

theorem idles_leave (hf : s.frames = .loop :: k) (hq : s.queue = []) :
    Idles s { s with inProgress := false, frames := k } := by
  constructor
  case heap => rfl
  case lighter =>
    simp only [hf, weights, Frame.weight]
    omega
  case pending =>
    intro b
    simp only [State.pending, hf, List.flatMap_cons, Frame.pending, List.nil_append]
  case deleting =>
    intro b
    simp [hf]
  case loops =>
    intro hl
    refine ⟨?_, fun _ => hq⟩
    have hframes := hl.frames
    have hone := Bool.toNat_le s.inProgress
    rw [hf, List.count_cons_self] at hframes
    dsimp only [Bool.toNat_false]
    omega

theorem idles_pop (hf : s.frames = .loop :: k) (hq : s.queue = p :: q) :
    Idles s { s with queue := q, frames := .unref p :: .loop :: k } := by
  constructor
  case heap => rfl
  case lighter =>
    simp only [hf, hq, weights, Frame.weight, List.length_cons]
    omega
  case pending =>
    intro b
    simp only [State.pending, hf, hq, List.flatMap_cons, Frame.pending, List.cons_append,
      List.nil_append, List.count_append, List.count_cons]
    omega
  case deleting =>
    intro b
    simp [hf]
  case loops =>
    intro hl
    refine ⟨?_, fun hout => ?_⟩
    · rw [← hl.frames, hf]
      simp
    · rw [hl.queue hout] at hq
      cases hq

theorem idles_frames {f : List (Frame B)} (hlight : weights f < weights s.frames)
    (hpending : f.flatMap Frame.pending = s.frames.flatMap Frame.pending ∨
      none :: f.flatMap Frame.pending = s.frames.flatMap Frame.pending)
    (hdeleting : ∀ b, f.count (.deleteBlock b) = s.frames.count (.deleteBlock b))
    (hloop : f.count .loop = s.frames.count .loop) : Idles s { s with frames := f } := by
  constructor
  case heap => rfl
  case lighter => exact Nat.add_lt_add_left hlight _
  case pending =>
    intro b
    simp only [State.pending, List.count_append]
    rcases hpending with hp | hp
    · rw [hp]
    · rw [← hp, List.count_cons_of_ne (by simp)]
  case deleting => exact hdeleting
  case loops =>
    intro hl
    exact ⟨hloop.trans hl.frames, hl.queue⟩

end

theorem next_cases (hn : next v s = some (s', e)) :
    (Idles s s' ∧ e = .silent) ∨
    (∃ b c k, s.frames = .unref (some b) :: k ∧ s.heap b = some c ∧ v.before c.refCount ≠ 0 ∧
      s' = fetchSub s b c (v.before c.refCount = 1) k ∧ e = .silent) ∨
    ∃ b c k, s.frames = .deleteBlock b :: k ∧ s.heap b = some c ∧
      s' = { s with heap := Function.update s.heap b none, frames := k } ∧ e = .deleted b := by
  rcases hf : s.frames with _ | ⟨p | _ | (_ | b) | b, k⟩ <;> simp only [next, hf] at hn
  · cases hn
  · split at hn
    · split at hn
      · rename_i hin
        cases hn
        exact .inl ⟨idles_push hf hin, rfl⟩
      · rename_i hout
        cases hn
        exact .inl ⟨idles_enter hf (by simpa using hout), rfl⟩
    · cases hn
      refine .inl ⟨idles_frames ?_ (.inl ?_) ?_ ?_, rfl⟩ <;>
        simp [hf, weights, Frame.weight, Frame.pending]
  · split at hn
    · rename_i hq
      cases hn
      exact .inl ⟨idles_leave hf hq, rfl⟩
    · rename_i p q hq
      cases hn
      exact .inl ⟨idles_pop hf hq, rfl⟩
  · cases hn
    refine .inl ⟨idles_frames ?_ (.inr ?_) ?_ ?_, rfl⟩ <;>
      simp [hf, weights, Frame.weight, Frame.pending]
  · split at hn
    · cases hn
    · rename_i c hc
      split at hn
      · cases hn
      · rename_i hbefore
        cases hn
        exact .inr (.inl ⟨b, c, k, rfl, hc, hbefore, rfl, rfl⟩)
  · split at hn
    · cases hn
    · rename_i c hc
      cases hn
      exact .inr (.inr ⟨b, c, k, rfl, hc, rfl, rfl⟩)

theorem stuck_cases (hn : next v s = none) :
    s.frames = [] ∨
    (∃ b k, s.frames = .unref (some b) :: k ∧ ∀ c, s.heap b = some c → v.before c.refCount = 0) ∨
    ∃ b k, s.frames = .deleteBlock b :: k ∧ s.heap b = none := by
  rcases hf : s.frames with _ | ⟨p | _ | (_ | b) | b, k⟩ <;> simp only [next, hf] at hn
  · exact .inl rfl
  · split at hn
    · split at hn
      · exact absurd hn (by simp)
      · exact absurd hn (by simp)
    · exact absurd hn (by simp)
  · split at hn
    · exact absurd hn (by simp)
    · exact absurd hn (by simp)
  · exact absurd hn (by simp)
  · refine .inr (.inl ⟨b, k, rfl, fun c hc => ?_⟩)
    rw [hc] at hn
    by_contra hbefore
    simp [hbefore] at hn
  · refine .inr (.inr ⟨b, k, rfl, ?_⟩)
    split at hn
    · assumption
    · exact absurd hn (by simp)

theorem Loops.of_frames (hl : Loops s) (hframes : s'.frames.count .loop = s.frames.count .loop)
    (hin : s'.inProgress = s.inProgress) (hq : s'.queue = s.queue) : Loops s' where
  frames := by rw [hframes, hin, hl.frames]
  queue hout := by rw [hq, hl.queue (hin ▸ hout)]

theorem Loops.release {b : B} {c : Block B} {k : List (Frame B)} {last : Bool} (hl : Loops s)
    (hf : s.frames = .unref (some b) :: k) : Loops (fetchSub s b c last k) := by
  cases last with
  | true => exact hl.of_frames (by simp [fetchSub, hf, List.count_eq_zero]) rfl rfl
  | false => exact hl.of_frames (by simp [fetchSub, hf]) rfl rfl

theorem Loops.step (hl : Loops s) (hn : next v s = some (s', e)) : Loops s' := by
  rcases next_cases hn with ⟨hs, -⟩ | ⟨b, c, k, hf, -, -, rfl, -⟩ | ⟨b, c, k, hf, -, rfl, -⟩
  · exact hs.loops hl
  · exact hl.release hf
  · exact hl.of_frames (by simp [hf]) rfl rfl

section
variable [Fintype B] {remaining : List (Option B)} {b x : B} {c : Block B} {k : List (Frame B)}

theorem refs_of_idles (h : Idles s s') (b : B) : s'.refs remaining b = s.refs remaining b := by
  rw [State.refs, State.refs, refs, refs, List.count_append, List.count_append, h.pending b, h.heap]

omit [DecidableEq B] [Fintype B] in
theorem flatMap_destroy (ps : List (Option B)) :
    (ps.map Frame.destroy).flatMap Frame.pending = ps := by
  induction ps with
  | nil => rfl
  | cons p ps ih => rw [List.map_cons, List.flatMap_cons, ih]; rfl

theorem refs_fetchSub (hf : s.frames = .unref (some b) :: k) (hb : s.heap b = some c)
    (last : Bool) (x : B) :
    (fetchSub s b c last k).refs remaining x + (if x = b then 1 else 0) = s.refs remaining x := by
  have hmembers : members s.heap b = c.members := members_some hb
  have hpending : s.pending.count (some x) =
      s.queue.count (some x) + (if x = b then 1 else 0) +
        (k.flatMap Frame.pending).count (some x) := by
    rw [State.pending, hf, List.flatMap_cons, List.count_append, List.count_append,
      Frame.pending, List.count_singleton]
    simp only [beq_iff_eq, Option.some.injEq, eq_comm (a := b)]
    omega
  cases last with
  | true =>
    have howned := owned_update s.heap b x (some ⟨c.refCount - 1, []⟩)
    rw [hmembers] at howned
    simp only [members, Function.update_self, List.count_nil] at howned
    simp only [State.refs, refs, fetchSub, if_true, State.pending, List.count_append,
      List.flatMap_append, flatMap_destroy, List.flatMap_cons] at hpending ⊢
    simp only [Frame.pending, List.count_nil]
    omega
  | false =>
    have howned : owned (Function.update s.heap b (some { c with refCount := c.refCount - 1 })) x =
        owned s.heap x := by
      apply owned_update_of_members
      rw [hmembers, members, Function.update_self]
    simp only [State.refs, refs, fetchSub, Bool.false_eq_true, if_false, State.pending,
      List.count_append, howned] at hpending ⊢
    omega

theorem refs_deleteBlock (hf : s.frames = .deleteBlock b :: k) (hmembers : members s.heap b = [])
    (x : B) :
    State.refs { s with heap := Function.update s.heap b none, frames := k } remaining x =
      s.refs remaining x := by
  have howned : owned (Function.update s.heap b none) x = owned s.heap x := by
    apply owned_update_of_members
    rw [hmembers, members, Function.update_self]
  simp only [State.refs, refs, State.pending, howned, hf, List.flatMap_cons, Frame.pending,
    List.nil_append]

omit [Fintype B] in
theorem refs_pos_of_unref (hf : s.frames = .unref (some b) :: k) : 0 < s.pending.count (some b) := by
  apply List.count_pos_iff.mpr
  rw [State.pending, hf]
  simp [Frame.pending]

theorem weight_fetchSub (hf : s.frames = .unref (some b) :: k) (hb : s.heap b = some c)
    (last : Bool) : (fetchSub s b c last k).weight < s.weight := by
  have hmembers : members s.heap b = c.members := members_some hb
  cases last with
  | true =>
    have hsum := sum_members_update s.heap b (some ⟨c.refCount - 1, []⟩) List.length
    rw [hmembers] at hsum
    simp only [members, Function.update_self, List.length_nil] at hsum
    simp only [State.weight, fetchSub, if_true, hf, weights_append, weights_destroy, weights,
      Frame.weight]
    simp only [members] at hsum ⊢
    omega
  | false =>
    have hsum := sum_members_update s.heap b (some { c with refCount := c.refCount - 1 })
      List.length
    rw [hmembers] at hsum
    simp only [members, Function.update_self] at hsum
    simp only [State.weight, fetchSub, Bool.false_eq_true, if_false, hf, weights, Frame.weight]
    simp only [members] at hsum ⊢
    omega

theorem weight_next (hn : next v s = some (s', e)) : s'.weight < s.weight := by
  rcases next_cases hn with ⟨h, -⟩ | ⟨b, c, k, hf, hb, -, rfl, -⟩ | ⟨b, c, k, hf, hb, rfl, -⟩
  · have hbound := h.lighter
    rw [State.weight, State.weight, h.heap]
    omega
  · exact weight_fetchSub hf hb _
  · have hsum := sum_members_update s.heap b none List.length
    simp only [members, Function.update_self, List.length_nil] at hsum
    simp only [State.weight, hf, weights, Frame.weight]
    simp only [members] at hsum ⊢
    omega

/-- Every step takes something off the call stack for good. -/
theorem exists_stop (v : Variant) (s₁ s : State B) :
    ∃ es s', (machine v s₁).Path s es s' ∧ next v s' = none := by
  induction hw : s.weight using Nat.strong_induction_on generalizing s with
  | h w ih =>
    cases hn : next v s with
    | none => exact ⟨[], s, .nil s, hn⟩
    | some out =>
      obtain ⟨u, e⟩ := out
      obtain ⟨es, s', hp, hstop⟩ := ih u.weight (hw ▸ weight_next hn) u rfl
      exact ⟨e :: es, s', (Machine.Path.single ⟨(), hn⟩).trans hp, hstop⟩

structure Inv (v : Variant) (h : Heap B) (remaining : List (Option B)) (s₁ : State B)
    (es : List (Event B)) (s : State B) : Prop where
  le : ∀ b, s.refs remaining b ≤ s₁.refs remaining b
  count : ∀ b c, s.heap b = some c → c.refCount = s.refs remaining b
  tested : ∀ b n, s.refs remaining b < n → n ≤ s₁.refs remaining b → v.before n ≠ 0
  deleted : ∀ b, es.count (.deleted b) + s.frames.count (.deleteBlock b) =
    s₁.frames.count (.deleteBlock b) +
      ((Finset.Ioc (s.refs remaining b) (s₁.refs remaining b)).filter fun n => v.before n = 1).card
  gone : ∀ b, s.heap b = none ↔ h b = none ∨ 0 < es.count (.deleted b)
  emptied : ∀ b c, s.heap b = some c → .deleteBlock b ∈ s.frames → c.members = []
  intact : ∀ b c, s.heap b = some c → .deleteBlock b ∉ s.frames →
    ∃ c₀, h b = some c₀ ∧ c.members = c₀.members

variable {h : Heap B} {es : List (Event B)}

omit [Fintype B] in
theorem count_snoc_silent (b : B) :
    (es ++ [Event.silent]).count (Event.deleted b) = es.count (Event.deleted b) := by
  rw [List.count_append, List.count_singleton]
  rfl

theorem Inv.idles (hi : Inv v h remaining s₁ es s) (hs : Idles s s') :
    Inv v h remaining s₁ (es ++ [.silent]) s' := by
  have hrefs : ∀ b, s'.refs remaining b = s.refs remaining b := refs_of_idles hs
  have hmem : ∀ b, .deleteBlock b ∈ s'.frames ↔ .deleteBlock b ∈ s.frames := by
    intro b
    rw [← List.count_pos_iff (a := Frame.deleteBlock b), hs.deleting b, List.count_pos_iff]
  constructor
  case deleted =>
    intro b
    rw [count_snoc_silent, hs.deleting b, hrefs b]
    exact hi.deleted b
  case gone =>
    intro b
    rw [count_snoc_silent, hs.heap]
    exact hi.gone b
  all_goals simp only [hrefs, hmem, hs.heap]
  case le => exact hi.le
  case count => exact hi.count
  case tested => exact hi.tested
  case emptied => exact hi.emptied
  case intact => exact hi.intact

theorem Ioc_filter_card {f : ℕ → Prop} [DecidablePred f] {m n : ℕ} (hlt : m < n) :
    ((Finset.Ioc m n).filter f).card =
      ((Finset.Ioc (m + 1) n).filter f).card + if f (m + 1) then 1 else 0 := by
  have hsplit : Finset.Ioc m n = insert (m + 1) (Finset.Ioc (m + 1) n) := by
    ext i
    simp only [Finset.mem_Ioc, Finset.mem_insert]
    omega
  have hnew : m + 1 ∉ (Finset.Ioc (m + 1) n).filter f := by
    simp
  rw [hsplit, Finset.filter_insert]
  split
  · rw [Finset.card_insert_of_notMem hnew]
  · rfl

omit [Fintype B] in
theorem fetchSub_heap (last : Bool) :
    (fetchSub s b c last k).heap = Function.update s.heap b
      (some ⟨c.refCount - 1, if last then [] else c.members⟩) := by
  cases last <;> rfl

omit [Fintype B] in
theorem deleteBlock_beq (b x : B) :
    (Frame.deleteBlock b == Frame.deleteBlock x) = decide (x = b) := by
  rw [Bool.eq_iff_iff, beq_iff_eq, Frame.deleteBlock.injEq, decide_eq_true_iff]
  exact eq_comm

omit [Fintype B] in
theorem deleted_beq (b x : B) : (Event.deleted b == Event.deleted x) = decide (x = b) := by
  rw [Bool.eq_iff_iff, beq_iff_eq, Event.deleted.injEq, decide_eq_true_iff]
  exact eq_comm

omit [Fintype B] in
theorem fetchSub_deleting (last : Bool) (x : B) :
    (fetchSub s b c last k).frames.count (.deleteBlock x) =
      k.count (.deleteBlock x) + if last = true ∧ x = b then 1 else 0 := by
  have hmembers : (c.members.map Frame.destroy).count (.deleteBlock x) = 0 := by
    apply List.count_eq_zero.mpr
    simp
  cases last with
  | true =>
    simp only [fetchSub, if_true, List.count_append, hmembers, List.count_cons, deleteBlock_beq,
      decide_eq_true_iff, true_and, Nat.zero_add]
  | false => simp [fetchSub]

structure Releases (remaining : List (Option B)) (b : B) (c : Block B) (last : Bool)
    (s s' : State B) : Prop where
  self : s'.refs remaining b + 1 = s.refs remaining b
  others : ∀ x, x ≠ b → s'.refs remaining x = s.refs remaining x
  heap : s'.heap = Function.update s.heap b
    (some ⟨c.refCount - 1, if last then [] else c.members⟩)
  deleting : ∀ x, s'.frames.count (.deleteBlock x) =
    s.frames.count (.deleteBlock x) + if last = true ∧ x = b then 1 else 0

theorem releases_fetchSub (hf : s.frames = .unref (some b) :: k) (hb : s.heap b = some c)
    (last : Bool) : Releases remaining b c last s (fetchSub s b c last k) where
  self := by
    rw [← refs_fetchSub hf hb last b, if_pos rfl]
  others x hx := by
    rw [← refs_fetchSub hf hb last x, if_neg hx, Nat.add_zero]
  heap := fetchSub_heap last
  deleting x := by
    rw [fetchSub_deleting, hf]
    simp

section
variable {last : Bool} (hr : Releases remaining b c last s s')
include hr

theorem Releases.heap_cases {d : Block B} (hx : s'.heap x = some d) :
    (x = b ∧ d = ⟨c.refCount - 1, if last then [] else c.members⟩) ∨
      x ≠ b ∧ s.heap x = some d := by
  rw [hr.heap] at hx
  rcases eq_or_ne x b with rfl | hne
  · rw [Function.update_self, Option.some.injEq] at hx
    exact .inl ⟨rfl, hx.symm⟩
  · rw [Function.update_of_ne hne] at hx
    exact .inr ⟨hne, hx⟩

theorem Releases.deleteBlock_mem :
    .deleteBlock x ∈ s'.frames ↔ .deleteBlock x ∈ s.frames ∨ last = true ∧ x = b := by
  rw [← List.count_pos_iff (a := Frame.deleteBlock x), hr.deleting x]
  split
  · rename_i hlast
    exact iff_of_true (Nat.succ_pos _) (.inr hlast)
  · rename_i hlast
    rw [Nat.add_zero, List.count_pos_iff, or_iff_left hlast]

theorem Releases.refs_le (x : B) : s'.refs remaining x ≤ s.refs remaining x := by
  rcases eq_or_ne x b with rfl | hne
  · have := hr.self
    omega
  · exact (hr.others x hne).le

end

theorem Inv.release_deleted (hi : Inv v h remaining s₁ es s) (hb : s.heap b = some c)
    (hr : Releases remaining b c (v.before c.refCount = 1) s s') (x : B) :
    es.count (.deleted x) + s'.frames.count (.deleteBlock x) =
      s₁.frames.count (.deleteBlock x) +
        ((Finset.Ioc (s'.refs remaining x) (s₁.refs remaining x)).filter
          fun n => v.before n = 1).card := by
  have hdeleted := hi.deleted x
  rw [hr.deleting x]
  rcases eq_or_ne x b with rfl | hne
  · have hself := hr.self
    have hlt : s'.refs remaining x < s₁.refs remaining x :=
      (Nat.lt_of_succ_le hself.le).trans_le (hi.le x)
    have hcount := hi.count x c hb
    rw [← hcount] at hdeleted
    rw [Ioc_filter_card hlt, hself, ← hcount]
    simp only [decide_eq_true_iff, and_true]
    omega
  · rw [hr.others x hne, if_neg fun hx => hne hx.2]
    omega

theorem Inv.release (hi : Inv v h remaining s₁ es s) (hb : s.heap b = some c)
    (hbefore : v.before c.refCount ≠ 0)
    (hr : Releases remaining b c (v.before c.refCount = 1) s s') :
    Inv v h remaining s₁ (es ++ [.silent]) s' := by
  constructor
  case le =>
    intro x
    exact (hr.refs_le x).trans (hi.le x)
  case count =>
    intro x d hx
    rcases hr.heap_cases hx with ⟨rfl, rfl⟩ | ⟨hne, hx⟩
    · have hcount := hi.count x c hb
      have hself := hr.self
      dsimp only
      omega
    · rw [hr.others x hne]
      exact hi.count x d hx
  case tested =>
    intro x n hlow hhigh
    rcases Nat.lt_or_ge (s.refs remaining x) n with hlt | hge
    · exact hi.tested x n hlt hhigh
    · -- the count that has just been tested
      obtain rfl : x = b := by
        by_contra hne
        rw [hr.others x hne] at hlow
        omega
      have hcount := hi.count x c hb
      have hself := hr.self
      obtain rfl : n = c.refCount := by omega
      exact hbefore
  case deleted =>
    intro x
    rw [count_snoc_silent]
    exact hi.release_deleted hb hr x
  case gone =>
    intro x
    rw [count_snoc_silent, hr.heap, ← hi.gone x]
    rcases eq_or_ne x b with rfl | hne
    · simp [hb]
    · rw [Function.update_of_ne hne]
  case emptied =>
    intro x d hx hdel
    rw [hr.deleteBlock_mem] at hdel
    rcases hr.heap_cases hx with ⟨rfl, rfl⟩ | ⟨hne, hx⟩
    · rcases hdel with hdel | ⟨hlast, -⟩
      · dsimp only
        rw [hi.emptied x c hb hdel, ite_self]
      · exact if_pos hlast
    · exact hi.emptied x d hx (hdel.resolve_right fun h => hne h.2)
  case intact =>
    intro x d hx hdel
    rw [hr.deleteBlock_mem, not_or] at hdel
    rcases hr.heap_cases hx with ⟨rfl, rfl⟩ | ⟨hne, hx⟩
    · obtain ⟨c₀, hc₀, hmembers⟩ := hi.intact x c hb hdel.1
      refine ⟨c₀, hc₀, ?_⟩
      dsimp only
      rw [if_neg fun hlast => hdel.2 ⟨hlast, rfl⟩, hmembers]
    · exact hi.intact x d hx hdel.1

theorem Inv.delete (hi : Inv v h remaining s₁ es s) (hf : s.frames = .deleteBlock b :: k)
    (hb : s.heap b = some c) :
    Inv v h remaining s₁ (es ++ [.deleted b])
      { s with heap := Function.update s.heap b none, frames := k } := by
  have hempty : c.members = [] := by
    apply hi.emptied b c hb
    rw [hf]
    exact List.mem_cons_self
  have hrefs : ∀ x, State.refs { s with heap := Function.update s.heap b none, frames := k }
      remaining x = s.refs remaining x := by
    apply refs_deleteBlock hf
    rw [members_some hb, hempty]
  have hdeleting : ∀ x, s.frames.count (.deleteBlock x) =
      k.count (.deleteBlock x) + if x = b then 1 else 0 := by
    intro x
    rw [hf, List.count_cons, deleteBlock_beq]
    simp only [decide_eq_true_iff]
  have hevents : ∀ x, (es ++ [Event.deleted b]).count (Event.deleted x) =
      es.count (Event.deleted x) + if x = b then 1 else 0 := by
    intro x
    rw [List.count_append, List.count_singleton, deleted_beq]
    simp only [decide_eq_true_iff]
  have hmem : ∀ x, x ≠ b → (Frame.deleteBlock x ∈ k ↔ Frame.deleteBlock x ∈ s.frames) := by
    intro x hx
    rw [hf, List.mem_cons, or_iff_right]
    intro heq
    exact hx (Frame.deleteBlock.inj heq)
  have hleft : ∀ x d, Function.update s.heap b none x = some d → x ≠ b ∧ s.heap x = some d := by
    intro x d hx
    rcases eq_or_ne x b with rfl | hne
    · rw [Function.update_self] at hx
      cases hx
    · rw [Function.update_of_ne hne] at hx
      exact ⟨hne, hx⟩
  constructor
  case le =>
    intro x
    rw [hrefs x]
    exact hi.le x
  case count =>
    intro x d hx
    rw [hrefs x]
    exact hi.count x d (hleft x d hx).2
  case tested =>
    intro x n
    rw [hrefs x]
    exact hi.tested x n
  case deleted =>
    intro x
    have hdeleted := hi.deleted x
    have hx := hdeleting x
    rw [hrefs x, hevents x]
    dsimp only
    omega
  case gone =>
    intro x
    rw [hevents x]
    rcases eq_or_ne x b with rfl | hne
    · simp
    · simp only [Function.update_of_ne hne, if_neg hne, Nat.add_zero]
      exact hi.gone x
  case emptied =>
    intro x d hx hdel
    obtain ⟨hne, hx⟩ := hleft x d hx
    exact hi.emptied x d hx ((hmem x hne).mp hdel)
  case intact =>
    intro x d hx hdel
    obtain ⟨hne, hx⟩ := hleft x d hx
    exact hi.intact x d hx (mt (hmem x hne).mpr hdel)

theorem Inv.step (hi : Inv v h remaining s₁ es s) (hn : next v s = some (s', e)) :
    Inv v h remaining s₁ (es ++ [e]) s' := by
  rcases next_cases hn with ⟨hs, rfl⟩ | ⟨b, c, k, hf, hb, hbefore, rfl, rfl⟩ |
    ⟨b, c, k, hf, hb, rfl, rfl⟩
  · exact hi.idles hs
  · exact hi.release hb hbefore (releases_fetchSub hf hb _)
  · exact hi.delete hf hb

theorem Inv.refs_step (hi : Inv v h remaining s₁ es s) (hn : next v s = some (s', e)) (b : B) :
    s.refs remaining b ≤ s'.refs remaining b + s.pending.count (some b) := by
  rcases next_cases hn with ⟨hs, -⟩ | ⟨x, c, k, hf, hx, -, rfl, -⟩ | ⟨x, c, k, hf, hx, rfl, -⟩
  · rw [refs_of_idles hs]
    exact Nat.le_add_right _ _
  · have hrefs : (fetchSub s x c (v.before c.refCount = 1) k).refs remaining b +
        (if b = x then 1 else 0) = s.refs remaining b := refs_fetchSub hf hx _ b
    have hpos := refs_pos_of_unref hf
    split at hrefs
    · subst b
      omega
    · omega
  · refine (refs_deleteBlock hf ?_ b).ge.trans (Nat.le_add_right _ _)
    rw [members_some hx]
    apply hi.emptied x c hx
    rw [hf]
    exact List.mem_cons_self

end

end LockFree.SharedPtrDestruction
