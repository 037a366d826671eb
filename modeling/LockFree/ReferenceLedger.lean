import Mathlib.Algebra.BigOperators.Group.Finset.Basic
import Mathlib.Algebra.Order.BigOperators.Group.Finset
import LockFree.AtomicSharedPtr
import LockFree.TransitionRuns

/-!
# The ledger of references

The references to a control block are the word `head_`, the `prev_` of nodes, and what
the threads hold: `SharedPtr`s, handles, and the amounts of flushes in progress. They are
counted by `refCount` and, for the block of `head_`, by the local count. A loose
reference is one whose holder still expects to find it in the local count.
-/

namespace LockFree.AtomicSharedPtr
open TransitionRuns

section
variable {w : ℕ}

theorem pointer_eq (w : ℕ) : pointer w = w / 65536 := Nat.shiftRight_eq_div_pow w 16

theorem localCount_eq (w : ℕ) : localCount w = w % 65536 :=
  Nat.and_two_pow_sub_one_eq_mod w 16

theorem pack_eq (block : ℕ) : pack block = block * 65536 := Nat.shiftLeft_eq block 16

@[simp] theorem pointer_pack (block : ℕ) : pointer (pack block) = block := by
  rw [pointer_eq, pack_eq]
  omega

@[simp] theorem localCount_pack (block : ℕ) : localCount (pack block) = 0 := by
  rw [localCount_eq, pack_eq]
  omega

theorem packed_succ (h : localCount w < 65535) :
    pointer (w + 1) = pointer w ∧ localCount (w + 1) = localCount w + 1 := by
  rw [localCount_eq] at h
  rw [pointer_eq, pointer_eq, localCount_eq, localCount_eq]
  omega

theorem packed_pred (h : localCount w ≠ 0) :
    pointer (w - 1) = pointer w ∧ localCount (w - 1) + 1 = localCount w := by
  rw [localCount_eq] at h
  rw [pointer_eq, pointer_eq, localCount_eq, localCount_eq]
  omega

theorem packed_clear (w : ℕ) :
    pointer (w - localCount w) = pointer w ∧ localCount (w - localCount w) = 0 := by
  rw [pointer_eq, pointer_eq, localCount_eq, localCount_eq]
  omega

end

def single (p b : ℕ) : ℕ := if p = b then 1 else 0

@[simp] theorem single_self (b : ℕ) : single b b = 1 := if_pos rfl

theorem count_cons_single (block b : ℕ) (queue : List ℕ) :
    (block :: queue).count b = queue.count b + single block b := by
  simp only [List.count_cons, single, beq_iff_eq]

def prevRef {T : Type*} (b : ℕ) : Option (Node T) → ℕ
  | none => 0
  | some node => single node.prev b

section
variable {T : Type*} (g : Shared T) (b : ℕ)

def Shared.headRef : ℕ := if g.destroyed then 0 else single (pointer g.packedPtr) b

def Shared.headCount : ℕ :=
  if g.destroyed then 0 else single (pointer g.packedPtr) b * localCount g.packedPtr

def Shared.prevs : ℕ := ∑ n ∈ Finset.range (g.created + 1), prevRef b (g.nodes n)

/-- `R` counts what the threads hold. -/
def Shared.owners (R : ℕ → ℕ) : ℕ := g.headRef b + g.prevs b + R b

theorem Shared.headCount_eq_zero {g : Shared T} {b : ℕ} (h : g.headRef b = 0) :
    g.headCount b = 0 := by
  rw [headRef] at h
  rw [headCount]
  split
  · rfl
  · rename_i halive
    rw [if_neg halive] at h
    rw [h, Nat.zero_mul]

end

/-- `refCount` and the local count add up to the owners, and what has owners is live. Block
`b` is made for the data `δ b`, which is null or has the number of the block. -/
structure Balanced {T : Type*} (δ : ℕ → ℕ) (g : Shared T) (R L : ℕ → ℕ) : Prop where
  value : ∀ b, δ b = 0 ∨ δ b = b
  counted : ∀ b c, g.blocks b = some c → c.refCount + g.headCount b = g.owners b R
  owned : ∀ b, b ≠ 0 → ((g.blocks b).isSome ↔ 0 < g.owners b R)
  loose : ∀ b, L b ≤ R b
  head : ∀ b, g.headCount b ≤ L b
  data : ∀ b c, g.blocks b = some c → c.data = δ b ∧ b ≠ 0
  node : ∀ n, (g.nodes n).isSome ↔ δ n ≠ 0 ∧ (g.blocks n).isSome
  fresh : ∀ b, g.created < b → g.blocks b = none
  pointer_ne : g.destroyed = false → pointer g.packedPtr ≠ 0

section
variable {T : Type*} {δ : ℕ → ℕ} {g g' : Shared T} {R R' L L' : ℕ → ℕ} {b d p : ℕ}
  {c : ControlBlock}

namespace Balanced

theorem exists_block (h : Balanced δ g R L) (hb : b ≠ 0) (hR : 0 < R b) :
    ∃ c, g.blocks b = some c := by
  have hlive := (h.owned b hb).mpr (by rw [Shared.owners]; omega)
  exact Option.isSome_iff_exists.mp hlive

/-- A live block has a positive `refCount`: the word `head_` has its reference there. -/
theorem refCount_pos (h : Balanced δ g R L) (hc : g.blocks b = some c) : 0 < c.refCount := by
  have hcounted := h.counted b c hc
  have howned := (h.owned b (h.data b c hc).2).mp (by rw [hc]; rfl)
  have hhead := h.head b
  have hloose := h.loose b
  rw [Shared.owners] at hcounted howned
  have hcount : g.headRef b = 0 → g.headCount b = 0 := Shared.headCount_eq_zero
  omega

theorem of_delta (h : Balanced δ g R L)
    (hblocks : ∀ b, (g'.blocks b).map ControlBlock.data = (g.blocks b).map ControlBlock.data)
    (hnodes : ∀ n, (g'.nodes n).isSome = (g.nodes n).isSome) (hcreated : g'.created = g.created)
    (hptr : g'.destroyed = false → pointer g'.packedPtr ≠ 0)
    (hdelta : ∀ b c c', g.blocks b = some c → g'.blocks b = some c' →
      c'.refCount + g'.headCount b + g.owners b R = c.refCount + g.headCount b + g'.owners b R')
    (howned : ∀ b, b ≠ 0 → (0 < g'.owners b R' ↔ 0 < g.owners b R)) (hloose : ∀ b, L' b ≤ R' b)
    (hhead : ∀ b, g'.headCount b ≤ L' b) : Balanced δ g' R' L' := by
  have hsome : ∀ b, (g'.blocks b).isSome = (g.blocks b).isSome := by
    intro b
    rw [← Option.isSome_map, hblocks, Option.isSome_map]
  have hold : ∀ b c', g'.blocks b = some c' → ∃ c, g.blocks b = some c ∧ c.data = c'.data := by
    intro b c' hc'
    have := hblocks b
    rw [hc', Option.map_some] at this
    exact Option.map_eq_some_iff.mp this.symm
  refine ⟨h.value, fun b c' hc' => ?_, fun b hb => ?_, hloose, hhead, fun b c' hc' => ?_,
    fun n => ?_, fun b hb => ?_, hptr⟩
  · obtain ⟨c, hc, -⟩ := hold b c' hc'
    have := hdelta b c c' hc hc'
    have := h.counted b c hc
    omega
  · rw [hsome, howned b hb]
    exact h.owned b hb
  · obtain ⟨c, hc, hdata⟩ := hold b c' hc'
    rw [← hdata]
    exact h.data b c hc
  · rw [hnodes, hsome]
    exact h.node n
  · rw [hcreated] at hb
    have := hsome b
    rw [h.fresh b hb, Option.isSome_none] at this
    exact Option.not_isSome_iff_eq_none.mp (by rw [this]; decide)

theorem addLocal (h : Balanced δ g R L) (halive : g.destroyed = false)
    (hcount : localCount g.packedPtr < 65535)
    (hR : ∀ b, R' b = R b + single (pointer g.packedPtr) b)
    (hL : ∀ b, L' b = L b + single (pointer g.packedPtr) b) :
    Balanced δ { g with packedPtr := g.packedPtr + 1 } R' L' := by
  obtain ⟨hp, hn⟩ := packed_succ hcount
  have hsucc : ∀ b, Shared.headCount { g with packedPtr := g.packedPtr + 1 } b =
      g.headCount b + single (pointer g.packedPtr) b := by
    intro b
    simp only [Shared.headCount, halive, hp, hn, Nat.mul_succ]
    rfl
  have hsame : ∀ b, Shared.headRef { g with packedPtr := g.packedPtr + 1 } b = g.headRef b := by
    intro b
    simp only [Shared.headRef, hp]
  have howners : ∀ b, Shared.owners { g with packedPtr := g.packedPtr + 1 } b R' =
      g.owners b R + single (pointer g.packedPtr) b := by
    intro b
    rw [Shared.owners, hsame, hR, Shared.owners, Nat.add_assoc, Nat.add_assoc, Nat.add_assoc]
    rfl
  refine h.of_delta (fun _ => rfl) (fun _ => rfl) rfl ?_ ?_ ?_ ?_ ?_
  · intro hd
    rw [hp]
    exact h.pointer_ne hd
  · intro b c c' hc hc'
    obtain rfl : c = c' := Option.some.inj (hc.symm.trans hc')
    rw [howners, hsucc]
    omega
  · intro b hb
    rw [howners]
    have : 0 < single (pointer g.packedPtr) b → 0 < g.headRef b := by
      rw [Shared.headRef, halive]
      exact id
    rw [Shared.owners]
    omega
  · intro b
    have := h.loose b
    rw [hR, hL]
    omega
  · intro b
    have := h.head b
    rw [hsucc, hL]
    omega

theorem subLocal (h : Balanced δ g R L) (halive : g.destroyed = false)
    (hcount : localCount g.packedPtr ≠ 0)
    (hR : ∀ b, R b = R' b + single (pointer g.packedPtr) b)
    (hL : ∀ b, L b = L' b + single (pointer g.packedPtr) b) :
    Balanced δ { g with packedPtr := g.packedPtr - 1 } R' L' := by
  obtain ⟨hp, hn⟩ := packed_pred hcount
  have hpred : ∀ b, g.headCount b = Shared.headCount { g with packedPtr := g.packedPtr - 1 } b +
      single (pointer g.packedPtr) b := by
    intro b
    simp only [Shared.headCount, halive, hp, ← hn, Nat.mul_succ]
    rfl
  have hsame : ∀ b, Shared.headRef { g with packedPtr := g.packedPtr - 1 } b = g.headRef b := by
    intro b
    simp only [Shared.headRef, hp]
  have howners : ∀ b, g.owners b R =
      Shared.owners { g with packedPtr := g.packedPtr - 1 } b R' +
        single (pointer g.packedPtr) b := by
    intro b
    rw [Shared.owners, Shared.owners, hsame, hR, ← Nat.add_assoc]
    rfl
  refine h.of_delta (fun _ => rfl) (fun _ => rfl) rfl ?_ ?_ ?_ ?_ ?_
  · intro hd
    rw [hp]
    exact h.pointer_ne hd
  · intro b c c' hc hc'
    obtain rfl : c = c' := Option.some.inj (hc.symm.trans hc')
    rw [howners, hpred]
    omega
  · intro b hb
    rw [howners]
    have : 0 < single (pointer g.packedPtr) b → 0 < g.headRef b := by
      rw [Shared.headRef, halive]
      exact id
    rw [← hsame] at this
    rw [Shared.owners]
    omega
  · intro b
    have := h.loose b
    rw [hR, hL] at this
    omega
  · intro b
    have := h.head b
    rw [hpred, hL] at this
    omega

theorem decide (h : Balanced δ g R L)
    (hgone : pointer g.packedPtr ≠ p ∨ localCount g.packedPtr = 0)
    (hL : ∀ b, L b = L' b + single p b) : Balanced δ g R L' := by
  refine ⟨h.value, h.counted, h.owned, fun b => ?_, fun b => ?_, h.data, h.node, h.fresh,
    h.pointer_ne⟩
  · have := h.loose b
    rw [hL] at this
    omega
  · have hhead := h.head b
    rw [hL] at hhead
    by_cases hpb : p = b
    · subst hpb
      have hzero : g.headCount p = 0 := by
        rw [Shared.headCount]
        split
        · rfl
        · rcases hgone with hne | hzero
          · rw [single, if_neg hne, Nat.zero_mul]
          · rw [hzero, Nat.mul_zero]
      omega
    · rw [single, if_neg hpb] at hhead
      exact hhead

theorem setRefCount {n : ℕ} (h : Balanced δ g R L) (hc : g.blocks b = some c)
    (hdelta : n + R b = c.refCount + R' b) (hother : ∀ x, x ≠ b → R' x = R x)
    (hpos : 0 < g.owners b R') (hloose : ∀ x, L x ≤ R' x) :
    Balanced δ (g.setRefCount b c n) R' L := by
  have hself : (g.setRefCount b c n).blocks b = some { c with refCount := n } :=
    Function.update_self ..
  have hne : ∀ x, x ≠ b → (g.setRefCount b c n).blocks x = g.blocks x := fun x hx =>
    Function.update_of_ne hx _ _
  have howners : ∀ x R, (g.setRefCount b c n).owners x R = g.owners x R := fun _ _ => rfl
  have hcount : ∀ x, (g.setRefCount b c n).headCount x = g.headCount x := fun _ => rfl
  refine h.of_delta (fun x => ?_) (fun _ => rfl) rfl h.pointer_ne ?_ ?_ hloose h.head
  · by_cases hx : x = b
    · subst hx
      rw [hself, hc]
      rfl
    · rw [hne x hx]
  · intro x c₁ c₂ hc₁ hc₂
    rw [howners, hcount]
    by_cases hx : x = b
    · subst hx
      rw [hself] at hc₂
      cases hc₂
      obtain rfl : c₁ = c := Option.some.inj (hc₁.symm.trans hc)
      simp only [Shared.owners]
      omega
    · rw [hne x hx] at hc₂
      obtain rfl : c₁ = c₂ := Option.some.inj (hc₁.symm.trans hc₂)
      simp only [Shared.owners, hother x hx]
  · intro x hx0
    rw [howners]
    by_cases hx : x = b
    · subst hx
      have := (h.owned x hx0).mp (by rw [hc]; rfl)
      exact ⟨fun _ => this, fun _ => hpos⟩
    · rw [Shared.owners, Shared.owners, hother x hx]

theorem fetchAdd (h : Balanced δ g R L) (R' : ℕ → ℕ) (hb : b ≠ 0) (hlive : 0 < g.owners b R)
    (hR : ∀ x, R' x = R x + d * single b x) (hd : 0 < d) :
    ∃ before, before ≠ 0 ∧ ∃ c, AtomicSharedPtr.fetchAdd g b d =
      some (before, g.setRefCount b c (c.refCount + d)) ∧
        Balanced δ (g.setRefCount b c (c.refCount + d)) R' L := by
  obtain ⟨c, hc⟩ := Option.isSome_iff_exists.mp ((h.owned b hb).mpr hlive)
  refine ⟨c.refCount, (h.refCount_pos hc).ne', c, by simp only [AtomicSharedPtr.fetchAdd, hc], ?_⟩
  refine h.setRefCount hc ?_ (fun x hx => ?_) ?_ fun x => ?_
  · rw [hR, single_self]
    omega
  · rw [hR, single, if_neg (Ne.symm hx), Nat.mul_zero, Nat.add_zero]
  · rw [Shared.owners, hR, single_self]
    omega
  · rw [hR]
    exact Nat.le_add_right_of_le (h.loose x)

theorem fetchSub (h : Balanced δ g R L) (R' : ℕ → ℕ) (hb : b ≠ 0)
    (hR : ∀ x, R x = R' x + d * single b x) (hpos : 0 < R' b) (hloose : ∀ x, L x ≤ R' x) :
    ∃ before c, AtomicSharedPtr.fetchSub g b d =
      some (before, g.setRefCount b c (c.refCount - d)) ∧
        Balanced δ (g.setRefCount b c (c.refCount - d)) R' L := by
  obtain ⟨c, hc⟩ := h.exists_block hb (by rw [hR]; omega)
  have hle : d ≤ c.refCount := by
    have hcounted := h.counted b c hc
    have hhead := h.head b
    have hl := hloose b
    rw [Shared.owners, hR, single_self] at hcounted
    omega
  have howners : 0 < g.owners b R' := Nat.add_pos_right _ hpos
  refine ⟨c.refCount, c, ?_, h.setRefCount hc ?_ (fun x hx => ?_) howners hloose⟩
  · simp only [AtomicSharedPtr.fetchSub, hc, if_neg (Nat.not_lt.mpr hle)]
  · rw [hR, single_self]
    omega
  · rw [hR, single, if_neg (Ne.symm hx), Nat.mul_zero, Nat.add_zero]

/-- A flush that succeeds: the count has been added to `refCount` before. -/
theorem flush (h : Balanced δ g R L) (halive : g.destroyed = false)
    (hR : ∀ b, R b = R' b + localCount g.packedPtr * single (pointer g.packedPtr) b)
    (hloose : ∀ b, L' b ≤ R' b) :
    Balanced δ { g with packedPtr := g.packedPtr - localCount g.packedPtr } R' L' := by
  obtain ⟨hp, hn⟩ := packed_clear g.packedPtr
  have hzero : ∀ b, Shared.headCount
      { g with packedPtr := g.packedPtr - localCount g.packedPtr } b = 0 := by
    intro b
    simp only [Shared.headCount, halive, hn, Nat.mul_zero]
    rfl
  have hcount : ∀ b, g.headCount b =
      localCount g.packedPtr * single (pointer g.packedPtr) b := by
    intro b
    rw [Shared.headCount, halive, Nat.mul_comm]
    rfl
  have hsame : ∀ b, Shared.headRef
      { g with packedPtr := g.packedPtr - localCount g.packedPtr } b = g.headRef b := by
    intro b
    simp only [Shared.headRef, hp]
  have howners : ∀ b, g.owners b R = Shared.owners
      { g with packedPtr := g.packedPtr - localCount g.packedPtr } b R' + g.headCount b := by
    intro b
    rw [Shared.owners, Shared.owners, hsame, hR, hcount, ← Nat.add_assoc]
    rfl
  refine h.of_delta (fun _ => rfl) (fun _ => rfl) rfl ?_ ?_ ?_ hloose ?_
  · intro hd
    rw [hp]
    exact h.pointer_ne hd
  · intro b c c' hc hc'
    obtain rfl : c = c' := Option.some.inj (hc.symm.trans hc')
    rw [howners, hzero]
    omega
  · intro b hb
    have hpos : 0 < g.headCount b → 0 < g.headRef b := by
      rw [hcount, Shared.headRef, halive]
      exact Nat.pos_of_mul_pos_left
    rw [howners]
    rw [← hsame] at hpos
    rw [Shared.owners]
    omega
  · intro b
    rw [hzero]
    exact Nat.zero_le _

/-- The swap of `compareExchange`: `head_` gives up its reference to the old block. -/
theorem swap {new : ℕ} (h : Balanced δ g R L) (halive : g.destroyed = false)
    (hzero : localCount g.packedPtr = 0) (hnew : new ≠ 0)
    (hR : ∀ b, R' b + single new b = R b + single (pointer g.packedPtr) b)
    (hloose : ∀ b, L' b ≤ R' b) : Balanced δ { g with packedPtr := pack new } R' L' := by
  have hcount : ∀ b, g.headCount b = 0 := by
    intro b
    rw [Shared.headCount, hzero, Nat.mul_zero]
    split <;> rfl
  have hcount' : ∀ b, Shared.headCount { g with packedPtr := pack new } b = 0 := by
    intro b
    simp only [Shared.headCount, localCount_pack, Nat.mul_zero, ite_self]
  have howners : ∀ b, Shared.owners { g with packedPtr := pack new } b R' = g.owners b R := by
    intro b
    have hswap := hR b
    have hold : g.headRef b = single (pointer g.packedPtr) b := by
      rw [Shared.headRef, halive]
      rfl
    have hnow : Shared.headRef { g with packedPtr := pack new } b = single new b := by
      simp only [Shared.headRef, halive, pointer_pack]
      rfl
    have hprevs : Shared.prevs { g with packedPtr := pack new } b = g.prevs b := rfl
    rw [Shared.owners, Shared.owners, hold, hnow, hprevs]
    omega
  refine h.of_delta (fun _ => rfl) (fun _ => rfl) rfl ?_ ?_ ?_ hloose ?_
  · intro _
    rw [pointer_pack]
    exact hnew
  · intro b c c' hc hc'
    obtain rfl : c = c' := Option.some.inj (hc.symm.trans hc')
    rw [howners, hcount, hcount']
  · intro b _
    rw [howners]
  · intro b
    rw [hcount']
    exact Nat.zero_le _

theorem node_lt (h : Balanced δ g R L) {n : ℕ} {node : Node T} (hn : g.nodes n = some node) :
    n < g.created + 1 := by
  by_contra hlt
  have hlive := ((h.node n).mp (by rw [hn]; rfl)).2
  rw [h.fresh n (by omega)] at hlive
  cases hlive

theorem setNode (h : Balanced δ g R L) (R' : ℕ → ℕ) {n : ℕ} {node node' : Node T}
    (hn : g.nodes n = some node)
    (hR : ∀ b, R' b + single node'.prev b = R b + single node.prev b)
    (hloose : ∀ b, L b ≤ R' b) :
    Balanced δ { g with nodes := Function.update g.nodes n (some node') } R' L := by
  have hmem : n ∈ Finset.range (g.created + 1) := Finset.mem_range.mpr (h.node_lt hn)
  have howners : ∀ b, Shared.owners
      { g with nodes := Function.update g.nodes n (some node') } b R' = g.owners b R := by
    intro b
    have hsum := Pool.sum_update (f := g.nodes) (φ := prevRef b) (a := some node') hmem
    have hmove := hR b
    rw [hn] at hsum
    change Shared.prevs { g with nodes := Function.update g.nodes n (some node') } b +
      single node.prev b = g.prevs b + single node'.prev b at hsum
    have hhead : Shared.headRef { g with nodes := Function.update g.nodes n (some node') } b =
        g.headRef b := rfl
    rw [Shared.owners, Shared.owners, hhead]
    omega
  refine h.of_delta (fun _ => rfl) (fun m => ?_) rfl h.pointer_ne ?_ ?_ hloose h.head
  · dsimp only
    by_cases hm : m = n
    · subst hm
      rw [Function.update_self, hn]
      rfl
    · rw [Function.update_of_ne hm]
  · intro b c c' hc hc'
    obtain rfl : c = c' := Option.some.inj (hc.symm.trans hc')
    rw [howners]
    rfl
  · intro b _
    rw [howners]

theorem create (h : Balanced δ g R L) (R' : ℕ → ℕ) (node : Option (Node T))
    (hsome : node.isSome ↔ δ (g.created + 1) ≠ 0) (hprev : ∀ b, b ≠ 0 → prevRef b node = 0)
    (hR : ∀ b, R' b = R b + single (g.created + 1) b) :
    Balanced δ { g with
      blocks := Function.update g.blocks (g.created + 1) (some ⟨δ (g.created + 1), 1⟩)
      nodes := Function.update g.nodes (g.created + 1) node
      created := g.created + 1 } R' L := by
  have hprevs : ∀ b, b ≠ 0 → ∑ n ∈ Finset.range (g.created + 1 + 1),
      prevRef b (Function.update g.nodes (g.created + 1) node n) = g.prevs b := by
    intro b hb
    rw [Finset.sum_range_succ, Function.update_self, hprev b hb, Nat.add_zero]
    refine Finset.sum_congr rfl fun n hn => ?_
    rw [Function.update_of_ne (Finset.mem_range.mp hn).ne]
  have howners : ∀ b, b ≠ 0 → Shared.owners { g with
      blocks := Function.update g.blocks (g.created + 1) (some ⟨δ (g.created + 1), 1⟩)
      nodes := Function.update g.nodes (g.created + 1) node
      created := g.created + 1 } b R' = g.owners b R + single (g.created + 1) b := by
    intro b hb
    change g.headRef b + ∑ n ∈ Finset.range (g.created + 1 + 1),
      prevRef b (Function.update g.nodes (g.created + 1) node n) + R' b = _
    rw [hprevs b hb, hR, Shared.owners, Nat.add_assoc, Nat.add_assoc, Nat.add_assoc]
  have hnew : g.owners (g.created + 1) R = 0 := by
    have := h.owned (g.created + 1) (Nat.succ_ne_zero _)
    rw [h.fresh _ (Nat.lt_succ_self _)] at this
    simpa using this
  refine ⟨h.value, fun b c hc => ?_, fun b hb => ?_, fun b => ?_, h.head, fun b c hc => ?_,
    fun n => ?_, fun b hb => ?_, h.pointer_ne⟩
  · dsimp only at hc
    by_cases hbk : b = g.created + 1
    · subst hbk
      rw [Function.update_self] at hc
      cases hc
      have hhead : g.headRef (g.created + 1) = 0 := by
        rw [Shared.owners] at hnew
        omega
      have hcount : g.headCount (g.created + 1) = 0 := Shared.headCount_eq_zero hhead
      rw [howners _ (Nat.succ_ne_zero _), hnew, single_self]
      change 1 + g.headCount (g.created + 1) = 1
      rw [hcount]
    · rw [Function.update_of_ne hbk] at hc
      have hb := (h.data b c hc).2
      have hsingle : single (g.created + 1) b = 0 := if_neg (Ne.symm hbk)
      rw [howners b hb, hsingle]
      exact h.counted b c hc
  · rw [howners b hb]
    dsimp only
    by_cases hbk : b = g.created + 1
    · subst hbk
      rw [Function.update_self, single_self]
      exact ⟨fun _ => Nat.succ_pos _, fun _ => rfl⟩
    · rw [Function.update_of_ne hbk, single, if_neg (Ne.symm hbk)]
      exact h.owned b hb
  · rw [hR]
    exact Nat.le_add_right_of_le (h.loose b)
  · dsimp only at hc
    by_cases hbk : b = g.created + 1
    · subst hbk
      rw [Function.update_self] at hc
      cases hc
      exact ⟨rfl, Nat.succ_ne_zero _⟩
    · rw [Function.update_of_ne hbk] at hc
      exact h.data b c hc
  · dsimp only
    by_cases hnk : n = g.created + 1
    · subst hnk
      rw [Function.update_self, Function.update_self]
      simpa using hsome
    · rw [Function.update_of_ne hnk, Function.update_of_ne hnk]
      exact h.node n
  · dsimp only at hb ⊢
    rw [Function.update_of_ne (by omega)]
    exact h.fresh b (by omega)

theorem close (h : Balanced δ g R L) (halive : g.destroyed = false)
    (hzero : localCount g.packedPtr = 0)
    (hR : ∀ b, R' b = R b + single (pointer g.packedPtr) b) :
    Balanced δ { g with destroyed := true } R' L := by
  have hcount : ∀ b, g.headCount b = 0 := by
    intro b
    rw [Shared.headCount, hzero, Nat.mul_zero]
    split <;> rfl
  have hcount' : ∀ b, Shared.headCount { g with destroyed := true } b = 0 := fun b => rfl
  have howners : ∀ b, Shared.owners { g with destroyed := true } b R' = g.owners b R := by
    intro b
    have hold : g.headRef b = single (pointer g.packedPtr) b := by
      rw [Shared.headRef, halive]
      rfl
    have hnow : Shared.headRef { g with destroyed := true } b = 0 := rfl
    have hprevs : Shared.prevs { g with destroyed := true } b = g.prevs b := rfl
    rw [Shared.owners, Shared.owners, hold, hnow, hprevs, hR]
    omega
  refine h.of_delta (fun _ => rfl) (fun _ => rfl) rfl (fun hd => ?_) ?_ ?_ (fun b => ?_) ?_
  · cases hd
  · intro b c c' hc hc'
    obtain rfl : c = c' := Option.some.inj (hc.symm.trans hc')
    rw [howners, hcount, hcount']
  · intro b _
    rw [howners]
  · have := h.loose b
    rw [hR]
    omega
  · intro b
    rw [hcount']
    exact Nat.zero_le _

theorem remove (h : Balanced δ g R L) (R' : ℕ → ℕ) (hb : b ≠ 0) (hc : g.blocks b = some c)
    (hlast : g.owners b R = 1) (hLb : L b = 0)
    (hR : ∀ x, R' x + single b x = R x + prevRef x (g.nodes b)) :
    Balanced δ { g with
      blocks := Function.update g.blocks b none
      nodes := Function.update g.nodes b none } R' L := by
  have hmem : b ∈ Finset.range (g.created + 1) := by
    by_contra hnot
    rw [Finset.mem_range] at hnot
    rw [h.fresh b (by omega)] at hc
    cases hc
  have howners : ∀ x, Shared.owners { g with
      blocks := Function.update g.blocks b none
      nodes := Function.update g.nodes b none } x R' + single b x = g.owners x R := by
    intro x
    have hsum := Pool.sum_update (f := g.nodes) (φ := prevRef x) (a := none) hmem
    have hmove := hR x
    change g.headRef x + ∑ n ∈ Finset.range (g.created + 1),
      prevRef x (Function.update g.nodes b none n) + R' x + single b x =
        g.headRef x + ∑ n ∈ Finset.range (g.created + 1), prevRef x (g.nodes n) + R x
    rw [prevRef] at hsum
    omega
  refine ⟨h.value, fun x d hd => ?_, fun x hx => ?_, fun x => ?_, h.head, fun x d hd => ?_,
    fun n => ?_, fun x hx => ?_, h.pointer_ne⟩
  · dsimp only at hd
    have hxb : x ≠ b := by
      rintro rfl
      rw [Function.update_self] at hd
      cases hd
    have hx := howners x
    rw [single, if_neg (Ne.symm hxb)] at hx
    rw [Function.update_of_ne hxb] at hd
    exact (h.counted x d hd).trans hx.symm
  · dsimp only
    have howners := howners x
    by_cases hxb : x = b
    · subst hxb
      rw [single_self, hlast] at howners
      rw [Function.update_self]
      simpa using howners
    · rw [single, if_neg (Ne.symm hxb), Nat.add_zero] at howners
      rw [Function.update_of_ne hxb, howners]
      exact h.owned x hx
  · have hmove := hR x
    have hloose := h.loose x
    by_cases hxb : x = b
    · subst hxb
      omega
    · rw [single, if_neg (Ne.symm hxb)] at hmove
      omega
  · dsimp only at hd
    by_cases hxb : x = b
    · subst hxb
      rw [Function.update_self] at hd
      cases hd
    · rw [Function.update_of_ne hxb] at hd
      exact h.data x d hd
  · dsimp only
    by_cases hnb : n = b
    · subst hnb
      simp
    · rw [Function.update_of_ne hnb, Function.update_of_ne hnb]
      exact h.node n
  · dsimp only at hx ⊢
    by_cases hxb : x = b
    · subst hxb
      exact Function.update_self ..
    · rw [Function.update_of_ne hxb]
      exact h.fresh x hx

theorem delete (h : Balanced δ g R L) (hb : b ≠ 0) (hc : g.blocks b = some c)
    (hlast : g.owners b R = 1) (hLb : L b = 0) :
    ∃ g' queue, AtomicSharedPtr.delete g b (δ b) = some (g', queue) ∧
      ∀ R', (∀ x, R' x + single b x = R x + queue.count x) → Balanced δ g' R' L := by
  by_cases hnull : δ b = 0
  · have hnone : g.nodes b = none := by
      rw [← Option.not_isSome_iff_eq_none, h.node b]
      exact fun hn => hn.1 hnull
    refine ⟨{ g with blocks := Function.update g.blocks b none }, [], if_pos hnull,
      fun R' hR => ?_⟩
    have hremove := h.remove R' hb hc hlast hLb fun x => by
      rw [hR, hnone]
      rfl
    rwa [← hnone, Function.update_eq_self] at hremove
  · have hdata : δ b = b := (h.value b).resolve_left hnull
    have hlive := (h.node b).mpr ⟨hnull, by rw [hc]; rfl⟩
    obtain ⟨node, hnode⟩ := Option.isSome_iff_exists.mp hlive
    refine ⟨{ g with
      blocks := Function.update g.blocks b none
      nodes := Function.update g.nodes b none }, [node.prev], ?_,
      fun R' hR => h.remove R' hb hc hlast hLb fun x => ?_⟩
    · rw [AtomicSharedPtr.delete, hdata, if_neg hb, hnode]
    · rw [hR, hnode, prevRef, single, List.count_singleton]
      simp

theorem dropRef (h : Balanced δ g R L) (hb : b ≠ 0) (hLb : L b < R b)
    {data : ControlBlock → ℕ} (hdata : ∀ c, g.blocks b = some c → data c = δ b) :
    ∃ g' queue, AtomicSharedPtr.dropRef g b data = some (g', queue) ∧
      ∀ R', (∀ x, R' x + single b x = R x + queue.count x) → Balanced δ g' R' L := by
  obtain ⟨c, hc⟩ := h.exists_block hb (by omega)
  have hpos := h.refCount_pos hc
  have hcounted := h.counted b c hc
  have hhead := h.head b
  by_cases hone : c.refCount = 1
  · have hcount : g.headRef b = 0 → g.headCount b = 0 := Shared.headCount_eq_zero
    have hlast : g.owners b R = 1 ∧ L b = 0 := by
      rw [Shared.owners] at hcounted ⊢
      omega
    obtain ⟨g', queue, hdelete, hbalanced⟩ := h.delete hb hc hlast.1 hlast.2
    refine ⟨g', queue, ?_, hbalanced⟩
    simp only [AtomicSharedPtr.dropRef, hc, if_neg hpos.ne', if_pos hone, hdata c hc, hdelete]
  · refine ⟨g.setRefCount b c (c.refCount - 1), [], ?_, ?_⟩
    · rw [AtomicSharedPtr.dropRef]
      simp only [hc, if_neg hpos.ne', if_neg hone]
    · intro R' hR
      have hRb := hR b
      rw [single_self, List.count_nil] at hRb
      refine h.setRefCount hc (by omega) (fun x hx => ?_) ?_ fun x => ?_
      · have := hR x
        rw [single, if_neg (Ne.symm hx), List.count_nil] at this
        omega
      · rw [Shared.owners] at hcounted ⊢
        omega
      · have hloose := h.loose x
        have := hR x
        by_cases hx : x = b
        · subst hx
          omega
        · rw [single, if_neg (Ne.symm hx)] at this
          omega

theorem start (hδ : ∀ b, δ b = 0 ∨ δ b = b) {node : Option (Node T)}
    (hsome : node.isSome ↔ δ 1 ≠ 0) (hprev : ∀ b, b ≠ 0 → prevRef b node = 0) :
    Balanced δ (⟨pack 1, false, Function.update (fun _ => none) 1 (some ⟨δ 1, 1⟩),
      Function.update (fun _ => none) 1 node, 1⟩ : Shared T) (fun _ => 0) fun _ => 0 := by
  generalize hg : (⟨pack 1, false, Function.update (fun _ => none) 1 (some ⟨δ 1, 1⟩),
    Function.update (fun _ => none) 1 node, 1⟩ : Shared T) = g
  have hone : g.blocks 1 = some ⟨δ 1, 1⟩ := by
    simp only [← hg, Function.update_self]
  have hnone : ∀ b, b ≠ 1 → g.blocks b = none := by
    intro b hb
    simp only [← hg, Function.update_of_ne hb]
  have hnodes : ∀ n, g.nodes n = if n = 1 then node else none := by
    intro n
    simp only [← hg, Function.update_apply]
  have hprevs : ∀ b, b ≠ 0 → g.prevs b = 0 := by
    intro b hb
    refine Finset.sum_eq_zero fun n _ => ?_
    rw [hnodes]
    split
    · exact hprev b hb
    · rfl
  have hhead : ∀ b, g.headRef b = single 1 b := by
    intro b
    rw [← hg, Shared.headRef, pointer_pack]
    rfl
  have hcount : ∀ b, g.headCount b = 0 := by
    intro b
    rw [← hg, Shared.headCount, localCount_pack, Nat.mul_zero, ite_self]
  have hcases : ∀ b c, g.blocks b = some c → b = 1 ∧ c = ⟨δ 1, 1⟩ := by
    intro b c hc
    by_cases hb : b = 1
    · subst hb
      exact ⟨rfl, (Option.some.inj (hone.symm.trans hc)).symm⟩
    · rw [hnone b hb] at hc
      cases hc
  refine ⟨hδ, fun b c hc => ?_, fun b hb => ?_, fun _ => le_rfl, fun b => (hcount b).le,
    fun b c hc => ?_, fun n => ?_, fun b hb => ?_, fun _ => ?_⟩
  · obtain ⟨rfl, rfl⟩ := hcases b c hc
    rw [hcount, Shared.owners, hhead, hprevs 1 Nat.one_ne_zero]
    rfl
  · rw [Shared.owners, hhead, hprevs b hb, single]
    by_cases hb1 : 1 = b
    · subst hb1
      simp [hone]
    · simp [hnone b (Ne.symm hb1), hb1]
  · obtain ⟨rfl, rfl⟩ := hcases b c hc
    exact ⟨rfl, Nat.one_ne_zero⟩
  · rw [hnodes]
    by_cases hn : n = 1
    · subst hn
      simpa [hone] using hsome
    · simp [hnone n hn, hn]
  · refine hnone b (Nat.ne_of_gt ?_)
    rwa [← hg] at hb
  · rw [← hg, pointer_pack]
    exact Nat.one_ne_zero

end Balanced
end
end LockFree.AtomicSharedPtr
