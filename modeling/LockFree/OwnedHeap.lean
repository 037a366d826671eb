import Mathlib.Algebra.BigOperators.Group.Finset.Piecewise
import Mathlib.Algebra.Order.BigOperators.Group.Finset
import Mathlib.Data.Fintype.EquivFin
import Mathlib.Logic.Relation
import LockFree.TransitionRuns

/-!
# Heaps of reference-counted blocks

A block counts its owners, which are pointers from outside and members of other blocks. Of
a heap without cycles, whatever order the releases come in, exactly the blocks that can
still be reached from outside are left.
-/

namespace LockFree.OwnedHeap
open TransitionRuns

variable {B : Type*}

structure Block (B : Type*) where
  refCount : ℕ
  members : List (Option B)

abbrev Heap (B : Type*) := B → Option (Block B)

def refCount (h : Heap B) (b : B) : ℕ :=
  match h b with
  | none => 0
  | some c => c.refCount

def members (h : Heap B) (b : B) : List (Option B) :=
  match h b with
  | none => []
  | some c => c.members

theorem refCount_none {h : Heap B} {b : B} (hb : h b = none) : refCount h b = 0 := by
  rw [refCount, hb]

theorem refCount_some {h : Heap B} {b : B} {c : Block B} (hb : h b = some c) :
    refCount h b = c.refCount := by
  rw [refCount, hb]

theorem members_some {h : Heap B} {b : B} {c : Block B} (hb : h b = some c) :
    members h b = c.members := by
  rw [members, hb]

section
variable [DecidableEq B] [Fintype B]

def owned (h : Heap B) (b : B) : ℕ := ∑ a, (members h a).count (some b)

def refs (h : Heap B) (owners : List (Option B)) (b : B) : ℕ := owners.count (some b) + owned h b

end

def Owns (h : Heap B) (a b : B) : Prop := some b ∈ members h a

def Acyclic (h : Heap B) : Prop := ∀ a, ¬ Relation.TransGen (Owns h) a a

inductive Reached (h : Heap B) (owners : List (Option B)) : B → Prop where
  | owner {b : B} : some b ∈ owners → Reached h owners b
  | member {a b : B} : Reached h owners a → Owns h a b → Reached h owners b

section
variable [DecidableEq B] [Fintype B]

open Classical in
noncomputable def kept (h : Heap B) (owners : List (Option B)) (b : B) : ℕ :=
  owners.count (some b) + ∑ a, if Reached h owners a then (members h a).count (some b) else 0

/-- Of `h` the blocks with an owner are left in `h'`, with the counts of their owners. -/
def Settled (h h' : Heap B) (owners : List (Option B)) : Prop :=
  ∀ b, h' b =
    match h b with
    | none => none
    | some c => if refs h' owners b = 0 then none else some ⟨refs h' owners b, c.members⟩

variable {h h' h'' : Heap B} {owners pending : List (Option B)} {a b : B} {c : Block B}

theorem sum_members_update (h : Heap B) (a : B) (x : Option (Block B))
    (φ : List (Option B) → ℕ) :
    ∑ b, φ (members (Function.update h a x) b) + φ (members h a) =
      ∑ b, φ (members h b) + φ (members (Function.update h a x) a) := by
  have hsum := Pool.sum_update (f := h)
    (φ := fun x => φ (match x with | none => [] | some c => c.members)) (a := x)
    (Finset.mem_univ a)
  simp only [members, Function.update_self]
  exact hsum

theorem owned_update (h : Heap B) (a b : B) (x : Option (Block B)) :
    owned (Function.update h a x) b + (members h a).count (some b) =
      owned h b + (members (Function.update h a x) a).count (some b) :=
  sum_members_update h a x (List.count (some b))

theorem owned_update_of_members {x : Option (Block B)}
    (hx : members (Function.update h a x) a = members h a) :
    owned (Function.update h a x) b = owned h b := by
  have := owned_update h a b x
  rw [hx] at this
  omega

theorem exists_owner (hpos : 0 < owned h b) : ∃ a, Owns h a b := by
  rw [owned, Finset.sum_pos_iff] at hpos
  obtain ⟨a, -, ha⟩ := hpos
  exact ⟨a, List.count_pos_iff.mp ha⟩

theorem owned_pos (ha : Owns h a b) : 0 < owned h b := by
  rw [owned, Finset.sum_pos_iff]
  exact ⟨a, Finset.mem_univ a, List.count_pos_iff.mpr ha⟩

theorem Reached.refs_pos (hr : Reached h owners b) : 0 < refs h owners b := by
  rw [refs]
  cases hr with
  | owner hmem => exact Nat.add_pos_left (List.count_pos_iff.mpr hmem) _
  | member _ hown => exact Nat.add_pos_right _ (owned_pos hown)

theorem kept_pos (hr : Reached h owners b) : 0 < kept h owners b := by
  rw [kept]
  cases hr with
  | owner hmem => exact Nat.add_pos_left (List.count_pos_iff.mpr hmem) _
  | @member a b ha hown =>
    refine Nat.add_pos_right _ (Finset.sum_pos_iff.mpr ⟨a, Finset.mem_univ a, ?_⟩)
    rw [if_pos ha]
    exact List.count_pos_iff.mpr hown

/-- Owners that go away cannot be among those that are kept. -/
theorem kept_add_le (hkeep : ∀ a, Reached h owners a → members h' a = members h a) :
    kept h owners b + pending.count (some b) ≤ refs h' (pending ++ owners) b := by
  rw [kept, refs, List.count_append, Nat.add_right_comm, Nat.add_comm (pending.count (some b))]
  refine Nat.add_le_add_left (Finset.sum_le_sum fun a _ => ?_) _
  split
  · rename_i ha
    rw [hkeep a ha]
  · exact Nat.zero_le _

omit [DecidableEq B] [Fintype B] in
theorem Acyclic.wellFounded [Finite B] (hacyclic : Acyclic h) : WellFounded (Owns h) := by
  have hirrefl : Std.Irrefl (Relation.TransGen (Owns h)) := ⟨hacyclic⟩
  have hwf := Finite.wellFounded_of_trans_of_irrefl (Relation.TransGen (Owns h))
  exact Subrelation.wf (fun hown => Relation.TransGen.single hown) hwf

omit [DecidableEq B] [Fintype B] in
theorem Acyclic.of_rank (rank : B → ℕ) (hrank : ∀ a b, Owns h a b → rank b < rank a) :
    Acyclic h := by
  have hlt : ∀ a b, Relation.TransGen (Owns h) a b → rank b < rank a := by
    intro a b hab
    induction hab with
    | single hown => exact hrank _ _ hown
    | tail _ hown ih => exact (hrank _ _ hown).trans ih
  intro a ha
  exact Nat.lt_irrefl _ (hlt a a ha)

theorem Settled.eq_none (hs : Settled h h' owners) (hb : h b = none) : h' b = none := by
  rw [hs b, hb]

theorem Settled.eq_some (hs : Settled h h' owners) (hb : h b = some c)
    (hrefs : refs h' owners b ≠ 0) : h' b = some ⟨refs h' owners b, c.members⟩ := by
  rw [hs b, hb]
  exact if_neg hrefs

theorem Settled.of_isSome (hs : Settled h h' owners) (hb : (h' b).isSome = true) :
    members h' b = members h b ∧ refs h' owners b ≠ 0 := by
  cases hold : h b with
  | none =>
    rw [hs.eq_none hold] at hb
    cases hb
  | some c =>
    have hrefs : refs h' owners b ≠ 0 := by
      intro hzero
      rw [hs b, hold] at hb
      simp only [hzero, if_true] at hb
      cases hb
    refine ⟨?_, hrefs⟩
    rw [members, members, hs.eq_some hold hrefs, hold]

theorem Settled.owns (hs : Settled h h' owners) (hown : Owns h' a b) :
    Owns h a b ∧ (h' a).isSome = true := by
  have ha : (h' a).isSome = true := by
    cases ha : h' a with
    | none => simp [Owns, members, ha] at hown
    | some c => rfl
  rw [Owns, (hs.of_isSome ha).1] at hown
  exact ⟨hown, ha⟩

theorem Settled.isSome_iff (hs : Settled h h' owners) (hacyclic : Acyclic h)
    (hpresent : ∀ b, Reached h owners b → (h b).isSome = true) (b : B) :
    (h' b).isSome = true ↔ Reached h owners b := by
  constructor
  · induction b using hacyclic.wellFounded.induction with
    | h b ih =>
      intro hb
      have hrefs := (hs.of_isSome hb).2
      rcases Nat.eq_zero_or_pos (owners.count (some b)) with hzero | hpos
      · obtain ⟨a, ha⟩ : ∃ a, Owns h' a b := exists_owner (by rw [refs, hzero] at hrefs; omega)
        obtain ⟨hown, halive⟩ := hs.owns ha
        exact .member (ih a hown halive) hown
      · exact .owner (List.count_pos_iff.mp hpos)
  · intro hb
    have hsome := hpresent b hb
    obtain ⟨c, hc⟩ := Option.isSome_iff_exists.mp hsome
    have hrefs : refs h' owners b ≠ 0 := by
      induction hb generalizing c with
      | owner hmem =>
        have := List.count_pos_iff.mpr hmem
        rw [refs]
        omega
      | @member a b hreached hown ih =>
        obtain ⟨d, hd⟩ := Option.isSome_iff_exists.mp (hpresent a hreached)
        have halive : (h' a).isSome = true := by
          rw [hs.eq_some hd (ih (hpresent a hreached) d hd)]
          rfl
        have hown' : Owns h' a b := by
          rw [Owns, (hs.of_isSome halive).1]
          exact hown
        have := owned_pos hown'
        rw [refs]
        omega
    rw [hs.eq_some hc hrefs]
    rfl

theorem Settled.refs_eq_kept (hs : Settled h h' owners) (hacyclic : Acyclic h)
    (hpresent : ∀ b, Reached h owners b → (h b).isSome = true) (b : B) :
    refs h' owners b = kept h owners b := by
  rw [refs, kept, owned]
  refine congrArg _ (Finset.sum_congr rfl fun a _ => ?_)
  rw [← hs.isSome_iff hacyclic hpresent a]
  split
  · rename_i ha
    rw [(hs.of_isSome ha).1]
  · rename_i ha
    have hnone : h' a = none := by simpa using ha
    rw [members, hnone]
    rfl

/-- So it does not matter how the owners without an owner were found and deleted. -/
theorem Settled.unique (hs : Settled h h' owners) (hs' : Settled h h'' owners)
    (hacyclic : Acyclic h) (hpresent : ∀ b, Reached h owners b → (h b).isSome = true) :
    h' = h'' := by
  funext b
  rw [hs b, hs' b, hs.refs_eq_kept hacyclic hpresent, hs'.refs_eq_kept hacyclic hpresent]

end

end LockFree.OwnedHeap
