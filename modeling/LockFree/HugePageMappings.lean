import Mathlib.Data.Finset.SDiff
import Mathlib.Data.Finset.Lattice.Lemmas
import Mathlib.Data.List.Perm.Basic
import Mathlib.Order.Interval.Finset.Nat
import LockFree.HugePageAllocator
import LockFree.TransitionRuns

/-!
# What allocate maps and deallocate unmaps

The bytes that are mapped, through any sequence of successful calls. `mmap` chooses any
multiple of the page size with enough room behind it; `munmap` unmaps the bytes it is
told to, whoever mapped them.
-/

namespace LockFree.HugePageAllocator
open TransitionRuns

/-- `live` lists the pointers and the counts of the allocations not yet deallocated. -/
structure State where
  mapped : Finset ℕ
  live : List (ℕ × ℕ)

inductive Event
  | allocated (pointer n : ℕ)
  | deallocated (pointer n : ℕ)

def Event.count : Event → ℕ
  | .allocated _ n | .deallocated _ n => n

inductive Choice
  | allocate (n address : ℕ)
  | deallocate (pointer n : ℕ)

def bytes (address length : ℕ) : Finset ℕ := Finset.Ico address (address + length)

/-- The environment's `mmap`, with the address it is going to return. -/
def mmap (mapped : Finset ℕ) (address length : ℕ) : Option Mapping :=
  if length ≠ 0 ∧ address % kHugePageSize = 0 ∧ Disjoint (bytes address length) mapped then
    some ⟨address, length⟩
  else none

def next (size : ℕ) (s : State) : Choice → Option (State × Event)
  | .allocate n address =>
    if n < 2 ^ 64 then
      (allocate size (mmap s.mapped address) n).map fun m =>
        (⟨s.mapped ∪ bytes m.address m.length, (m.address, n) :: s.live⟩, .allocated m.address n)
    else none
  | .deallocate pointer n =>
    if (pointer, n) ∈ s.live then
      some (⟨s.mapped \ bytes pointer (getHugePageSize n), s.live.erase (pointer, n)⟩,
        .deallocated pointer n)
    else none

def machine (size : ℕ) : Machine State Choice Event where
  start := ⟨∅, []⟩
  next := next size

def region (size : ℕ) (a : ℕ × ℕ) : Finset ℕ := bytes a.1 (allocateLength size a.2)

def Exact (size : ℕ) (s : State) : Prop :=
  ∀ b, b ∈ s.mapped ↔ ∃ a ∈ s.live, b ∈ region size a

/-- `deallocate` undoes `allocate` in every run with counts from `S` only. -/
def Undoes (size : ℕ) (S : Set ℕ) : Prop :=
  ∀ es s, (machine size).Run es s → (∀ e ∈ es, e.count ∈ S) → Exact size s ∧
    ∀ p n s', (machine size).Step s (.deallocated p n) s' →
      region size (p, n) ⊆ s.mapped ∧ s'.mapped = s.mapped \ region size (p, n)

variable {size : ℕ} {s s' : State} {S : Set ℕ}

theorem mmap_isMmap (mapped : Finset ℕ) (address : ℕ) : IsMmap (mmap mapped address) := by
  constructor
  · simp [mmap]
  · intro length m hm
    simp only [mmap, Option.ite_none_right_eq_some, Option.some.injEq] at hm
    rw [← hm.2]

theorem mmap_eq_some {mapped : Finset ℕ} {address length : ℕ} {m : Mapping} :
    mmap mapped address length = some m ↔
      (length ≠ 0 ∧ address % kHugePageSize = 0 ∧ Disjoint (bytes address length) mapped) ∧
        m = ⟨address, length⟩ := by
  rw [mmap, Option.ite_none_right_eq_some, Option.some.injEq, eq_comm (a := m)]

theorem region_mk (p n : ℕ) : region size (p, n) = bytes p (allocateLength size n) := rfl

theorem step_cases {e : Event} (hs : (machine size).Step s e s') :
    (∃ n p, e = .allocated p n ∧ n < 2 ^ 64 ∧ allocateLength size n ≠ 0 ∧
      Disjoint (region size (p, n)) s.mapped ∧
      s' = ⟨s.mapped ∪ region size (p, n), (p, n) :: s.live⟩) ∨
    ∃ n p, e = .deallocated p n ∧ (p, n) ∈ s.live ∧
      s' = ⟨s.mapped \ bytes p (getHugePageSize n), s.live.erase (p, n)⟩ := by
  obtain ⟨c, hn⟩ := hs
  cases c with
  | allocate n address =>
    simp only [machine, next, Option.ite_none_right_eq_some, Option.map_eq_some_iff,
      Prod.mk.injEq] at hn
    obtain ⟨hlt, m, hm, rfl, rfl⟩ := hn
    rw [allocate, mmap_eq_some] at hm
    obtain ⟨⟨hlength, -, hfree⟩, rfl⟩ := hm
    exact .inl ⟨n, address, rfl, hlt, hlength, hfree, rfl⟩
  | deallocate pointer n =>
    simp only [machine, next, Option.ite_none_right_eq_some, Option.some.injEq,
      Prod.mk.injEq] at hn
    obtain ⟨hmem, rfl, rfl⟩ := hn
    exact .inr ⟨n, pointer, rfl, hmem, rfl⟩

theorem allocate_step {n p : ℕ} (hn : n < 2 ^ 64) (hlength : allocateLength size n ≠ 0)
    (hp : p % kHugePageSize = 0) (hfree : Disjoint (region size (p, n)) s.mapped) :
    (machine size).Step s (.allocated p n)
      ⟨s.mapped ∪ region size (p, n), (p, n) :: s.live⟩ := by
  refine ⟨.allocate n p, ?_⟩
  have hm : allocate size (mmap s.mapped p) n = some ⟨p, allocateLength size n⟩ :=
    mmap_eq_some.mpr ⟨⟨hlength, hp, hfree⟩, rfl⟩
  simp only [machine, next, if_pos hn, hm]
  rfl

theorem deallocate_step {n p : ℕ} (hmem : (p, n) ∈ s.live) :
    (machine size).Step s (.deallocated p n)
      ⟨s.mapped \ bytes p (getHugePageSize n), s.live.erase (p, n)⟩ :=
  ⟨.deallocate p n, if_pos hmem⟩

def Agrees (size n : ℕ) : Prop :=
  allocateLength size n = 0 ∨ getHugePageSize n = allocateLength size n

structure Inv (size : ℕ) (S : Set ℕ) (s : State) : Prop where
  exact : Exact size s
  disjoint : s.live.Pairwise fun a b => Disjoint (region size a) (region size b)
  counts : ∀ a ∈ s.live, a.2 ∈ S ∧ a.2 < 2 ^ 64 ∧ allocateLength size a.2 ≠ 0

theorem Inv.allocate {n p : ℕ} (h : Inv size S s) (hS : n ∈ S) (hn : n < 2 ^ 64)
    (hlength : allocateLength size n ≠ 0) (hfree : Disjoint (region size (p, n)) s.mapped) :
    Inv size S ⟨s.mapped ∪ region size (p, n), (p, n) :: s.live⟩ := by
  refine ⟨fun b => ?_, List.pairwise_cons.mpr ⟨fun a ha => ?_, h.disjoint⟩, ?_⟩
  · rw [Finset.mem_union, h.exact b, List.exists_mem_cons_iff, or_comm]
  · refine hfree.mono_right fun b hb => ?_
    rw [h.exact b]
    exact ⟨a, ha, hb⟩
  · rw [List.forall_mem_cons]
    exact ⟨⟨hS, hn, hlength⟩, h.counts⟩

theorem Inv.region_subset {a : ℕ × ℕ} (h : Inv size S s) (ha : a ∈ s.live) :
    region size a ⊆ s.mapped := by
  intro b hb
  rw [h.exact b]
  exact ⟨a, ha, hb⟩

theorem Inv.deallocate {a : ℕ × ℕ} (h : Inv size S s) (ha : a ∈ s.live) :
    Inv size S ⟨s.mapped \ region size a, s.live.erase a⟩ := by
  have hperm := List.perm_cons_erase ha
  have hpairwise := (hperm.pairwise_iff (fun {x y} hxy => hxy.symm)).mp h.disjoint
  obtain ⟨hothers, hdisjoint⟩ := List.pairwise_cons.mp hpairwise
  refine ⟨fun b => ?_, hdisjoint, fun x hx => h.counts x (List.mem_of_mem_erase hx)⟩
  rw [Finset.mem_sdiff, h.exact b]
  constructor
  · rintro ⟨⟨x, hx, hb⟩, hnot⟩
    have hne : x ≠ a := fun heq => hnot (heq ▸ hb)
    exact ⟨x, (List.mem_erase_of_ne hne).mpr hx, hb⟩
  · rintro ⟨x, hx, hb⟩
    exact ⟨⟨x, List.mem_of_mem_erase hx, hb⟩, fun hnot =>
      Finset.disjoint_left.mp (hothers x hx) hnot hb⟩

theorem Inv.unmaps {n p : ℕ} (h : Inv size S s) (hagrees : ∀ n ∈ S, n < 2 ^ 64 → Agrees size n)
    (hmem : (p, n) ∈ s.live) : bytes p (getHugePageSize n) = region size (p, n) := by
  obtain ⟨hS, hn, hlength⟩ := h.counts _ hmem
  rw [region, (hagrees n hS hn).resolve_left hlength]

theorem Inv.step {e : Event} (h : Inv size S s) (hagrees : ∀ n ∈ S, n < 2 ^ 64 → Agrees size n)
    (he : e.count ∈ S) (hs : (machine size).Step s e s') : Inv size S s' := by
  rcases step_cases hs with ⟨n, p, rfl, hn, hlength, hfree, rfl⟩ | ⟨n, p, rfl, hmem, rfl⟩
  · exact h.allocate he hn hlength hfree
  · rw [h.unmaps hagrees hmem]
    exact h.deallocate hmem

theorem Inv.of_run {es : List Event} (hagrees : ∀ n ∈ S, n < 2 ^ 64 → Agrees size n)
    (hr : (machine size).Run es s) (hes : ∀ e ∈ es, e.count ∈ S) : Inv size S s := by
  refine Machine.Run.invariant (I := fun es s => (∀ e ∈ es, e.count ∈ S) → Inv size S s)
    ?_ ?_ hr hes
  · intro _
    exact ⟨fun b => by simp [machine], .nil, fun a ha => by cases ha⟩
  · intro es s e s' _ h hs hes
    simp only [List.forall_mem_append, List.forall_mem_singleton] at hes
    exact (h hes.1).step hagrees hes.2 hs

theorem undoes_of_agrees (hagrees : ∀ n ∈ S, n < 2 ^ 64 → Agrees size n) : Undoes size S := by
  intro es s hr hes
  have h := Inv.of_run hagrees hr hes
  refine ⟨h.exact, fun p n s' hs => ?_⟩
  rcases step_cases hs with ⟨_, _, he, -⟩ | ⟨_, _, he, hmem, rfl⟩ <;> cases he
  refine ⟨h.region_subset hmem, ?_⟩
  rw [← h.unmaps hagrees hmem]

theorem mem_bytes {b p length : ℕ} : b ∈ bytes p length ↔ p ≤ b ∧ b < p + length := by
  rw [bytes, Finset.mem_Ico]

theorem run_allocated {n : ℕ} (hn : n < 2 ^ 64) (hlength : allocateLength size n ≠ 0) :
    (machine size).Run [.allocated kHugePageSize n]
      ⟨∅ ∪ region size (kHugePageSize, n), [(kHugePageSize, n)]⟩ :=
  Machine.Path.single (allocate_step hn hlength (Nat.mod_self _) (Finset.disjoint_empty_right _))

theorem run_neighbours {n : ℕ} (hn : n < 2 ^ 64) (hlength : allocateLength size n ≠ 0) :
    (machine size).Run
      [.allocated kHugePageSize n, .allocated (kHugePageSize + allocateLength size n) n]
      ⟨∅ ∪ region size (kHugePageSize, n) ∪ region size (kHugePageSize + allocateLength size n, n),
        [(kHugePageSize + allocateLength size n, n), (kHugePageSize, n)]⟩ := by
  refine (run_allocated hn hlength).snoc (allocate_step hn hlength ?_ ?_)
  · rw [Nat.add_mod_left]
    exact kHugePageSize_dvd _
  · rw [Finset.empty_union, Finset.disjoint_left]
    intro b hb hb'
    rw [region_mk, mem_bytes] at hb hb'
    omega

theorem agrees_of_undoes (h : Undoes size S) {n : ℕ} (hS : n ∈ S) (hn : n < 2 ^ 64) :
    Agrees size n := by
  by_contra hagrees
  rw [Agrees, not_or] at hagrees
  obtain ⟨hlength, hne⟩ := hagrees
  rcases Nat.lt_or_gt_of_ne hne with hless | hmore
  · -- what `deallocate` leaves mapped belongs to nobody
    have hr := (run_allocated hn hlength).snoc (deallocate_step List.mem_cons_self)
    have hexact := (h _ _ hr (by simp [Event.count, hS])).1 (kHugePageSize + getHugePageSize n)
    simp only [List.erase_cons_head, List.not_mem_nil, false_and, exists_false, iff_false,
      Finset.empty_union, Finset.mem_sdiff, region_mk, mem_bytes] at hexact
    omega
  · -- what it unmaps beyond its own bytes belongs to the neighbour
    have hr := (run_neighbours hn hlength).snoc
      (deallocate_step (List.mem_cons_of_mem _ List.mem_cons_self))
    have hexact := (h _ _ hr (by simp [Event.count, hS])).1
      (kHugePageSize + allocateLength size n)
    rw [List.erase_cons_tail (by simpa using hlength), List.erase_cons_head] at hexact
    simp only [List.mem_singleton, exists_eq_left, Finset.mem_sdiff, region_mk, mem_bytes]
      at hexact
    omega

/-- The elements fit into one huge page, or there are so many of them that their size is
`0` or close to `2^64` after it has wrapped around, and `mmap` fails, or it has wrapped
around to the huge page that `n` lies in. -/
def Recoverable (size n : ℕ) : Prop :=
  size ≤ 1 ∨ n * size ≤ kHugePageSize ∨ n * size % 2 ^ 64 = 0 ∨
    2 ^ 64 - kHugePageSize < n * size % 2 ^ 64 ∨
    2 ^ 64 ≤ n * size ∧ (n - 1) / kHugePageSize = (n * size % 2 ^ 64 - 1) / kHugePageSize

theorem getHugePageSize_eq_iff {n m : ℕ} (hn : 0 < n) (hnW : n < 2 ^ 64) (hm : 0 < m)
    (hle : m ≤ 2 ^ 64 - 2 ^ 21) :
    getHugePageSize n = getHugePageSize m ↔ (n - 1) / kHugePageSize = (m - 1) / kHugePageSize := by
  rcases Nat.lt_or_ge (2 ^ 64 - 2 ^ 21) n with hlast | hfits
  · have hzero : getHugePageSize n = 0 := (getHugePageSize_eq_zero hnW).mpr (.inr hlast)
    have hpos := getHugePageSize_of_pos hm hle
    rw [hzero, hpos, kHugePageSize]
    omega
  · rw [getHugePageSize_of_pos hn hfits, getHugePageSize_of_pos hm hle, kHugePageSize]
    omega

theorem same_page_iff {n m : ℕ} (hm : 0 < m) (htwice : 2 * n ≤ m) :
    (n - 1) / kHugePageSize = (m - 1) / kHugePageSize ↔ m ≤ kHugePageSize := by
  rw [kHugePageSize]
  omega

theorem agrees_one {size n : ℕ} (hsize : size ≤ 1) (hn : n < 2 ^ 64) : Agrees size n := by
  rcases Nat.le_one_iff_eq_zero_or_eq_one.mp hsize with rfl | rfl
  · exact .inl (by rw [allocateLength, Nat.mul_zero]; rfl)
  · exact .inr (by rw [allocateLength, Nat.mul_one, Nat.mod_eq_of_lt hn])

theorem agrees_iff_recoverable {n : ℕ} (hn : n < 2 ^ 64) :
    Agrees size n ↔ Recoverable size n := by
  rcases Nat.lt_or_ge 1 size with hsize | hsize
  swap
  · exact iff_of_true (agrees_one hsize hn) (.inl hsize)
  rw [Agrees, Recoverable, allocateLength, getHugePageSize_eq_zero (Nat.mod_lt _ (by decide)),
    show 2 ^ 64 - kHugePageSize = 2 ^ 64 - 2 ^ 21 from rfl]
  by_cases hfails : n * size % 2 ^ 64 = 0 ∨ 2 ^ 64 - 2 ^ 21 < n * size % 2 ^ 64
  · refine iff_of_true (.inl hfails) (.inr (.inr ?_))
    exact hfails.imp_right .inl
  have hpos : 0 < n := by
    rcases Nat.eq_zero_or_pos n with rfl | hpos
    · simp at hfails
    · exact hpos
  have htwice : 2 * n ≤ n * size := by
    rw [Nat.mul_comm]
    exact Nat.mul_le_mul_left n hsize
  rw [not_or, Nat.not_lt] at hfails
  rw [getHugePageSize_eq_iff hpos hn (Nat.pos_of_ne_zero hfails.1) hfails.2]
  rcases Nat.lt_or_ge (n * size) (2 ^ 64) with hfits | hwraps
  · rw [Nat.mod_eq_of_lt hfits] at hfails ⊢
    have hpage := same_page_iff (Nat.pos_of_ne_zero hfails.1) htwice
    omega
  · have hlarge : ¬ n * size ≤ kHugePageSize := by
      rw [kHugePageSize]
      omega
    omega

/-- Whether `deallocate` undoes `allocate` depends on the counts only. -/
theorem undoes_iff (size : ℕ) (S : Set ℕ) :
    Undoes size S ↔ ∀ n ∈ S, n < 2 ^ 64 → Recoverable size n := by
  constructor
  · intro h n hS hn
    rw [← agrees_iff_recoverable hn]
    exact agrees_of_undoes h hS hn
  · intro h
    refine undoes_of_agrees fun n hS hn => ?_
    rw [agrees_iff_recoverable hn]
    exact h n hS hn

theorem not_undoes_two_pages : ¬ Undoes 8 {2 ^ 18 + 1} := by
  intro h
  have hagrees := agrees_of_undoes h rfl (by decide)
  rw [Agrees] at hagrees
  revert hagrees
  decide

end LockFree.HugePageAllocator
