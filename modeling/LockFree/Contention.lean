import Mathlib.Algebra.GroupWithZero.Nat
import Mathlib.Algebra.Order.BigOperators.Group.Finset
import LockFree.TransitionRuns

/-!
# Bounded contention

Threads work on one contended word. A thread that the others leave alone ends its call after
a number of steps. A change of the word by another thread may delay it, and a call of another
thread that takes effect may make it begin again; but no thread changes the word more than a
number of times before some call takes effect. What all threads have left to do then drops
with every step but those that begin a call, whatever the schedule.
-/

namespace LockFree.Contention
open TransitionRuns

/-- What a thread has left: calls that will take effect, changes of the word, and steps as
long as no other thread changes it. Some of it may be left to all threads together. -/
structure Budget (G L : Type*) where
  decisions : L → ℕ
  changes : G → L → ℕ
  effort : G → L → ℕ
  sharedChanges : G → ℕ
  sharedEffort : G → ℕ

structure Terms where
  decided : ℕ
  begun : ℕ
  changed : ℕ
  ownChanges : ℕ
  worked : ℕ
  ownEffort : ℕ
  otherChanges : ℕ
  otherEffort : ℕ

structure Rates where
  delay : ℕ
  retryChanges : ℕ
  retryEffort : ℕ
  ownEffort : ℕ
  callEffort : ℕ
  slipEffort : ℕ

inductive Kind
  | quiet
  | change
  | decide
  | call
  | slip

def Kind.terms (r : Rates) : Kind → Terms
  | .quiet => ⟨0, 0, 0, 0, 1, 0, 0, 0⟩
  | .change => ⟨0, 0, 1, 0, 0, r.ownEffort, 0, r.delay⟩
  | .decide => ⟨1, 0, 0, r.retryChanges, 0, r.ownEffort, r.retryChanges, r.retryEffort⟩
  | .call => ⟨0, 1, 0, r.retryChanges, 0, r.callEffort, 0, 0⟩
  | .slip => ⟨0, 0, 0, 0, 0, r.slipEffort, 0, 0⟩

namespace Rates

def changeWorth (r : Rates) (n : ℕ) : ℕ := n * r.delay + r.ownEffort + 1

def decisionWorth (r : Rates) (n : ℕ) : ℕ :=
  r.changeWorth n * (r.retryChanges + n * r.retryChanges) + n * r.retryEffort + r.ownEffort + 1

def callPrice (r : Rates) (n : ℕ) : ℕ :=
  r.decisionWorth n + r.changeWorth n * r.retryChanges + r.callEffort + 1

def price (r : Rates) (n : ℕ) : Kind → ℕ
  | .quiet | .change | .decide => 0
  | .call => r.callPrice n
  | .slip => r.slipEffort + 1

end Rates

section
variable {Tid G L : Type*} [DecidableEq Tid] [Fintype Tid] {B : Budget G L} {r : Rates}
  {s : Pool Tid G L} {t : Tid} {g : G} {l : L} {x : Terms} {k : Kind}

structure Budget.Keeps (B : Budget G L) (s : Pool Tid G L) (t : Tid) (g : G) (l : L) (x : Terms) :
    Prop where
  decisions : B.decisions l + x.decided ≤ B.decisions (s.threads t) + x.begun
  changes : B.changes g l + B.sharedChanges g + x.changed ≤
    B.changes s.shared (s.threads t) + B.sharedChanges s.shared + x.ownChanges
  effort : B.effort g l + B.sharedEffort g + x.worked ≤
    B.effort s.shared (s.threads t) + B.sharedEffort s.shared + x.ownEffort
  otherChanges : ∀ u, u ≠ t →
    B.changes g (s.threads u) ≤ B.changes s.shared (s.threads u) + x.otherChanges
  otherEffort : ∀ u, u ≠ t →
    B.effort g (s.threads u) ≤ B.effort s.shared (s.threads u) + x.otherEffort

def Budget.left (B : Budget G L) (r : Rates) (s : Pool Tid G L) : ℕ :=
  r.decisionWorth (Fintype.card Tid) * (∑ u, B.decisions (s.threads u)) +
    r.changeWorth (Fintype.card Tid) *
      ((∑ u, B.changes s.shared (s.threads u)) + B.sharedChanges s.shared) +
    ((∑ u, B.effort s.shared (s.threads u)) + B.sharedEffort s.shared)

theorem sum_step_le {φ ψ : L → ℕ} {f : Tid → L} {c : ℕ}
    (h : ∀ u, u ≠ t → ψ (f u) ≤ φ (f u) + c) :
    ∑ u, ψ (Function.update f t l u) + φ (f t) ≤
      ∑ u, φ (f u) + ψ l + Fintype.card Tid * c := by
  have hothers : ∑ u ∈ Finset.univ.erase t, ψ (Function.update f t l u) ≤
      ∑ u ∈ Finset.univ.erase t, φ (f u) + Fintype.card Tid * c := by
    calc ∑ u ∈ Finset.univ.erase t, ψ (Function.update f t l u)
        ≤ ∑ u ∈ Finset.univ.erase t, (φ (f u) + c) := Finset.sum_le_sum fun u hu => by
          rw [Function.update_of_ne (Finset.ne_of_mem_erase hu)]
          exact h u (Finset.ne_of_mem_erase hu)
      _ = ∑ u ∈ Finset.univ.erase t, φ (f u) + (Finset.univ.erase t).card * c := by
          rw [Finset.sum_add_distrib, Finset.sum_const, Nat.nsmul_eq_mul]
      _ ≤ ∑ u ∈ Finset.univ.erase t, φ (f u) + Fintype.card Tid * c := by
          gcongr
          exact Finset.card_le_univ _
  have hnew := Finset.sum_erase_add Finset.univ (fun u => ψ (Function.update f t l u))
    (Finset.mem_univ t)
  have hold := Finset.sum_erase_add Finset.univ (fun u => φ (f u)) (Finset.mem_univ t)
  simp only [Function.update_self] at hnew
  omega

theorem Kind.worth (r : Rates) (n : ℕ) (k : Kind) :
    r.decisionWorth n * (k.terms r).begun +
        r.changeWorth n * ((k.terms r).ownChanges + n * (k.terms r).otherChanges) +
        ((k.terms r).ownEffort + n * (k.terms r).otherEffort) + 1 ≤
      r.decisionWorth n * (k.terms r).decided + r.changeWorth n * (k.terms r).changed +
        (k.terms r).worked + r.price n k := by
  cases k <;>
    simp only [Kind.terms, Rates.price, Rates.callPrice, Rates.decisionWorth, Rates.changeWorth,
      Nat.mul_zero, Nat.mul_one, Nat.zero_add, Nat.add_zero] <;> omega

theorem Budget.Keeps.left_le (h : B.Keeps s t g l (k.terms r)) :
    B.left r ⟨g, Function.update s.threads t l⟩ + 1 ≤
      B.left r s + r.price (Fintype.card Tid) k := by
  have hdecisions := sum_step_le (t := t) (l := l) (φ := B.decisions) (ψ := B.decisions)
    (f := s.threads) (c := 0) fun u _ => le_rfl
  have hchanges := sum_step_le (l := l) (φ := B.changes s.shared) (ψ := B.changes g)
    (f := s.threads) h.otherChanges
  have heffort := sum_step_le (l := l) (φ := B.effort s.shared) (ψ := B.effort g)
    (f := s.threads) h.otherEffort
  have hworth := Kind.worth r (Fintype.card Tid) k
  have hown := h.decisions
  have hownChanges := h.changes
  have hownEffort := h.effort
  simp only [Budget.left]
  generalize k.terms r = x at *
  generalize Fintype.card Tid = n at *
  generalize r.decisionWorth n = D at *
  generalize r.changeWorth n = C at *
  have hD : D * (∑ u, B.decisions (Function.update s.threads t l u) + x.decided) ≤
      D * (∑ u, B.decisions (s.threads u) + x.begun) := Nat.mul_le_mul_left D (by omega)
  have hC : C * (∑ u, B.changes g (Function.update s.threads t l u) + B.sharedChanges g +
        x.changed) ≤
      C * (∑ u, B.changes s.shared (s.threads u) + B.sharedChanges s.shared + x.ownChanges +
        n * x.otherChanges) := Nat.mul_le_mul_left C (by omega)
  simp only [Nat.mul_add] at hD hC hworth ⊢
  omega

end
/-- A schedule is no longer than its choices pay for, if every step uses up some of what is
left and a choice adds no more than its price. -/
theorem length_le {σ κ ε : Type*} {M : Machine σ κ ε} {left : σ → ℕ} {price : κ → ℕ}
    (hstep : ∀ es s c s' e, M.Run es s → M.next s c = some (s', e) →
      left s' + 1 ≤ left s + price c)
    {es fs : List ε} {s s' : σ} {cs : List κ} (hr : M.Run es s)
    (h : M.exec s cs = some (s', fs)) : cs.length + left s' ≤ left s + (cs.map price).sum := by
  induction cs generalizing s es fs with
  | nil =>
    obtain ⟨rfl, rfl⟩ : s = s' ∧ [] = fs := by simpa [Machine.exec] using h
    simp
  | cons c cs ih =>
    obtain ⟨u, e, gs, hn, hx, rfl⟩ := Machine.exec_cons h
    have hfirst := hstep es s c u e hr hn
    have hrest := ih (hr.snoc ⟨c, hn⟩) hx
    rw [List.length_cons, List.map_cons, List.sum_cons]
    omega

end LockFree.Contention
