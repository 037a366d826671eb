import Mathlib.Order.Lattice
import Mathlib.Order.BoundedOrder.Basic
import Mathlib.Tactic.Common

/-!
# Accesses to one atomic object, with views

A view is what a thread is guaranteed to see, and a value carries the view attached to
it by its writer. Only acquire loads and acquire exchanges take the attached view over;
an exchange keeps it attached. Without views, an access is a function of the value.
-/

namespace LockFree.ReleaseAcquire

inductive MemoryOrder
  | relaxed
  | acquire
  | release
  | acqRel
  deriving DecidableEq

def MemoryOrder.acquires : MemoryOrder → Bool
  | .acquire | .acqRel => true
  | .relaxed | .release => false

def MemoryOrder.releases : MemoryOrder → Bool
  | .release | .acqRel => true
  | .relaxed | .acquire => false

inductive Access (α : Type*)
  | load (order : MemoryOrder)
  | store (a : α) (order : MemoryOrder)
  | exchange (a : α) (order : MemoryOrder)

def Access.left {α : Type*} (x : α) : Access α → α
  | .load _ => x
  | .store a _ => a
  | .exchange a _ => a

structure Cell (α V : Type*) where
  value : α
  attached : V

namespace Cell
variable {α V : Type*} [SemilatticeSup V]

def viewAfter (c : Cell α V) (view : V) : Access α → V
  | .load order => if order.acquires then view ⊔ c.attached else view
  | .store _ _ => view
  | .exchange _ order => if order.acquires then view ⊔ c.attached else view

section
variable {c : Cell α V} {view v : V} {order : MemoryOrder} {a : α}

theorem viewAfter_le {op : Access α} (hv : view ≤ v) (hc : c.attached ≤ v) :
    c.viewAfter view op ≤ v := by
  cases op with
  | load order | exchange a order =>
    simp only [viewAfter]
    split
    · exact sup_le hv hc
    · exact hv
  | store a order => exact hv

end

variable [OrderBot V]

def after (c : Cell α V) (view : V) : Access α → Cell α V
  | .load _ => c
  | .store a order => ⟨a, if order.releases then view else ⊥⟩
  | .exchange a order =>
    ⟨a, c.attached ⊔ if order.releases then c.viewAfter view (.exchange a order) else ⊥⟩

theorem attached_after_le {c : Cell α V} {view v : V} {op : Access α} (hv : view ≤ v)
    (hc : c.attached ≤ v) : (c.after view op).attached ≤ v := by
  cases op with
  | load order => exact hc
  | store a order =>
    simp only [after]
    split
    · exact hv
    · exact bot_le
  | exchange a order =>
    apply sup_le hc
    split
    · exact viewAfter_le hv hc
    · exact bot_le

theorem attached_le_exchange {c : Cell α V} {view : V} {a : α} {order : MemoryOrder} :
    c.attached ≤ (c.after view (.exchange a order)).attached :=
  le_sup_left

end Cell
end LockFree.ReleaseAcquire
