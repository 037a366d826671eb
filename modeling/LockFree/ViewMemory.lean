import LockFree.ReleaseAcquire
import Mathlib.Logic.Function.Basic
import Mathlib.Order.Nat
import Mathlib.Tactic.Common

/-!
# Memory with stale loads

The messages of a location are numbered in its modification order, and a view gives for
every location the number of a message that may no longer be overlooked. A load reads
any message that its thread may still read; what it learns besides depends on the
orders of the store and of the load. A thread has three views: what it may no longer
overlook, what an acquire fence would add to that, and what its last release fence has
covered.

Stores are appended. Where the modification order might place one elsewhere, a machine
has to say so: a plain store of a thread that may overlook the last message, and an
update of a message that a plain store follows.
-/

namespace LockFree.ViewMemory
open ReleaseAcquire (MemoryOrder)

abbrev View (ι : Type*) := ι → ℕ

structure Views (ι : Type*) where
  current : View ι
  acquirable : View ι
  released : View ι
  released_le : released ≤ current
  le_acquirable : current ≤ acquirable

/-- An `update` is the message of a compare-exchange: it follows the message that was
compared, and nothing comes between the two. -/
structure Message (α ι : Type*) where
  value : α
  view : View ι
  update : Bool

structure Cell (α ι : Type*) where
  initial : α
  later : List (Message α ι)

/-- A location without atomic accesses. The accesses are numbered: one that may overlook
the last one before it races with it. -/
structure Plain (α : Type*) where
  value : α
  accesses : ℕ

def Plain.write {α : Type*} (p : Plain α) (a : α) : Plain α := ⟨a, p.accesses + 1⟩

variable {ι α : Type*}

namespace Cell

def last (c : Cell α ι) : ℕ := c.later.length

def message? (c : Cell α ι) : ℕ → Option (Message α ι)
  | 0 => some ⟨c.initial, ⊥, false⟩
  | t + 1 => c.later[t]?

def lastMessage (c : Cell α ι) : Message α ι := c.later.getLast?.getD ⟨c.initial, ⊥, false⟩

def latest (c : Cell α ι) : α := c.lastMessage.value

def push (c : Cell α ι) (m : Message α ι) : Cell α ι := { c with later := c.later ++ [m] }

variable {c : Cell α ι} {m m' : Message α ι} {t : ℕ} {b b' : View ι}

theorem le_last (h : c.message? t = some m) : t ≤ c.last := by
  cases t with
  | zero => exact Nat.zero_le _
  | succ t => exact (List.getElem?_eq_some_iff.mp h).1

theorem exists_message (h : t ≤ c.last) : ∃ m, c.message? t = some m := by
  cases t with
  | zero => exact ⟨_, rfl⟩
  | succ t => exact ⟨_, List.getElem?_eq_getElem h⟩

@[simp] theorem message_last (c : Cell α ι) : c.message? c.last = some c.lastMessage := by
  unfold message? last lastMessage
  rcases List.eq_nil_or_concat c.later with h | ⟨l, m, h⟩ <;> simp [h]

@[simp] theorem last_push : (c.push m).last = c.last + 1 := by simp [push, last]

@[simp] theorem lastMessage_push : (c.push m).lastMessage = m := by simp [push, lastMessage]

@[simp] theorem latest_push : (c.push m).latest = m.value := by simp [latest]

theorem message_push (h : t ≤ c.last) : (c.push m).message? t = c.message? t := by
  cases t with
  | zero => rfl
  | succ t => exact List.getElem?_append_left h

@[simp] theorem message_push_last : (c.push m).message? (c.last + 1) = some m := by
  simp [message?, push, last]

theorem message_push_eq (h : (c.push m).message? t = some m') :
    (t ≤ c.last ∧ c.message? t = some m') ∨ (t = c.last + 1 ∧ m' = m) := by
  have hle := le_last h
  rw [last_push] at hle
  rcases Nat.lt_or_ge c.last t with hlt | hge
  · obtain rfl : t = c.last + 1 := by omega
    rw [message_push_last] at h
    exact .inr ⟨rfl, (Option.some.inj h).symm⟩
  · exact .inl ⟨hge, by rwa [message_push hge] at h⟩

def Within (b : View ι) (c : Cell α ι) : Prop := ∀ t m, c.message? t = some m → m.view ≤ b

theorem Within.empty (a : α) : (Cell.mk a []).Within b := by
  intro t m h
  cases t with
  | zero =>
    cases h
    exact bot_le
  | succ t => cases h

theorem Within.mono (h : c.Within b) (hb : b ≤ b') : c.Within b' :=
  fun t m hm => (h t m hm).trans hb

theorem Within.push (h : c.Within b) (hm : m.view ≤ b) : (c.push m).Within b := by
  intro t m' h'
  rcases message_push_eq h' with ⟨-, h'⟩ | ⟨-, rfl⟩
  · exact h t m' h'
  · exact hm

end Cell

namespace Views

def start (ι : Type*) : Views ι := ⟨⊥, ⊥, ⊥, le_rfl, le_rfl⟩

def acquireFence (v : Views ι) : Views ι :=
  ⟨v.acquirable, v.acquirable, v.released, v.released_le.trans v.le_acquirable, le_rfl⟩

def releaseFence (v : Views ι) : Views ι :=
  ⟨v.current, v.acquirable, v.current, le_rfl, v.le_acquirable⟩

/-- After something else made this thread wait for another one. -/
def join (v : Views ι) (w : View ι) : Views ι :=
  ⟨v.current ⊔ w, v.acquirable ⊔ w, v.released, v.released_le.trans le_sup_left,
    sup_le_sup_right v.le_acquirable w⟩

def Within (b : View ι) (v : Views ι) : Prop := v.acquirable ≤ b

section
variable {v : Views ι} {w b b' : View ι}

theorem le_join : v.current ≤ (v.join w).current := le_sup_left

theorem le_join' : w ≤ (v.join w).current := le_sup_right

theorem Within.start : (Views.start ι).Within b := fun _ => Nat.zero_le _

theorem Within.current (h : v.Within b) : v.current ≤ b := v.le_acquirable.trans h

theorem Within.mono (h : v.Within b) (hb : b ≤ b') : v.Within b' := h.trans hb

theorem Within.join (h : v.Within b) (hw : w ≤ b) : (v.join w).Within b := sup_le h hw

end
end Views

variable [DecidableEq ι]

def seen (ℓ : ι) (t : ℕ) : View ι := Function.update ⊥ ℓ t

section
variable {ℓ ℓ' : ι} {t : ℕ} {w : View ι}

@[simp] theorem seen_self : seen ℓ t ℓ = t := Function.update_self ..

theorem seen_of_ne (h : ℓ' ≠ ℓ) : seen ℓ t ℓ' = 0 := Function.update_of_ne h ..

theorem seen_le (h : t ≤ w ℓ) : seen ℓ t ≤ w := by
  intro ℓ'
  by_cases hℓ : ℓ' = ℓ
  · subst hℓ
    rwa [seen_self]
  · rw [seen_of_ne hℓ]
    exact Nat.zero_le _

end

namespace Views

def read (v : Views ι) (ℓ : ι) (t : ℕ) (w : View ι) (order : MemoryOrder) : Views ι where
  current := v.current ⊔ seen ℓ t ⊔ if order.acquires then w else ⊥
  acquirable := v.acquirable ⊔ seen ℓ t ⊔ w
  released := v.released
  released_le := v.released_le.trans (le_sup_left.trans le_sup_left)
  le_acquirable := by
    apply sup_le_sup (sup_le_sup_right v.le_acquirable _)
    split
    · exact le_rfl
    · exact bot_le

def write (v : Views ι) (ℓ : ι) (t : ℕ) : Views ι where
  current := v.current ⊔ seen ℓ t
  acquirable := v.acquirable ⊔ seen ℓ t
  released := v.released
  released_le := v.released_le.trans le_sup_left
  le_acquirable := sup_le_sup_right v.le_acquirable _

/-- What a store attaches to its message `t`, once it is written. -/
def attached (v : Views ι) (ℓ : ι) (t : ℕ) (order : MemoryOrder) : View ι :=
  if order.releases then v.current else v.released ⊔ seen ℓ t

variable {v : Views ι} {ℓ ℓ' : ι} {t : ℕ} {w b : View ι} {order : MemoryOrder}

theorem le_read : v.current ≤ (v.read ℓ t w order).current :=
  le_sup_left.trans le_sup_left

theorem seen_le_read : t ≤ (v.read ℓ t w order).current ℓ := by
  have h : seen ℓ t ≤ (v.read ℓ t w order).current := le_sup_right.trans le_sup_left
  simpa using h ℓ

theorem le_read_of_acquires (h : order.acquires = true) : w ≤ (v.read ℓ t w order).current := by
  simp only [read, h, if_true]
  exact le_sup_right

theorem acquirable_le_read : v.acquirable ≤ (v.read ℓ t w order).acquirable :=
  le_sup_left.trans le_sup_left

theorem le_acquirable_read : w ≤ (v.read ℓ t w order).acquirable := le_sup_right

theorem le_write : v.current ≤ (v.write ℓ t).current := le_sup_left

theorem write_self (h : v.current ℓ ≤ t) : (v.write ℓ t).current ℓ = t := by
  simpa [write] using h

theorem write_of_ne (h : ℓ' ≠ ℓ) : (v.write ℓ t).current ℓ' = v.current ℓ' := by
  simp [write, seen_of_ne h]

theorem Within.read (h : v.Within b) (ht : t ≤ b ℓ) (hw : w ≤ b) :
    (v.read ℓ t w order).Within b :=
  sup_le (sup_le h (seen_le ht)) hw

theorem Within.write (h : v.Within b) (ht : t ≤ b ℓ) : (v.write ℓ t).Within b :=
  sup_le h (seen_le ht)

theorem Within.attached (h : v.Within b) (ht : t ≤ b ℓ) : v.attached ℓ t order ≤ b := by
  unfold Views.attached
  split
  · exact h.current
  · exact sup_le (v.released_le.trans h.current) (seen_le ht)

end Views

namespace Cell

def load (c : Cell α ι) (ℓ : ι) (v : Views ι) (t : ℕ) (order : MemoryOrder) :
    Option (α × Views ι) :=
  match c.message? t with
  | none => none
  | some m => if v.current ℓ ≤ t then some (m.value, v.read ℓ t m.view order) else none

def store (c : Cell α ι) (ℓ : ι) (v : Views ι) (a : α) (order : MemoryOrder) :
    Cell α ι × Views ι :=
  let v := v.write ℓ (c.last + 1)
  (c.push ⟨a, v.attached ℓ (c.last + 1) order, false⟩, v)

/-- An update of the last message, which stays attached to the new one. -/
def exchange (c : Cell α ι) (ℓ : ι) (v : Views ι) (a : α) (order : MemoryOrder) :
    Cell α ι × Views ι :=
  let m := c.lastMessage
  let v := (v.read ℓ c.last m.view order).write ℓ (c.last + 1)
  (c.push ⟨a, m.view ⊔ v.attached ℓ (c.last + 1) order, true⟩, v)

variable {c : Cell α ι} {ℓ : ι} {v v' : Views ι} {t : ℕ} {a : α} {order : MemoryOrder}
  {b : View ι}

theorem load_eq_some (h : c.load ℓ v t order = some (a, v')) :
    ∃ m, c.message? t = some m ∧ v.current ℓ ≤ t ∧ m.value = a ∧
      v' = v.read ℓ t m.view order := by
  simp only [load] at h
  split at h
  · cases h
  · rename_i m hm
    split at h
    · rename_i hle
      cases h
      exact ⟨m, hm, hle, rfl, rfl⟩
    · cases h

theorem load_le (h : c.load ℓ v t order = some (a, v')) : v.current ≤ v'.current := by
  obtain ⟨m, -, -, -, rfl⟩ := load_eq_some h
  exact Views.le_read

/-- A thread that may overlook nothing reads the last message. -/
theorem load_of_current (h : c.load ℓ v t order = some (a, v')) (hv : v.current ℓ = c.last) :
    t = c.last ∧ a = c.latest := by
  obtain ⟨m, hm, hle, rfl, -⟩ := load_eq_some h
  obtain rfl : t = c.last := le_antisymm (le_last hm) (hv ▸ hle)
  rw [c.message_last] at hm
  obtain rfl := Option.some.inj hm
  exact ⟨rfl, rfl⟩

theorem Within.load (h : c.Within b) (hb : c.last ≤ b ℓ) (hv : v.Within b)
    (hl : c.load ℓ v t order = some (a, v')) : v'.Within b := by
  obtain ⟨m, hm, -, -, rfl⟩ := load_eq_some hl
  exact hv.read ((le_last hm).trans hb) (h t m hm)

structure Acquired (c : Cell α ι) (ℓ : ι) (b : View ι) (v : Views ι) (t : ℕ) (a : α)
    (v' : Views ι) (m : Message α ι) : Prop where
  message : c.message? t = some m
  value : m.value = a
  current_le : v.current ℓ ≤ t
  le_current : t ≤ v'.current ℓ
  view_le : m.view ≤ v'.current
  le : v.current ≤ v'.current
  within : v'.Within b

theorem Within.acquire (h : c.Within b) (hb : c.last ≤ b ℓ) (hv : v.Within b)
    (hl : c.load ℓ v t .acquire = some (a, v')) : ∃ m, c.Acquired ℓ b v t a v' m := by
  have hw := h.load hb hv hl
  obtain ⟨m, hm, hle, hval, rfl⟩ := load_eq_some hl
  exact ⟨m, hm, hval, hle, Views.seen_le_read, Views.le_read_of_acquires rfl, Views.le_read, hw⟩

theorem Within.store (ℓ : ι) (a : α) (order : MemoryOrder) (h : c.Within b)
    (hb : c.last + 1 ≤ b ℓ) (hv : v.Within b) :
    (c.store ℓ v a order).1.Within b ∧ (c.store ℓ v a order).2.Within b :=
  ⟨h.push ((hv.write hb).attached hb), hv.write hb⟩

theorem Within.exchange (ℓ : ι) (a : α) (order : MemoryOrder) (h : c.Within b)
    (hb : c.last + 1 ≤ b ℓ) (hv : v.Within b) :
    (c.exchange ℓ v a order).1.Within b ∧ (c.exchange ℓ v a order).2.Within b := by
  have hm := h _ _ c.message_last
  have hread : (v.read ℓ c.last c.lastMessage.view order).Within b :=
    hv.read (Nat.le_of_succ_le hb) hm
  exact ⟨h.push (sup_le hm ((hread.write hb).attached hb)), hread.write hb⟩

theorem exchange_le : v.current ≤ (c.exchange ℓ v a order).2.current :=
  Views.le_read.trans Views.le_write

theorem view_le_exchange (h : order.acquires = true) :
    c.lastMessage.view ≤ (c.exchange ℓ v a order).2.current :=
  (Views.le_read_of_acquires h).trans Views.le_write

theorem succ_last_le_exchange : c.last + 1 ≤ (c.exchange ℓ v a order).2.current ℓ := by
  have h : seen ℓ (c.last + 1) ≤ (c.exchange ℓ v a order).2.current := le_sup_right
  simpa using h ℓ

theorem store_le : v.current ≤ (c.store ℓ v a order).2.current := Views.le_write

theorem succ_last_le_store : c.last + 1 ≤ (c.store ℓ v a order).2.current ℓ := by
  have h : seen ℓ (c.last + 1) ≤ (c.store ℓ v a order).2.current := le_sup_right
  simpa using h ℓ

end Cell
end LockFree.ViewMemory
