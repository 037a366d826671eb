import LockFree.BufferSize
import LockFree.TransitionRuns

/-!
# BoundedMPMCQueue

A call is a walk over the program points below, one atomic access or one element
operation per step, with the local computation that follows it. `Emplace` and
`Dequeue` are the same loop over the two sides of the queue, as are `TryEmplace`
and `TryDequeue`; a `Job` says which side is meant. `Generation` is `uint32_t`
and a ticket is a `size_t`.
-/

namespace LockFree.MpmcQueue
open BufferSize TransitionRuns

/-- `MPMCQueueSlot`: `data_` holds a live object or none. -/
structure Slot (T : Type*) where
  generation : ℕ
  data : Option T

namespace Slot
variable {T : Type*}

def construct (s : Slot T) (v : T) : Slot T := { s with data := some v }
def destroy (s : Slot T) : Slot T := { s with data := none }
def storeGeneration (s : Slot T) (g : ℕ) : Slot T := { s with generation := g }

end Slot

inductive Side
  | head
  | tail
  deriving DecidableEq

def Side.parity : Side → ℕ
  | .head => 1
  | .tail => 0

structure Shared (R : Ring) (T : Type*) where
  buffer : Fin R.size → Slot T
  head : ℕ
  tail : ℕ

variable {R : Ring} {T : Type*}

namespace Shared

def fresh (R : Ring) (T : Type*) : Shared R T := ⟨fun _ => ⟨0, none⟩, 0, 0⟩

def counter (g : Shared R T) : Side → ℕ
  | .head => g.head
  | .tail => g.tail

def draw (g : Shared R T) : Side → Shared R T
  | .head => { g with head := (g.head + 1) % 2 ^ 64 }
  | .tail => { g with tail := (g.tail + 1) % 2 ^ 64 }

def slot (g : Shared R T) (ticket : ℕ) : Slot T := g.buffer (R.index ticket)

def setSlot (g : Shared R T) (ticket : ℕ) (s : Slot T) : Shared R T :=
  { g with buffer := Function.update g.buffer (R.index ticket) s }

end Shared

def getGenerationMask (R : Ring) : ℕ := 2 ^ 64 - 1 - R.getIndexMask

/-- The conversion to `Generation` keeps the low 32 bits. -/
def getGeneration (R : Ring) (i : ℕ) : ℕ := (i &&& getGenerationMask R) % 2 ^ 32

/-- What a call does with its slot. -/
inductive Job (T : Type*)
  | emplace (v : T)
  | dequeue

namespace Job

def side : Job T → Side
  | .emplace _ => .tail
  | .dequeue => .head

/-- The generation the slot of a ticket must have for the job to proceed. -/
def generation (R : Ring) : Job T → ℕ → ℕ
  | .emplace _, ticket => 2 * getGeneration R ticket % 2 ^ 32
  | .dequeue, ticket => (2 * getGeneration R ticket + 1) % 2 ^ 32

end Job

inductive Call (T : Type*)
  | emplace (v : T)
  | tryEmplace (v : T)
  | dequeue
  | tryDequeue

def enqueue (element : T) : Call T := .emplace element
def tryEnqueue (element : T) : Call T := .tryEmplace element

/-- `done` carries the element a dequeue assigned to its argument. -/
inductive Result (T : Type*)
  | done (element : Option T)
  | refused
  deriving DecidableEq

inductive Local (T : Type*)
  | idle
  | fetchAdd (j : Job T)
  | wait (j : Job T) (ticket : ℕ)
  | load (j : Job T)
  | check (j : Job T) (ticket : ℕ)
  | exchange (j : Job T) (ticket : ℕ)
  | reload (j : Job T) (ticket : ℕ)
  | work (j : Job T) (ticket : ℕ)
  | publish (j : Job T) (ticket : ℕ) (element : Option T)

inductive Event (T : Type*)
  | called (c : Call T)
  | drawn (side : Side) (ticket : ℕ)
  | constructed (ticket : ℕ) (v : T)
  | moved (ticket : ℕ) (element : Option T)
  | returned (r : Result T)
  | silent

inductive Choice (T : Type*)
  | call (c : Call T)
  | go
  | spurious

def entry : Call T → Local T
  | .emplace v => .fetchAdd (.emplace v)
  | .tryEmplace v => .load (.emplace v)
  | .dequeue => .fetchAdd .dequeue
  | .tryDequeue => .load .dequeue

def next (g : Shared R T) : Local T → Choice T → Option (Shared R T × Local T × Event T)
  | .idle, .call c => some (g, entry c, .called c)
  | .fetchAdd j, .go =>
    let ticket := g.counter j.side
    some (g.draw j.side, .wait j ticket, .drawn j.side ticket)
  | .wait j ticket, .go =>
    if j.generation R ticket = (g.slot ticket).generation then some (g, .work j ticket, .silent)
    else some (g, .wait j ticket, .silent)
  | .load j, .go => some (g, .check j (g.counter j.side), .silent)
  | .check j ticket, .go =>
    if j.generation R ticket = (g.slot ticket).generation then
      some (g, .exchange j ticket, .silent)
    else some (g, .reload j ticket, .silent)
  | .exchange j ticket, .go =>
    if g.counter j.side = ticket then
      some (g.draw j.side, .work j ticket, .drawn j.side ticket)
    else some (g, .check j (g.counter j.side), .silent)
  -- a failed compare_exchange_weak has loaded the counter into the expected ticket
  | .exchange j _, .spurious => some (g, .check j (g.counter j.side), .silent)
  | .reload j ticket, .go =>
    if ticket = g.counter j.side then some (g, .idle, .returned .refused)
    else some (g, .check j (g.counter j.side), .silent)
  | .work (.emplace v) ticket, .go =>
    some (g.setSlot ticket ((g.slot ticket).construct v), .publish (.emplace v) ticket none,
      .constructed ticket v)
  | .work .dequeue ticket, .go =>
    some (g.setSlot ticket (g.slot ticket).destroy, .publish .dequeue ticket (g.slot ticket).data,
      .moved ticket (g.slot ticket).data)
  | .publish j ticket element, .go =>
    some (g.setSlot ticket ((g.slot ticket).storeGeneration ((j.generation R ticket + 1) % 2 ^ 32)),
      .idle, .returned (.done element))
  | _, _ => none

def machine (R : Ring) (T Tid : Type*) [DecidableEq Tid] :
    Machine (Pool Tid (Shared R T) (Local T)) (Tid × Choice T) (Tid × Event T) :=
  Pool.machine (Shared.fresh R T) .idle next

namespace Shared

@[simp] theorem slot_draw (g : Shared R T) (side : Side) (t : ℕ) :
    (g.draw side).slot t = g.slot t := by
  cases side <;> rfl

@[simp] theorem counter_setSlot (g : Shared R T) (t : ℕ) (s : Slot T) (side : Side) :
    (g.setSlot t s).counter side = g.counter side := by
  cases side <;> rfl

@[simp] theorem counter_draw_self (g : Shared R T) (side : Side) :
    (g.draw side).counter side = (g.counter side + 1) % 2 ^ 64 := by
  cases side <;> rfl

theorem counter_draw_ne (g : Shared R T) {side side' : Side} (h : side' ≠ side) :
    (g.draw side).counter side' = g.counter side' := by
  cases side <;> cases side' <;> first | rfl | exact absurd rfl h

theorem slot_setSlot (g : Shared R T) (t u : ℕ) (s : Slot T) :
    (g.setSlot t s).slot u = if u % R.size = t % R.size then s else g.slot u := by
  simp [slot, setSlot, Function.update_apply, Ring.index_eq_iff]

end Shared

theorem and_getGenerationMask (R : Ring) {i : ℕ} (hi : i < 2 ^ 64) :
    i &&& getGenerationMask R = R.size * (i / R.size) := by
  obtain ⟨k, -, hk, hs⟩ := R.size_eq_two_pow
  have hmask : getGenerationMask R = 2 ^ 64 - (R.getIndexMask + 1) := by
    unfold getGenerationMask
    omega
  have hsmall : R.getIndexMask < 2 ^ 64 := by
    have := R.size_le
    unfold Ring.getIndexMask
    omega
  rw [mul_comm, hs]
  apply Nat.eq_of_testBit_eq
  intro b
  rw [Nat.testBit_and, hmask, Nat.testBit_two_pow_sub_succ hsmall, Nat.testBit_mul_two_pow,
    Nat.testBit_div_two_pow, Ring.getIndexMask, hs, Nat.testBit_two_pow_sub_one]
  by_cases hb : k ≤ b
  · have hbk : b - k + k = b := by omega
    by_cases hb64 : b < 64
    · simp [hb, hb64, hbk, not_lt.mpr hb]
    · have : i.testBit b = false := Nat.testBit_lt_two_pow (hi.trans_le
        (Nat.pow_le_pow_right (by omega) (by omega)))
      simp [hb, hbk, this]
  · simp [hb, not_le.mp hb]

/-- The mask clears the index bits without shifting the lap number down: the
generations of successive laps are `2 * size` apart, not 2. -/
theorem generation_eq (R : Ring) (j : Job T) {t : ℕ} (ht : t < 2 ^ 31) :
    j.generation R t = 2 * (R.size * (t / R.size)) + j.side.parity := by
  have hle : R.size * (t / R.size) ≤ t := Nat.mul_div_le t R.size
  have hg : getGeneration R t = R.size * (t / R.size) := by
    rw [getGeneration, and_getGenerationMask R (by omega), Nat.mod_eq_of_lt (by omega)]
  cases j with
  | emplace v => simp only [Job.generation, Job.side, Side.parity, hg]; omega
  | dequeue => simp only [Job.generation, Job.side, Side.parity, hg]; omega

end LockFree.MpmcQueue
