import Mathlib.Algebra.BigOperators.Group.Finset.Basic
import LockFree.AtomicSharedPtr
import LockFree.SharedPtrDestruction

/-!
# Clients of one AtomicSharedPtr

Every thread owns `SharedPtr`s and `FastSharedPtr`s and works on one `AtomicSharedPtr` with
them. Control block `b` is made for the data `δ b`: null or a pointer of its own. The nodes
point to no block, so that nothing is ever pushed on a `destructionQueue` but null pointers.
-/

namespace LockFree.SharedPtrClients
open AtomicSharedPtr TransitionRuns
open SharedPtrDestruction (toInt)

inductive Op
  | idle
  | getFast (x : Fast)
  | destroy (h : Handle) (x : Destroy)
  | get (x : Get)
  | exchange (expected new : ℕ) (x : Exchange)
  | unref (queue : List ℕ)

structure Client where
  handles : List Handle
  shared : List ℕ
  op : Op

inductive Choice
  | getFast
  | destroy (i : ℕ)
  | get
  | make
  | copy (i : ℕ)
  | drop (i : ℕ)
  | exchange (expected i : ℕ)
  | step (spurious : Bool)

/-- `swapped` is the step of `compareExchange` that replaces the block of `head_`; `skipped`
is a `destroy` that finds `foreignPackedPtr` null and releases nothing. -/
inductive Event
  | called
  | held (h : Handle)
  | skipped (h : Handle)
  | swapped
  | silent
  | fault

def make (δ : ℕ → ℕ) (g : Shared Unit) : Shared Unit × ℕ :=
  let new := g.created + 1
  ({ g with
    blocks := Function.update g.blocks new (some ⟨δ new, 1⟩)
    nodes := Function.update g.nodes new (if δ new = 0 then none else some ⟨0, ()⟩)
    created := new }, new)

/-- `before` is an `int`, here and in the next definition. -/
def unref (g : Shared Unit) (block : ℕ) (queue : List ℕ) : Option (Shared Unit × List ℕ) :=
  if block = 0 then some (g, queue)
  else
    match g.blocks block with
    | none => none
    | some c =>
      if toInt c.refCount = 0 then none
      else if toInt c.refCount = 1 then
        match delete g block c.data with
        | none => none
        | some (g', pushed) => some (g', pushed ++ queue)
      else some (g.setRefCount block c (c.refCount - 1), queue)

/-- One of the assertions `assert(before)` in `get` fails. -/
def aborts (g : Shared Unit) : Get → Bool
  | .refAdd copy | .refSub copy => (g.blocks (pointer copy)).any fun c => toInt c.refCount = 0
  | _ => false

def step (g : Shared Unit) (l : Client) (spurious : Bool) :
    Op → Option (Shared Unit × Client × Event)
  | .idle => none
  | .getFast x =>
    match x.step g with
    | none => none
    | some (g', .done h) => some (g', ⟨h :: l.handles, l.shared, .idle⟩, .held h)
    | some (g', x') => some (g', { l with op := .getFast x' }, .silent)
  | .destroy h x =>
    match x.step g h spurious with
    | none => none
    | some (g', .done) => some (g', { l with op := .idle }, .silent)
    | some (g', x') => some (g', { l with op := .destroy h x' }, .silent)
  | .get x =>
    if aborts g x then none
    else
      match x.step g spurious with
      | none => none
      | some (g', .done block) => some (g', ⟨l.handles, block :: l.shared, .idle⟩, .silent)
      | some (g', x') => some (g', { l with op := .get x' }, .silent)
  | .exchange expected new x =>
    match x.step g expected new spurious with
    | none => none
    | some (g', .done _ moved) =>
      some (g', ⟨l.handles, if moved then l.shared else new :: l.shared, .idle⟩, .silent)
    | some (g', .destroyOld h packed) =>
      some (g', { l with op := .exchange expected new (.destroyOld h packed) }, .swapped)
    | some (g', .destroy moved h .done) =>
      some (g', { l with op := .exchange expected new (.destroy moved h .done) }, .skipped h)
    | some (g', x') => some (g', { l with op := .exchange expected new x' }, .silent)
  | .unref [] => some (g, { l with op := .idle }, .silent)
  | .unref (block :: queue) =>
    match unref g block queue with
    | none => none
    | some (g', queue') => some (g', { l with op := .unref queue' }, .silent)

def Op.isIdle : Op → Bool
  | .idle => true
  | _ => false

def call (δ : ℕ → ℕ) (g : Shared Unit) (l : Client) :
    Choice → Option (Shared Unit × Client × Event)
  | .getFast => some (g, { l with op := .getFast .addLocal }, .called)
  | .destroy i =>
    match l.handles[i]? with
    | none => none
    | some h =>
      some (g, ⟨l.handles.eraseIdx i, l.shared, .destroy h (.start h)⟩,
        if h.foreign then .called else .skipped h)
  | .get => some (g, { l with op := .get .addLocal }, .called)
  | .make =>
    let (g', new) := make δ g
    some (g', { l with shared := new :: l.shared }, .called)
  | .copy i =>
    match l.shared[i]? with
    | none => none
    | some block =>
      match fetchAdd g block 1 with
      | none => some (g, l, .fault)
      | some (before, g') =>
        if toInt before = 0 then some (g, l, .fault)
        else some (g', { l with shared := block :: l.shared }, .called)
  | .drop i =>
    match l.shared[i]? with
    | none => none
    | some block => some (g, ⟨l.handles, l.shared.eraseIdx i, .unref [block]⟩, .called)
  | .exchange expected i =>
    match l.shared[i]? with
    | none => none
    | some new =>
      some (g, ⟨l.handles, l.shared.eraseIdx i, .exchange expected new .compare⟩, .called)
  | .step _ => none

def next (δ : ℕ → ℕ) (g : Shared Unit) (l : Client) :
    Choice → Option (Shared Unit × Client × Event)
  | .step spurious =>
    if l.op.isIdle then none
    else
      match step g l spurious l.op with
      | none => some (g, l, .fault)
      | some out => some out
  | c => if l.op.isIdle then call δ g l c else none

section
variable (δ : ℕ → ℕ) (Tid : Type*) [DecidableEq Tid]

def start : Shared Unit where
  packedPtr := pack 1
  destroyed := false
  blocks := Function.update (fun _ => none) 1 (some ⟨δ 1, 1⟩)
  nodes := Function.update (fun _ => none) 1 (if δ 1 = 0 then none else some ⟨0, ()⟩)
  created := 1

def unlimited : Machine (Pool Tid (Shared Unit) Client) (Tid × Choice) (Tid × Event) :=
  Pool.machine (start δ) ⟨[], [], .idle⟩ (next δ)

end

def Op.addsLocal : Op → Bool
  | .getFast .addLocal | .get .addLocal | .exchange _ _ (.getFast .addLocal) => true
  | _ => false

def fits {Tid : Type*} (s : Pool Tid (Shared Unit) Client) (c : Tid × Choice) : Bool :=
  match c.2 with
  | .step _ => !(s.threads c.1).op.addsLocal || decide (localCount s.shared.packedPtr < kMagicMask)
  | _ => true

/-- The local count never reaches `65536`. -/
def machine (δ : ℕ → ℕ) (Tid : Type*) [DecidableEq Tid] :
    Machine (Pool Tid (Shared Unit) Client) (Tid × Choice) (Tid × Event) :=
  (unlimited δ Tid).restrict fits

/-- A migration that fails loads a word of the same block, with references in it. -/
def loads (g : Shared Unit) : Fast → Bool
  | .migrateCas known _ _ =>
    g.packedPtr == known ||
      (pointer g.packedPtr == pointer known && localCount g.packedPtr != 0)
  | _ => true

/-- An `int` that holds the count of `block` is `k` only if the count is. -/
def intact (g : Shared Unit) (block k : ℕ) : Bool :=
  (g.blocks block).all fun c => toInt c.refCount != k || c.refCount == k

def Op.sound (g : Shared Unit) : Op → Bool
  | .getFast x | .exchange _ _ (.getFast x) => loads g x
  | .get (.refAdd copy) | .get (.refSub copy) => intact g (pointer copy) 0
  | .unref (block :: _) => intact g block 0 && intact g block 1
  | _ => true

def sound {Tid : Type*} (s : Pool Tid (Shared Unit) Client) (c : Tid × Choice) : Bool :=
  match c.2 with
  | .step _ => (s.threads c.1).op.sound s.shared
  | .copy i => ((s.threads c.1).shared[i]?).all fun block => intact s.shared block 0
  | _ => true

section
variable {Tid : Type*} [Fintype Tid]

def Op.holder? : Op → Option Handle
  | .exchange _ _ (.flushAdd h _) | .exchange _ _ (.flushCas h _) | .exchange _ _ (.flushSub h _ _)
  | .exchange _ _ (.swap h _) | .exchange _ _ (.destroyOld h _)
  | .exchange _ _ (.releaseOld h _) => some h
  | _ => none

def Client.held (l : Client) : List Handle := l.handles ++ l.op.holder?.toList

/-- The owners of a block: `head_`, the `SharedPtr`s and the `FastSharedPtr`s. -/
def owners (s : Pool Tid (Shared Unit) Client) (b : ℕ) : ℕ :=
  (if pointer s.shared.packedPtr = b then 1 else 0) +
    ∑ t, ((s.threads t).shared.count b +
      ((s.threads t).handles.map fun h => pointer h.known).count b)

def Event.skipped? : Event → Option ℕ
  | .skipped h => some (pointer h.known)
  | _ => none

def skipped {Tid : Type*} (es : List (Tid × Event)) (b : ℕ) : ℕ :=
  (es.filterMap fun e => e.2.skipped?).count b

def localOf (g : Shared Unit) (b : ℕ) : ℕ :=
  if pointer g.packedPtr = b then localCount g.packedPtr else 0

structure Accounts (s : Pool Tid (Shared Unit) Client) : Prop where
  /-- A handle's control block is the one whose data it holds. -/
  handles : ∀ t, ∀ h ∈ (s.threads t).held,
    ∃ c, s.shared.blocks (pointer h.known) = some c ∧ c.data = h.data
  counted : (∀ t, (s.threads t).op.isIdle) → ∀ b c, s.shared.blocks b = some c →
    c.refCount + localOf s.shared b = owners s b
  deleted : (∀ t, (s.threads t).op.isIdle) → ∀ b, b ≠ 0 → s.shared.blocks b = none →
    owners s b = 0

end
end LockFree.SharedPtrClients
