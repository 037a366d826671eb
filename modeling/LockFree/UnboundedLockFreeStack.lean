import Mathlib.Algebra.BigOperators.Group.Finset.Basic
import Mathlib.Data.Fintype.Basic
import LockFree.AtomicSharedPtr
import LockFree.Linearizability
import LockFree.TransitionRuns

/-!
# UnboundedLockFreeStack

`Push`, `Pop` and the destructor over the steps of `AtomicSharedPtr`. `head_` starts
with control block 1, whose data is null: the empty stack.
-/

namespace LockFree.LockFreeStack
open AtomicSharedPtr Linearizability TransitionRuns

inductive Call (T : Type*)
  | push (v : T)
  | pop

inductive Result (T : Type*)
  | done
  | popped (v : T)
  | empty

inductive Local (T : Type*)
  | idle
  | pushGet (new : ℕ) (v : T) (x : Get)
  | pushAssign (new : ℕ) (v : T) (block : ℕ)
  | pushRelease (new : ℕ) (v : T) (queue : List ℕ)
  | pushExchange (new : ℕ) (v : T) (expected : ℕ) (x : Exchange)
  | pushLeave (queue : List ℕ)
  | popGet (old : Option Handle) (x : Fast)
  | popAssign (top old : Handle) (x : Destroy)
  | popCopy (top : Handle)
  | popExchange (top : Handle) (copy : ℕ) (x : Exchange)
  | popRelease (top : Handle) (result : Bool) (queue : List ℕ)
  | popMove (top : Handle)
  | popLeave (top : Handle) (r : Result T) (x : Destroy)
  | destroyAdd (copy : ℕ)
  | destroySub (copy : ℕ)
  | destroyRelease (queue : List ℕ)

/-- `pushed`, `popped` and `sawEmpty` mark the step that decides a call. -/
inductive Event (T : Type*)
  | called (c : Call T)
  | pushed (node : ℕ) (v : T)
  | popped (node : ℕ) (v : T)
  | sawEmpty
  | returned (r : Result T)
  | destroying
  | destroyed
  | silent
  | fault

inductive Choice (T : Type*)
  | call (c : Call T)
  | destroy
  | step (spurious : Bool)

variable {T : Type*}

def Local.isIdle : Local T → Bool
  | .idle => true
  | _ => false

def create (g : Shared T) (v : T) : Shared T × ℕ :=
  let new := g.created + 1
  ({ g with
    blocks := Function.update g.blocks new (some ⟨new, 1⟩)
    nodes := Function.update g.nodes new (some ⟨0, v⟩)
    created := new }, new)

def test (top : Handle) : Local T :=
  if top.data = 0 then .popLeave top .empty (.start top) else .popCopy top

/-- `none` is a fault. `leave v` is what a move leaves of an element. -/
def step (leave : T → T) (g : Shared T) (spurious : Bool) :
    Local T → Option (Shared T × Local T × Event T)
  | .idle => none
  | .pushGet new v x =>
    match x.step g spurious with
    | none => none
    | some (g', .done block) => some (g', .pushAssign new v block, .silent)
    | some (g', x') => some (g', .pushGet new v x', .silent)
  | .pushAssign new v block =>
    match g.blocks new with
    | none => none
    | some c =>
      match g.nodes c.data with
      | none => none
      | some node =>
        if node.prev = block then some (g, .pushRelease new v [block], .silent)
        else
          some ({ g with nodes := Function.update g.nodes c.data (some { node with prev := block }) },
            .pushRelease new v [node.prev], .silent)
  | .pushRelease new v [] =>
    match g.blocks new with
    | none => none
    | some c =>
      match g.nodes c.data with
      | none => none
      | some node =>
        if node.prev = 0 then some (g, .pushExchange new v 0 .compare, .silent)
        else
          match g.blocks node.prev with
          | none => none
          | some d => some (g, .pushExchange new v d.data .compare, .silent)
  | .pushRelease new v (block :: queue) =>
    match release g block queue with
    | none => none
    | some (g', queue') => some (g', .pushRelease new v queue', .silent)
  | .pushExchange new v expected x =>
    match x.step g expected new spurious with
    | none => none
    | some (g', .done true moved) =>
      some (g', .pushLeave (if moved then [] else [new]), .silent)
    | some (g', .done false _) => some (g', .pushGet new v .addLocal, .silent)
    | some (g', .destroyOld holder packed) =>
      some (g', .pushExchange new v expected (.destroyOld holder packed), .pushed new v)
    | some (g', x') => some (g', .pushExchange new v expected x', .silent)
  | .pushLeave [] => some (g, .idle, .returned .done)
  | .pushLeave (block :: queue) =>
    match release g block queue with
    | none => none
    | some (g', queue') => some (g', .pushLeave queue', .silent)
  | .popGet old x =>
    match x.step g with
    | none => none
    | some (g', .done top) =>
      match old with
      | none => some (g', test top, .silent)
      | some old => some (g', .popAssign top old (.start old), .silent)
    | some (g', .readData known) =>
      match g.blocks (pointer known) with
      | none => none
      | some c =>
        some (g', .popGet old (.readData known), if c.data = 0 then .sawEmpty else .silent)
    | some (g', x') => some (g', .popGet old x', .silent)
  | .popAssign top old x =>
    match x.step g old spurious with
    | none => none
    | some (g', .done) => some (g', test top, .silent)
    | some (g', x') => some (g', .popAssign top old x', .silent)
  | .popCopy top =>
    match g.nodes top.data with
    | none => none
    | some node =>
      if node.prev = 0 then some (g, .popExchange top 0 .compare, .silent)
      else
        match fetchAdd g node.prev 1 with
        | none => none
        | some (before, g') =>
          if before = 0 then none else some (g', .popExchange top node.prev .compare, .silent)
  | .popExchange top copy x =>
    match x.step g top.data copy spurious with
    | none => none
    | some (g', .done result moved) =>
      some (g', .popRelease top result (if moved then [] else [copy]), .silent)
    | some (g', .destroyOld holder packed) =>
      match g.nodes top.data with
      | none => none
      | some node =>
        some (g', .popExchange top copy (.destroyOld holder packed), .popped top.data node.data)
    | some (g', x') => some (g', .popExchange top copy x', .silent)
  | .popRelease top result [] =>
    some (g, if result then .popMove top else .popGet (some top) .addLocal, .silent)
  | .popRelease top result (block :: queue) =>
    match release g block queue with
    | none => none
    | some (g', queue') => some (g', .popRelease top result queue', .silent)
  | .popMove top =>
    match g.nodes top.data with
    | none => none
    | some node =>
      some ({ g with
        nodes := Function.update g.nodes top.data (some { node with data := leave node.data }) },
        .popLeave top (.popped node.data) (.start top), .silent)
  | .popLeave top r x =>
    match x.step g top spurious with
    | none => none
    | some (g', .done) => some (g', .idle, .returned r)
    | some (g', x') => some (g', .popLeave top r x', .silent)
  | .destroyAdd copy =>
    match fetchAdd g (pointer copy) (localCount copy) with
    | none => none
    | some (_, g') => some (g', .destroySub copy, .silent)
  | .destroySub copy =>
    match dropRef g (pointer copy) ControlBlock.data with
    | none => none
    | some (g', queue) => some (g', .destroyRelease queue, .silent)
  | .destroyRelease [] => some (g, .idle, .destroyed)
  | .destroyRelease (block :: queue) =>
    match release g block queue with
    | none => none
    | some (g', queue') => some (g', .destroyRelease queue', .silent)

def next (leave : T → T) (g : Shared T) (l : Local T) :
    Choice T → Option (Shared T × Local T × Event T)
  | .call c =>
    if l.isIdle ∧ ¬ g.destroyed then
      match c with
      | .push v =>
        let (g', new) := create g v
        some (g', .pushGet new v .addLocal, .called c)
      | .pop => some (g, .popGet none .addLocal, .called c)
    else none
  | .destroy =>
    if l.isIdle ∧ ¬ g.destroyed then
      let copy := g.packedPtr
      some ({ g with destroyed := true },
        if localCount copy ≠ 0 then .destroyAdd copy else .destroySub copy, .destroying)
    else none
  | .step spurious =>
    if l.isIdle then none
    else
      match step leave g spurious l with
      | none => some (g, l, .fault)
      | some out => some out

section
variable (Tid : Type*) [DecidableEq Tid] [Fintype Tid]

/-- The destructor runs when every operation has returned. -/
def machine (leave : T → T) :
    Machine (Pool Tid (Shared T) (Local T)) (Tid × Choice T) (Tid × Event T) where
  start := ⟨⟨pack 1, false, Function.update (fun _ => none) 1 (some ⟨0, 1⟩), fun _ => none, 1⟩,
    fun _ => .idle⟩
  next s c :=
    match c with
    | (t, .destroy) =>
      if ∀ u, (s.threads u).isIdle then
        (Pool.machine s.shared .idle (next leave)).next s (t, .destroy)
      else none
    | c => (Pool.machine s.shared .idle (next leave)).next s c

end

def Get.outstanding : Get → ℕ
  | .addLocal | .done _ => 0
  | _ => 1

def Fast.outstanding : Fast → ℕ
  | .addLocal => 0
  | _ => 1

def Destroy.outstanding : Destroy → ℕ
  | .cas _ | .refSub => 1
  | _ => 0

def Exchange.outstanding : Exchange → ℕ
  | .compare | .done _ _ => 0
  | .getFast x => Fast.outstanding x
  | .destroy _ _ x => Destroy.outstanding x
  | _ => 1

def Local.outstanding : Local T → ℕ
  | .pushGet _ _ x => Get.outstanding x
  | .pushExchange _ _ _ x => Exchange.outstanding x
  | .popGet old x => old.elim 0 (fun _ => 1) + Fast.outstanding x
  | .popAssign _ _ x => 1 + Destroy.outstanding x
  | .popCopy _ | .popRelease _ _ _ | .popMove _ => 1
  | .popExchange _ _ x => 1 + Exchange.outstanding x
  | .popLeave _ _ x => Destroy.outstanding x
  | _ => 0

def outstanding {Tid : Type*} [Fintype Tid] (s : Pool Tid (Shared T) (Local T)) : ℕ :=
  ∑ t, (s.threads t).outstanding

/-- At most 1000 at any time. -/
def bounded (leave : T → T) (Tid : Type*) [DecidableEq Tid] [Fintype Tid] :
    Machine (Pool Tid (Shared T) (Local T)) (Tid × Choice T) (Tid × Event T) :=
  (machine Tid leave).within fun s => outstanding s ≤ 1000

end LockFree.LockFreeStack
