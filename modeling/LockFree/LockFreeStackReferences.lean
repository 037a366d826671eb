import LockFree.DirectReferences
import LockFree.UnboundedLockFreeStack

/-!
# References of UnboundedLockFreeStack

What a thread holds of each control block, and what it knows of the nodes. `P` lists the
blocks that have been in `head_`, in the order in which they came there first.
-/

namespace LockFree.LockFreeStack
open AtomicSharedPtr Linearizability TransitionRuns

def dataOf (b : ℕ) : ℕ := if b = 1 then 0 else b

theorem dataOf_value (b : ℕ) : dataOf b = 0 ∨ dataOf b = b := by
  rw [dataOf]
  split
  · exact .inl rfl
  · exact .inr rfl

theorem dataOf_of_ne {b : ℕ} (hb : dataOf b ≠ 0) : dataOf b = b := (dataOf_value b).resolve_left hb

theorem dataOf_inj {a b : ℕ} (ha : a ≠ 0) (hb : b ≠ 0) (h : dataOf a = dataOf b) : a = b := by
  rw [dataOf, dataOf] at h
  split at h <;> split at h <;> omega

structure Holds (P : List ℕ) (h : Handle) : Prop where
  ok : h.Ok dataOf
  direct : h.Direct fun b => b ∈ P

theorem data_eq {h : Handle} (hok : h.Ok dataOf) (hdata : h.data ≠ 0) :
    h.data = pointer h.known := by
  rw [hok.data] at hdata ⊢
  exact dataOf_of_ne hdata

theorem Holds.data_mem {P : List ℕ} {h : Handle} (hh : Holds P h) (hdata : h.data ≠ 0) :
    h.data ∈ P := by
  rw [data_eq hh.ok hdata]
  exact hh.direct.mem

def heldRefs (old : Option Handle) (b : ℕ) : ℕ := old.elim 0 fun h => h.refs b

def heldLoose (old : Option Handle) (b : ℕ) : ℕ := old.elim 0 fun h => h.loose b

theorem heldLoose_le (old : Option Handle) (b : ℕ) : heldLoose old b ≤ heldRefs old b := by
  cases old with
  | none => exact le_rfl
  | some h => exact h.loose_le_refs b

section
variable {T : Type*}

def Local.refs (l : Local T) (b : ℕ) : ℕ :=
  match l with
  | .idle => 0
  | .pushGet new _ x => single new b + x.refs b
  | .pushAssign new _ block => single new b + single block b
  | .pushRelease new _ queue => single new b + queue.count b
  | .pushExchange new _ _ x => x.refs new b
  | .pushLeave queue => queue.count b
  | .popGet old x => heldRefs old b + x.refs b
  | .popAssign top old x => top.refs b + x.refs old b
  | .popCopy top | .popMove top => top.refs b
  | .popExchange top copy x => top.refs b + x.refs copy b
  | .popRelease top _ queue => top.refs b + queue.count b
  | .popLeave top _ x => x.refs top b
  | .destroyAdd copy | .destroySub copy => single (pointer copy) b
  | .destroyRelease queue => queue.count b

def Local.loose (l : Local T) (b : ℕ) : ℕ :=
  match l with
  | .pushGet _ _ x => x.loose b
  | .pushExchange _ _ _ x => x.loose b
  | .popGet old x => heldLoose old b + x.loose b
  | .popAssign top old x => top.loose b + x.loose old b
  | .popCopy top | .popRelease top _ _ | .popMove top => top.loose b
  | .popExchange top _ x => top.loose b + x.loose b
  | .popLeave top _ x => x.loose top b
  | _ => 0

def Local.pending? : Local T → Option ℕ
  | .pushGet new _ _ | .pushAssign new _ _ | .pushRelease new _ _ => some new
  | .pushExchange new _ _ x => if x.moved then none else some new
  | _ => none

def Local.taken? : Local T → Option ℕ
  | .popExchange top _ x => if x.moved then some top.data else none
  | .popRelease top result _ => if result then some top.data else none
  | .popMove top => some top.data
  | _ => none

def Local.emptied? : Local T → Option ℕ
  | .popMove top => some top.data
  | _ => none

def Local.ending : Local T → Bool
  | .destroyAdd _ | .destroySub _ | .destroyRelease _ => true
  | _ => false

def Local.Ok (P : List ℕ) : Local T → Prop
  | .idle | .pushLeave _ | .destroyRelease _ => True
  | .pushGet new _ x => new ≠ 0 ∧ x.Ok ∧ x.Direct fun b => b ∈ P
  | .pushAssign new _ block => new ≠ 0 ∧ block ∈ P
  | .pushRelease new _ _ => new ≠ 0
  | .pushExchange new _ expected x =>
    new ≠ 0 ∧ dataOf new ≠ expected ∧ x.Ok dataOf expected new ∧ x.Direct fun b => b ∈ P
  | .popGet old x => (∀ h, old = some h → Holds P h) ∧ x.Ok dataOf ∧ x.Direct fun b => b ∈ P
  | .popAssign top old x => Holds P top ∧ x.Ok dataOf old ∧ x.Direct
  | .popCopy top | .popMove top | .popRelease top _ _ => Holds P top ∧ top.data ≠ 0
  | .popExchange top copy x =>
    Holds P top ∧ top.data ≠ 0 ∧ copy ∈ P ∧ dataOf copy ≠ top.data ∧
      x.Ok dataOf top.data copy ∧ x.Direct fun b => b ∈ P
  | .popLeave top _ x => x.Ok dataOf top ∧ x.Direct
  | .destroyAdd _ => False
  | .destroySub copy => pointer copy ≠ 0

def Local.Sees (P : List ℕ) (g : Shared T) : Local T → Prop
  | .pushGet new v _ | .pushAssign new v _ => ∃ node, g.nodes new = some node ∧ node.data = v
  | .pushRelease new v _ => ∃ node, g.nodes new = some node ∧ node.data = v ∧ node.prev ∈ P
  | .pushExchange new v expected x => x.moved = false →
    ∃ node, g.nodes new = some node ∧ node.data = v ∧ node.prev ∈ P ∧ dataOf node.prev = expected
  | .popExchange top copy x => x.moved = false →
    ∃ node, g.nodes top.data = some node ∧ node.prev = copy
  | _ => True

structure Order (P : List ℕ) (g : Shared T) : Prop where
  nodup : P.Nodup
  created : ∀ b ∈ P, b ≠ 0 ∧ b ≤ g.created
  head : pointer g.packedPtr ∈ P
  prev : ∀ n node, g.nodes n = some node → node.prev = 0 ∨ node.prev ∈ P
  before : ∀ n ∈ P, ∀ node, g.nodes n = some node → ∃ xs ys, P = xs ++ n :: ys ∧ node.prev ∈ xs

variable {P Q : List ℕ} {l : Local T} {g : Shared T} {n : ℕ} {node : Node T}

theorem Order.prev_ne (h : Order P g) (hn : n ∈ P) (hnode : g.nodes n = some node) :
    node.prev ∈ P ∧ node.prev ≠ n := by
  obtain ⟨xs, ys, rfl, hmem⟩ := h.before n hn node hnode
  refine ⟨List.mem_append_left _ hmem, ?_⟩
  rintro heq
  exact List.disjoint_of_nodup_append h.nodup (heq ▸ hmem) List.mem_cons_self

theorem Order.idxOf_lt (h : Order P g) (hn : n ∈ P) (hnode : g.nodes n = some node) :
    P.idxOf node.prev < P.idxOf n := by
  obtain ⟨xs, ys, rfl, hmem⟩ := h.before n hn node hnode
  have hnot : n ∉ xs := fun hin =>
    List.disjoint_of_nodup_append h.nodup hin List.mem_cons_self
  rw [List.idxOf_append_of_mem hmem, List.idxOf_append_of_notMem hnot, List.idxOf_cons_self]
  exact Nat.lt_add_right 0 (List.idxOf_lt_length_of_mem hmem)

theorem Holds.mono {h : Handle} (hh : Holds P h) (hPQ : ∀ b ∈ P, b ∈ Q) : Holds Q h :=
  ⟨hh.ok, hh.direct.mono hPQ⟩

theorem Local.Ok.mono (h : l.Ok P) (hPQ : ∀ b ∈ P, b ∈ Q) : l.Ok Q := by
  cases l with
  | idle | pushLeave | destroyRelease => trivial
  | pushGet new v x => exact ⟨h.1, h.2.1, h.2.2.mono hPQ⟩
  | pushAssign new v block => exact ⟨h.1, hPQ _ h.2⟩
  | pushRelease | popLeave | destroyAdd | destroySub => exact h
  | pushExchange new v expected x => exact ⟨h.1, h.2.1, h.2.2.1, h.2.2.2.mono hPQ⟩
  | popGet old x => exact ⟨fun hd heq => (h.1 hd heq).mono hPQ, h.2.1, h.2.2.mono hPQ⟩
  | popAssign top old x => exact ⟨h.1.mono hPQ, h.2⟩
  | popCopy | popMove | popRelease => exact ⟨h.1.mono hPQ, h.2⟩
  | popExchange top copy x =>
    obtain ⟨htop, hdata, hcopy, hne, hok, hdirect⟩ := h
    exact ⟨htop.mono hPQ, hdata, hPQ _ hcopy, hne, hok, hdirect.mono hPQ⟩

theorem handle_loose_le (h : Handle) (b : ℕ) : h.loose b ≤ 1 := by
  rw [Handle.loose, single]
  split
  · split <;> decide
  · decide

theorem single_le (p b : ℕ) : single p b ≤ 1 := by
  rw [single]
  split <;> decide

theorem Fast.loose_le_outstanding (x : Fast) (b : ℕ) : x.loose b ≤ Fast.outstanding x := by
  cases x with
  | addLocal => exact le_rfl
  | readData | migrateAdd | migrateCas | migrateSub => exact single_le _ b
  | done h => exact handle_loose_le h b

theorem Destroy.loose_le_outstanding (h : Handle) (x : Destroy) (b : ℕ) :
    x.loose h b ≤ Destroy.outstanding x := by
  cases x with
  | cas => exact single_le _ b
  | refSub | releasing | done => exact Nat.zero_le _

theorem Get.loose_le_outstanding (x : Get) (b : ℕ) : x.loose b ≤ Get.outstanding x := by
  cases x with
  | refAdd | cas => exact single_le _ b
  | addLocal | refSub | done => exact Nat.zero_le _

theorem Exchange.loose_le_outstanding (x : Exchange) (b : ℕ) :
    x.loose b ≤ Exchange.outstanding x := by
  cases x with
  | compare | done => exact Nat.zero_le _
  | getFast x => exact Fast.loose_le_outstanding x b
  | flushAdd h | flushCas h | flushSub h | swap h | destroyOld h | releaseOld h =>
    exact handle_loose_le h b
  | destroy moved h x => exact Destroy.loose_le_outstanding h x b

theorem Local.loose_le_outstanding (l : Local T) (b : ℕ) : l.loose b ≤ l.outstanding := by
  cases l with
  | pushGet new v x => exact Get.loose_le_outstanding x b
  | pushExchange new v expected x => exact Exchange.loose_le_outstanding x b
  | popGet old x =>
    refine Nat.add_le_add ?_ (Fast.loose_le_outstanding x b)
    cases old with
    | none => exact le_rfl
    | some h => exact handle_loose_le h b
  | popAssign top old x =>
    exact Nat.add_le_add (handle_loose_le top b) (Destroy.loose_le_outstanding old x b)
  | popCopy top | popRelease top | popMove top => exact handle_loose_le top b
  | popExchange top copy x =>
    exact Nat.add_le_add (handle_loose_le top b) (Exchange.loose_le_outstanding x b)
  | popLeave top r x => exact Destroy.loose_le_outstanding top x b
  | idle | pushAssign | pushRelease | pushLeave | destroyAdd | destroySub | destroyRelease =>
    exact Nat.zero_le _

theorem Local.loose_le_refs (hok : l.Ok P) (b : ℕ) : l.loose b ≤ l.refs b := by
  cases l with
  | pushGet new v x => exact Nat.le_add_left_of_le (Get.loose_le_refs x b)
  | pushExchange new v expected x => exact AtomicSharedPtr.Exchange.loose_le_refs hok.2.2.1 b
  | popGet old x =>
    exact Nat.add_le_add (heldLoose_le old b) (AtomicSharedPtr.Fast.loose_le_refs hok.2.1 b)
  | popAssign top old x =>
    exact Nat.add_le_add (top.loose_le_refs b) (Destroy.loose_le_refs old x b)
  | popCopy top | popMove top => exact top.loose_le_refs b
  | popRelease top result queue => exact Nat.le_add_right_of_le (top.loose_le_refs b)
  | popExchange top copy x =>
    exact Nat.add_le_add (top.loose_le_refs b)
      (AtomicSharedPtr.Exchange.loose_le_refs hok.2.2.2.2.1 b)
  | popLeave top r x => exact Destroy.loose_le_refs top x b
  | idle | pushAssign | pushRelease | pushLeave | destroyAdd | destroySub | destroyRelease =>
    exact Nat.zero_le _

end
end LockFree.LockFreeStack
