import Mathlib.Algebra.Order.BigOperators.Group.Finset
import LockFree.LockFreeStackPop

/-!
# The invariant of UnboundedLockFreeStack

It holds in every run with at most `1000` handles and calls of `get` outstanding, and no step
of such a run is a fault.
-/

namespace LockFree.LockFreeStack
open AtomicSharedPtr Linearizability TransitionRuns

variable {T Tid : Type*} [DecidableEq Tid] [Fintype Tid] {leave : T → T} {P : List ℕ}
  {g g' : Shared T} {l l' : Local T} {s s' : Pool Tid (Shared T) (Local T)} {t : Tid} {f : Event T}
  {e : Tid × Event T} {n : ℕ} {node : Node T} {o ol : ℕ → ℕ}

def published (es : List (Tid × Event T)) : List ℕ := 1 :: es.filterMap fun e => e.2.node?

structure Inv (P : List ℕ) (s : Pool Tid (Shared T) (Local T)) : Prop where
  balanced : Balanced dataOf s.shared (fun b => ∑ t, (s.threads t).refs b)
    fun b => ∑ t, (s.threads t).loose b
  order : Order P s.shared
  ok : ∀ t, (s.threads t).Ok P
  sees : ∀ t, (s.threads t).Sees P s.shared
  pending : ∀ t n, (s.threads t).pending? = some n → n ∉ P ∧ n ≠ 0 ∧ n ≤ s.shared.created
  distinct : ∀ a b n, (s.threads a).pending? = some n → (s.threads b).pending? = some n → a = b
  alive : s.shared.destroyed = false → ∀ t, (s.threads t).ending = false
  ended : s.shared.destroyed = true → ∀ t, (s.threads t).isIdle = true ∨ (s.threads t).ending = true
  few : Few s.shared

theorem taken_top (hok : l.Ok P) (hl : l.taken? = some n) :
    ∃ top, Holds P top ∧ top.data ≠ 0 ∧ top.data = n ∧ ∀ b, top.refs b ≤ l.refs b := by
  cases l with
  | popExchange top copy x =>
    simp only [Local.taken?] at hl
    split at hl
    · cases hl
      exact ⟨top, hok.1, hok.2.1, rfl, fun _ => Nat.le_add_right _ _⟩
    · cases hl
  | popRelease top result queue =>
    simp only [Local.taken?] at hl
    split at hl
    · cases hl
      exact ⟨top, hok.1, hok.2, rfl, fun _ => Nat.le_add_right _ _⟩
    · cases hl
  | popMove top =>
    cases hl
    exact ⟨top, hok.1, hok.2, rfl, fun _ => le_rfl⟩
  | idle | pushGet | pushAssign | pushRelease | pushExchange | pushLeave | popGet | popAssign
  | popCopy | popLeave | destroyAdd | destroySub | destroyRelease => cases hl

theorem taken_mem (hok : l.Ok P) (hl : l.taken? = some n) : n ∈ P := by
  obtain ⟨top, htop, hdata, rfl, -⟩ := taken_top hok hl
  exact htop.data_mem hdata

theorem taken_refs (hok : l.Ok P) (hl : l.taken? = some n) : 0 < l.refs n := by
  obtain ⟨top, htop, hdata, rfl, hle⟩ := taken_top hok hl
  refine Nat.lt_of_lt_of_le ?_ (hle top.data)
  rw [data_eq htop.ok hdata, Handle.refs, single_self]
  exact Nat.one_pos

theorem taken_of_emptied (hl : l.emptied? = some n) : l.taken? = some n := by
  cases l with
  | popMove top => exact hl
  | idle | pushGet | pushAssign | pushRelease | pushExchange | pushLeave | popGet | popAssign
  | popCopy | popExchange | popRelease | popLeave | destroyAdd | destroySub
  | destroyRelease => cases hl

theorem Ready.call {c : Call T} (h : Ready P g .idle o ol)
    (hn : next leave g .idle (.call c) = some (g', l', f)) : Safe P g .idle o ol g' l' f := by
  have hcreated : g.created + 1 ≠ 1 := by
    have := h.order.created _ h.order.head
    omega
  simp only [next] at hn
  split at hn
  · cases c with
    | pop =>
      cases hn
      exact .quiet rfl (.refl g) (.inl rfl) (.inl rfl) (.inl rfl)
        (fun _ => ⟨nofun, trivial, trivial⟩) trivial
        (h.balanced.congr (fun b => rfl) fun b => rfl)
    | push v =>
      cases hn
      have hdata : dataOf (g.created + 1) = g.created + 1 := if_neg hcreated
      have hbalanced := h.balanced.create
        (fun b => o b + Local.refs (.pushGet (g.created + 1) v .addLocal) b)
        (some ⟨0, v⟩) (by simp [hdata]) (fun b hb => if_neg (Ne.symm hb)) fun b => rfl
      rw [hdata] at hbalanced
      refine ⟨hbalanced, ⟨Nat.le_succ _, fun b hb hnone => ?_, fun b hlt hle => ?_,
        fun m node' hm => ?_⟩, rfl, .inl rfl, rfl, fun _ => ⟨Nat.succ_ne_zero _, trivial, trivial⟩,
        ⟨⟨0, v⟩, Function.update_self .., rfl⟩, fun m hm => ?_, nofun, nofun, nofun⟩
      · exact (Function.update_of_ne (by omega) _ _).trans hnone
      · obtain rfl : b = g.created + 1 := le_antisymm hle hlt
        simp only [create, Function.update_self, Option.isSome_some]
      · by_cases hnew : m = g.created + 1
        · subst hnew
          have hself : node' = ⟨0, v⟩ := by
            simpa only [create, Function.update_self, Option.some.injEq, eq_comm] using hm
          subst hself
          exact .inr ⟨.inr (Nat.lt_succ_self _), .inl rfl⟩
        · have hold : g.nodes m = some node' := by
            simpa only [create, Function.update_of_ne hnew] using hm
          exact .inl ⟨node', hold, rfl, fun _ => rfl⟩
      · cases hm
        exact .inr ⟨Nat.lt_succ_self _, le_rfl⟩
  · cases hn

theorem Inv.ready (h : Inv P s) (hl : (s.threads t).ending = false → s.shared.destroyed = false) :
    Ready P s.shared (s.threads t) (Pool.rest Local.refs s.threads t)
      (Pool.rest Local.loose s.threads t) where
  balanced := h.balanced.congr (fun b => (Pool.sum_eq_rest b).symm)
    fun b => (Pool.sum_eq_rest b).symm
  others b := Finset.sum_le_sum fun u _ => Local.loose_le_refs (h.ok u) b
  order := h.order
  ok := h.ok t
  sees := h.sees t
  pending n hn := (h.pending t n hn).1
  alive := hl
  few := h.few

def SafeAt (P : List ℕ) (s : Pool Tid (Shared T) (Local T)) (t : Tid) (g : Shared T) (l : Local T)
    (f : Event T) : Prop :=
  Safe P s.shared (s.threads t) (Pool.rest Local.refs s.threads t)
    (Pool.rest Local.loose s.threads t) g l f

theorem SafeAt.balanced_after (hsafe : SafeAt P s t g l f) : Balanced dataOf g
    (fun b => ∑ u, (Function.update s.threads t l u).refs b)
    fun b => ∑ u, (Function.update s.threads t l u).loose b :=
  hsafe.balanced.congr (fun b => Pool.sum_update_eq_rest b) fun b => Pool.sum_update_eq_rest b

omit [DecidableEq Tid] in
theorem owned_of_refs {f : Tid → Local T} {u : Tid} (hu : 0 < (f u).refs n) :
    0 < g.owners n fun b => ∑ u, (f u).refs b := by
  have hle : (f u).refs n ≤ ∑ u, (f u).refs n :=
    Finset.single_le_sum (f := fun u => (f u).refs n) (fun _ _ => Nat.zero_le _) (Finset.mem_univ u)
  exact Nat.add_pos_right _ (hu.trans_le hle)

theorem pending_refs (hl : l.pending? = some n) : 0 < l.refs n := by
  cases l with
  | pushGet new v x | pushAssign new v block | pushRelease new v queue =>
    cases hl
    simp only [Local.refs, single_self]
    omega
  | pushExchange new v expected x =>
    simp only [Local.pending?] at hl
    split at hl
    · cases hl
    · rename_i hmoved
      cases hl
      exact refs_pos (by simpa using hmoved)
  | idle | pushLeave | popGet | popAssign | popCopy | popExchange | popRelease | popMove | popLeave
  | destroyAdd | destroySub | destroyRelease => cases hl

section
variable (h : Inv P s) (hsafe : SafeAt P s t g l f)
include h hsafe

theorem Inv.node_after (hn : s.shared.nodes n = some node)
    (howned : 0 < g.owners n fun b => ∑ u, (Function.update s.threads t l u).refs b)
    (hnot : (s.threads t).pending? ≠ some n) :
    ∃ node', g.nodes n = some node' ∧ node'.prev = node.prev ∧
      ((s.threads t).emptied? ≠ some n → node'.data = node.data) := by
  obtain ⟨hdata, hlive⟩ := (h.balanced.node n).mp (by rw [hn]; rfl)
  obtain ⟨c, hc⟩ := Option.isSome_iff_exists.mp hlive
  have hne := (h.balanced.data n c hc).2
  have hafter := hsafe.balanced_after
  obtain ⟨node', hnode'⟩ := Option.isSome_iff_exists.mp
    ((hafter.node n).mpr ⟨hdata, (hafter.owned n hne).mpr howned⟩)
  have hlt := h.balanced.node_lt hn
  rcases hsafe.frame.nodes n node' hnode' with ⟨old, hold, hprev, hsame⟩ | ⟨hnew, -⟩
  · cases hold.symm.trans hn
    exact ⟨node', hnode', hprev, hsame⟩
  · rcases hnew with hpending | hcreated
    · exact absurd hpending hnot
    · omega

theorem Inv.order_after : Order (P ++ f.node?.toList) g := by
  have hhead : pointer g.packedPtr ∈ P ++ f.node?.toList := by
    have hsame : pointer g.packedPtr = pointer s.shared.packedPtr →
        pointer g.packedPtr ∈ P ++ f.node?.toList := fun hsame =>
      List.mem_append_left _ (hsame ▸ h.order.head)
    cases f with
    | pushed n v => exact List.mem_append_right _ (List.mem_singleton.mpr hsafe.effect.1)
    | popped n v =>
      obtain ⟨hptr, node, hnode, -, hprev⟩ := hsafe.effect
      exact List.mem_append_left _
        (hprev ▸ (h.order.prev_ne (hptr ▸ h.order.head) hnode).1)
    | sawEmpty => exact hsame hsafe.effect.2
    | called | returned | destroying | destroyed | silent => exact hsame hsafe.effect
    | fault => exact absurd rfl hsafe.noFault
  have hpublished : ∀ n ∈ f.node?.toList, (s.threads t).pending? = some n ∧
      ∀ node, g.nodes n = some node → node.prev ∈ P := fun n hn =>
    hsafe.published n (Option.mem_toList.mp hn)
  refine ⟨?_, fun b hb => ?_, hhead, fun n node hn => ?_, fun n hmem node hn => ?_⟩
  · refine List.Nodup.append h.order.nodup ?_ fun b hb hnew => ?_
    · cases f.node? <;> simp
    · exact (h.pending t b (hpublished b hnew).1).1 hb
  · rcases List.mem_append.mp hb with hb | hb
    · obtain ⟨hne, hle⟩ := h.order.created b hb
      exact ⟨hne, hle.trans hsafe.frame.created⟩
    · obtain ⟨-, hne, hle⟩ := h.pending t b (hpublished b hb).1
      exact ⟨hne, hle.trans hsafe.frame.created⟩
  · have hprev : node.prev = 0 ∨ node.prev ∈ P := by
      rcases hsafe.frame.nodes n node hn with ⟨old, hold, hprev, -⟩ | ⟨-, hprev⟩
      · rw [hprev]
        exact h.order.prev n old hold
      · exact hprev
    exact hprev.imp_right fun hmem => List.mem_append_left _ hmem
  · rcases List.mem_append.mp hmem with hmem | hmem
    · rcases hsafe.frame.nodes n node hn with ⟨old, hold, hprev, -⟩ | ⟨hnew, -⟩
      · obtain ⟨xs, ys, heq, hxs⟩ := h.order.before n hmem old hold
        refine ⟨xs, ys ++ f.node?.toList, ?_, hprev ▸ hxs⟩
        rw [heq, List.append_assoc, List.cons_append]
      · have hle := (h.order.created n hmem).2
        rcases hnew with hpending | hcreated
        · exact absurd hmem (h.pending t n hpending).1
        · omega
    · refine ⟨P, [], ?_, (hpublished n hmem).2 node hn⟩
      rw [Option.mem_toList.mp hmem]
      rfl

theorem Inv.pending_after {u : Tid} (hu : u ≠ t) (hn : (s.threads u).pending? = some n)
    (hnode : s.shared.nodes n = some node) :
    ∃ node', g.nodes n = some node' ∧ node'.prev = node.prev ∧ node'.data = node.data := by
  have howned : 0 < g.owners n fun b => ∑ u, (Function.update s.threads t l u).refs b :=
    owned_of_refs (u := u) (by
      rw [Function.update_of_ne hu]
      exact pending_refs hn)
  obtain ⟨node', hnode', hprev, hdata⟩ := h.node_after hsafe hnode howned fun ht =>
    hu (h.distinct u t n hn ht)
  exact ⟨node', hnode', hprev, hdata fun hemptied =>
    (h.pending u n hn).1 (taken_mem (h.ok t) (taken_of_emptied hemptied))⟩

theorem Inv.sees_after {u : Tid} (hu : u ≠ t) :
    (s.threads u).Sees (P ++ f.node?.toList) g := by
  have hsees := h.sees u
  have hpending : ∀ n node, (s.threads u).pending? = some n → s.shared.nodes n = some node →
      ∃ node', g.nodes n = some node' ∧ node'.prev = node.prev ∧ node'.data = node.data :=
    fun n node => h.pending_after hsafe hu
  cases hl : s.threads u with
  | pushGet new v x | pushAssign new v block =>
    rw [hl] at hsees hpending
    obtain ⟨node, hnode, hdata⟩ := hsees
    obtain ⟨node', hnode', -, hsame⟩ := hpending new node rfl hnode
    exact ⟨node', hnode', hsame.trans hdata⟩
  | pushRelease new v queue =>
    rw [hl] at hsees hpending
    obtain ⟨node, hnode, hdata, hprev⟩ := hsees
    obtain ⟨node', hnode', hsamePrev, hsame⟩ := hpending new node rfl hnode
    exact ⟨node', hnode', hsame.trans hdata, List.mem_append_left _ (hsamePrev ▸ hprev)⟩
  | pushExchange new v expected x =>
    rw [hl] at hsees hpending
    intro hmoved
    obtain ⟨node, hnode, hdata, hprev, hexpected⟩ := hsees hmoved
    obtain ⟨node', hnode', hsamePrev, hsame⟩ := hpending new node
      (if_neg (by rw [hmoved]; exact Bool.false_ne_true)) hnode
    exact ⟨node', hnode', hsame.trans hdata, List.mem_append_left _ (hsamePrev ▸ hprev),
      hsamePrev ▸ hexpected⟩
  | popExchange top copy x =>
    rw [hl] at hsees
    intro hmoved
    obtain ⟨node, hnode, hprev⟩ := hsees hmoved
    have hok := h.ok u
    rw [hl] at hok
    obtain ⟨htop, hdata, -⟩ := hok
    have howned : 0 < g.owners top.data fun b => ∑ u, (Function.update s.threads t l u).refs b :=
      owned_of_refs (u := u) (by
        rw [Function.update_of_ne hu, hl, Local.refs, Handle.refs, data_eq htop.ok hdata,
          single_self]
        omega)
    obtain ⟨node', hnode', hsamePrev, -⟩ := h.node_after hsafe hnode howned fun ht =>
      (h.pending t _ ht).1 (htop.data_mem hdata)
    exact ⟨node', hnode', hsamePrev.trans hprev⟩
  | idle | pushLeave | popGet | popAssign | popCopy | popRelease | popMove | popLeave | destroyAdd
  | destroySub | destroyRelease => trivial

theorem Inv.after (hl : (s.threads t).ending = false → s.shared.destroyed = false) (hfew : Few g) :
    Inv (P ++ f.node?.toList) ⟨g, Function.update s.threads t l⟩ where
  balanced := hsafe.balanced_after
  order := h.order_after hsafe
  ok := Pool.forall_update h.ok (hsafe.ok hfew) fun u _ hu =>
    hu.mono fun b hb => List.mem_append_left _ hb
  sees u := by
    by_cases hu : u = t
    · subst hu
      dsimp only
      rw [Function.update_self]
      exact hsafe.sees
    · dsimp only
      rw [Function.update_of_ne hu]
      exact h.sees_after hsafe hu
  pending u n hn := by
    dsimp only at hn ⊢
    by_cases hu : u = t
    · subst hu
      rw [Function.update_self] at hn
      rcases hsafe.pending n hn with ⟨hold, hnot⟩ | ⟨hlt, hle⟩
      · obtain ⟨hmem, hne, hle⟩ := h.pending u n hold
        refine ⟨fun hin => ?_, hne, hle.trans hsafe.frame.created⟩
        rcases List.mem_append.mp hin with hin | hin
        · exact hmem hin
        · exact hnot (Option.mem_toList.mp hin)
      · refine ⟨fun hin => ?_, by omega, hle⟩
        rcases List.mem_append.mp hin with hin | hin
        · have := (h.order.created n hin).2
          omega
        · have := (h.pending u n (hsafe.published n (Option.mem_toList.mp hin)).1).2.2
          omega
    · rw [Function.update_of_ne hu] at hn
      obtain ⟨hmem, hne, hle⟩ := h.pending u n hn
      refine ⟨fun hin => ?_, hne, hle.trans hsafe.frame.created⟩
      rcases List.mem_append.mp hin with hin | hin
      · exact hmem hin
      · exact hu (h.distinct u t n hn (hsafe.published n (Option.mem_toList.mp hin)).1)
  distinct := Pool.distinct_update h.distinct fun n hn => by
    rcases hsafe.pending n hn with ⟨hold, -⟩ | ⟨hlt, -⟩
    · exact .inl hold
    · refine .inr fun u _ hu => ?_
      have := (h.pending u n hu).2.2
      omega
  alive hd := by
    have hd : s.shared.destroyed = false := hsafe.destroyed.symm.trans hd
    refine Pool.forall_update (P := fun l : Local T => l.ending = false)
      (Q := fun l : Local T => l.ending = false) (h.alive hd) ?_ fun u _ hu => hu
    rcases hsafe.ending with hsame | rfl
    · rw [hsame]
      exact h.alive hd t
    · rfl
  ended hd := by
    have hd : s.shared.destroyed = true := hsafe.destroyed.symm.trans hd
    refine Pool.forall_update (P := fun l : Local T => l.isIdle = true ∨ l.ending = true)
      (Q := fun l : Local T => l.isIdle = true ∨ l.ending = true) (h.ended hd) ?_ fun u _ hu => hu
    rcases hsafe.ending with hsame | rfl
    · refine .inr (hsame.trans ?_)
      by_contra hnot
      rw [hl (by simpa using hnot)] at hd
      cases hd
    · exact .inl rfl
  few := hfew

end

omit [DecidableEq Tid] in
theorem few_of_outstanding {R : ℕ → ℕ}
    (h : Balanced dataOf s.shared R fun b => ∑ t, (s.threads t).loose b)
    (hout : outstanding s ≤ 1000) : Few s.shared := by
  intro halive
  have hcount : s.shared.headCount (pointer s.shared.packedPtr) =
      localCount s.shared.packedPtr := by
    rw [Shared.headCount, halive, single_self, Nat.one_mul]
    rfl
  calc localCount s.shared.packedPtr
      = s.shared.headCount (pointer s.shared.packedPtr) := hcount.symm
    _ ≤ ∑ t, (s.threads t).loose (pointer s.shared.packedPtr) := h.head _
    _ ≤ ∑ t, (s.threads t).outstanding :=
        Finset.sum_le_sum fun t _ => (s.threads t).loose_le_outstanding _
    _ ≤ 1000 := hout

theorem eq_idle (hl : l.isIdle = true) : l = .idle := by
  cases l with
  | idle => rfl
  | pushGet | pushAssign | pushRelease | pushExchange | pushLeave | popGet | popAssign | popCopy
  | popExchange | popRelease | popMove | popLeave | destroyAdd | destroySub | destroyRelease =>
    cases hl

theorem Inv.close (h : Inv P s) (hidle : ∀ u, s.threads u = .idle) (t : Tid)
    (halive : s.shared.destroyed = false) :
    localCount s.shared.packedPtr = 0 ∧ Inv P ⟨{ s.shared with destroyed := true },
      Function.update s.threads t (.destroySub s.shared.packedPtr)⟩ := by
  have hloose : ∀ b, ∑ u, (s.threads u).loose b = 0 := fun b =>
    Finset.sum_eq_zero fun u _ => by rw [hidle]; rfl
  have hrest : ∀ b, ∑ u, (s.threads u).refs b = Pool.rest Local.refs s.threads t b ∧
      ∑ u, (s.threads u).loose b = Pool.rest Local.loose s.threads t b := by
    intro b
    rw [Pool.sum_eq_rest (i := t), Pool.sum_eq_rest (i := t), hidle]
    exact ⟨rfl, rfl⟩
  have hzero : localCount s.shared.packedPtr = 0 := by
    have hhead := h.balanced.head (pointer s.shared.packedPtr)
    rw [hloose, Shared.headCount, halive, single_self, Nat.one_mul] at hhead
    exact Nat.le_zero.mp hhead
  have hcases : ∀ u, Function.update s.threads t (.destroySub s.shared.packedPtr) u = .idle ∨
      Function.update s.threads t (.destroySub s.shared.packedPtr) u =
        .destroySub s.shared.packedPtr := by
    intro u
    by_cases hu : u = t
    · subst hu
      exact .inr (Function.update_self ..)
    · rw [Function.update_of_ne hu]
      exact .inl (hidle u)
  have hnone : ∀ u, (Function.update s.threads t (.destroySub s.shared.packedPtr) u).pending? =
      none := fun u => by
    rcases hcases u with hu | hu <;> rw [hu] <;> rfl
  refine ⟨hzero, ⟨?_, ⟨h.order.nodup, h.order.created, h.order.head, h.order.prev, h.order.before⟩,
    fun u => ?_, fun u => ?_, fun u n hn => ?_, fun a b n hn => ?_, by simp, fun _ u => ?_,
    by simp [Few]⟩⟩
  · refine (h.balanced.close halive hzero fun b => rfl).congr (fun b => ?_) fun b => ?_
    · rw [(hrest b).1]
      exact Pool.sum_update_eq_rest b
    · rw [(hrest b).2]
      exact Pool.sum_update_eq_rest b
  · rcases hcases u with hu | hu <;> dsimp only <;> rw [hu]
    · trivial
    · exact h.balanced.pointer_ne halive
  · rcases hcases u with hu | hu <;> dsimp only <;> rw [hu] <;> trivial
  · rw [hnone u] at hn
    cases hn
  · rw [hnone a] at hn
    cases hn
  · rcases hcases u with hu | hu <;> dsimp only <;> rw [hu]
    · exact .inl rfl
    · exact .inr rfl

omit [DecidableEq Tid] in
theorem Inv.alive_of_busy (h : Inv P s) (hidle : (s.threads t).isIdle = false)
    (hending : (s.threads t).ending = false) : s.shared.destroyed = false := by
  by_contra hover
  rcases h.ended (by simpa using hover) t with hrest | hend
  · rw [hidle] at hrest
    cases hrest
  · rw [hending] at hend
    cases hend

theorem Inv.step (h : Inv P s) (hs : (bounded leave Tid).Step s e s') :
    ∃ t c g l f, next leave s.shared (s.threads t) c = some (g, l, f) ∧ e = (t, f) ∧
      s' = ⟨g, Function.update s.threads t l⟩ ∧ Inv (P ++ f.node?.toList) s' ∧
      (SafeAt P s t g l f ∨ ((∀ u, s.threads u = .idle) ∧ f = .destroying ∧
        g = { s.shared with destroyed := true } ∧ l = .destroySub s.shared.packedPtr)) := by
  obtain ⟨hout, ⟨t, c⟩, hnext⟩ := Machine.within_step_iff.mp hs
  have hout : outstanding s' ≤ 1000 := by simpa using hout
  have hsafe : ∀ {g l f}, SafeAt P s t g l f → s' = ⟨g, Function.update s.threads t l⟩ →
      ((s.threads t).ending = false → s.shared.destroyed = false) →
      Inv (P ++ f.node?.toList) s' := by
    rintro g l f hsafe rfl hl
    exact h.after hsafe hl (few_of_outstanding hsafe.balanced_after hout)
  cases c with
  | call c =>
    have hnext : (Pool.machine s.shared .idle (next leave)).next s (t, .call c) = some (s', e) :=
      hnext
    obtain ⟨g, l, f, hn, rfl, rfl⟩ := Pool.next_eq_some_iff.mp hnext
    have hstart : s.threads t = .idle ∧ s.shared.destroyed = false := by
      have hguard := hn
      simp only [next] at hguard
      split at hguard
      · rename_i hidle
        exact ⟨eq_idle hidle.1, by simpa using hidle.2⟩
      · cases hguard
    have hready : Ready P s.shared (s.threads t) _ _ := h.ready fun _ => hstart.2
    have hcall : SafeAt P s t g l f := by
      rw [hstart.1] at hn hready
      rw [SafeAt, hstart.1]
      exact hready.call hn
    exact ⟨t, .call c, g, l, f, hn, rfl, rfl, hsafe hcall rfl fun _ => hstart.2, .inl hcall⟩
  | destroy =>
    simp only [machine] at hnext
    split at hnext
    · rename_i hidle
      obtain ⟨g, l, f, hn, rfl, rfl⟩ := Pool.next_eq_some_iff.mp hnext
      have hn' := hn
      simp only [next] at hn'
      split at hn'
      · rename_i hguard
        have halive : s.shared.destroyed = false := by simpa using hguard.2
        obtain ⟨hzero, hinv⟩ := h.close (fun u => eq_idle (hidle u)) t halive
        rw [if_neg (not_not.mpr hzero)] at hn'
        cases hn'
        refine ⟨t, .destroy, _, _, _, hn, rfl, rfl, ?_,
          .inr ⟨fun u => eq_idle (hidle u), rfl, rfl, rfl⟩⟩
        simpa [Event.node?] using hinv
      · cases hn'
    · cases hnext
  | step spurious =>
    have hnext : (Pool.machine s.shared .idle (next leave)).next s (t, .step spurious) =
      some (s', e) := hnext
    obtain ⟨g, l, f, hn, rfl, rfl⟩ := Pool.next_eq_some_iff.mp hnext
    have hn' := hn
    simp only [next] at hn'
    split at hn'
    · cases hn'
    · rename_i hidle
      have hidle : (s.threads t).isIdle = false := by simpa using hidle
      have hl := h.alive_of_busy hidle
      obtain ⟨g', l', f', hstep, hthread⟩ := (h.ready hl).step leave hidle spurious
      rw [hstep] at hn'
      cases hn'
      exact ⟨t, .step spurious, g, l, f, hn, rfl, rfl, hsafe hthread rfl hl, .inl hthread⟩

theorem start_inv : Inv [1] (bounded leave Tid).start := by
  have hbalanced : Balanced dataOf (bounded leave Tid).start.shared (fun _ => 0) fun _ => 0 := by
    have hstart : Balanced dataOf
        ⟨pack 1, false, _, Function.update _ _ (none : Option (Node T)), 1⟩ (fun _ => 0)
        fun _ => 0 := Balanced.start dataOf_value (by simp [dataOf]) fun b _ => rfl
    rwa [Function.update_eq_self] at hstart
  refine ⟨hbalanced.congr (fun b => Finset.sum_eq_zero fun _ _ => rfl)
    fun b => Finset.sum_eq_zero fun _ _ => rfl, ⟨by simp, fun b hb => ?_, ?_,
    fun n node hn => (by cases hn), fun n _ node hn => (by cases hn)⟩, fun _ => trivial,
    fun _ => trivial, fun t n hn => (by cases hn), fun a b n hn => (by cases hn),
    fun _ _ => rfl, fun hd => (by cases hd), fun _ => ?_⟩
  · rw [List.mem_singleton.mp hb]
    exact ⟨Nat.one_ne_zero, le_rfl⟩
  · exact List.mem_singleton.mpr (pointer_pack 1)
  · exact (localCount_pack 1).le.trans (Nat.zero_le _)

omit [DecidableEq Tid] [Fintype Tid] in
theorem published_snoc (es : List (Tid × Event T)) :
    published (es ++ [(t, f)]) = published es ++ f.node?.toList := by
  rw [published, published, List.filterMap_append]
  cases h : f.node? <;> simp [h]

theorem inv_of_run {es : List (Tid × Event T)} (h : (bounded leave Tid).Run es s) :
    Inv (published es) s ∧ ∀ e ∈ es, e.2 ≠ .fault := by
  refine Machine.Run.invariant (M := bounded leave Tid)
    (I := fun es s => Inv (published es) s ∧ ∀ e ∈ es, e.2 ≠ .fault) ⟨start_inv, nofun⟩ ?_ h
  rintro es s e s' - ⟨hinv, hsafe⟩ hs
  obtain ⟨t, c, g, l, f, -, rfl, rfl, hinv', hstep⟩ := hinv.step hs
  rw [published_snoc]
  refine ⟨hinv', fun e he => ?_⟩
  rcases List.mem_append.mp he with he | he
  · exact hsafe e he
  · rw [List.mem_singleton.mp he]
    rcases hstep with hstep | ⟨-, rfl, -⟩
    · exact hstep.noFault
    · nofun

end LockFree.LockFreeStack
