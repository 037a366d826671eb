import Mathlib.Data.List.Induction
import Mathlib.Data.Nat.Basic
import Mathlib.Order.Basic
import Mathlib.Logic.Function.Basic
import Mathlib.Tactic.Common

/-!
# Linearizability

A history is a list of calls and returns, and of commits that no caller sees. It is
linearizable if its operations can be put in one order that the sequential object
accepts and that never contradicts real time: an operation that returned before
another one was called stands before it. When every operation commits once between
its call and its return, the order of the commits is such an order.
-/

namespace LockFree.Linearizability

variable {Tid S O R : Type*}

inductive Accepts (object : S → O → R → S → Prop) : S → List (O × R) → S → Prop where
  | nil (s : S) : Accepts object s [] s
  | snoc {s s' s'' : S} {xs : List (O × R)} {o : O} {r : R} :
      Accepts object s xs s' → object s' o r s'' → Accepts object s (xs ++ [(o, r)]) s''

inductive Mark (O R : Type*)
  | call (o : O)
  | commit (o : O) (r : R)
  | ret (r : R)

def Mark.Visible : Mark O R → Prop
  | .commit _ _ => False
  | _ => True

/-- An operation is identified by the place of its call. -/
structure Operation (Tid O R : Type*) where
  thread : Tid
  op : O
  result : R
  start : ℕ

section
variable (h : List (Tid × Mark O R))

def Quiet (t : Tid) (i j : ℕ) : Prop :=
  ∀ k m, i < k → k < j → h[k]? = some (t, m) → ¬ m.Visible

def Starts (x : Operation Tid O R) : Prop := h[x.start]? = some (x.thread, .call x.op)

def Finishes (x : Operation Tid O R) (j : ℕ) : Prop :=
  x.start < j ∧ h[j]? = some (x.thread, .ret x.result) ∧ Quiet h x.thread x.start j

def Pending (x : Operation Tid O R) : Prop := Quiet h x.thread x.start h.length

/-- All completed operations, and any pending ones that took effect, in one order. -/
def Linearizable (object : S → O → R → S → Prop) (s : S) : Prop :=
  ∃ L : List (Operation Tid O R),
    (∃ s', Accepts object s (L.map fun x => (x.op, x.result)) s') ∧
    L.Pairwise (fun a b => a.start ≠ b.start ∧ ∀ j, Finishes h b j → a.start < j) ∧
    (∀ x ∈ L, Starts h x ∧ ((∃ j, Finishes h x j) ∨ Pending h x)) ∧
    ∀ x j, Starts h x → Finishes h x j → x ∈ L

end

inductive Phase (O R : Type*)
  | idle
  | called (o : O)
  | committed (o : O) (r : R)

inductive Phase.Next : Phase O R → Mark O R → Phase O R → Prop where
  | call (o : O) : Next .idle (.call o) (.called o)
  | commit (o : O) (r : R) : Next (.called o) (.commit o r) (.committed o r)
  | ret (o : O) (r : R) : Next (.committed o r) (.ret r) .idle

/-- Every thread calls, commits and returns in turn. -/
inductive Follows [DecidableEq Tid] : List (Tid × Mark O R) → (Tid → Phase O R) → Prop where
  | nil : Follows [] fun _ => .idle
  | snoc {h : List (Tid × Mark O R)} {ph : Tid → Phase O R} {t : Tid} {m : Mark O R}
      {p : Phase O R} :
      Follows h ph → (ph t).Next m p → Follows (h ++ [(t, m)]) (Function.update ph t p)

def Mark.commit? : Mark O R → Option (O × R)
  | .commit o r => some (o, r)
  | _ => none

def commits (h : List (Tid × Mark O R)) : List (O × R) := h.filterMap fun e => e.2.commit?

section
variable {h : List (Tid × Mark O R)} {t u : Tid} {m : Mark O R} {x y : Operation Tid O R} {i j : ℕ}

theorem getElem?_snoc {e : Tid × Mark O R} : (h ++ [e])[j]? = if j < h.length then h[j]? else
    if j = h.length then some e else none := by
  rw [List.getElem?_append]
  split
  · rfl
  · rw [List.getElem?_singleton]
    split <;> split <;> first | rfl | omega

theorem Starts.lt (hx : Starts h x) : x.start < h.length := by
  obtain ⟨hlt, -⟩ := List.getElem?_eq_some_iff.mp hx
  exact hlt

theorem Finishes.lt (hx : Finishes h x j) : j < h.length := by
  obtain ⟨hlt, -⟩ := List.getElem?_eq_some_iff.mp hx.2.1
  exact hlt

theorem starts_snoc (hlt : x.start < h.length) : Starts (h ++ [(u, m)]) x ↔ Starts h x := by
  rw [Starts, Starts, getElem?_snoc, if_pos hlt]

theorem quiet_snoc (hle : j ≤ h.length) : Quiet (h ++ [(u, m)]) t i j ↔ Quiet h t i j := by
  have key : ∀ k, k < j → (h ++ [(u, m)])[k]? = h[k]? := fun k hk => by
    rw [getElem?_snoc, if_pos (hk.trans_le hle)]
  constructor
  · intro hq k m' hik hkj hk
    exact hq k m' hik hkj ((key k hkj).trans hk)
  · intro hq k m' hik hkj hk
    exact hq k m' hik hkj ((key k hkj).symm.trans hk)

theorem finishes_snoc (hlt : j < h.length) :
    Finishes (h ++ [(u, m)]) x j ↔ Finishes h x j := by
  rw [Finishes, Finishes, getElem?_snoc, if_pos hlt, quiet_snoc hlt.le]

theorem Finishes.of_snoc (hx : Finishes (h ++ [(u, m)]) x j) :
    Finishes h x j ∨ (j = h.length ∧ u = x.thread ∧ m = .ret x.result ∧ Pending h x) := by
  have hj := hx.lt
  rw [List.length_append, List.length_singleton] at hj
  by_cases hlt : j < h.length
  · exact .inl ((finishes_snoc hlt).mp hx)
  · obtain rfl : j = h.length := by omega
    obtain ⟨-, hm, hq⟩ := hx
    rw [getElem?_snoc, if_neg hlt, if_pos rfl] at hm
    obtain ⟨rfl, rfl⟩ : u = x.thread ∧ m = .ret x.result := by simpa using hm
    exact .inr ⟨rfl, rfl, rfl, (quiet_snoc le_rfl).mp hq⟩

theorem Quiet.snoc (hq : Quiet h t i h.length) (hm : t = u → ¬ m.Visible) :
    Quiet (h ++ [(u, m)]) t i (h ++ [(u, m)]).length := by
  intro k m' hik hkj hk
  rw [List.length_append, List.length_singleton] at hkj
  by_cases hlt : k < h.length
  · rw [getElem?_snoc, if_pos hlt] at hk
    exact hq k m' hik hlt hk
  · rw [getElem?_snoc, if_neg hlt, if_pos (by omega)] at hk
    obtain ⟨rfl, rfl⟩ : u = t ∧ m = m' := by simpa using hk
    exact hm rfl

theorem Pending.start_unique (hx : Starts h x) (hy : Starts h y) (hpx : Pending h x)
    (hpy : Pending h y) (hthread : x.thread = y.thread) : x.start = y.start := by
  rcases Nat.lt_trichotomy x.start y.start with hlt | heq | hgt
  · exact absurd trivial (hpx y.start (.call y.op) hlt hy.lt (hthread ▸ hy))
  · exact heq
  · exact absurd trivial (hpy x.start (.call x.op) hgt hx.lt (hthread ▸ hx))

end

structure Committed (h : List (Tid × Mark O R)) (ph : Tid → Phase O R)
    (L : List (Operation Tid O R)) : Prop where
  commits : L.map (fun x => (x.op, x.result)) = commits h
  starts : ∀ x ∈ L, Starts h x
  order : L.Pairwise fun a b => a.start ≠ b.start ∧ ∀ j, Finishes h b j → a.start < j
  ended : ∀ x ∈ L, (∃ j, Finishes h x j) ∨ (ph x.thread = .committed x.op x.result ∧ Pending h x)
  complete : ∀ x j, Starts h x → Finishes h x j → x ∈ L
  called : ∀ t o, ph t = .called o →
    ∃ i, h[i]? = some (t, .call o) ∧ Quiet h t i h.length
  committed : ∀ t o r, ph t = .committed o r →
    ∃ x ∈ L, x.thread = t ∧ x.op = o ∧ x.result = r ∧ Pending h x

section
variable {h : List (Tid × Mark O R)} {ph : Tid → Phase O R} {L : List (Operation Tid O R)} {t : Tid}
  {o : O} {r : R} [DecidableEq Tid]

omit [DecidableEq Tid] in
theorem Committed.starts_snoc (hc : Committed h ph L) {e : Tid × Mark O R} :
    ∀ x ∈ L, Starts (h ++ [e]) x := fun x hx =>
  (Linearizability.starts_snoc (hc.starts x hx).lt).mpr (hc.starts x hx)

omit [DecidableEq Tid] in
theorem Committed.order_snoc (hc : Committed h ph L) {m : Mark O R} :
    L.Pairwise fun a b => a.start ≠ b.start ∧ ∀ j, Finishes (h ++ [(t, m)]) b j → a.start < j := by
  refine List.Pairwise.imp_of_mem (fun {a b} ha _ hab => ⟨hab.1, fun j hj => ?_⟩) hc.order
  rcases hj.of_snoc with hj | ⟨rfl, -⟩
  · exact hab.2 j hj
  · exact (hc.starts a ha).lt

theorem Committed.called_snoc (hc : Committed h ph L) {m : Mark O R} {p : Phase O R} {u : Tid}
    (hu : u ≠ t) (hph : Function.update ph t p u = .called o) :
    ∃ i, (h ++ [(t, m)])[i]? = some (u, .call o) ∧
      Quiet (h ++ [(t, m)]) u i (h ++ [(t, m)]).length := by
  rw [Function.update_of_ne hu] at hph
  obtain ⟨i, hi, hq⟩ := hc.called u o hph
  have hlt : i < h.length := (List.getElem?_eq_some_iff.mp hi).1
  refine ⟨i, ?_, hq.snoc fun heq => absurd heq hu⟩
  rw [getElem?_snoc, if_pos hlt, hi]

theorem Committed.committed_snoc (hc : Committed h ph L) {m : Mark O R} {p : Phase O R} {u : Tid}
    (hu : u ≠ t) (hph : Function.update ph t p u = .committed o r) :
    ∃ x ∈ L, x.thread = u ∧ x.op = o ∧ x.result = r ∧ Pending (h ++ [(t, m)]) x := by
  rw [Function.update_of_ne hu] at hph
  obtain ⟨x, hx, hthread, hop, hres, hpend⟩ := hc.committed u o r hph
  refine ⟨x, hx, hthread, hop, hres, ?_⟩
  exact Quiet.snoc hpend fun heq => absurd (hthread.symm.trans heq) hu

theorem Committed.call (hc : Committed h ph L) (hph : ph t = .idle) :
    Committed (h ++ [(t, .call o)]) (Function.update ph t (.called o)) L where
  commits := by
    rw [hc.commits]
    simp [Linearizability.commits, Mark.commit?]
  starts := hc.starts_snoc
  order := hc.order_snoc
  ended x hx := by
    rcases hc.ended x hx with ⟨j, hj⟩ | ⟨hpx, hp⟩
    · exact .inl ⟨j, (finishes_snoc hj.lt).mpr hj⟩
    · have hne : x.thread ≠ t := fun heq => by simp [heq, hph] at hpx
      rw [Function.update_of_ne hne]
      exact .inr ⟨hpx, Quiet.snoc hp fun heq => absurd heq hne⟩
  complete x j hx hj := by
    rcases hj.of_snoc with hj | ⟨-, -, hm, -⟩
    · exact hc.complete x j ((Linearizability.starts_snoc (hj.1.trans hj.lt)).mp hx) hj
    · cases hm
  called u o' hu := by
    by_cases hut : u = t
    · subst hut
      rw [Function.update_self] at hu
      cases hu
      refine ⟨h.length, by rw [getElem?_snoc]; simp, fun k m hik hkj => ?_⟩
      rw [List.length_append, List.length_singleton] at hkj
      omega
    · exact hc.called_snoc hut hu
  committed u o' r hu := by
    by_cases hut : u = t
    · subst hut
      rw [Function.update_self] at hu
      cases hu
    · exact hc.committed_snoc hut hu

theorem Committed.commit (hc : Committed h ph L) (hph : ph t = .called o) :
    ∃ x, Committed (h ++ [(t, .commit o r)]) (Function.update ph t (.committed o r))
      (L ++ [x]) := by
  obtain ⟨i, hi, hq⟩ := hc.called t o hph
  have hlt : i < h.length := (List.getElem?_eq_some_iff.mp hi).1
  have hpend : Pending (h ++ [(t, .commit o r)]) (⟨t, o, r, i⟩ : Operation Tid O R) :=
    hq.snoc fun _ hv => hv
  have hunfinished : ∀ j, ¬ Finishes (h ++ [(t, .commit o r)]) (⟨t, o, r, i⟩ : Operation Tid O R) j :=
    fun j hj => hpend j _ hj.1 hj.lt hj.2.1 trivial
  -- the operations committed before were not called by the call at `i`
  have hnew : ∀ x ∈ L, x.start ≠ i := by
    intro x hx hxi
    have hxs := hc.starts x hx
    rw [Starts, hxi, hi] at hxs
    obtain ⟨rfl, rfl⟩ : t = x.thread ∧ o = x.op := by simpa using hxs
    rcases hc.ended x hx with ⟨j, hj⟩ | ⟨hpx, -⟩
    · exact hq j _ (hxi ▸ hj.1) hj.lt hj.2.1 trivial
    · rw [hph] at hpx
      cases hpx
  refine ⟨⟨t, o, r, i⟩, ?_⟩
  constructor
  case commits =>
    rw [List.map_append, hc.commits]
    simp [Linearizability.commits, Mark.commit?]
  case starts =>
    intro x hx
    rcases List.mem_append.mp hx with hx | hx
    · exact hc.starts_snoc x hx
    · rw [List.mem_singleton.mp hx, Starts, getElem?_snoc, if_pos hlt]
      exact hi
  case order =>
    refine List.pairwise_append.mpr ⟨hc.order_snoc, List.pairwise_singleton _ _, fun a ha b hb => ?_⟩
    rw [List.mem_singleton.mp hb]
    exact ⟨hnew a ha, fun j hj => absurd hj (hunfinished j)⟩
  case ended =>
    intro x hx
    rcases List.mem_append.mp hx with hx | hx
    · rcases hc.ended x hx with ⟨j, hj⟩ | ⟨hpx, hp⟩
      · exact .inl ⟨j, (finishes_snoc hj.lt).mpr hj⟩
      · have hne : x.thread ≠ t := fun heq => by simp [heq, hph] at hpx
        rw [Function.update_of_ne hne]
        exact .inr ⟨hpx, Quiet.snoc hp fun heq => absurd heq hne⟩
    · rw [List.mem_singleton.mp hx]
      exact .inr ⟨Function.update_self .., hpend⟩
  case complete =>
    intro x j hx hj
    rcases hj.of_snoc with hj | ⟨-, -, hm, -⟩
    · have hxs := (Linearizability.starts_snoc (hj.1.trans hj.lt)).mp hx
      exact List.mem_append_left _ (hc.complete x j hxs hj)
    · cases hm
  case called =>
    intro u o' hu
    by_cases hut : u = t
    · subst hut
      rw [Function.update_self] at hu
      cases hu
    · exact hc.called_snoc hut hu
  case committed =>
    intro u o' r' hu
    by_cases hut : u = t
    · subst hut
      rw [Function.update_self] at hu
      cases hu
      exact ⟨_, List.mem_append_right _ (List.mem_singleton_self _), rfl, rfl, rfl, hpend⟩
    · obtain ⟨x, hx, hrest⟩ := hc.committed_snoc hut hu
      exact ⟨x, List.mem_append_left _ hx, hrest⟩

theorem Committed.ret (hc : Committed h ph L) (hph : ph t = .committed o r) :
    Committed (h ++ [(t, .ret r)]) (Function.update ph t .idle) L where
  commits := by
    rw [hc.commits]
    simp [Linearizability.commits, Mark.commit?]
  starts := hc.starts_snoc
  order := hc.order_snoc
  ended x hx := by
    rcases hc.ended x hx with ⟨j, hj⟩ | ⟨hpx, hp⟩
    · exact .inl ⟨j, (finishes_snoc hj.lt).mpr hj⟩
    · by_cases hxt : x.thread = t
      · -- the operation that returns now
        rw [hxt, hph] at hpx
        cases hpx
        refine .inl ⟨h.length, (hc.starts x hx).lt, ?_, (quiet_snoc le_rfl).mpr hp⟩
        rw [getElem?_snoc]
        simp [hxt]
      · rw [Function.update_of_ne hxt]
        exact .inr ⟨hpx, Quiet.snoc hp fun heq => absurd heq hxt⟩
  complete x j hx hj := by
    rcases hj.of_snoc with hj | ⟨rfl, rfl, hm, hp⟩
    · exact hc.complete x j ((Linearizability.starts_snoc (hj.1.trans hj.lt)).mp hx) hj
    · have hxs := (Linearizability.starts_snoc hj.1).mp hx
      obtain ⟨y, hy, hthread, rfl, rfl, hpy⟩ := hc.committed x.thread o r hph
      have hstart := hp.start_unique hxs (hc.starts y hy) hpy hthread.symm
      have hop : x.op = y.op := by
        have hys := hc.starts y hy
        rw [Starts, ← hstart, hxs] at hys
        simpa [hthread] using hys
      have hxy : x = y := by
        cases x
        cases y
        simp_all
      rw [hxy]
      exact hy
  called u o' hu := by
    by_cases hut : u = t
    · subst hut
      rw [Function.update_self] at hu
      cases hu
    · exact hc.called_snoc hut hu
  committed u o' r' hu := by
    by_cases hut : u = t
    · subst hut
      rw [Function.update_self] at hu
      cases hu
    · exact hc.committed_snoc hut hu

theorem Follows.exists_committed (hf : Follows h ph) : ∃ L, Committed h ph L := by
  induction hf with
  | nil => exact ⟨[], by constructor <;> simp [Linearizability.commits, Starts]⟩
  | @snoc h ph t m p _ hn ih =>
    obtain ⟨L, hc⟩ := ih
    generalize hph : ph t = q at hn
    cases hn with
    | call o => exact ⟨L, hc.call hph⟩
    | commit o r =>
      obtain ⟨x, hx⟩ := hc.commit hph
      exact ⟨L ++ [x], hx⟩
    | ret o r => exact ⟨L, hc.ret hph⟩

def marks {ε : Type*} (mark? : ε → Option (Mark O R)) (es : List (Tid × ε)) : List (Tid × Mark O R) :=
  es.filterMap fun e => (mark? e.2).map (e.1, ·)

def Phase.Moves (p : Phase O R) (m : Option (Mark O R)) (p' : Phase O R) : Prop :=
  match m with
  | none => p' = p
  | some m => p.Next m p'

theorem Follows.moves {ε : Type*} {mark? : ε → Option (Mark O R)} {es : List (Tid × ε)} {e : ε}
    {p : Phase O R} (hf : Follows (marks mark? es) ph) (hm : (ph t).Moves (mark? e) p) :
    Follows (marks mark? (es ++ [(t, e)])) (Function.update ph t p) := by
  cases he : mark? e with
  | none =>
    rw [he] at hm
    have hsame : Function.update ph t p = ph := by
      rw [hm]
      exact Function.update_eq_self t _
    rw [hsame]
    simpa [marks, he] using hf
  | some m =>
    rw [he] at hm
    simpa [marks, he] using hf.snoc hm

theorem Follows.emit {ε L : Type*} {mark? : ε → Option (Mark O R)} {es : List (Tid × ε)}
    {phase : L → Phase O R} {f : Tid → L} {e : ε} {l : L} (hf : Follows (marks mark? es) (phase ∘ f))
    (hm : (phase (f t)).Moves (mark? e) (phase l)) :
    Follows (marks mark? (es ++ [(t, e)])) (phase ∘ Function.update f t l) := by
  rw [Function.comp_update]
  exact hf.moves hm

omit [DecidableEq Tid] in
theorem commits_snoc {ε : Type*} {mark? : ε → Option (Mark O R)} {es : List (Tid × ε)} {e : ε} :
    commits (marks mark? (es ++ [(t, e)])) =
      commits (marks mark? es) ++ ((mark? e).bind Mark.commit?).toList := by
  rw [commits, commits, marks, marks, List.filterMap_append, List.filterMap_append]
  cases he : mark? e with
  | none => simp [he]
  | some m => cases hm : m.commit? <;> simp [he, hm]

/-- The order of the commits is a linearization. -/
theorem Follows.linearizable {object : S → O → R → S → Prop} {s s' : S} (hf : Follows h ph)
    (ha : Accepts object s (commits h) s') : Linearizable h object s := by
  obtain ⟨L, hc⟩ := hf.exists_committed
  refine ⟨L, ⟨s', hc.commits ▸ ha⟩, hc.order, fun x hx => ⟨hc.starts x hx, ?_⟩, hc.complete⟩
  rcases hc.ended x hx with hfin | ⟨-, hp⟩
  · exact .inl hfin
  · exact .inr hp

end
end LockFree.Linearizability
