import Mathlib.Algebra.BigOperators.Group.Finset.Basic
import Mathlib.Algebra.BigOperators.Group.Finset.Piecewise
import Mathlib.Data.Fintype.Basic
import Mathlib.Data.List.Induction
import Mathlib.Logic.Function.Basic
import Mathlib.Tactic.Common

/-!
# Runs of machines with a choice at every step

A machine is deterministic once its environment has made a choice: which thread
moves, which call it starts, whether a weak compare-exchange fails spuriously.
A step emits one event, a run is the list of its events, and whatever is said
about a whole run is said about that list. Every invariant below is an instance
of `Run.invariant`; closed runs are evaluated by `exec`.
-/

namespace LockFree.TransitionRuns

/-- States `σ`, choices of the environment `κ`, emitted events `ε`. -/
structure Machine (σ κ ε : Type*) where
  start : σ
  next : σ → κ → Option (σ × ε)

namespace Machine
variable {σ κ ε : Type*}

def Step (M : Machine σ κ ε) (s : σ) (e : ε) (s' : σ) : Prop :=
  ∃ c, M.next s c = some (s', e)

inductive Path (M : Machine σ κ ε) : σ → List ε → σ → Prop where
  | nil (s : σ) : Path M s [] s
  | snoc {s s' s'' : σ} {es : List ε} {e : ε} :
      Path M s es s' → M.Step s' e s'' → Path M s (es ++ [e]) s''

def Run (M : Machine σ κ ε) (es : List ε) (s : σ) : Prop := M.Path M.start es s

def exec (M : Machine σ κ ε) (s : σ) : List κ → Option (σ × List ε)
  | [] => some (s, [])
  | c :: cs =>
    match M.next s c with
    | none => none
    | some (s', e) =>
      match M.exec s' cs with
      | none => none
      | some (s'', es) => some (s'', e :: es)

variable {M : Machine σ κ ε}

theorem Path.trans {s s' s'' : σ} {es fs : List ε} (h : M.Path s es s') (h' : M.Path s' fs s'') :
    M.Path s (es ++ fs) s'' := by
  induction h' with
  | nil => simpa using h
  | snoc _ hs ih => simpa only [List.append_assoc] using ih.snoc hs

theorem Path.single {s s' : σ} {e : ε} (h : M.Step s e s') : M.Path s [e] s' :=
  (Path.nil s).snoc h

theorem Path.last {s s'' : σ} {es : List ε} {e : ε} (h : M.Path s (es ++ [e]) s'') :
    ∃ s', M.Path s es s' ∧ M.Step s' e s'' := by
  generalize hg : es ++ [e] = gs at h
  cases h with
  | nil => simp at hg
  | snoc hp hs =>
    obtain ⟨rfl, he⟩ := List.append_inj' hg rfl
    obtain rfl := List.singleton_inj.mp he
    exact ⟨_, hp, hs⟩

theorem Path.split {s s'' : σ} {es fs : List ε} (h : M.Path s (es ++ fs) s'') :
    ∃ s', M.Path s es s' ∧ M.Path s' fs s'' := by
  induction fs using List.reverseRecOn generalizing s'' with
  | nil => exact ⟨s'', by simpa using h, .nil s''⟩
  | append_singleton fs f ih =>
    rw [← List.append_assoc] at h
    obtain ⟨u, hp, hs⟩ := h.last
    obtain ⟨s', h₁, h₂⟩ := ih hp
    exact ⟨s', h₁, h₂.snoc hs⟩

theorem Path.eq_of_nil {s s' : σ} (h : M.Path s [] s') : s = s' := by
  generalize hg : [] = gs at h
  cases h with
  | nil => rfl
  | snoc _ _ => simp at hg

theorem Path.head {s s'' : σ} {es : List ε} {e : ε} (h : M.Path s (e :: es) s'') :
    ∃ s', M.Step s e s' ∧ M.Path s' es s'' := by
  have hsplit : M.Path s ([] ++ [e] ++ es) s'' := h
  obtain ⟨s', hp, hp'⟩ := hsplit.split
  obtain ⟨u, hnil, hs⟩ := hp.last
  obtain rfl := hnil.eq_of_nil
  exact ⟨s', hs, hp'⟩

theorem exec_cons {c : κ} {cs : List κ} {s s'' : σ} {es : List ε}
    (h : M.exec s (c :: cs) = some (s'', es)) :
    ∃ s' e fs, M.next s c = some (s', e) ∧ M.exec s' cs = some (s'', fs) ∧ es = e :: fs := by
  simp only [exec] at h
  split at h
  · cases h
  · rename_i s' e hn
    split at h
    · cases h
    · rename_i hx
      cases h
      exact ⟨s', e, _, hn, hx, rfl⟩

theorem exec_cons_of {c : κ} {cs : List κ} {s s' s'' : σ} {e : ε} {es : List ε}
    (hn : M.next s c = some (s', e)) (hx : M.exec s' cs = some (s'', es)) :
    M.exec s (c :: cs) = some (s'', e :: es) := by
  simp only [exec, hn, hx]

theorem Path.of_exec (cs : List κ) {s s' : σ} {es : List ε} (h : M.exec s cs = some (s', es)) :
    M.Path s es s' := by
  induction cs generalizing s es with
  | nil =>
    obtain ⟨rfl, rfl⟩ : s = s' ∧ [] = es := by simpa [exec] using h
    exact .nil s
  | cons c cs ih =>
    obtain ⟨t, e, fs, hn, hx, rfl⟩ := exec_cons h
    exact (Path.single ⟨c, hn⟩).trans (ih hx)

theorem Run.snoc {s s' : σ} {es : List ε} {e : ε} (h : M.Run es s) (hs : M.Step s e s') :
    M.Run (es ++ [e]) s' :=
  Path.snoc h hs

theorem Run.split {es fs : List ε} {s : σ} (h : M.Run (es ++ fs) s) :
    ∃ s', M.Run es s' ∧ M.Path s' fs s :=
  Path.split h

theorem Run.last {es : List ε} {e : ε} {s : σ} (h : M.Run (es ++ [e]) s) :
    ∃ s', M.Run es s' ∧ M.Step s' e s :=
  Path.last h

theorem Run.at_event {es fs : List ε} {e : ε} {s : σ} (h : M.Run (es ++ e :: fs) s) :
    ∃ u u', M.Run es u ∧ M.Step u e u' ∧ M.Path u' fs s := by
  rw [List.append_cons] at h
  obtain ⟨u', h', hp⟩ := h.split
  obtain ⟨u, hr, hs⟩ := h'.last
  exact ⟨u, u', hr, hs, hp⟩

/-- An invariant may speak of the events of the run so far. -/
theorem Run.invariant {I : List ε → σ → Prop} (h₀ : I [] M.start)
    (hstep : ∀ es s e s', M.Run es s → I es s → M.Step s e s' → I (es ++ [e]) s')
    {es : List ε} {s : σ} (h : M.Run es s) : I es s := by
  have key : ∀ {a : σ} {fs : List ε} {b : σ}, M.Path a fs b → a = M.start → I fs b := by
    intro a fs b hp
    induction hp with
    | nil => intro ha; exact ha ▸ h₀
    | snoc hp hs ih => intro ha; exact hstep _ _ _ _ (by subst ha; exact hp) (ih ha) hs
  exact key h rfl

/-- Each step is a step of the other machine, or the other machine stands still. -/
theorem Run.simulate {σ' κ' ε' : Type*} {N : Machine σ' κ' ε'} {f : σ → σ'} {g : ε → Option ε'}
    (h₀ : f M.start = N.start)
    (hstep : ∀ es s e s', M.Run es s → M.Step s e s' →
      (g e = none ∧ f s' = f s) ∨ ∃ e', g e = some e' ∧ N.Step (f s) e' (f s'))
    {es : List ε} {s : σ} (h : M.Run es s) : N.Run (es.filterMap g) (f s) := by
  refine Run.invariant (I := fun es s => N.Run (es.filterMap g) (f s)) ?_
    (fun es s e s' hr ih hs => ?_) h
  · rw [h₀]
    exact .nil _
  · rw [List.filterMap_append]
    rcases hstep es s e s' hr hs with ⟨hg, hf⟩ | ⟨e', hg, hs'⟩
    · rw [hf]
      simpa [hg] using ih
    · simpa [hg] using ih.snoc hs'

def within (M : Machine σ κ ε) (P : σ → Bool) : Machine σ κ ε where
  start := M.start
  next s c := (M.next s c).filter fun x => P x.1

def restrict (M : Machine σ κ ε) (P : σ → κ → Bool) : Machine σ κ ε where
  start := M.start
  next s c := if P s c then M.next s c else none

theorem restrict_next_eq_some {P : σ → κ → Bool} {s : σ} {c : κ} {out : σ × ε}
    (h : (M.restrict P).next s c = some out) : P s c = true ∧ M.next s c = some out := by
  simp only [restrict] at h
  split at h
  · exact ⟨‹_›, h⟩
  · cases h

theorem restrict_step_iff {P : σ → κ → Bool} {s s' : σ} {e : ε} :
    (M.restrict P).Step s e s' ↔ ∃ c, P s c = true ∧ M.next s c = some (s', e) := by
  constructor
  · rintro ⟨c, hc⟩
    simp only [restrict] at hc
    split at hc
    · exact ⟨c, ‹_›, hc⟩
    · cases hc
  · rintro ⟨c, hP, hc⟩
    exact ⟨c, (if_pos hP).trans hc⟩

theorem within_step_iff {P : σ → Bool} {s s' : σ} {e : ε} :
    (M.within P).Step s e s' ↔ P s' = true ∧ M.Step s e s' := by
  simp only [Step, within, Option.filter_eq_some_iff]
  constructor
  · rintro ⟨c, hc, hP⟩
    exact ⟨hP, c, hc⟩
  · rintro ⟨hP, c, hc⟩
    exact ⟨c, hc, hP⟩

end Machine

/-- One shared state and the local state of every thread. -/
structure Pool (Tid G L : Type*) where
  shared : G
  threads : Tid → L

namespace Pool
variable {Tid G L κ ε : Type*} [DecidableEq Tid]

def machine (g₀ : G) (l₀ : L) (next : G → L → κ → Option (G × L × ε)) :
    Machine (Pool Tid G L) (Tid × κ) (Tid × ε) where
  start := ⟨g₀, fun _ => l₀⟩
  next s c :=
    match next s.shared (s.threads c.1) c.2 with
    | none => none
    | some (g, l, e) => some (⟨g, Function.update s.threads c.1 l⟩, c.1, e)

theorem step_iff {g₀ : G} {l₀ : L} {next : G → L → κ → Option (G × L × ε)}
    {s s' : Pool Tid G L} {t : Tid} {e : ε} :
    (machine g₀ l₀ next).Step s (t, e) s' ↔
      ∃ c g l, next s.shared (s.threads t) c = some (g, l, e) ∧
        s' = ⟨g, Function.update s.threads t l⟩ := by
  constructor
  · rintro ⟨⟨u, c⟩, hc⟩
    simp only [machine] at hc
    split at hc
    · cases hc
    · rename_i g l e' hn
      cases hc
      exact ⟨c, g, l, hn, rfl⟩
  · rintro ⟨c, g, l, hn, rfl⟩
    exact ⟨(t, c), by simp only [machine, hn]⟩

theorem next_eq_some_iff {g₀ : G} {l₀ : L} {next : G → L → κ → Option (G × L × ε)}
    {s s' : Pool Tid G L} {t : Tid} {c : κ} {e : Tid × ε} :
    (machine g₀ l₀ next).next s (t, c) = some (s', e) ↔
      ∃ g l f, next s.shared (s.threads t) c = some (g, l, f) ∧
        s' = ⟨g, Function.update s.threads t l⟩ ∧ e = (t, f) := by
  simp only [machine]
  cases next s.shared (s.threads t) c with
  | none => simp
  | some out => simp [Prod.ext_iff, eq_comm]

theorem forall_update {P Q : L → Prop} {f : Tid → L} {t : Tid} {l : L} (h : ∀ u, P (f u))
    (hmine : Q l) (hothers : ∀ u, u ≠ t → P (f u) → Q (f u)) : ∀ u, Q (Function.update f t l u) := by
  intro u
  rcases eq_or_ne u t with rfl | hu
  · simpa using hmine
  · simpa [hu] using hothers u hu (h u)

/-- No two threads hold the same key: a thread may keep its key or take a free one. -/
theorem distinct_update {K : Type*} {key : L → Option K} {f : Tid → L} {t : Tid} {l : L}
    (h : ∀ a b x, key (f a) = some x → key (f b) = some x → a = b)
    (hl : ∀ x, key l = some x → key (f t) = some x ∨ ∀ u, u ≠ t → key (f u) ≠ some x) :
    ∀ a b x, key (Function.update f t l a) = some x → key (Function.update f t l b) = some x →
      a = b := by
  have other : ∀ b x, key l = some x → b ≠ t → key (f b) ≠ some x := by
    intro b x hx hb hbx
    rcases hl x hx with hk | hk
    · exact hb (h b t x hbx hk)
    · exact hk b hb hbx
  intro a b x ha hb
  rcases eq_or_ne a t with rfl | hat <;> rcases eq_or_ne b a with rfl | hba
  · rfl
  · rw [Function.update_self] at ha
    rw [Function.update_of_ne hba] at hb
    exact absurd hb (other b x ha hba)
  · rfl
  · rcases eq_or_ne b t with rfl | hbt
    · rw [Function.update_self] at hb
      rw [Function.update_of_ne hat] at ha
      exact absurd ha (other a x hb hat)
    · rw [Function.update_of_ne hat] at ha
      rw [Function.update_of_ne hbt] at hb
      exact h a b x ha hb

theorem sum_update {ι α : Type*} [DecidableEq ι] {s : Finset ι} {f : ι → α} {φ : α → ℕ} {i : ι}
    {a : α} (hi : i ∈ s) :
    ∑ j ∈ s, φ (Function.update f i a j) + φ (f i) = ∑ j ∈ s, φ (f j) + φ a := by
  have key : ∀ b, ∑ j ∈ s, φ (Function.update f i b j) = φ b + ∑ j ∈ s \ {i}, φ (f j) := by
    intro b
    rw [← Finset.sum_update_of_mem hi (fun j => φ (f j)) (φ b)]
    exact Finset.sum_congr rfl fun j _ => congrFun (Function.comp_update φ f i b) j
  have hold := key (f i)
  rw [Function.update_eq_self] at hold
  rw [key a, hold]
  omega

def rest {ι α : Type*} [DecidableEq ι] [Fintype ι] (φ : α → ℕ → ℕ) (f : ι → α) (i : ι) (b : ℕ) :
    ℕ :=
  ∑ j ∈ Finset.univ.erase i, φ (f j) b

theorem sum_eq_rest {ι α : Type*} [DecidableEq ι] [Fintype ι] {φ : α → ℕ → ℕ} {f : ι → α} {i : ι}
    (b : ℕ) : ∑ j, φ (f j) b = rest φ f i b + φ (f i) b :=
  (Finset.sum_erase_add _ _ (Finset.mem_univ i)).symm

theorem sum_update_eq_rest {ι α : Type*} [DecidableEq ι] [Fintype ι] {φ : α → ℕ → ℕ} {f : ι → α}
    {i : ι} {a : α} (b : ℕ) :
    ∑ j, φ (Function.update f i a j) b = rest φ f i b + φ a b := by
  rw [sum_eq_rest (i := i), Function.update_self, rest, rest]
  refine congrArg (· + φ a b) (Finset.sum_congr rfl fun j hj => ?_)
  rw [Function.update_of_ne (Finset.ne_of_mem_erase hj)]

structure Exclusive (holds : L → Bool) (locked : Bool) (f : Tid → L) : Prop where
  holder_unique : ∀ a b, holds (f a) = true → holds (f b) = true → a = b
  locked_iff : locked = true ↔ ∃ a, holds (f a) = true

namespace Exclusive
variable {holds : L → Bool} {locked : Bool} {f : Tid → L} {t : Tid} {l : L}

omit [DecidableEq Tid] in
theorem unlocked (hf : ∀ a, holds (f a) = false) : Exclusive holds false f where
  holder_unique a b ha := by simp [hf a] at ha
  locked_iff := by simp [hf]

theorem keep (h : Exclusive holds locked f) (hl : holds l = holds (f t)) :
    Exclusive holds locked (Function.update f t l) := by
  have hsame : ∀ a, holds (Function.update f t l a) = holds (f a) := by
    intro a
    by_cases hat : a = t
    · subst hat
      rw [Function.update_self, hl]
    · rw [Function.update_of_ne hat]
  constructor
  · intro a b ha hb
    exact h.holder_unique a b (hsame a ▸ ha) (hsame b ▸ hb)
  · simp only [hsame]
    exact h.locked_iff

theorem acquire (h : Exclusive holds false f) (hl : holds l = true) :
    Exclusive holds true (Function.update f t l) := by
  have hfree : ∀ a, holds (f a) = false := by
    intro a
    by_contra ha
    have := h.locked_iff.mpr ⟨a, by simpa using ha⟩
    cases this
  have honly : ∀ a, holds (Function.update f t l a) = true → a = t := by
    intro a ha
    by_contra hat
    rw [Function.update_of_ne hat, hfree a] at ha
    cases ha
  constructor
  · intro a b ha hb
    rw [honly a ha, honly b hb]
  · exact ⟨fun _ => ⟨t, by rwa [Function.update_self]⟩, fun _ => rfl⟩

theorem release (h : Exclusive holds locked f) (ht : holds (f t) = true) (hl : holds l = false) :
    Exclusive holds false (Function.update f t l) := by
  refine unlocked fun a => ?_
  by_cases hat : a = t
  · subst hat
    rwa [Function.update_self]
  · rw [Function.update_of_ne hat]
    by_contra ha
    exact hat (h.holder_unique a t (by simpa using ha) ht)

end Exclusive
end Pool
end LockFree.TransitionRuns
