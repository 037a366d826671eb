import LockFree.SeqLockPublication

/-!
# Loads through a SeqLock are consistent

A part from a critical section after the one that was read first makes the second load of
the counter read a later message, by the acquire fence between the two. Unless the counter
has gone all the way round, the load is then repeated; what is returned otherwise was the
object after one of its stores, and not after an older one than the thread knows.
-/

namespace LockFree.SeqLockViews
open SeqLock TransitionRuns ViewMemory

variable {ι δ α Tid : Type*} [DecidableEq ι] [DecidableEq δ]

structure Reads (data : ι → δ → α) (l : Ledger ι δ α Tid) (g : Shared ι δ α) (i : ι)
    (plan : Plan δ α) (seq0 t₀ : ℕ) (got : List α) (v : View (Location ι δ)) (w : ℕ) : Prop where
  seq : seq0 = t₀ % counterSize
  le_last : t₀ ≤ (g.counter i).last
  fresh : ∀ d, t₀ % 2 = 0 →
    ∃ τ, Publishes g i (t₀ / 2) d τ (l.contents data i (t₀ / 2) d) ∧ τ ≤ v (.data i d)
  parts : ∀ p y r, got = p ++ y :: r → ∃ d τ m, plan p = some d ∧
    (g.data i d).message? τ = some m ∧ m.value = y ∧ m.view (.counter i) ≤ w ∧
    (t₀ % 2 = 0 → ∃ σ, Publishes g i (t₀ / 2) d σ (l.contents data i (t₀ / 2) d) ∧ σ ≤ τ)

def Thread.Reads (data : ι → δ → α) (l : Ledger ι δ α Tid) (g : Shared ι δ α)
    (x : Thread ι δ α) : Prop :=
  match x.pc with
  | .reading i plan seq0 t₀ got =>
    SeqLockViews.Reads data l g i plan seq0 t₀ got x.views.current
      (x.views.acquirable (.counter i))
  | .loadSeq1 i plan seq0 t₀ got =>
    SeqLockViews.Reads data l g i plan seq0 t₀ got x.views.current
      (x.views.current (.counter i)) ∧ plan got = none
  | _ => True

structure Extends (data : ι → δ → α) (l l' : Ledger ι δ α Tid) (g g' : Shared ι δ α) : Prop where
  last_le : ∀ i, (g.counter i).last ≤ (g'.counter i).last
  message : ∀ i d τ m, (g.data i d).message? τ = some m → (g'.data i d).message? τ = some m
  publishes : ∀ i k d τ, k ≤ (l.stores i).length →
    Publishes g i k d τ (l.contents data i k d) → Publishes g' i k d τ (l'.contents data i k d)

section
variable {data : ι → δ → α} {l l' : Ledger ι δ α Tid} {g g' : Shared ι δ α} {i : ι} {k t : ℕ}
  {s s' : Pool Tid (Shared ι δ α) (Thread ι δ α)} {a : Tid} {x : Thread ι δ α}
  {e : Event ι δ α Tid} {plan : Plan δ α} {seq0 t₀ w w' : ℕ} {got : List α}
  {v v' : View (Location ι δ)}

omit [DecidableEq ι] in
theorem Extends.of_same (h : ∀ i k, k ≤ (l.stores i).length →
    l'.contents data i k = l.contents data i k) : Extends data l l' g g where
  last_le _ := le_rfl
  message _ _ _ _ hm := hm
  publishes i k d τ hk hp := by rwa [h i k hk]

theorem Extends.of_counter (h : ∀ i k, k ≤ (l.stores i).length →
    l'.contents data i k = l.contents data i k) {m : Message ℕ (Location ι δ)} :
    Extends data l l' g (g.setCounter i ((g.counter i).push m)) where
  last_le j := by
    by_cases hj : j = i
    · subst hj
      rw [setCounter_counter, Cell.last_push]
      exact Nat.le_succ _
    · rw [setCounter_counter_of_ne hj]
  message _ _ _ _ hm := hm
  publishes j k d τ hk hp := by
    rw [h j k hk]
    exact hp.congr rfl

theorem Extends.of_data {d : δ} {m : Message α (Location ι δ)}
    (hm : (l.stores i).length < sectionOf i m) :
    Extends data l l g (g.setData i d ((g.data i d).push m)) where
  last_le _ := le_rfl
  message j d' τ m' hm' := by
    by_cases hj : j = i
    · subst hj
      by_cases hd : d' = d
      · subst hd
        rw [setData_data, Cell.message_push (Cell.le_last hm')]
        exact hm'
      · rwa [setData_data_of_ne hd]
    · rwa [setData_data_other hj]
  publishes j k d' τ hk hp := by
    by_cases hj : j = i
    · subst hj
      exact hp.push (by omega)
    · exact hp.congr (by rw [setData_data_other hj])

omit [DecidableEq ι] in
theorem Reads.mono (h : Reads data l g i plan seq0 t₀ got v w) (hx : Extends data l l' g g')
    (hn : t₀ / 2 ≤ (l.stores i).length) (hv : v ≤ v') (hw : w ≤ w') :
    Reads data l' g' i plan seq0 t₀ got v' w' where
  seq := h.seq
  le_last := h.le_last.trans (hx.last_le i)
  fresh d heven := by
    obtain ⟨τ, hτ, hle⟩ := h.fresh d heven
    exact ⟨τ, hx.publishes i _ d τ hn hτ, hle.trans (hv _)⟩
  parts p y r hgot := by
    obtain ⟨d, τ, m, hplan, hm, hval, hview, hσ⟩ := h.parts p y r hgot
    refine ⟨d, τ, m, hplan, hx.message i d τ m hm, hval, hview.trans hw, fun heven => ?_⟩
    obtain ⟨σ, hσ, hle⟩ := hσ heven
    exact ⟨σ, hx.publishes i _ d σ hn hσ, hle⟩

theorem Inv.half_le (h : Inv data l s) (ht : t ≤ (s.shared.counter i).last) :
    t / 2 ≤ (l.stores i).length := by
  have := (h.counting i).half
  omega

theorem Thread.Reads.mono (h : x.Reads data l s.shared) (hi : Inv data l s)
    (hx : Extends data l l' s.shared g') : x.Reads data l' g' := by
  obtain ⟨pc, views⟩ := x
  cases pc with
  | reading i plan seq0 t₀ got =>
    have hle : t₀ ≤ (s.shared.counter i).last := SeqLockViews.Reads.le_last h
    exact SeqLockViews.Reads.mono h hx (hi.half_le hle) le_rfl le_rfl
  | loadSeq1 i plan seq0 t₀ got =>
    obtain ⟨h, hplan⟩ := h
    exact ⟨SeqLockViews.Reads.mono h hx (hi.half_le h.le_last) le_rfl le_rfl, hplan⟩
  | _ => trivial

variable [DecidableEq Tid]

theorem contents_step (hk : k ≤ (l.stores i).length) :
    (l.step (a, e)).contents data i k = l.contents data i k := by
  cases e with
  | stored j writes =>
    by_cases hj : i = j
    · subst hj
      exact contents_stored hk
    · exact contents_stored_of_ne hj
  | _ => rfl

theorem Inv.extends_threadNext (h : Inv data l s) {spurious : Bool}
    (hn : SeqLockViews.threadNext s.shared (s.threads a) t spurious = some (g', x, e)) :
    Extends data l (l.step (a, e)) s.shared g' := by
  unfold SeqLockViews.threadNext at hn
  cases hp : (s.threads a).pc with
  | idle => simp [hp] at hn
  | loadSeq0 i plan =>
    simp only [hp] at hn
    split at hn <;> cases hn
    exact .of_same fun j k => contents_step
  | reading i plan seq0 t₀ got =>
    simp only [hp] at hn
    split at hn
    · cases hn
      exact .of_same fun j k => contents_step
    · split at hn <;> cases hn
      exact .of_same fun j k => contents_step
  | loadSeq1 i plan seq0 t₀ got =>
    simp only [hp] at hn
    split at hn
    · cases hn
    · split at hn <;> cases hn <;> exact .of_same fun j k => contents_step
  | locking i writes p =>
    simp only [hp, SeqLockViews.lockNext] at hn
    split at hn
    · cases hn
    · split at hn
      · split at hn
        · cases hn
          exact .of_counter fun j k => contents_step
        · split at hn <;> cases hn
          exact .of_same fun j k => contents_step
      · cases hn
        exact .of_same fun j k => contents_step
  | fencing i writes seq =>
    simp only [hp] at hn
    cases hn
    exact .of_same fun j k => contents_step
  | storing i writes seq rest =>
    cases rest with
    | nil =>
      simp only [hp] at hn
      split at hn <;> cases hn
      · exact .of_counter fun j k => contents_step
      · exact .of_same fun j k => contents_step
    | cons w rest =>
      simp only [hp] at hn
      split at hn <;> cases hn
      · exact .of_data (h.lt_sectionOf hp)
      · exact .of_same fun j k => contents_step

theorem Inv.extends (h : Inv data l s) (hs : (machine data Tid).Step s (a, e) s') :
    Extends data l (l.step (a, e)) s.shared s'.shared := by
  rcases step_cases hs with ⟨c, rfl, hp, rfl⟩ | ⟨t, spurious, g, x, hn, rfl⟩ | ⟨u, rfl, hp, rfl⟩
  · exact .of_same fun j k => contents_step
  · exact h.extends_threadNext hn
  · exact .of_same fun j k => contents_step

omit [DecidableEq Tid] in
/-- The counter that is read first hands over the parts that were published by then. -/
theorem Inv.reads_loadSeq0 (h : Inv data l s) {u : Views (Location ι δ)}
    (hl : (s.shared.counter i).load (.counter i) (s.threads a).views t .acquire =
      some (seq0, u)) :
    Reads data l s.shared i plan seq0 t [] u.current w := by
  obtain ⟨m, ha⟩ := (h.counter_within i).acquire le_rfl (h.views_within a) hl
  have hle := Cell.le_last ha.message
  constructor
  · exact ha.value.symm.trans ((h.counting i).value t m ha.message)
  · exact hle
  · intro d heven
    obtain ⟨τ, hτ, hm⟩ := (h.objects i).published (t / 2) (h.half_le hle) d
    exact ⟨τ, hτ, (hm t m ha.message heven (Nat.mul_div_le t 2)).trans (ha.view_le _)⟩
  · intro p y r hgot
    simp at hgot

omit [DecidableEq Tid] in
theorem Inv.reads_part (h : Inv data l s) {u : Views (Location ι δ)} {d : δ} {y : α}
    (hr : Reads data l s.shared i plan seq0 t₀ got (s.threads a).views.current
      ((s.threads a).views.acquirable (.counter i)))
    (hplan : plan got = some d)
    (hl : (s.shared.data i d).load (.data i d) (s.threads a).views t .relaxed = some (y, u)) :
    Reads data l s.shared i plan seq0 t₀ (got ++ [y]) u.current (u.acquirable (.counter i)) := by
  obtain ⟨m, hm, hle, rfl, hu⟩ := Cell.load_eq_some hl
  have hmono : Reads data l s.shared i plan seq0 t₀ got u.current (u.acquirable (.counter i)) := by
    subst hu
    exact hr.mono (.of_same fun _ _ _ => rfl) (h.half_le hr.le_last) Views.le_read
      (Views.acquirable_le_read _)
  refine { hmono with parts := fun p y r hgot => ?_ }
  rcases List.eq_nil_or_concat r with rfl | ⟨r, z, rfl⟩
  · obtain ⟨rfl, hy⟩ := List.append_inj' hgot rfl
    obtain rfl := List.singleton_inj.mp hy
    refine ⟨d, t, m, hplan, hm, rfl, hu ▸ Views.le_acquirable_read _, fun heven => ?_⟩
    obtain ⟨σ, hσ, hσ'⟩ := hr.fresh d heven
    exact ⟨σ, hσ, hσ'.trans hle⟩
  · rw [List.concat_eq_append, ← List.cons_append, ← List.append_assoc] at hgot
    exact hmono.parts p y r (List.append_inj_left' hgot rfl)

omit [DecidableEq Tid] in
theorem Inv.evaluates (h : Inv data l s) {u : Views (Location ι δ)} {seq1 t₁ : ℕ}
    (hr : Reads data l s.shared i plan seq0 t₀ got (s.threads a).views.current
      ((s.threads a).views.current (.counter i)))
    (hplan : plan got = none) (ht₀ : t₀ ≤ (s.threads a).views.current (.counter i))
    (hl : (s.shared.counter i).load (.counter i) (s.threads a).views t₁ .relaxed =
      some (seq1, u))
    (hfree : isLocked seq0 = false) (heq : seq0 = seq1) (hfew : t₁ < t₀ + counterSize) :
    t₀ = t₁ ∧ t₀ % 2 = 0 ∧ l.known a i ≤ t₀ / 2 ∧ t₀ / 2 ≤ (l.stores i).length ∧
      Evaluates plan (l.contents data i (t₀ / 2)) got := by
  obtain ⟨m, hm, hle, hval, -⟩ := Cell.load_eq_some hl
  have hknown := h.known a i
  have hhalf := h.half_le hr.le_last
  have hcount := (h.counting i).value t₁ m hm
  have hseq := hr.seq
  rw [isLocked_false] at hfree
  obtain ⟨rfl, heven⟩ : t₀ = t₁ ∧ t₀ % 2 = 0 := by
    rw [hval, ← heq, hseq] at hcount
    rw [counterSize] at hcount hseq hfew
    omega
  refine ⟨rfl, heven, by omega, hhalf, fun p y r hgot => ?_, hplan⟩
  obtain ⟨d, τ, m', hd, hm', rfl, hview, hlast⟩ := hr.parts p y r hgot
  obtain ⟨σ, hσ, hστ⟩ := hlast heven
  have hsection : sectionOf i m' ≤ t₀ / 2 := by
    have := Nat.div_le_div_right (c := 2) (Nat.succ_le_succ (hview.trans hle))
    rw [sectionOf]
    omega
  obtain rfl : σ = τ := le_antisymm hστ (hσ.greatest τ m' hm' hsection)
  obtain ⟨m'', hm'', hval'', -⟩ := hσ.message
  rw [hm'] at hm''
  obtain rfl := Option.some.inj hm''
  exact ⟨d, hd, hval''⟩

theorem Inv.reads_threadNext (h : Inv data l s) (hr : (s.threads a).Reads data l s.shared)
    {spurious : Bool}
    (hn : SeqLockViews.threadNext s.shared (s.threads a) t spurious = some (g', x, e)) :
    x.Reads data (l.step (a, e)) g' := by
  have hext := h.extends_threadNext hn
  unfold SeqLockViews.threadNext at hn
  cases hp : (s.threads a).pc with
  | idle => simp [hp] at hn
  | loadSeq0 i plan =>
    simp only [hp] at hn
    split at hn
    · cases hn
    · rename_i hl
      cases hn
      exact h.reads_loadSeq0 hl
  | reading i plan seq0 t₀ got =>
    simp only [Thread.Reads, hp] at hr
    simp only [hp] at hn
    split at hn
    · rename_i hplan
      cases hn
      exact ⟨hr.mono hext (h.half_le hr.le_last) (s.threads a).views.le_acquirable le_rfl, hplan⟩
    · rename_i d hplan
      split at hn
      · cases hn
      · rename_i hl
        cases hn
        exact h.reads_part hr hplan hl
  | loadSeq1 i plan seq0 t₀ got =>
    simp only [hp] at hn
    split at hn
    · cases hn
    · split at hn <;> cases hn <;> trivial
  | locking i writes p =>
    simp only [hp, SeqLockViews.lockNext] at hn
    split at hn
    · cases hn
    · split at hn
      · split at hn
        · cases hn
          trivial
        · split at hn <;> cases hn
          trivial
      · cases hn
        trivial
  | fencing i writes seq =>
    simp only [hp] at hn
    cases hn
    trivial
  | storing i writes seq rest =>
    cases rest <;> simp only [hp] at hn <;> split at hn <;> cases hn <;> trivial

theorem Inv.reads_step (h : Inv data l s) (hr : ∀ b, (s.threads b).Reads data l s.shared)
    (hs : (machine data Tid).Step s (a, e) s') :
    ∀ b, (s'.threads b).Reads data (l.step (a, e)) s'.shared := by
  have hext := h.extends hs
  rcases step_cases hs with ⟨c, rfl, hp, rfl⟩ | ⟨t, spurious, g, x, hn, rfl⟩ | ⟨u, rfl, hp, rfl⟩
  · refine Pool.forall_update hr ?_ fun b _ hb => hb.mono h hext
    cases c <;> trivial
  · exact Pool.forall_update hr (h.reads_threadNext (hr a) hn) fun b _ hb => hb.mono h hext
  · exact Pool.forall_update hr trivial fun b _ hb => hb.mono h hext

theorem reads_of_run {es : List (Tid × Event ι δ α Tid)} (h : (machine data Tid).Run es s) :
    ∀ b, (s.threads b).Reads data (ledger es) s.shared := by
  refine Machine.Run.invariant
    (I := fun es s => ∀ b, (s.threads b).Reads data (ledger es) s.shared) (fun b => trivial)
    (fun es s e s' hr ih hs => ?_) h
  rw [ledger_snoc]
  exact (Inv.of_run hr).reads_step ih hs

theorem step_loaded {t₁ : ℕ}
    (hs : (machine data Tid).Step s (a, .loaded i plan t₀ t₁ got) s') :
    ∃ seq0 u, (s.threads a).pc = .loadSeq1 i plan seq0 t₀ got ∧ isLocked seq0 = false ∧
      (s.shared.counter i).load (.counter i) (s.threads a).views t₁ .relaxed = some (seq0, u) := by
  rcases step_cases hs with ⟨c, hc, -⟩ | ⟨t, spurious, g, x, hn, -⟩ | ⟨u, hc, -⟩
  · cases hc
  · unfold threadNext lockNext at hn
    grind
  · cases hc

/-- What should hold of a run, whatever stale messages its loads read. A load has read the
same message of the counter twice unless it came round in between. -/
structure Consistent (data : ι → δ → α) (es : List (Tid × Event ι δ α Tid)) : Prop where
  ordered : ∀ a, (a, .unordered) ∉ es
  loaded : ∀ fs gs a i plan t₀ t₁ got, es = fs ++ (a, .loaded i plan t₀ t₁ got) :: gs →
    t₁ < t₀ + counterSize → t₀ = t₁ ∧ ∃ k, t₀ = 2 * k ∧ (ledger fs).known a i ≤ k ∧
      k ≤ ((ledger fs).stores i).length ∧ Evaluates plan ((ledger fs).contents data i k) got

/-- Every load returns the object after one of its stores, which the thread does not know
to be out of date, and all stores are in one order. -/
theorem consistent {es : List (Tid × Event ι δ α Tid)} (h : (machine data Tid).Run es s) :
    Consistent data es := by
  constructor
  case ordered =>
    intro a hmem
    obtain ⟨fs, gs, rfl⟩ := List.append_of_mem hmem
    obtain ⟨u, u', hr, hs, -⟩ := h.at_event
    exact ((Inv.of_run hr).step hs).1 rfl
  case loaded =>
    rintro fs gs a i plan t₀ t₁ got rfl hfew
    obtain ⟨u, u', hr, hs, -⟩ := h.at_event
    obtain ⟨seq0, v, hp, hfree, hl⟩ := step_loaded hs
    have hi := Inv.of_run hr
    have hreads := reads_of_run hr a
    have hok := hi.threads a
    simp only [Thread.Reads, hp] at hreads
    simp only [Thread.Ok, hp] at hok
    obtain ⟨heq, heven, hrest⟩ := hi.evaluates hreads.1 hreads.2 hok hl hfree rfl hfew
    exact ⟨heq, t₀ / 2, by omega, hrest⟩

def Local.call? : Local ι δ α → Option (Call ι δ α)
  | .idle => none
  | .loadSeq0 i plan | .reading i plan _ _ _ | .loadSeq1 i plan _ _ _ => some (.load i plan)
  | .locking i writes _ | .fencing i writes _ | .storing i writes _ _ => some (.store i writes)

def Event.call? : Event ι δ α Tid → Option (Call ι δ α)
  | .loaded i plan _ _ _ => some (.load i plan)
  | .stored i writes => some (.store i writes)
  | _ => none

omit [DecidableEq Tid] in
theorem threadNext_call {spurious : Bool} {y : Thread ι δ α}
    (hn : threadNext g x t spurious = some (g', y, e)) :
    (∀ c, e ≠ .called c) ∧ ((y.pc.call? = x.pc.call? ∧ e.call? = none) ∨
      (y.pc.call? = none ∧ e.call? = x.pc.call?)) := by
  unfold threadNext at hn
  cases hp : x.pc with
  | idle => simp [hp] at hn
  | loadSeq0 i plan =>
    simp only [hp] at hn
    split at hn <;> cases hn
    exact ⟨by simp, .inl ⟨rfl, rfl⟩⟩
  | reading i plan seq0 t₀ got =>
    simp only [hp] at hn
    split at hn
    · cases hn
      exact ⟨by simp, .inl ⟨rfl, rfl⟩⟩
    · split at hn <;> cases hn
      exact ⟨by simp, .inl ⟨rfl, rfl⟩⟩
  | loadSeq1 i plan seq0 t₀ got =>
    simp only [hp] at hn
    split at hn
    · cases hn
    · split at hn <;> cases hn
      · exact ⟨by simp, .inl ⟨rfl, rfl⟩⟩
      · exact ⟨by simp, .inr ⟨rfl, rfl⟩⟩
  | locking i writes p =>
    simp only [hp, lockNext] at hn
    split at hn
    · cases hn
    · split at hn
      · split at hn
        · cases hn
          exact ⟨by simp, .inl ⟨rfl, rfl⟩⟩
        · split at hn <;> cases hn
          exact ⟨by simp, .inl ⟨rfl, rfl⟩⟩
      · cases hn
        exact ⟨by simp, .inl ⟨rfl, rfl⟩⟩
  | fencing i writes seq =>
    simp only [hp] at hn
    cases hn
    exact ⟨by simp, .inl ⟨rfl, rfl⟩⟩
  | storing i writes seq rest =>
    cases rest <;> simp only [hp] at hn <;> split at hn <;> cases hn
    · exact ⟨by simp, .inr ⟨rfl, rfl⟩⟩
    · exact ⟨by simp, .inl ⟨by rw [hp], rfl⟩⟩
    · exact ⟨by simp, .inl ⟨rfl, rfl⟩⟩
    · exact ⟨by simp, .inl ⟨by rw [hp], rfl⟩⟩

omit [DecidableEq ι] [DecidableEq δ] in
theorem update_pc {f : Tid → Thread ι δ α} {b : Tid} (hb : b ≠ a) :
    (Function.update f a x b).pc = (f b).pc := by
  rw [Function.update_of_ne hb]

theorem step_call (hs : (machine data Tid).Step s (a, e) s') :
    (∀ b, b ≠ a → (s'.threads b).pc = (s.threads b).pc) ∧
      ((∃ c, e = .called c ∧ (s.threads a).pc.call? = none ∧
          (s'.threads a).pc.call? = some c) ∨
        (∀ c, e ≠ .called c) ∧
          (((s'.threads a).pc.call? = (s.threads a).pc.call? ∧ e.call? = none) ∨
            ((s'.threads a).pc.call? = none ∧ e.call? = (s.threads a).pc.call?))) := by
  have hself : ∀ {x : Thread ι δ α}, Function.update s.threads a x a = x :=
    Function.update_self ..
  rcases step_cases hs with ⟨c, rfl, hp, rfl⟩ | ⟨t, spurious, g, x, hn, rfl⟩ | ⟨u, rfl, hp, rfl⟩
  · refine ⟨fun b hb => update_pc hb, .inl ⟨c, rfl, by rw [hp]; rfl, ?_⟩⟩
    simp only [hself]
    cases c <;> rfl
  · refine ⟨fun b hb => update_pc hb, .inr ?_⟩
    simp only [hself]
    exact threadNext_call hn
  · refine ⟨fun b hb => update_pc hb, .inr ⟨by simp, .inl ⟨?_, rfl⟩⟩⟩
    simp only [hself]
    rw [hp]

theorem calls_of_run {P : Tid → Call ι δ α → Prop} {es : List (Tid × Event ι δ α Tid)}
    (h : (machine data Tid).Run es s) (hP : ∀ a c, (a, .called c) ∈ es → P a c) :
    (∀ a c, (s.threads a).pc.call? = some c → P a c) ∧
      ∀ a e c, (a, e) ∈ es → e.call? = some c → P a c := by
  refine Machine.Run.invariant (I := fun es s => (∀ a c, (a, .called c) ∈ es → P a c) →
    (∀ a c, (s.threads a).pc.call? = some c → P a c) ∧
      ∀ a e c, (a, e) ∈ es → e.call? = some c → P a c) ?_ (fun es s f s' _ ih hs hP => ?_) h hP
  · exact fun _ => ⟨fun a c hc => (by cases hc), fun a e c he => (by cases he)⟩
  obtain ⟨a, e⟩ := f
  obtain ⟨ihThreads, ihEvents⟩ := ih fun b c hc => hP b c (List.mem_append_left _ hc)
  obtain ⟨hothers, hmine⟩ := step_call hs
  have hthreads : (∀ c, (s'.threads a).pc.call? = some c → P a c) →
      ∀ b c, (s'.threads b).pc.call? = some c → P b c := by
    intro ha b c hc
    by_cases hb : b = a
    · subst hb
      exact ha c hc
    · exact ihThreads b c (hothers b hb ▸ hc)
  have hevents : (∀ c, e.call? = some c → P a c) →
      ∀ b e' c, (b, e') ∈ es ++ [(a, e)] → e'.call? = some c → P b c := by
    intro he b e' c hmem hc
    rcases List.mem_append.mp hmem with hmem | hmem
    · exact ihEvents b e' c hmem hc
    · cases List.mem_singleton.mp hmem
      exact he c hc
  rcases hmine with ⟨c, rfl, -, hcall⟩ | ⟨-, ⟨hcall, hnone⟩ | ⟨hnone, hcall⟩⟩
  · refine ⟨hthreads fun c' hc' => ?_, hevents fun c' hc' => (by cases hc')⟩
    obtain rfl : c = c' := by simpa [hcall] using hc'
    exact hP a c (List.mem_append_right _ (List.mem_singleton_self _))
  · exact ⟨hthreads fun c hc => ihThreads a c (hcall ▸ hc),
      hevents fun c hc => (by simp [hnone] at hc)⟩
  · exact ⟨hthreads fun c hc => (by simp [hnone] at hc),
      hevents fun c hc => ihThreads a c (hcall ▸ hc)⟩

omit [DecidableEq δ] in
theorem mem_of_mem_stores {es : List (Tid × Event ι δ α Tid)} {writes : List (δ × α)}
    (h : writes ∈ (ledger es).stores i) : ∃ a, (a, .stored i writes) ∈ es := by
  induction es using List.reverseRecOn with
  | nil => cases h
  | append_singleton es f ih =>
    rw [ledger_snoc] at h
    have hold : writes ∈ (ledger es).stores i → ∃ a, (a, .stored i writes) ∈ es ++ [f] := by
      intro h
      obtain ⟨a, ha⟩ := ih h
      exact ⟨a, List.mem_append_left _ ha⟩
    obtain ⟨a, e⟩ := f
    cases e with
    | stored j ws =>
      by_cases hj : i = j
      · subst hj
        rw [stores_stored] at h
        rcases List.mem_append.mp h with h | h
        · exact hold h
        · obtain rfl := List.mem_singleton.mp h
          exact ⟨a, List.mem_append_right _ (List.mem_singleton_self _)⟩
      · rw [stores_stored_of_ne hj] at h
        exact hold h
    | _ => exact hold h

omit [DecidableEq ι] [DecidableEq δ] in
theorem known_learn_le (b : Tid) (f : ι → ℕ) : l.known a i ≤ (l.learn b f).known a i := by
  dsimp only [Ledger.learn]
  by_cases ha : a = b
  · subst ha
    rw [Function.update_self]
    exact le_sup_left
  · rw [Function.update_of_ne ha]

omit [DecidableEq δ] in
theorem known_le_step (f : Tid × Event ι δ α Tid) : l.known a i ≤ (l.step f).known a i := by
  obtain ⟨b, e⟩ := f
  cases e with
  | loaded | synchronized => exact known_learn_le _ _
  | stored j writes =>
    exact known_learn_le (l := { l with stores := Function.update l.stores j _ }) b _
  | called | silent | unordered => exact le_rfl

omit [DecidableEq δ] in
theorem le_known_loaded : t₀ / 2 ≤ (l.step (a, .loaded i plan t₀ k got)).known a i := by
  have hknown : (l.step (a, .loaded i plan t₀ k got)).known a i =
      l.known a i ⊔ seen i (t₀ / 2) i := by
    simp [Ledger.step, Ledger.learn]
  rw [hknown, seen_self]
  exact le_sup_right

omit [DecidableEq ι] [DecidableEq Tid] in
theorem foldl_apply (ds : List δ) (φ : δ → α) (m : δ → α) {d : δ} (hd : d ∈ ds) :
    (ds.map fun d => (d, φ d)).foldl apply m d = φ d := by
  induction ds using List.reverseRecOn with
  | nil => simp at hd
  | append_singleton ds d' ih =>
    rw [List.map_append, List.foldl_append]
    simp only [List.map_cons, List.map_nil, List.foldl_cons, List.foldl_nil, apply]
    by_cases hdd : d = d'
    · subst hdd
      exact Function.update_self ..
    · rw [Function.update_of_ne hdd]
      exact ih (by simpa [hdd] using hd)

omit [DecidableEq ι] [DecidableEq Tid] in
theorem contents_of_store {ds : List δ} {φ : δ → α}
    (h : (l.stores i)[k]? = some (ds.map fun d => (d, φ d))) {d : δ} (hd : d ∈ ds) :
    l.contents data i (k + 1) d = φ d := by
  obtain ⟨hlt, hk⟩ := List.getElem?_eq_some_iff.mp h
  rw [Ledger.contents, List.take_succ_eq_append_getElem hlt, List.flatten_append,
    List.foldl_append, hk]
  simp only [List.flatten_cons, List.flatten_nil, List.append_nil]
  exact foldl_apply ds φ _ hd

end
end LockFree.SeqLockViews
