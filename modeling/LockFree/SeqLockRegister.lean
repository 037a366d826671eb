import LockFree.SeqLockAtomic

/-!
# SeqLockAtomic is an atomic register

The counter counts the completed stores twice and is odd during one more. A load that
read the same even value before and after its copy saw no store in between, as long
as the counter has not gone all the way round.
-/

namespace LockFree.SeqLockAtomic
open AtomicMemcpy SeqLock TransitionRuns

variable {Tid : Type*} {size : ℕ}

def Local.holds : Local → Bool
  | .storing _ _ _ => true
  | _ => false

def Local.Waits (l : Local) : Prop := ∀ desired p, l = .locking desired p → p.Waits

section
variable {g g' : Shared} {l l' : Local} {c : Choice} {e : Event}

theorem next_cases (hw : l.Waits) (hn : next size g l c = some (g', l', e)) :
    (g' = g ∧ e.stored? = none ∧ l.holds = false ∧ l'.holds = false ∧ l'.Waits) ∨
    (isLocked g.counter = false ∧ g' = ⟨(g.counter + 1) % counterSize, g.data⟩ ∧ e = .silent ∧
      l.holds = false ∧ ∃ desired, l' = .storing desired g.counter (atomicMemcpy size)) ∨
    (∃ desired seq access rest, l = .storing desired seq (access :: rest) ∧
      g' = ⟨g.counter, copy access desired g.data⟩ ∧ l' = .storing desired seq rest ∧
      e = .silent) ∨
    ∃ desired seq, l = .storing desired seq [] ∧ g' = ⟨unlock seq, g.data⟩ ∧ l' = .idle ∧
      e = .stored (contents size desired) := by
  cases l with
  | locking desired p =>
    cases c with
    | step spurious =>
      rcases lock_cases g.counter spurious (hw desired p rfl) with
        hlock | ⟨hfree, hlock⟩ <;> simp only [next, hlock] at hn
      · refine .inl ?_
        rcases Locking.waits_read g.counter with hread | ⟨seq, hread, hseq⟩ <;>
          simp only [hread] at hn <;> cases hn
        · refine ⟨rfl, rfl, rfl, rfl, fun _ _ heq => ?_⟩
          cases heq
          exact .inl rfl
        · refine ⟨rfl, rfl, rfl, rfl, fun _ _ heq => ?_⟩
          cases heq
          exact .inr ⟨seq, rfl, hseq⟩
      · cases hn
        exact .inr (.inl ⟨hfree, rfl, rfl, rfl, desired, rfl⟩)
    | load | store => cases hn
  | storing desired seq rest =>
    cases rest with
    | cons access rest =>
      cases c <;> cases hn
      exact .inr (.inr (.inl ⟨desired, seq, access, rest, rfl, rfl, rfl, rfl⟩))
    | nil =>
      cases c <;> cases hn
      exact .inr (.inr (.inr ⟨desired, seq, rfl, rfl, rfl, rfl⟩))
  | idle | loadSeq0 | loading =>
    refine .inl ?_
    unfold next at hn
    grind [Local.holds, Local.Waits, Locking.Waits, Event.stored?]

end

variable [DecidableEq Tid] {initial : Memory} {es : List (Tid × Event)}
  {s s' : Pool Tid Shared Local} {t : Tid} {e : Event} {g : Shared} {l : Local}

structure Inv (size : ℕ) (initial : Memory) (es : List (Tid × Event))
    (s : Pool Tid Shared Local) : Prop where
  exclusive : Pool.Exclusive Local.holds (isLocked s.shared.counter) s.threads
  counter : Counts s.shared.counter (stores es).length
  data : isLocked s.shared.counter = false →
    contents size s.shared.data = latest (contents size initial) es
  storing : ∀ t desired seq rest, s.threads t = .storing desired seq rest →
    seq = 2 * (stores es).length % counterSize ∧
      ∃ m, Tiles m rest size ∧ ∀ i < m, s.shared.data i = desired i

theorem waits_of_run (h : (machine size initial Tid).Run es s) : ∀ a, (s.threads a).Waits := by
  refine h.invariant (I := fun _ s => ∀ a, (s.threads a).Waits) ?_ ?_
  · intro a desired p heq
    cases heq
  · intro es s e s' _ hi hs
    obtain ⟨c, g, l, hn, rfl⟩ := Pool.step_iff.mp hs
    refine Pool.forall_update hi ?_ fun _ _ h => h
    rcases next_cases (hi e.1) hn with ⟨-, -, -, -, hl⟩ | ⟨-, -, -, -, desired, rfl⟩ |
      ⟨desired, seq, access, rest, -, -, rfl, -⟩ | ⟨desired, seq, -, -, rfl, -⟩
    · exact hl
    · exact fun _ _ heq => by cases heq
    · exact fun _ _ heq => by cases heq
    · exact fun _ _ heq => by cases heq

omit [DecidableEq Tid] in
theorem stores_snoc_none (he : e.stored? = none) : stores (es ++ [(t, e)]) = stores es := by
  simp [stores, he]

omit [DecidableEq Tid] in
theorem stores_snoc_stored {v : List UInt8} :
    stores (es ++ [(t, .stored v)]) = stores es ++ [v] := by
  simp [stores, Event.stored?]

omit [DecidableEq Tid] in
theorem latest_snoc_none {v : List UInt8} (he : e.stored? = none) :
    latest v (es ++ [(t, e)]) = latest v es := by
  rw [latest, stores_snoc_none he, latest]

theorem Inv.aside (h : Inv size initial es s) (he : e.stored? = none)
    (hl : l.holds = (s.threads t).holds) (hf : l.holds = false) :
    Inv size initial (es ++ [(t, e)]) ⟨s.shared, Function.update s.threads t l⟩ where
  exclusive := h.exclusive.keep hl
  counter := by
    rw [stores_snoc_none he]
    exact h.counter
  data hfree := by
    rw [latest_snoc_none he]
    exact h.data hfree
  storing a desired seq rest ha := by
    rw [stores_snoc_none he]
    dsimp only at ha
    by_cases hat : a = t
    · subst hat
      rw [Function.update_self] at ha
      rw [ha] at hf
      cases hf
    · rw [Function.update_of_ne hat] at ha
      exact h.storing a desired seq rest ha

theorem Inv.acquire (h : Inv size initial es s) {desired : Memory}
    (hfree : isLocked s.shared.counter = false) :
    Inv size initial (es ++ [(t, .silent)]) ⟨⟨(s.shared.counter + 1) % counterSize, s.shared.data⟩,
      Function.update s.threads t (.storing desired s.shared.counter (atomicMemcpy size))⟩ := by
  have hx := h.exclusive
  rw [hfree] at hx
  obtain ⟨hseq, hlocked, hcounter⟩ := h.counter.lock hfree
  have hidle : ∀ a, (s.threads a).holds = false := by
    intro a
    by_contra ha
    have := hx.locked_iff.mpr ⟨a, by simpa using ha⟩
    cases this
  have hstores : stores (es ++ [(t, .silent)]) = stores es := stores_snoc_none rfl
  constructor
  · dsimp only
    rw [hlocked]
    exact hx.acquire rfl
  · rw [hstores]
    exact hcounter
  · intro hfree'
    exact absurd (hlocked.symm.trans hfree') Bool.noConfusion
  · intro a desired' seq rest ha
    rw [hstores]
    dsimp only at ha
    by_cases hat : a = t
    · subst hat
      rw [Function.update_self] at ha
      cases ha
      exact ⟨hseq, 0, tiles_atomicMemcpy size, fun i hi => absurd hi (Nat.not_lt_zero i)⟩
    · rw [Function.update_of_ne hat] at ha
      have := hidle a
      rw [ha] at this
      cases this

theorem Inv.copy (h : Inv size initial es s) {desired : Memory} {seq : ℕ} {access : ℕ × ℕ}
    {rest : List (ℕ × ℕ)} (hl : s.threads t = .storing desired seq (access :: rest)) :
    Inv size initial (es ++ [(t, .silent)])
      ⟨⟨s.shared.counter, AtomicMemcpy.copy access desired s.shared.data⟩,
        Function.update s.threads t (.storing desired seq rest)⟩ := by
  have hholds : (s.threads t).holds = true := by
    rw [hl]
    rfl
  have hlocked : isLocked s.shared.counter = true := h.exclusive.locked_iff.mpr ⟨t, hholds⟩
  have hstores : stores (es ++ [(t, .silent)]) = stores es := stores_snoc_none rfl
  obtain ⟨hseq, m, htiles, hdone⟩ := h.storing t desired seq _ hl
  obtain ⟨hlo, -, htiles⟩ := htiles.head
  constructor
  · exact h.exclusive.keep hholds.symm
  · rw [hstores]
    exact h.counter
  · intro hfree
    exact absurd (hlocked.symm.trans hfree) Bool.noConfusion
  · intro a desired' seq' rest' ha
    rw [hstores]
    dsimp only at ha
    by_cases hat : a = t
    · subst hat
      rw [Function.update_self] at ha
      cases ha
      exact ⟨hseq, access.2, htiles, fun i hi => copy_of_prefix hlo hdone hi⟩
    · rw [Function.update_of_ne hat] at ha
      exact absurd (h.exclusive.holder_unique a t (by rw [ha]; rfl) hholds) hat

theorem Inv.unlock (h : Inv size initial es s) {desired : Memory} {seq : ℕ}
    (hl : s.threads t = .storing desired seq []) :
    Inv size initial (es ++ [(t, .stored (contents size desired))])
      ⟨⟨SeqLock.unlock seq, s.shared.data⟩, Function.update s.threads t .idle⟩ := by
  have hholds : (s.threads t).holds = true := by
    rw [hl]
    rfl
  obtain ⟨rfl, m, htiles, hdone⟩ := h.storing t desired seq _ hl
  have hfree : isLocked (SeqLock.unlock (2 * (stores es).length % counterSize)) = false := by
    rw [unlock_eq]
    exact isLocked_mod _
  constructor
  · dsimp only
    rw [hfree]
    exact h.exclusive.release hholds rfl
  · rw [stores_snoc_stored, List.length_append]
    exact counts_unlock _
  · intro _
    rw [latest, stores_snoc_stored, List.getLastD_concat]
    exact contents_congr fun i hi => hdone i (htiles.eq_of_nil ▸ hi)
  · intro a desired' seq' rest' ha
    dsimp only at ha
    by_cases hat : a = t
    · subst hat
      rw [Function.update_self] at ha
      cases ha
    · rw [Function.update_of_ne hat] at ha
      exact absurd (h.exclusive.holder_unique a t (by rw [ha]; rfl) hholds) hat

theorem Inv.step (h : Inv size initial es s) (hw : ∀ a, (s.threads a).Waits)
    (hs : (machine size initial Tid).Step s (t, e) s') : Inv size initial (es ++ [(t, e)]) s' := by
  obtain ⟨c, g, l, hn, rfl⟩ := Pool.step_iff.mp hs
  rcases next_cases (hw t) hn with ⟨rfl, he, hlt, hl, -⟩ | ⟨hfree, rfl, rfl, -, desired, rfl⟩ |
    ⟨desired, seq, access, rest, hl, rfl, rfl, rfl⟩ | ⟨desired, seq, hl, rfl, rfl, rfl⟩
  · exact h.aside he (hl.trans hlt.symm) hl
  · exact h.acquire hfree
  · exact h.copy hl
  · exact h.unlock hl

theorem Inv.start : Inv size initial [] (machine size initial Tid).start where
  exclusive := by
    have hfree : isLocked 0 = false := by decide
    change Pool.Exclusive Local.holds (isLocked 0) _
    rw [hfree]
    exact .unlocked fun _ => rfl
  counter := counts_zero
  data _ := rfl
  storing t desired seq rest ht := by cases ht

theorem Inv.of_run (h : (machine size initial Tid).Run es s) : Inv size initial es s :=
  h.invariant .start fun _ _ _ _ hr hi hs => hi.step (waits_of_run hr) hs

def Local.Reads (size n₀ n : ℕ) (g : Shared) : Local → Prop
  | .loadSeq0 _ => n₀ ≤ n
  | .loading loaded seq0 rest =>
    Snapshot n₀ n g.counter seq0 (∃ m, Tiles m rest size ∧ ∀ i < m, loaded i = g.data i)
  | _ => False

section
variable {u : Tid} {n₀ n n' : ℕ} {g' : Shared} {l' : Local}

omit [DecidableEq Tid] in
theorem Local.Reads.mono (h : l.Reads size n₀ n g) (hle : n ≤ n')
    (hsame : n' = n → isLocked g'.counter = false → g' = g) : l.Reads size n₀ n' g' := by
  cases l with
  | loadSeq0 loaded => exact Nat.le_trans h hle
  | loading loaded seq0 rest =>
    refine Snapshot.mono h hle fun heq hfree => ?_
    obtain rfl := hsame heq hfree
    exact ⟨hfree, fun hcopied => hcopied⟩
  | idle | locking | storing => exact h

theorem Inv.unchanged (h : Inv size initial es s) (hw : ∀ a, (s.threads a).Waits)
    (hs : (machine size initial Tid).Step s (u, e) s') :
    (stores es).length ≤ (stores (es ++ [(u, e)])).length ∧
      ((stores (es ++ [(u, e)])).length = (stores es).length →
        isLocked s'.shared.counter = false → s'.shared = s.shared) := by
  obtain ⟨c, g, l, hn, rfl⟩ := Pool.step_iff.mp hs
  rcases next_cases (hw u) hn with ⟨rfl, he, -⟩ | ⟨hfree, rfl, rfl, -⟩ |
    ⟨desired, seq, access, rest, hl, rfl, -, rfl⟩ | ⟨desired, seq, -, -, -, rfl⟩
  · rw [stores_snoc_none he]
    exact ⟨le_rfl, fun _ _ => rfl⟩
  · rw [stores_snoc_none rfl]
    refine ⟨le_rfl, fun _ hfree' => ?_⟩
    dsimp only at hfree'
    rw [isLocked_false] at hfree hfree'
    rw [counterSize] at hfree'
    omega
  · rw [stores_snoc_none rfl]
    refine ⟨le_rfl, fun _ hfree => ?_⟩
    have hlocked : isLocked s.shared.counter = true :=
      h.exclusive.locked_iff.mpr ⟨u, by rw [hl]; rfl⟩
    exact absurd (hlocked.symm.trans hfree) Bool.noConfusion
  · rw [stores_snoc_stored, List.length_append, List.length_singleton]
    exact ⟨Nat.le_succ _, fun heq => absurd heq (Nat.succ_ne_self _)⟩

omit [DecidableEq Tid] in
theorem Inv.reads_mine (h : Inv size initial es s) {c : Choice}
    (ht : (s.threads t).Reads size n₀ (stores es).length s.shared)
    (hn : next size s.shared (s.threads t) c = some (g, l, .silent)) :
    l.Reads size n₀ (stores es).length s.shared := by
  cases hla : s.threads t with
  | loadSeq0 loaded =>
    rw [hla] at ht hn
    cases c <;> cases hn
    exact .take ht h.counter
      ⟨0, tiles_atomicMemcpy size, fun i hi => absurd hi (Nat.not_lt_zero i)⟩
  | loading loaded seq0 rest =>
    rw [hla] at ht hn
    cases rest with
    | nil =>
      cases c <;> simp only [next, reduceCtorEq] at hn
      split at hn <;> cases hn
      exact Snapshot.le ht
    | cons access rest =>
      cases c <;> cases hn
      apply Snapshot.imp ht
      rintro ⟨m, htiles, hcopied⟩
      obtain ⟨hlo, -, htiles⟩ := htiles.head
      exact ⟨access.2, htiles, fun i hi => copy_of_prefix hlo hcopied hi⟩
  | idle | locking | storing =>
    rw [hla] at ht
    cases ht

theorem Inv.reads_step (h : Inv size initial es s) (hw : ∀ a, (s.threads a).Waits)
    (ht : (s.threads t).Reads size n₀ (stores es).length s.shared)
    (hs : (machine size initial Tid).Step s (u, e) s') (he : u = t → e = .silent) :
    (s'.threads t).Reads size n₀ (stores (es ++ [(u, e)])).length s'.shared := by
  obtain ⟨hle, hsame⟩ := h.unchanged hw hs
  refine Local.Reads.mono ?_ hle hsame
  obtain ⟨c, g, l, hn, rfl⟩ := Pool.step_iff.mp hs
  dsimp only
  by_cases hut : u = t
  · subst hut
    obtain rfl := he rfl
    rw [Function.update_self]
    exact h.reads_mine ht hn
  · rw [Function.update_of_ne (Ne.symm hut)]
    exact ht

theorem reads_of_path {fs : List (Tid × Event)} (h : (machine size initial Tid).Run es s)
    (ht : (s.threads t).Reads size n₀ (stores es).length s.shared)
    (hp : (machine size initial Tid).Path s fs s') (hfs : ∀ e, (t, e) ∈ fs → e = .silent) :
    (s'.threads t).Reads size n₀ (stores (es ++ fs)).length s'.shared := by
  induction hp with
  | nil => rwa [List.append_nil]
  | @snoc u u' fs e hp hs ih =>
    obtain ⟨a, e⟩ := e
    have hr : (machine size initial Tid).Run (es ++ fs) u := Machine.Path.trans h hp
    have hu := ih fun e' hmem => hfs e' (List.mem_append_left _ hmem)
    rw [← List.append_assoc]
    apply (Inv.of_run hr).reads_step (waits_of_run hr) hu hs
    rintro rfl
    exact hfs e (List.mem_append_right _ (List.mem_singleton_self _))

omit [DecidableEq Tid] in
/-- The counter has come back to `seq0` only if no store went by. -/
theorem Inv.loaded (h : Inv size initial es s) {v : List UInt8} {c : Choice}
    (ht : (s.threads t).Reads size n₀ (stores es).length s.shared)
    (hfew : (stores es).length < n₀ + 2 ^ 31)
    (hn : next size s.shared (s.threads t) c = some (g, l, .loaded v)) :
    v = latest (contents size initial) es := by
  cases hla : s.threads t with
  | loading loaded seq0 rest =>
    rw [hla] at ht hn
    cases rest with
    | cons access rest => cases c <;> cases hn
    | nil =>
      cases c <;> simp only [next, reduceCtorEq] at hn
      split at hn <;> cases hn
      rename_i hpass
      obtain ⟨hfree, heq⟩ : isLocked seq0 = false ∧ seq0 = s.shared.counter := by
        simpa using hpass
      obtain ⟨m, htiles, hcopied⟩ := Snapshot.settle ht h.counter hfree heq hfew
      rw [← h.data (heq ▸ hfree)]
      exact contents_congr fun i hi => hcopied i (htiles.eq_of_nil ▸ hi)
  | idle | loadSeq0 | locking | storing =>
    rw [hla] at ht hn
    unfold next at hn
    grind

omit [DecidableEq Tid] in
theorem next_called_load {c : Choice} (hn : next size g l c = some (g', l', .called .load)) :
    ∃ loaded, l' = .loadSeq0 loaded := by
  unfold next at hn
  grind

end

section
variable {es₁ es₂ es₁' es₂' : List (Tid × Event)} {v v' : List UInt8}

omit [DecidableEq Tid] in
theorem stores_append (es fs : List (Tid × Event)) : stores (es ++ fs) = stores es ++ stores fs :=
  List.filterMap_append

omit [DecidableEq Tid] in
theorem getElem?_latest (h : es₁ <+: es) (v : List UInt8) :
    (v :: stores es)[(stores es₁).length]? = some (latest v es₁) := by
  obtain ⟨fs, rfl⟩ := h
  rw [stores_append, latest]
  induction stores es₁ using List.reverseRecOn with
  | nil => rfl
  | append_singleton vs w _ =>
    rw [List.getLastD_concat, List.length_append, List.length_singleton, List.getElem?_cons_succ]
    simp

theorem Load.latest_of_run (hl : Load es t es₁ es₂ v) (h : (machine size initial Tid).Run es s)
    (hfew : (stores es₂).length < 2 ^ 31) :
    v = latest (contents size initial) (es₁ ++ (t, .called .load) :: es₂) := by
  obtain ⟨fs, rfl⟩ := hl.within
  obtain ⟨w, hr, -⟩ := h.split
  obtain ⟨w', hr', hlast⟩ := hr.last
  rw [List.append_cons] at hr'
  obtain ⟨u, hcall, hp⟩ := hr'.split
  have hreads : (u.threads t).Reads size (stores (es₁ ++ [(t, .called .load)])).length
      (stores (es₁ ++ [(t, .called .load)])).length u.shared := by
    obtain ⟨u₀, -, hs⟩ := hcall.last
    obtain ⟨c, g, l, hn, rfl⟩ := Pool.step_iff.mp hs
    dsimp only
    rw [Function.update_self]
    obtain ⟨loaded, rfl⟩ := next_called_load hn
    exact Nat.le_refl _
  have hreads' := reads_of_path hcall hreads hp hl.silent
  obtain ⟨c, g, l, hn, rfl⟩ := Pool.step_iff.mp hlast
  rw [List.append_cons]
  refine (Inv.of_run hr').loaded hreads' ?_ hn
  rw [stores_append, List.length_append]
  omega

end

theorem atomic_register (h : (machine size initial Tid).Run es s) :
    (∀ t es₁ es₂ v, Load es t es₁ es₂ v → (stores es₂).length < 2 ^ 31 →
      ∃ es', es' <+: es₂ ∧
        v = latest (contents size initial) (es₁ ++ (t, .called .load) :: es')) ∧
    ∀ t es₁ es₂ v es₁' es₂' v', Load es t es₁ es₂ v → (stores es₂).length < 2 ^ 31 →
      Load es t es₁' es₂' v' → (stores es₂').length < 2 ^ 31 →
      es₁ ++ (t, .called .load) :: es₂ ++ [(t, .loaded v)] <+: es₁' →
      ∃ i j : ℕ, i ≤ j ∧ (contents size initial :: stores es)[i]? = some v ∧
        (contents size initial :: stores es)[j]? = some v' := by
  constructor
  · intro t es₁ es₂ v hl hfew
    exact ⟨es₂, List.prefix_rfl, hl.latest_of_run h hfew⟩
  · intro t es₁ es₂ v es₁' es₂' v' hl hfew hl' hfew' hbefore
    have hwithin : es₁ ++ (t, .called .load) :: es₂ <+: es :=
      (List.prefix_append _ _).trans hl.within
    have hwithin' : es₁' ++ (t, .called .load) :: es₂' <+: es :=
      (List.prefix_append _ _).trans hl'.within
    rw [hl.latest_of_run h hfew, hl'.latest_of_run h hfew']
    refine ⟨_, _, ?_, getElem?_latest hwithin _, getElem?_latest hwithin' _⟩
    have hle : es₁ ++ (t, .called .load) :: es₂ <+: es₁' ++ (t, .called .load) :: es₂' :=
      ((List.prefix_append _ _).trans hbefore).trans (List.prefix_append _ _)
    exact (hle.filterMap _).length_le

theorem atomic_register_retry :
    ∃ es', es' <+: [(false, .silent), (false, .silent),
        (true, .called (.store (List.replicate 9 1))), (true, .silent), (true, .silent),
        (true, .silent), (true, .silent), (true, .stored (List.replicate 9 1)), (false, .silent),
        (false, .silent), (false, .silent), (false, .silent), (false, .silent)] ∧
      List.replicate 9 1 = latest (List.replicate 9 0) ((false, .called .load) :: es') := by
  have hr : ∃ s, (machine 9 (fun _ => 0) Bool).Run ([] ++ (false, .called .load) ::
      [(false, .silent), (false, .silent), (true, .called (.store (List.replicate 9 1))),
        (true, .silent), (true, .silent), (true, .silent), (true, .silent),
        (true, .stored (List.replicate 9 1)), (false, .silent), (false, .silent),
        (false, .silent), (false, .silent), (false, .silent)] ++
      [(false, .loaded (List.replicate 9 1))]) s :=
    ⟨_, Machine.Path.of_exec ((false, .load fun _ => 7) :: List.replicate 2 (false, .step false) ++
      (true, .store fun _ => 1) :: List.replicate 5 (true, .step false) ++
      List.replicate 6 (false, .step false)) rfl⟩
  obtain ⟨s, hr⟩ := hr
  refine (atomic_register hr).1 false [] _ (List.replicate 9 1) ⟨List.prefix_rfl, ?_⟩ (by decide)
  intro e he
  simpa using he

end LockFree.SeqLockAtomic
