import Mathlib.Order.Nat
import LockFree.SeqLockViews

/-!
# What the messages of a SeqLock carry

Critical section `k + 1` of an object lies between the messages `2k + 1` and `2k + 2` of
its counter. A part that is written there knows of the first of them by the release
fence, and whoever reads the second, or a later even one, knows of the part.
-/

namespace LockFree.SeqLockViews
open SeqLock TransitionRuns ViewMemory

variable {ι δ α Tid : Type*}

def Shared.lasts (g : Shared ι δ α) : View (Location ι δ)
  | .counter i => (g.counter i).last
  | .data i d => (g.data i d).last

def sectionOf (i : ι) (m : Message α (Location ι δ)) : ℕ := (m.view (.counter i) + 1) / 2

structure Publishes (g : Shared ι δ α) (i : ι) (k : ℕ) (d : δ) (τ : ℕ) (a : α) : Prop where
  message : ∃ m, (g.data i d).message? τ = some m ∧ m.value = a ∧ sectionOf i m ≤ k
  greatest : ∀ σ m, (g.data i d).message? σ = some m → sectionOf i m ≤ k → σ ≤ τ

structure Held (g : Shared ι δ α) (v : Views (Location ι δ)) (i : ι) : Prop where
  counter : v.current (.counter i) = (g.counter i).last
  data : ∀ d, v.current (.data i d) = (g.data i d).last

structure Counting (c : Cell ℕ (Location ι δ)) (n : ℕ) : Prop where
  half : c.last / 2 = n
  value : ∀ t m, c.message? t = some m → m.value = t % counterSize
  update : ∀ t m, c.message? t = some m → t % 2 = 1 → m.update = true

section
variable {g g' : Shared ι δ α} {i : ι} {d : δ} {k τ n : ℕ} {a : α} {c : Cell ℕ (Location ι δ)}
  {m : Message ℕ (Location ι δ)} {v : Views (Location ι δ)}

theorem Counting.push (h : Counting c n) {n' : ℕ} (hn : (c.last + 1) / 2 = n')
    (hval : m.value = (c.last + 1) % counterSize)
    (hupd : (c.last + 1) % 2 = 1 → m.update = true) : Counting (c.push m) n' where
  half := by rwa [Cell.last_push]
  value t m' hm := by
    rcases Cell.message_push_eq hm with ⟨-, hm⟩ | ⟨rfl, rfl⟩
    · exact h.value t m' hm
    · exact hval
  update t m' hm ht := by
    rcases Cell.message_push_eq hm with ⟨-, hm⟩ | ⟨rfl, rfl⟩
    · exact h.update t m' hm ht
    · exact hupd ht

theorem Publishes.congr (h : Publishes g i k d τ a) (hg : g'.data i d = g.data i d) :
    Publishes g' i k d τ a := by
  constructor
  · rw [hg]
    exact h.message
  · rw [hg]
    exact h.greatest

theorem publishes_last (hw : (g.data i d).Within g.lasts)
    (hn : ((g.counter i).last + 1) / 2 ≤ k) :
    Publishes g i k d (g.data i d).last (g.data i d).latest where
  message := by
    refine ⟨_, Cell.message_last _, rfl, ?_⟩
    have hle := hw _ _ (Cell.message_last _) (.counter i)
    exact le_trans (Nat.div_le_div_right (Nat.succ_le_succ hle)) hn
  greatest σ m hm _ := Cell.le_last hm

theorem Held.congr (h : Held g v i) (hc : g'.counter i = g.counter i)
    (hd : g'.data i = g.data i) : Held g' v i where
  counter := by rw [hc, h.counter]
  data d := by rw [hd, h.data d]

end

variable [DecidableEq ι]

section
variable {g : Shared ι δ α} {i j : ι} {c : Cell ℕ (Location ι δ)}

@[simp] theorem setCounter_counter : (g.setCounter i c).counter i = c := Function.update_self ..

theorem setCounter_counter_of_ne (h : j ≠ i) : (g.setCounter i c).counter j = g.counter j :=
  Function.update_of_ne h ..

@[simp] theorem setCounter_data : (g.setCounter i c).data = g.data := rfl

end

variable [DecidableEq δ]

section
variable {g : Shared ι δ α} {i j : ι} {d d' : δ} {c : Cell α (Location ι δ)} {k τ : ℕ} {a : α}
  {m : Message α (Location ι δ)}

@[simp] theorem setData_counter : (g.setData i d c).counter = g.counter := rfl

@[simp] theorem setData_data : (g.setData i d c).data i d = c := by
  simp [Shared.setData]

theorem setData_data_of_ne (h : d' ≠ d) : (g.setData i d c).data i d' = g.data i d' := by
  simp [Shared.setData, h]

theorem setData_data_other (h : j ≠ i) : (g.setData i d c).data j = g.data j := by
  simp [Shared.setData, h]

theorem lasts_setCounter (g : Shared ι δ α) (i : ι) (m : Message ℕ (Location ι δ)) :
    (g.setCounter i ((g.counter i).push m)).lasts =
      Function.update g.lasts (.counter i) ((g.counter i).last + 1) := by
  funext ℓ
  cases ℓ with
  | counter j =>
    by_cases hj : j = i
    · subst hj
      simp [Shared.lasts]
    · simp [Shared.lasts, setCounter_counter_of_ne hj, hj]
  | data j d => simp [Shared.lasts]

theorem lasts_le_setCounter (g : Shared ι δ α) (i : ι) (m : Message ℕ (Location ι δ)) :
    g.lasts ≤ (g.setCounter i ((g.counter i).push m)).lasts := by
  rw [lasts_setCounter]
  exact le_update_self_iff.mpr (Nat.le_succ _)

theorem lasts_setData (g : Shared ι δ α) (i : ι) (d : δ) (m : Message α (Location ι δ)) :
    (g.setData i d ((g.data i d).push m)).lasts =
      Function.update g.lasts (.data i d) ((g.data i d).last + 1) := by
  funext ℓ
  cases ℓ with
  | counter j => simp [Shared.lasts]
  | data j d' =>
    by_cases hj : j = i
    · subst hj
      by_cases hd : d' = d
      · subst hd
        simp [Shared.lasts]
      · simp [Shared.lasts, setData_data_of_ne hd, hd]
    · simp [Shared.lasts, setData_data_other hj, hj]

theorem lasts_le_setData (g : Shared ι δ α) (i : ι) (d : δ) (m : Message α (Location ι δ)) :
    g.lasts ≤ (g.setData i d ((g.data i d).push m)).lasts := by
  rw [lasts_setData]
  exact le_update_self_iff.mpr (Nat.le_succ _)

theorem Publishes.push (h : Publishes g i k d' τ a) (hm : k < sectionOf i m) :
    Publishes (g.setData i d ((g.data i d).push m)) i k d' τ a := by
  by_cases hd : d' = d
  · subst hd
    constructor
    · obtain ⟨m₀, hm₀, hval, hsec⟩ := h.message
      refine ⟨m₀, ?_, hval, hsec⟩
      rw [setData_data, Cell.message_push (Cell.le_last hm₀)]
      exact hm₀
    · intro σ m₁ hm₁ hsec
      rw [setData_data] at hm₁
      rcases Cell.message_push_eq hm₁ with ⟨-, hm₁⟩ | ⟨rfl, rfl⟩
      · exact h.greatest σ m₁ hm₁ hsec
      · omega
  · exact h.congr (setData_data_of_ne hd)

end

def Local.holds (i : ι) : Local ι δ α → Bool
  | .fencing j _ _ | .storing j _ _ _ => j = i
  | _ => false

def Thread.Ok (data : ι → δ → α) (l : Ledger ι δ α Tid) (g : Shared ι δ α) (x : Thread ι δ α) :
    Prop :=
  match x.pc with
  | .idle | .loadSeq0 _ _ => True
  | .reading i _ _ t₀ _ | .loadSeq1 i _ _ t₀ _ => t₀ ≤ x.views.current (.counter i)
  | .locking _ _ p => p.Waits
  | .fencing i _ seq =>
    Held g x.views i ∧ seq = 2 * (l.stores i).length % counterSize ∧
      ∀ d, (g.data i d).latest = l.contents data i (l.stores i).length d
  | .storing i writes seq rest =>
    Held g x.views i ∧ seq = 2 * (l.stores i).length % counterSize ∧
      x.views.released (.counter i) = (g.counter i).last ∧
      ∃ done, writes = done ++ rest ∧
        ∀ d, (g.data i d).latest =
          done.foldl apply (l.contents data i (l.stores i).length) d

section
variable [DecidableEq Tid] {l : Ledger ι δ α Tid} {data : ι → δ → α} {a : Tid} {i j : ι}
  {writes : List (δ × α)} {k : ℕ}

omit [DecidableEq δ] in
theorem stores_stored : (l.step (a, .stored i writes)).stores i = l.stores i ++ [writes] :=
  Function.update_self ..

omit [DecidableEq δ] in
theorem stores_stored_of_ne (h : j ≠ i) :
    (l.step (a, .stored i writes)).stores j = l.stores j :=
  Function.update_of_ne h ..

theorem contents_stored_of_ne (h : j ≠ i) :
    (l.step (a, .stored i writes)).contents data j k = l.contents data j k := by
  rw [Ledger.contents, Ledger.contents, stores_stored_of_ne h]

theorem contents_stored (h : k ≤ (l.stores i).length) :
    (l.step (a, .stored i writes)).contents data i k = l.contents data i k := by
  rw [Ledger.contents, Ledger.contents, stores_stored, List.take_append_of_le_length h]

theorem contents_stored_last :
    (l.step (a, .stored i writes)).contents data i ((l.stores i).length + 1) =
      writes.foldl apply (l.contents data i (l.stores i).length) := by
  rw [Ledger.contents, Ledger.contents, stores_stored, List.take_of_length_le (by simp),
    List.flatten_append, List.foldl_append, List.take_length]
  simp

end

structure Object (data : ι → δ → α) (l : Ledger ι δ α Tid)
    (s : Pool Tid (Shared ι δ α) (Thread ι δ α)) (i : ι) : Prop where
  counting : Counting (s.shared.counter i) (l.stores i).length
  exclusive : Pool.Exclusive (fun x : Thread ι δ α => x.pc.holds i)
    (decide ((s.shared.counter i).last % 2 = 1)) s.threads
  published : ∀ k, k ≤ (l.stores i).length → ∀ d, ∃ τ,
    Publishes s.shared i k d τ (l.contents data i k d) ∧
      ∀ t m, (s.shared.counter i).message? t = some m → t % 2 = 0 → 2 * k ≤ t →
        τ ≤ m.view (.data i d)
  free : (s.shared.counter i).last % 2 = 0 → ∀ d,
    (s.shared.counter i).lastMessage.view (.data i d) = (s.shared.data i d).last ∧
      (s.shared.data i d).latest = l.contents data i (l.stores i).length d

structure Inv (data : ι → δ → α) (l : Ledger ι δ α Tid)
    (s : Pool Tid (Shared ι δ α) (Thread ι δ α)) : Prop where
  counter_within : ∀ i, (s.shared.counter i).Within s.shared.lasts
  data_within : ∀ i d, (s.shared.data i d).Within s.shared.lasts
  views_within : ∀ a, (s.threads a).views.Within s.shared.lasts
  objects : ∀ i, Object data l s i
  threads : ∀ a, (s.threads a).Ok data l s.shared
  known : ∀ a i, 2 * l.known a i ≤ (s.threads a).views.current (.counter i)

section
variable {data : ι → δ → α} {l : Ledger ι δ α Tid}
  {s : Pool Tid (Shared ι δ α) (Thread ι δ α)}

theorem Inv.counting (h : Inv data l s) (i : ι) :
    Counting (s.shared.counter i) (l.stores i).length :=
  (h.objects i).counting

theorem Inv.exclusive (h : Inv data l s) (i : ι) :
    Pool.Exclusive (fun x : Thread ι δ α => x.pc.holds i)
      (decide ((s.shared.counter i).last % 2 = 1)) s.threads :=
  (h.objects i).exclusive

theorem Inv.free (h : Inv data l s) (i : ι) (hfree : (s.shared.counter i).last % 2 = 0) (d : δ) :
    (s.shared.counter i).lastMessage.view (.data i d) = (s.shared.data i d).last ∧
      (s.shared.data i d).latest = l.contents data i (l.stores i).length d :=
  (h.objects i).free hfree d

end

section
variable {data : ι → δ → α} {l l' : Ledger ι δ α Tid} {g g' : Shared ι δ α} {x : Thread ι δ α}

theorem Thread.Ok.congr (h : x.Ok data l g)
    (hx : ∀ i, x.pc.holds i = true →
      l'.stores i = l.stores i ∧ g'.counter i = g.counter i ∧ g'.data i = g.data i) :
    x.Ok data l' g' := by
  obtain ⟨pc, v⟩ := x
  cases pc with
  | fencing i writes seq =>
    obtain ⟨hl, hc, hd⟩ := hx i (by simp [Local.holds])
    obtain ⟨hheld, hseq, hlatest⟩ := h
    refine ⟨hheld.congr hc hd, by rw [hl, hseq], fun d => ?_⟩
    rw [hd, hlatest, Ledger.contents, Ledger.contents, hl]
  | storing i writes seq rest =>
    obtain ⟨hl, hc, hd⟩ := hx i (by simp [Local.holds])
    obtain ⟨hheld, hseq, hreleased, done, hdone, hlatest⟩ := h
    refine ⟨hheld.congr hc hd, by rw [hl, hseq], by rw [hc, ← hreleased], done, hdone,
      fun d => ?_⟩
    rw [hd, hlatest, Ledger.contents, Ledger.contents, hl]
  | _ => exact h

end

section
variable [DecidableEq Tid] {data : ι → δ → α} {l l' : Ledger ι δ α Tid}
  {s : Pool Tid (Shared ι δ α) (Thread ι δ α)} {a : Tid} {x : Thread ι δ α} {i : ι}

theorem Object.congr {g' : Shared ι δ α} (h : Object data l s i)
    (hc : g'.counter i = s.shared.counter i) (hd : g'.data i = s.shared.data i)
    (hl : l'.stores i = l.stores i) (hx : x.pc.holds i = (s.threads a).pc.holds i) :
    Object data l' ⟨g', Function.update s.threads a x⟩ i where
  counting := by
    rw [hc, hl]
    exact h.counting
  exclusive := by
    rw [hc]
    exact h.exclusive.keep hx
  published k hk d := by
    rw [hl] at hk
    obtain ⟨τ, hτ, hm⟩ := h.published k hk d
    rw [Ledger.contents, hl, hc]
    exact ⟨τ, hτ.congr (congrFun hd d), hm⟩
  free hfree d := by
    dsimp only at hfree ⊢
    rw [hc] at hfree ⊢
    rw [hd, Ledger.contents, hl]
    exact h.free hfree d

/-- A step of one thread that touches nothing but one object. -/
theorem Inv.frame (h : Inv data l s) {g' : Shared ι δ α} (hb : s.shared.lasts ≤ g'.lasts)
    (hother : ∀ j, j ≠ i → g'.counter j = s.shared.counter j ∧ g'.data j = s.shared.data j ∧
      l'.stores j = l.stores j ∧ x.pc.holds j = (s.threads a).pc.holds j)
    (hcounter : (g'.counter i).Within g'.lasts) (hdata : ∀ d, (g'.data i d).Within g'.lasts)
    (hviews : x.views.Within g'.lasts)
    (hi : Object data l' ⟨g', Function.update s.threads a x⟩ i)
    (hrest : ∀ b, b ≠ a → (s.threads b).pc.holds i = false) (hok : x.Ok data l' g')
    (hknown : ∀ j, 2 * l'.known a j ≤ x.views.current (.counter j))
    (hothers : ∀ b, b ≠ a → l'.known b = l.known b) :
    Inv data l' ⟨g', Function.update s.threads a x⟩ where
  counter_within j := by
    by_cases hj : j = i
    · exact hj ▸ hcounter
    · dsimp only
      rw [(hother j hj).1]
      exact (h.counter_within j).mono hb
  data_within j d := by
    by_cases hj : j = i
    · exact hj ▸ hdata d
    · dsimp only
      rw [(hother j hj).2.1]
      exact (h.data_within j d).mono hb
  views_within := by
    let P : Thread ι δ α → Prop := fun y => y.views.Within s.shared.lasts
    let Q : Thread ι δ α → Prop := fun y => y.views.Within g'.lasts
    exact Pool.forall_update (P := P) (Q := Q) h.views_within hviews fun _ _ hu => hu.mono hb
  objects j := by
    by_cases hj : j = i
    · exact hj ▸ hi
    · obtain ⟨hc, hd, hl, hx⟩ := hother j hj
      exact (h.objects j).congr hc hd hl hx
  threads := by
    refine Pool.forall_update h.threads hok fun u hu hok => hok.congr fun j hj => ?_
    -- nobody else holds the object
    have hji : j ≠ i := by
      rintro rfl
      rw [hrest u hu] at hj
      cases hj
    obtain ⟨hc, hd, hl, -⟩ := hother j hji
    exact ⟨hl, hc, hd⟩
  known b j := by
    by_cases hb : b = a
    · subst hb
      simpa using hknown j
    · simpa [hb, hothers b hb] using h.known b j

theorem Inv.quiet (h : Inv data l s) (hstores : l'.stores = l.stores)
    (hw : x.views.Within s.shared.lasts)
    (hholds : ∀ i, x.pc.holds i = (s.threads a).pc.holds i) (hok : x.Ok data l s.shared)
    (hknown : ∀ i, 2 * l'.known a i ≤ x.views.current (.counter i))
    (hothers : ∀ b, b ≠ a → l'.known b = l.known b) :
    Inv data l' ⟨s.shared, Function.update s.threads a x⟩ where
  counter_within := h.counter_within
  data_within := h.data_within
  views_within := by
    let P : Thread ι δ α → Prop := fun y => y.views.Within s.shared.lasts
    exact Pool.forall_update (P := P) (Q := P) h.views_within hw fun _ _ hu => hu
  objects i := (h.objects i).congr rfl rfl (congrFun hstores i) (hholds i)
  threads := by
    have hok' : x.Ok data l' s.shared := hok.congr fun i _ => ⟨congrFun hstores i, rfl, rfl⟩
    refine Pool.forall_update h.threads hok' fun u _ hu => ?_
    exact hu.congr fun i _ => ⟨congrFun hstores i, rfl, rfl⟩
  known b i := by
    by_cases hb : b = a
    · subst hb
      simpa using hknown i
    · simpa [hb, hothers b hb] using h.known b i

theorem Object.exchange (h : Object data l s i) {m : Message ℕ (Location ι δ)}
    (hfree : (s.shared.counter i).last % 2 = 0)
    (hval : m.value = ((s.shared.counter i).last + 1) % counterSize) (hupd : m.update = true)
    (hx : x.pc.holds i = true) :
    Object data l ⟨s.shared.setCounter i ((s.shared.counter i).push m),
      Function.update s.threads a x⟩ i where
  counting := by
    have := h.counting.half
    rw [setCounter_counter]
    exact h.counting.push (by omega) hval fun _ => hupd
  exclusive := by
    have hex := h.exclusive
    rw [decide_eq_false (by omega)] at hex
    rw [setCounter_counter, Cell.last_push, decide_eq_true (by omega)]
    exact hex.acquire hx
  published k hk d := by
    obtain ⟨τ, hτ, hm⟩ := h.published k hk d
    refine ⟨τ, hτ.congr rfl, fun t m ht heven hkt => ?_⟩
    rw [setCounter_counter] at ht
    rcases Cell.message_push_eq ht with ⟨-, ht⟩ | ⟨rfl, -⟩
    · exact hm t m ht heven hkt
    · omega
  free hfree' d := by
    rw [setCounter_counter, Cell.last_push] at hfree'
    omega

theorem Inv.exchange (h : Inv data l s) {writes : List (δ × α)}
    (hx : ∀ j, (s.threads a).pc.holds j = false)
    (hfree : (s.shared.counter i).last % 2 = 0) :
    let c := (s.shared.counter i).exchange (.counter i) (s.threads a).views
      (((s.shared.counter i).last + 1) % counterSize) .acquire
    Inv data l ⟨s.shared.setCounter i c.1, Function.update s.threads a
      ⟨.fencing i writes ((s.shared.counter i).last % counterSize), c.2⟩⟩ := by
  intro c
  have hb : s.shared.lasts ≤ (s.shared.setCounter i c.1).lasts := lasts_le_setCounter _ _ _
  have hlast : (s.shared.setCounter i c.1).lasts (.counter i) = (s.shared.counter i).last + 1 :=
    (congrFun (lasts_setCounter ..) _).trans (Function.update_self ..)
  obtain ⟨hcell, hviews⟩ : c.1.Within (s.shared.setCounter i c.1).lasts ∧
      c.2.Within (s.shared.setCounter i c.1).lasts :=
    Cell.Within.exchange _ _ _ ((h.counter_within i).mono hb) hlast.ge ((h.views_within a).mono hb)
  have hheld : Held (s.shared.setCounter i c.1) c.2 i := by
    constructor
    · exact le_antisymm (hviews.current _) (hlast.trans_le Cell.succ_last_le_exchange)
    · intro d
      apply le_antisymm (hviews.current _)
      calc (s.shared.setCounter i c.1).lasts (.data i d)
          = (s.shared.counter i).lastMessage.view (.data i d) := (h.free i hfree d).1.symm
        _ ≤ c.2.current (.data i d) := Cell.view_le_exchange rfl _
  have hknown : ∀ j, 2 * l.known a j ≤ c.2.current (.counter j) := fun j =>
    (h.known a j).trans (Cell.exchange_le _)
  refine h.frame (i := i) hb (fun j hj => ⟨setCounter_counter_of_ne hj, rfl, rfl, ?_⟩)
    (setCounter_counter (g := s.shared) ▸ hcell) (fun d => (h.data_within i d).mono hb) hviews
    ((h.objects i).exchange hfree rfl rfl (by simp [Local.holds])) (fun b _ => ?_)
    ⟨hheld, ?_, fun d => (h.free i hfree d).2⟩ hknown fun _ _ => rfl
  · rw [hx j]
    simpa [Local.holds] using Ne.symm hj
  · by_contra hne
    have hlocked := (h.exclusive i).locked_iff.mpr ⟨b, by simpa using hne⟩
    rw [decide_eq_true_iff] at hlocked
    omega
  · have := (h.counting i).half
    congr 1
    omega

omit [DecidableEq Tid] in
theorem Inv.last_of_holds (h : Inv data l s) (ha : (s.threads a).pc.holds i = true) :
    (s.shared.counter i).last = 2 * (l.stores i).length + 1 := by
  have hlocked := (h.exclusive i).locked_iff.mpr ⟨a, ha⟩
  rw [decide_eq_true_iff] at hlocked
  have := (h.counting i).half
  omega

omit [DecidableEq Tid] in
theorem Inv.lt_sectionOf (h : Inv data l s) {writes rest : List (δ × α)} {seq t : ℕ} {d : δ} {y : α}
    (hp : (s.threads a).pc = .storing i writes seq rest) :
    (l.stores i).length < sectionOf i ⟨y, ((s.threads a).views.write (.data i d) t).attached
      (.data i d) t .relaxed, false⟩ := by
  have hlast := h.last_of_holds (a := a) (i := i) (by simp [hp, Local.holds])
  have hok := h.threads a
  simp only [Thread.Ok, hp] at hok
  have hle : (s.threads a).views.released (.counter i) ≤
      ((s.threads a).views.released ⊔ seen (.data i d) t) (.counter i) := le_sup_left
  rw [hok.2.2.1, hlast] at hle
  exact Nat.lt_of_lt_of_le (by omega) (Nat.div_le_div_right (Nat.succ_le_succ hle))

theorem Object.write (h : Object data l s i) {d : δ} {m : Message α (Location ι δ)}
    (hlocked : (s.shared.counter i).last % 2 = 1) (hm : (l.stores i).length < sectionOf i m)
    (hx : x.pc.holds i = (s.threads a).pc.holds i) :
    Object data l ⟨s.shared.setData i d ((s.shared.data i d).push m),
      Function.update s.threads a x⟩ i where
  counting := h.counting
  exclusive := h.exclusive.keep hx
  published k hk d' := by
    obtain ⟨τ, hτ, ht⟩ := h.published k hk d'
    exact ⟨τ, hτ.push (hk.trans_lt hm), ht⟩
  free hfree d' := by
    rw [setData_counter] at hfree
    omega

/-- A part is written by the only thread that may write it, and after all others. -/
theorem Inv.write (h : Inv data l s) {writes rest : List (δ × α)} {seq : ℕ} {d : δ} {y : α}
    (hp : (s.threads a).pc = .storing i writes seq ((d, y) :: rest)) :
    let c := (s.shared.data i d).store (.data i d) (s.threads a).views y .relaxed
    (s.threads a).views.current (.data i d) = (s.shared.data i d).last ∧
      Inv data l ⟨s.shared.setData i d c.1, Function.update s.threads a
        ⟨.storing i writes seq rest, c.2⟩⟩ := by
  intro c
  have hholds : (s.threads a).pc.holds i = true := by simp [hp, Local.holds]
  have hlast := h.last_of_holds hholds
  have hok := h.threads a
  simp only [Thread.Ok, hp] at hok
  obtain ⟨hheld, hseq, hreleased, done, rfl, hlatest⟩ := hok
  refine ⟨hheld.data d, ?_⟩
  have hb : s.shared.lasts ≤ (s.shared.setData i d c.1).lasts := lasts_le_setData _ _ _ _
  have hnew : (s.shared.setData i d c.1).lasts (.data i d) = (s.shared.data i d).last + 1 :=
    (congrFun (lasts_setData ..) _).trans (Function.update_self ..)
  obtain ⟨hcell, hviews⟩ : c.1.Within (s.shared.setData i d c.1).lasts ∧
      c.2.Within (s.shared.setData i d c.1).lasts :=
    Cell.Within.store _ _ _ ((h.data_within i d).mono hb) hnew.ge ((h.views_within a).mono hb)
  have hcurrent : ∀ ℓ, ℓ ≠ .data i d → c.2.current ℓ = (s.threads a).views.current ℓ :=
    fun ℓ hℓ => Views.write_of_ne hℓ
  have hok : Thread.Ok data l (s.shared.setData i d c.1)
      ⟨.storing i (done ++ (d, y) :: rest) seq rest, c.2⟩ := by
    refine ⟨⟨?_, fun d' => ?_⟩, hseq, hreleased, done ++ [(d, y)], by simp, fun d' => ?_⟩
    · exact (hcurrent _ (by simp)).trans hheld.counter
    · by_cases hd : d' = d
      · subst hd
        rw [setData_data]
        apply le_antisymm ((hviews.current _).trans_eq ?_)
        · exact Cell.last_push.trans_le Cell.succ_last_le_store
        · exact hnew.trans Cell.last_push.symm
      · rw [setData_data_of_ne hd, hcurrent _ (by simpa using hd)]
        exact hheld.data d'
    · rw [List.foldl_concat]
      by_cases hd : d' = d
      · subst hd
        rw [setData_data]
        have hy : apply (done.foldl apply (l.contents data i (l.stores i).length)) (d', y) d' = y :=
          Function.update_self ..
        exact Cell.latest_push.trans hy.symm
      · rw [setData_data_of_ne hd, hlatest d']
        exact (Function.update_of_ne hd ..).symm
  have hknown : ∀ j, 2 * l.known a j ≤ c.2.current (.counter j) := fun j =>
    (h.known a j).trans (Cell.store_le _)
  refine h.frame (i := i) hb
    (fun j hj => ⟨rfl, setData_data_other hj, rfl, by rw [hp]; rfl⟩)
    ((h.counter_within i).mono hb) (fun d' => ?_) hviews
    ((h.objects i).write (by omega) (h.lt_sectionOf hp) (by rw [hp]; rfl))
    (fun b hba => ?_) hok hknown fun _ _ => rfl
  · by_cases hd : d' = d
    · subst hd
      rw [setData_data]
      exact hcell
    · rw [setData_data_of_ne hd]
      exact (h.data_within i d').mono hb
  · by_contra hne
    exact hba ((h.exclusive i).holder_unique b a (by simpa using hne) hholds)

theorem Object.unlock (h : Object data l s i) {writes : List (δ × α)}
    {m : Message ℕ (Location ι δ)}
    (hlast : (s.shared.counter i).last = 2 * (l.stores i).length + 1)
    (hval : m.value = ((s.shared.counter i).last + 1) % counterSize)
    (hview : ∀ d, m.view (.data i d) = (s.shared.data i d).last)
    (hlatest : ∀ d, (s.shared.data i d).latest =
      writes.foldl apply (l.contents data i (l.stores i).length) d)
    (hwithin : ∀ d, (s.shared.data i d).Within s.shared.lasts)
    (ha : (s.threads a).pc.holds i = true) (hx : x.pc.holds i = false) :
    Object data (l.step (a, .stored i writes)) ⟨s.shared.setCounter i ((s.shared.counter i).push m),
      Function.update s.threads a x⟩ i where
  counting := by
    rw [setCounter_counter, stores_stored, List.length_append, List.length_singleton]
    exact h.counting.push (by omega) hval (by omega)
  exclusive := by
    rw [setCounter_counter, Cell.last_push, decide_eq_false (by omega)]
    exact h.exclusive.release ha hx
  published k hk d := by
    rw [stores_stored, List.length_append, List.length_singleton] at hk
    rw [setCounter_counter]
    rcases Nat.lt_or_ge (l.stores i).length k with hlt | hge
    · obtain rfl : k = (l.stores i).length + 1 := by omega
      rw [contents_stored_last, ← hlatest d]
      refine ⟨(s.shared.data i d).last, ?_, fun t m ht _ hkt => ?_⟩
      · exact (publishes_last (hwithin d) (by omega)).congr rfl
      · rcases Cell.message_push_eq ht with ⟨hle, -⟩ | ⟨rfl, rfl⟩
        · omega
        · exact (hview d).ge
    · rw [contents_stored hge]
      obtain ⟨τ, hτ, hm⟩ := h.published k hge d
      refine ⟨τ, hτ.congr rfl, fun t m ht heven hkt => ?_⟩
      rcases Cell.message_push_eq ht with ⟨-, ht⟩ | ⟨rfl, rfl⟩
      · exact hm t m ht heven hkt
      · obtain ⟨m, hm, -⟩ := hτ.message
        exact (Cell.le_last hm).trans (hview d).ge
  free _ d := by
    rw [setCounter_counter, stores_stored, List.length_append, List.length_singleton,
      contents_stored_last]
    exact ⟨(congrFun (congrArg Message.view Cell.lastMessage_push) _).trans (hview d), hlatest d⟩

/-- The store of the counter publishes all parts. -/
theorem Inv.unlock (h : Inv data l s) {writes : List (δ × α)} {seq : ℕ}
    (hp : (s.threads a).pc = .storing i writes seq []) :
    let c := (s.shared.counter i).store (.counter i) (s.threads a).views (unlock seq) .release
    (s.threads a).views.current (.counter i) = (s.shared.counter i).last ∧
      Inv data (l.step (a, .stored i writes)) ⟨s.shared.setCounter i c.1,
        Function.update s.threads a ⟨.idle, c.2⟩⟩ := by
  intro c
  have hholds : (s.threads a).pc.holds i = true := by simp [hp, Local.holds]
  have hlast := h.last_of_holds hholds
  have hok := h.threads a
  simp only [Thread.Ok, hp] at hok
  obtain ⟨hheld, rfl, -, done, hdone, hlatest⟩ := hok
  obtain rfl : writes = done := by simpa using hdone
  refine ⟨hheld.counter, ?_⟩
  have hb : s.shared.lasts ≤ (s.shared.setCounter i c.1).lasts := lasts_le_setCounter _ _ _
  have hnew : (s.shared.setCounter i c.1).lasts (.counter i) = (s.shared.counter i).last + 1 :=
    (congrFun (lasts_setCounter ..) _).trans (Function.update_self ..)
  obtain ⟨hcell, hviews⟩ : c.1.Within (s.shared.setCounter i c.1).lasts ∧
      c.2.Within (s.shared.setCounter i c.1).lasts :=
    Cell.Within.store _ _ _ ((h.counter_within i).mono hb) hnew.ge ((h.views_within a).mono hb)
  -- a release store attaches the whole view of its thread
  have hattached : ∀ d, c.2.current (.data i d) = (s.shared.data i d).last := fun d =>
    (Views.write_of_ne (by simp)).trans (hheld.data d)
  refine h.frame (i := i) hb
    (fun j hj => ⟨setCounter_counter_of_ne hj, rfl, stores_stored_of_ne hj, ?_⟩)
    (setCounter_counter (g := s.shared) ▸ hcell) (fun d => (h.data_within i d).mono hb) hviews
    ((h.objects i).unlock hlast ?_ hattached hlatest (h.data_within i) hholds rfl)
    (fun b hba => ?_) trivial (fun j => ?_) fun b hba => by simp [Ledger.step, Ledger.learn, hba]
  · rw [hp]
    simpa [Local.holds] using Ne.symm hj
  · rw [hlast]
    exact unlock_eq _
  · by_contra hne
    exact hba ((h.exclusive i).holder_unique b a (by simpa using hne) hholds)
  · have hknown : (l.step (a, .stored i writes)).known a j =
        l.known a j ⊔ seen i ((l.stores i).length + 1) j := by
      simp [Ledger.step, Ledger.learn]
    have hold : 2 * l.known a j ≤ c.2.current (.counter j) :=
      (h.known a j).trans (Cell.store_le _)
    have hseen : 2 * seen i ((l.stores i).length + 1) j ≤ c.2.current (.counter j) := by
      by_cases hj : j = i
      · subst hj
        rw [seen_self]
        have : (s.shared.counter j).last + 1 ≤ c.2.current (.counter j) :=
          Cell.succ_last_le_store
        omega
      · rw [seen_of_ne hj]
        exact Nat.zero_le _
    rw [hknown]
    rcases le_total (l.known a j) (seen i ((l.stores i).length + 1) j) with hle | hle
    · rwa [sup_of_le_right hle]
    · rwa [sup_of_le_left hle]

theorem Inv.start (data : ι → δ → α) : Inv data .start (machine data Tid).start where
  counter_within _ := .empty _
  data_within _ _ := .empty _
  views_within _ := .start
  objects i := by
    refine ⟨⟨Nat.zero_div 2, fun t m hm => ?_, fun t m hm ht => ?_⟩,
      Pool.Exclusive.unlocked fun _ => rfl, fun k hk d => ?_, fun _ d => ⟨rfl, rfl⟩⟩
    · cases t with
      | zero =>
        cases hm
        rfl
      | succ t => cases hm
    · cases t with
      | zero => cases ht
      | succ t => cases hm
    · obtain rfl : k = 0 := Nat.le_zero.mp hk
      refine ⟨0, ⟨⟨_, rfl, rfl, ?_⟩, fun σ m hm _ => ?_⟩, fun t m _ _ _ => Nat.zero_le _⟩
      · simp [sectionOf]
      · exact Cell.le_last hm
  threads _ := trivial
  known _ _ := Nat.zero_le _

theorem Inv.silent (h : Inv data l s) (hw : x.views.Within s.shared.lasts)
    (hv : (s.threads a).views.current ≤ x.views.current)
    (hholds : ∀ i, x.pc.holds i = (s.threads a).pc.holds i) (hok : x.Ok data l s.shared) :
    Inv data l ⟨s.shared, Function.update s.threads a x⟩ :=
  h.quiet rfl hw hholds hok (fun i => (h.known a i).trans (hv _)) fun _ _ => rfl

theorem Inv.lockNext (h : Inv data l s) {writes : List (δ × α)} {p : Locking}
    (hp : (s.threads a).pc = .locking i writes p) {t : ℕ} {spurious : Bool}
    {g : Shared ι δ α} {e : Event ι δ α Tid}
    (hn : lockNext s.shared (s.threads a).views i writes p t spurious = some (g, x, e)) :
    e = .silent ∧ Inv data l ⟨g, Function.update s.threads a x⟩ := by
  have hwaits : p.Waits := by
    have := h.threads a
    simpa only [Thread.Ok, hp] using this
  have hholds : ∀ j, (s.threads a).pc.holds j = false := by simp [hp, Local.holds]
  rw [SeqLockViews.lockNext] at hn
  split at hn
  · cases hn
  · rename_i y v hl
    obtain ⟨m, hm, -, rfl, -⟩ := Cell.load_eq_some hl
    have hval := (h.counting i).value t m hm
    rcases lock_cases m.value spurious hwaits with heq | ⟨hfree, heq⟩
    · rw [heq] at hn
      have hwaits' := Locking.waits_read m.value
      split at hn
      · rename_i x' seq hlock
        rw [(Prod.mk.inj hlock).2] at hwaits'
        rcases hwaits' with hw | ⟨seq, hw, -⟩ <;> cases hw
      · rename_i x' p' _ hlock
        obtain ⟨-, rfl⟩ := Prod.mk.inj hlock
        cases hn
        exact ⟨rfl, h.silent ((h.counter_within i).load le_rfl (h.views_within a) hl)
          (Cell.load_le hl) (fun j => (hholds j).symm ▸ rfl) hwaits'⟩
    · rw [heq] at hn
      have heven : t % 2 = 0 := by
        rw [isLocked_false, hval, counterSize] at hfree
        omega
      simp only at hn
      split at hn
      · rename_i hlast
        subst hlast
        cases hn
        have hmod : (m.value + 1) % counterSize =
            ((s.shared.counter i).last + 1) % counterSize := by
          rw [hval, Nat.mod_add_mod]
        rw [hmod, hval]
        exact ⟨rfl, h.exchange hholds heven⟩
      · rename_i hlast
        -- the message after an even one is an exchange
        have hlt : t + 1 ≤ (s.shared.counter i).last :=
          Nat.lt_of_le_of_ne (Cell.le_last hm) hlast
        obtain ⟨m', hm'⟩ := Cell.exists_message hlt
        have hupdate := (h.counting i).update (t + 1) m' hm' (by omega)
        simp [hm', hupdate] at hn

theorem Inv.loaded (h : Inv data l s) {plan : Plan δ α} {t₀ t₁ : ℕ} {got : List α}
    (hw : x.views.Within s.shared.lasts) (hv : (s.threads a).views.current ≤ x.views.current)
    (hholds : ∀ i, x.pc.holds i = (s.threads a).pc.holds i) (hok : x.Ok data l s.shared)
    (ht₀ : t₀ ≤ x.views.current (.counter i)) :
    Inv data (l.step (a, .loaded i plan t₀ t₁ got))
      ⟨s.shared, Function.update s.threads a x⟩ := by
  refine h.quiet rfl hw hholds hok (fun j => ?_) fun b hb => ?_
  · have hknown : (l.step (a, .loaded i plan t₀ t₁ got)).known a j =
        l.known a j ⊔ seen i (t₀ / 2) j := by
      simp [Ledger.step, Ledger.learn]
    have hold := (h.known a j).trans (hv _)
    have hnew : 2 * seen i (t₀ / 2) j ≤ x.views.current (.counter j) := by
      by_cases hj : j = i
      · subst hj
        rw [seen_self]
        omega
      · rw [seen_of_ne hj]
        exact Nat.zero_le _
    rw [hknown]
    rcases le_total (l.known a j) (seen i (t₀ / 2) j) with hle | hle
    · rwa [sup_of_le_right hle]
    · rwa [sup_of_le_left hle]
  · simp [Ledger.step, Ledger.learn, hb]

theorem Inv.threadNext (h : Inv data l s) {t : ℕ} {spurious : Bool} {g : Shared ι δ α}
    {e : Event ι δ α Tid} (hn : threadNext s.shared (s.threads a) t spurious = some (g, x, e)) :
    e ≠ .unordered ∧ Inv data (l.step (a, e)) ⟨g, Function.update s.threads a x⟩ := by
  have hok := h.threads a
  have hholds : ∀ {y : Thread ι δ α}, (∀ j, y.pc.holds j = false) →
      (∀ j, (s.threads a).pc.holds j = false) →
      ∀ j, y.pc.holds j = (s.threads a).pc.holds j := fun hy ha j => by rw [hy, ha]
  unfold SeqLockViews.threadNext at hn
  cases hp : (s.threads a).pc with
  | idle => simp [hp] at hn
  | loadSeq0 i plan =>
    simp only [hp] at hn
    split at hn
    · cases hn
    · rename_i seq0 v hl
      cases hn
      obtain ⟨m, ha⟩ := (h.counter_within i).acquire le_rfl (h.views_within a) hl
      exact ⟨by simp, h.silent ha.within ha.le (fun j => by simp [hp, Local.holds]) ha.le_current⟩
  | reading i plan seq0 t₀ got =>
    have ht₀ : t₀ ≤ (s.threads a).views.current (.counter i) := by
      simpa only [Thread.Ok, hp] using hok
    simp only [hp] at hn
    split at hn
    · cases hn
      exact ⟨by simp, h.silent (h.views_within a) (s.threads a).views.le_acquirable
        (fun j => by simp [hp, Local.holds]) (ht₀.trans ((s.threads a).views.le_acquirable _))⟩
    · rename_i d hd
      split at hn
      · cases hn
      · rename_i y v hl
        cases hn
        exact ⟨by simp, h.silent ((h.data_within i d).load le_rfl (h.views_within a) hl)
          (Cell.load_le hl) (fun j => by simp [hp, Local.holds])
          (ht₀.trans (Cell.load_le hl _))⟩
  | loadSeq1 i plan seq0 t₀ got =>
    have ht₀ : t₀ ≤ (s.threads a).views.current (.counter i) := by
      simpa only [Thread.Ok, hp] using hok
    simp only [hp] at hn
    split at hn
    · cases hn
    · rename_i seq1 v hl
      have hwithin := (h.counter_within i).load le_rfl (h.views_within a) hl
      split at hn <;> cases hn
      · exact ⟨by simp, h.silent hwithin (Cell.load_le hl) (fun j => by simp [hp, Local.holds])
          trivial⟩
      · exact ⟨by simp, h.loaded hwithin (Cell.load_le hl) (fun j => by simp [hp, Local.holds])
          trivial (ht₀.trans (Cell.load_le hl _))⟩
  | locking i writes p =>
    simp only [hp] at hn
    obtain ⟨rfl, hi⟩ := h.lockNext hp hn
    exact ⟨by simp, hi⟩
  | fencing i writes seq =>
    simp only [hp] at hn
    cases hn
    simp only [Thread.Ok, hp] at hok
    obtain ⟨hheld, hseq, hlatest⟩ := hok
    exact ⟨by simp, h.silent (h.views_within a) le_rfl (fun j => by simp [hp, Local.holds])
      ⟨⟨hheld.counter, hheld.data⟩, hseq, hheld.counter, [], rfl, hlatest⟩⟩
  | storing i writes seq rest =>
    cases rest with
    | nil =>
      obtain ⟨hcurrent, hi⟩ := h.unlock hp
      simp only [hp, if_pos hcurrent] at hn
      cases hn
      exact ⟨by simp, hi⟩
    | cons w rest =>
      obtain ⟨d, y⟩ := w
      obtain ⟨hcurrent, hi⟩ := h.write hp
      simp only [hp, if_pos hcurrent] at hn
      cases hn
      exact ⟨by simp, hi⟩

theorem Inv.call (h : Inv data l s) {c : Call ι δ α} (hp : (s.threads a).pc = .idle) :
    Inv data (l.step (a, .called c)) ⟨s.shared, Function.update s.threads a
      ⟨callNext c, (s.threads a).views⟩⟩ := by
  refine h.silent (h.views_within a) le_rfl (fun j => ?_) ?_
  · cases c <;> simp [callNext, hp, Local.holds]
  · cases c with
    | load i plan => trivial
    | store i writes => exact .inl rfl

theorem Inv.synchronize (h : Inv data l s) {u : Tid} (hp : (s.threads a).pc = .idle) :
    Inv data (l.step (a, .synchronized u)) ⟨s.shared, Function.update s.threads a
      ⟨.idle, (s.threads a).views.join (s.threads u).views.current⟩⟩ := by
  refine h.quiet rfl ((h.views_within a).join (h.views_within u).current)
    (fun j => by simp [hp, Local.holds]) trivial (fun i => ?_) fun b hb => ?_
  · have hknown : (l.step (a, .synchronized u)).known a i = l.known a i ⊔ l.known u i := by
      simp [Ledger.step, Ledger.learn]
    have hmine := (h.known a i).trans (Views.le_join (w := (s.threads u).views.current) _)
    have htheirs := (h.known u i).trans (Views.le_join' (v := (s.threads a).views) _)
    rw [hknown]
    rcases le_total (l.known a i) (l.known u i) with hle | hle
    · rwa [sup_of_le_right hle]
    · rwa [sup_of_le_left hle]
  · simp [Ledger.step, Ledger.learn, hb]

theorem step_cases {s' : Pool Tid (Shared ι δ α) (Thread ι δ α)} {e : Event ι δ α Tid}
    (hs : (machine data Tid).Step s (a, e) s') :
    (∃ c, e = .called c ∧ (s.threads a).pc = .idle ∧ s' = ⟨s.shared, Function.update s.threads a
      ⟨callNext c, (s.threads a).views⟩⟩) ∨
    (∃ t spurious g x, threadNext s.shared (s.threads a) t spurious = some (g, x, e) ∧
      s' = ⟨g, Function.update s.threads a x⟩) ∨
    ∃ u, e = .synchronized u ∧ (s.threads a).pc = .idle ∧
      s' = ⟨s.shared, Function.update s.threads a
        ⟨.idle, (s.threads a).views.join (s.threads u).views.current⟩⟩ := by
  obtain ⟨⟨b, c | ⟨t, spurious⟩ | u⟩, hn⟩ := hs <;> simp only [machine, next] at hn
  · split at hn
    · rename_i hp
      cases hn
      exact .inl ⟨c, rfl, hp, rfl⟩
    · cases hn
  · split at hn
    · cases hn
    · rename_i g x e' hx
      cases hn
      exact .inr (.inl ⟨t, spurious, g, x, hx, rfl⟩)
  · split at hn
    · rename_i hp
      cases hn
      exact .inr (.inr ⟨u, rfl, hp, rfl⟩)
    · cases hn

theorem Inv.step (h : Inv data l s) {s' : Pool Tid (Shared ι δ α) (Thread ι δ α)}
    {e : Event ι δ α Tid} (hs : (machine data Tid).Step s (a, e) s') :
    e ≠ .unordered ∧ Inv data (l.step (a, e)) s' := by
  rcases step_cases hs with ⟨c, rfl, hp, rfl⟩ | ⟨t, spurious, g, x, hn, rfl⟩ | ⟨u, rfl, hp, rfl⟩
  · exact ⟨by simp, h.call hp⟩
  · exact h.threadNext hn
  · exact ⟨by simp, h.synchronize hp⟩

omit [DecidableEq δ] [DecidableEq ι] in
theorem ledger_snoc [DecidableEq ι] (es : List (Tid × Event ι δ α Tid))
    (e : Tid × Event ι δ α Tid) : ledger (es ++ [e]) = (ledger es).step e :=
  List.foldl_concat ..

theorem Inv.of_run {es : List (Tid × Event ι δ α Tid)} (hr : (machine data Tid).Run es s) :
    Inv data (ledger es) s := by
  refine Machine.Run.invariant (I := fun es s => Inv data (ledger es) s) (.start data)
    (fun es s e s' _ h hs => ?_) hr
  rw [ledger_snoc]
  exact (h.step hs).2

end
end LockFree.SeqLockViews
