import Mathlib.Algebra.GroupWithZero.Nat
import LockFree.ReferenceSteps
import LockFree.SharedPtrClients

/-!
# The accounts of AtomicSharedPtr

The ledger of references over one step of a client: as long as a failed migration loads a
word of its own block with references in it, and no count is mistaken for zero or one when it
is stored in an `int`, every step keeps the ledger, but for the references that a `destroy`
skips.
-/

namespace LockFree.SharedPtrClients
open AtomicSharedPtr TransitionRuns
open SharedPtrDestruction (toInt)

def Op.refs (op : Op) (b : ℕ) : ℕ :=
  match op with
  | .idle => 0
  | .getFast x => x.refs b
  | .destroy h x => x.refs h b
  | .get x => x.refs b
  | .exchange _ new x => x.refs new b
  | .unref queue => queue.count b

def Op.loose (op : Op) (b : ℕ) : ℕ :=
  match op with
  | .idle | .unref _ => 0
  | .getFast x => x.loose b
  | .destroy h x => x.loose h b
  | .get x => x.loose b
  | .exchange _ _ x => x.loose b

def Op.Ok (δ : ℕ → ℕ) : Op → Prop
  | .idle | .unref _ => True
  | .getFast x => x.Ok δ
  | .destroy h x => x.Ok δ h
  | .get x => x.Ok
  | .exchange expected new x => new ≠ 0 ∧ x.Ok δ expected new

def stock (handles : List Handle) (shared : List ℕ) (b : ℕ) : ℕ :=
  (handles.map fun h => h.refs b).sum + shared.count b

def looseStock (handles : List Handle) (b : ℕ) : ℕ := (handles.map fun h => h.loose b).sum

def Client.refs (l : Client) (b : ℕ) : ℕ := stock l.handles l.shared b + l.op.refs b

def Client.loose (l : Client) (b : ℕ) : ℕ := looseStock l.handles b + l.op.loose b

structure Client.Ok (δ : ℕ → ℕ) (l : Client) : Prop where
  handles : ∀ h ∈ l.handles, h.Ok δ
  shared : ∀ b ∈ l.shared, b ≠ 0
  op : l.op.Ok δ

theorem looseStock_le (handles : List Handle) (shared : List ℕ) (b : ℕ) :
    looseStock handles b ≤ stock handles shared b := by
  induction handles with
  | nil => exact Nat.zero_le _
  | cons h handles ih =>
    have := h.loose_le_refs b
    simp only [looseStock, stock, List.map_cons, List.sum_cons] at ih ⊢
    omega

theorem stock_erase_handle {handles : List Handle} {hd : Handle} {i : ℕ}
    (hi : handles[i]? = some hd) (shared : List ℕ) (b : ℕ) :
    stock (handles.eraseIdx i) shared b + hd.refs b = stock handles shared b ∧
      looseStock (handles.eraseIdx i) b + hd.loose b = looseStock handles b := by
  obtain ⟨hlt, rfl⟩ := List.getElem?_eq_some_iff.mp hi
  have hperm := List.getElem_cons_eraseIdx_perm hlt
  have hrefs := (hperm.map fun h => h.refs b).sum_eq
  have hloose := (hperm.map fun h => h.loose b).sum_eq
  simp only [List.map_cons, List.sum_cons] at hrefs hloose
  rw [stock, stock, looseStock, looseStock]
  omega

theorem stock_erase_shared {shared : List ℕ} {block i : ℕ} (hi : shared[i]? = some block)
    (handles : List Handle) (b : ℕ) :
    stock handles (shared.eraseIdx i) b + single block b = stock handles shared b := by
  obtain ⟨hlt, rfl⟩ := List.getElem?_eq_some_iff.mp hi
  have hcount := (List.getElem_cons_eraseIdx_perm hlt).count_eq b
  rw [count_cons_single] at hcount
  rw [stock, stock]
  omega

section
variable {δ : ℕ → ℕ} {g g' : Shared Unit} {l l' : Client} {o ol : ℕ → ℕ} {spurious : Bool}
  {e : Event}

def Plain (g : Shared Unit) : Prop := ∀ n node, g.nodes n = some node → node.prev = 0

theorem Plain.of_keeps (h : Keeps g g') (hplain : Plain g) : Plain g' := by
  intro n node hn
  rcases h.nodes n with hnone | hsame
  · rw [hnone] at hn
    cases hn
  · exact hplain n node (hsame ▸ hn)

theorem Plain.make (hplain : Plain g) : Plain (make δ g).1 := by
  intro n node hn
  by_cases hnew : n = g.created + 1
  · simp only [SharedPtrClients.make, hnew, Function.update_self] at hn
    split at hn
    · cases hn
    · cases hn
      rfl
  · simp only [SharedPtrClients.make, Function.update_of_ne hnew] at hn
    exact hplain n node hn

structure Safe (δ : ℕ → ℕ) (g : Shared Unit) (o ol : ℕ → ℕ) (g' : Shared Unit) (l' : Client)
    (e : Event) : Prop where
  ok : l'.Ok δ
  alive : g'.destroyed = false
  plain : Plain g → Plain g'
  pointer : e ≠ .swapped → pointer g'.packedPtr = pointer g.packedPtr
  noFault : e ≠ .fault
  skipped : ∀ b ∈ e.skipped?, b ≠ 0
  balanced : Balanced δ g' (fun b => o b + (l'.refs b + e.skipped?.toList.count b))
    fun b => ol b + l'.loose b

theorem Safe.of_stock {handles : List Handle} {shared : List ℕ} {op : Op}
    (hhandles : ∀ h ∈ handles, h.Ok δ) (hshared : ∀ b ∈ shared, b ≠ 0) (hop : op.Ok δ)
    (halive : g'.destroyed = false) (hplain : Plain g → Plain g')
    (hptr : e ≠ .swapped → AtomicSharedPtr.pointer g'.packedPtr =
      AtomicSharedPtr.pointer g.packedPtr)
    (he : e ≠ .fault ∧ ∀ b ∈ e.skipped?, b ≠ 0)
    (h : Balanced δ g'
      (fun b => (o b + stock handles shared b) + (op.refs b + e.skipped?.toList.count b))
      fun b => (ol b + looseStock handles b) + op.loose b) :
    Safe δ g o ol g' ⟨handles, shared, op⟩ e := by
  refine ⟨⟨hhandles, hshared, hop⟩, halive, hplain, hptr, he.1, he.2, h.congr (fun b => ?_) fun b => ?_⟩
  · simp only [Client.refs]
    omega
  · simp only [Client.loose]
    omega

theorem Safe.of_keeps {handles : List Handle} {shared : List ℕ} {op : Op}
    (hhandles : ∀ h ∈ handles, h.Ok δ) (hshared : ∀ b ∈ shared, b ≠ 0) (hop : op.Ok δ)
    (halive : g.destroyed = false) (hkeeps : Keeps g g')
    (he : e ≠ .fault ∧ ∀ b ∈ e.skipped?, b ≠ 0)
    (h : Balanced δ g'
      (fun b => (o b + stock handles shared b) + (op.refs b + e.skipped?.toList.count b))
      fun b => (ol b + looseStock handles b) + op.loose b) :
    Safe δ g o ol g' ⟨handles, shared, op⟩ e :=
  .of_stock hhandles hshared hop (hkeeps.destroyed.trans halive) (.of_keeps hkeeps)
    (fun _ => hkeeps.pointer) he h

theorem intact_ne {b k : ℕ} {c : ControlBlock} (h : intact g b k = true)
    (hc : g.blocks b = some c) (hne : c.refCount ≠ k) : toInt c.refCount ≠ k := by
  rw [intact, hc, Option.all_some] at h
  generalize toInt c.refCount = n at h ⊢
  simpa [hne] using h

theorem not_aborts {x x' : Get} (hstep : x.step g spurious = some (g', x'))
    (hpos : ∀ b c, g.blocks b = some c → c.refCount ≠ 0)
    (hsound : Op.sound g (.get x) = true) : aborts g x = false := by
  have hsome : ∀ b, intact g b 0 = true →
      ((g.blocks b).any fun c => decide (toInt c.refCount = 0)) = false := by
    intro b hb
    cases hc : g.blocks b with
    | none => rfl
    | some c =>
      have hne : toInt c.refCount ≠ 0 := intact_ne hb hc (hpos b c hc)
      rw [Option.any_some]
      exact decide_eq_false hne
  cases x with
  | addLocal | cas | done => rfl
  | refAdd copy | refSub copy => exact hsome _ hsound

theorem unref_eq {block : ℕ} (queue : List ℕ) (h0 : intact g block 0 = true)
    (h1 : intact g block 1 = true) : unref g block queue = release g block queue := by
  rw [unref, release]
  split
  · rfl
  · cases hc : g.blocks block with
    | none => simp only [dropRef, hc]
    | some c =>
      by_cases hzero : c.refCount = 0
      · have hint : toInt c.refCount = 0 := by rw [hzero]; rfl
        simp only [dropRef, hc, if_pos hint, if_pos hzero]
      · have hint : toInt c.refCount ≠ 0 := intact_ne h0 hc hzero
        by_cases hone : c.refCount = 1
        · have hint1 : toInt c.refCount = 1 := by rw [hone]; rfl
          simp only [dropRef, hc, if_neg hint, if_neg hzero, if_pos hint1, if_pos hone]
          cases delete g block c.data <;> rfl
        · have hint1 : toInt c.refCount ≠ 1 := intact_ne h1 hc hone
          simp only [dropRef, hc, if_neg hint, if_neg hzero, if_neg hint1, if_neg hone,
            List.nil_append]

section
variable {handles : List Handle} {shared : List ℕ} (hhandles : ∀ h ∈ handles, h.Ok δ)
  (hshared : ∀ b ∈ shared, b ≠ 0) (halive : g.destroyed = false)
  (hstock : ∀ b, ol b + looseStock handles b ≤ o b + stock handles shared b)
include hhandles hshared halive hstock

theorem getFast_safe {x : Fast}
    (hall : Balanced δ g (fun b => (o b + stock handles shared b) + Op.refs (.getFast x) b)
      fun b => (ol b + looseStock handles b) + Op.loose (.getFast x) b)
    (hop : Op.Ok δ (.getFast x))
    (hadd : Op.addsLocal (.getFast x) = true → localCount g.packedPtr < 65535)
    (hsound : Op.sound g (.getFast x) = true) :
    ∃ g' l' e, step g ⟨handles, shared, .getFast x⟩ spurious (.getFast x) = some (g', l', e) ∧
      Safe δ g o ol g' l' e := by
  obtain ⟨g', x', hstep, hx', hkeeps, hbalanced⟩ := Fast.step_keeps hall hstock hop halive
    (fun heq => hadd (by rw [heq]; rfl)) fun known data block heq hne => by
      subst heq
      simpa [Op.sound, loads, hne] using hsound
  by_cases hdone : ∃ hd, x' = .done hd
  · obtain ⟨hd, rfl⟩ := hdone
    refine ⟨g', ⟨hd :: handles, shared, .idle⟩, .held hd, by simp only [step, hstep],
      .of_keeps (List.forall_mem_cons.mpr ⟨hx', hhandles⟩) hshared trivial halive hkeeps
        (by simp [Event.skipped?])
        (hbalanced.congr (fun b => ?_) fun b => ?_)⟩
    · simp only [stock, Op.refs, Fast.refs, List.map_cons, List.sum_cons, Event.skipped?,
        Option.toList_none, List.count_nil]
      omega
    · simp only [looseStock, Op.loose, Fast.loose, List.map_cons, List.sum_cons]
      omega
  · refine ⟨g', ⟨handles, shared, .getFast x'⟩, .silent, ?_,
      .of_keeps hhandles hshared hx' halive hkeeps (by simp [Event.skipped?]) hbalanced⟩
    cases x' with
    | done hd => exact absurd ⟨hd, rfl⟩ hdone
    | addLocal | readData | migrateAdd | migrateCas | migrateSub => simp only [step, hstep]

theorem destroy_safe {hd : Handle} {x : Destroy}
    (hall : Balanced δ g (fun b => (o b + stock handles shared b) + Op.refs (.destroy hd x) b)
      fun b => (ol b + looseStock handles b) + Op.loose (.destroy hd x) b)
    (hop : Op.Ok δ (.destroy hd x)) :
    ∃ g' l' e, step g ⟨handles, shared, .destroy hd x⟩ spurious (.destroy hd x) = some (g', l', e) ∧
      Safe δ g o ol g' l' e := by
  obtain ⟨g', x', hstep, hx', hkeeps, hbalanced⟩ := Destroy.step_keeps spurious
    hall hstock hop halive
  by_cases hdone : x' = .done
  · subst hdone
    exact ⟨g', ⟨handles, shared, .idle⟩, .silent, by simp only [step, hstep],
      .of_keeps hhandles hshared trivial halive hkeeps (by simp [Event.skipped?]) hbalanced⟩
  · refine ⟨g', ⟨handles, shared, .destroy hd x'⟩, .silent, ?_,
      .of_keeps hhandles hshared hx' halive hkeeps (by simp [Event.skipped?]) hbalanced⟩
    cases x' with
    | done => exact absurd rfl hdone
    | cas | refSub | releasing => simp only [step, hstep]

theorem get_safe {x : Get}
    (hall : Balanced δ g (fun b => (o b + stock handles shared b) + Op.refs (.get x) b)
      fun b => (ol b + looseStock handles b) + Op.loose (.get x) b)
    (hop : Op.Ok δ (.get x))
    (hadd : Op.addsLocal (.get x) = true → localCount g.packedPtr < 65535)
    (hsound : Op.sound g (.get x) = true) :
    ∃ g' l' e, step g ⟨handles, shared, .get x⟩ spurious (.get x) = some (g', l', e) ∧
      Safe δ g o ol g' l' e := by
  obtain ⟨g', x', hstep, hx', hkeeps, hbalanced⟩ := Get.step_keeps spurious
    hall hstock hop halive fun heq => hadd (by rw [heq]; rfl)
  have haborts := not_aborts hstep (fun _ _ hc => (hall.refCount_pos hc).ne') hsound
  by_cases hdone : ∃ block, x' = .done block
  · obtain ⟨block, rfl⟩ := hdone
    refine ⟨g', ⟨handles, block :: shared, .idle⟩, .silent, by
      simp only [step, haborts, Bool.false_eq_true, if_false, hstep],
      .of_keeps hhandles (List.forall_mem_cons.mpr ⟨hx', hshared⟩) trivial halive hkeeps
        (by simp [Event.skipped?])
        (hbalanced.congr (fun b => ?_) fun b => rfl)⟩
    simp only [stock, Op.refs, Get.refs, count_cons_single, Event.skipped?, Option.toList_none,
      List.count_nil]
    omega
  · refine ⟨g', ⟨handles, shared, .get x'⟩, .silent, ?_,
      .of_keeps hhandles hshared hx' halive hkeeps (by simp [Event.skipped?]) hbalanced⟩
    cases x' with
    | done block => exact absurd ⟨block, rfl⟩ hdone
    | addLocal | refAdd | cas | refSub =>
      simp only [step, haborts, Bool.false_eq_true, if_false, hstep]

theorem exchange_safe {expected new : ℕ} {x : Exchange}
    (hall : Balanced δ g
      (fun b => (o b + stock handles shared b) + Op.refs (.exchange expected new x) b)
      fun b => (ol b + looseStock handles b) + Op.loose (.exchange expected new x) b)
    (hop : Op.Ok δ (.exchange expected new x))
    (hadd : Op.addsLocal (.exchange expected new x) = true → localCount g.packedPtr < 65535)
    (hsound : Op.sound g (.exchange expected new x) = true) :
    ∃ g' l' e, step g ⟨handles, shared, .exchange expected new x⟩ spurious
      (.exchange expected new x) = some (g', l', e) ∧ Safe δ g o ol g' l' e := by
  obtain ⟨hne, hx⟩ := hop
  obtain ⟨g', x', hstep, hx', heffect, hbalanced⟩ := Exchange.step_keeps spurious
    hall hstock hx hne halive (fun heq => hadd (by rw [heq]; rfl))
    fun known data block heq hloads => by
      subst heq
      simpa [Op.sound, loads, hloads] using hsound
  rcases heffect with ⟨hnot, hkeeps⟩ | ⟨hd, rfl, rfl, -, rfl⟩
  · have hsame : Op.Ok δ (.exchange expected new x') := ⟨hne, hx'⟩
    cases x' with
    | done result moved =>
      refine ⟨g', ⟨handles, if moved then shared else new :: shared, .idle⟩, .silent,
        by simp only [step, hstep],
        .of_keeps hhandles ?_ trivial halive hkeeps (by simp [Event.skipped?])
          (hbalanced.congr (fun b => ?_) fun b => rfl)⟩
      · split
        · exact hshared
        · exact List.forall_mem_cons.mpr ⟨hne, hshared⟩
      · simp only [stock, Op.refs, Exchange.refs, Exchange.skipped, Event.skipped?,
          Option.toList_none, List.count_nil]
        split
        · rfl
        · rw [count_cons_single]
          omega
    | destroyOld hd packed => exact absurd rfl (hnot hd packed)
    | destroy moved hd y =>
      cases y with
      | done => exact ⟨g', ⟨handles, shared, .exchange expected new (.destroy moved hd .done)⟩,
          .skipped hd, by simp only [step, hstep],
          .of_keeps hhandles hshared hsame halive hkeeps (by simpa [Event.skipped?] using hx'.1)
            hbalanced⟩
      | cas | refSub | releasing => exact ⟨g', ⟨handles, shared, .exchange expected new _⟩,
          .silent, by simp only [step, hstep],
          .of_keeps hhandles hshared hsame halive hkeeps (by simp [Event.skipped?]) hbalanced⟩
    | compare | getFast | flushAdd | flushCas | flushSub | swap | releaseOld =>
      exact ⟨g', ⟨handles, shared, .exchange expected new _⟩, .silent, by simp only [step, hstep],
        .of_keeps hhandles hshared hsame halive hkeeps (by simp [Event.skipped?]) hbalanced⟩
  · refine ⟨{ g with packedPtr := pack new },
      ⟨handles, shared, .exchange expected new (.destroyOld hd g.packedPtr)⟩, .swapped, ?_,
      .of_stock hhandles hshared ⟨hne, hx'⟩ halive id (fun h => absurd rfl h)
        (by simp [Event.skipped?]) hbalanced⟩
    simp only [step, hstep]

theorem unref_safe {queue : List ℕ}
    (hall : Balanced δ g (fun b => (o b + stock handles shared b) + Op.refs (.unref queue) b)
      fun b => (ol b + looseStock handles b) + Op.loose (.unref queue) b)
    (hsound : Op.sound g (.unref queue) = true) :
    ∃ g' l' e, step g ⟨handles, shared, .unref queue⟩ spurious (.unref queue) = some (g', l', e) ∧
      Safe δ g o ol g' l' e := by
  cases queue with
  | nil =>
    exact ⟨g, ⟨handles, shared, .idle⟩, .silent, rfl,
      .of_stock hhandles hshared trivial halive id (fun _ => rfl) (by simp [Event.skipped?]) hall⟩
  | cons block queue =>
    obtain ⟨h0, h1⟩ := Bool.and_eq_true_iff.mp hsound
    obtain ⟨g', queue', hrelease, hkeeps, hbalanced⟩ := hall.release hstock
    exact ⟨g', ⟨handles, shared, .unref queue'⟩, .silent, by
      simp only [step, unref_eq queue h0 h1, hrelease],
      .of_keeps hhandles hshared trivial halive hkeeps (by simp [Event.skipped?]) hbalanced⟩

end

theorem step_safe (h : Balanced δ g (fun b => o b + l.refs b) fun b => ol b + l.loose b)
    (hol : ∀ b, ol b ≤ o b) (hok : l.Ok δ) (halive : g.destroyed = false)
    (hidle : l.op.isIdle = false) (hadd : l.op.addsLocal = true → localCount g.packedPtr < 65535)
    (hsound : l.op.sound g = true) :
    ∃ g' l' e, step g l spurious l.op = some (g', l', e) ∧ Safe δ g o ol g' l' e := by
  obtain ⟨handles, shared, op⟩ := l
  obtain ⟨hhandles, hshared, hop⟩ := hok
  dsimp only at hhandles hshared hop hidle hadd hsound
  have hstock : ∀ b, ol b + looseStock handles b ≤ o b + stock handles shared b := fun b =>
    Nat.add_le_add (hol b) (looseStock_le handles shared b)
  have hall : Balanced δ g (fun b => (o b + stock handles shared b) + op.refs b)
      fun b => (ol b + looseStock handles b) + op.loose b :=
    h.congr (fun _ => Nat.add_assoc _ _ _) fun _ => Nat.add_assoc _ _ _
  cases op with
  | idle => cases hidle
  | getFast x => exact getFast_safe hhandles hshared halive hstock hall hop hadd hsound
  | destroy hd x => exact destroy_safe hhandles hshared halive hstock hall hop
  | get x => exact get_safe hhandles hshared halive hstock hall hop hadd hsound
  | exchange expected new x =>
    exact exchange_safe hhandles hshared halive hstock hall hop hadd hsound
  | unref queue => exact unref_safe hhandles hshared halive hstock hall hsound

section
variable {handles : List Handle} {shared : List ℕ} {i : ℕ} (hhandles : ∀ h ∈ handles, h.Ok δ)
  (hshared : ∀ b ∈ shared, b ≠ 0) (halive : g.destroyed = false)
  (hall : Balanced δ g (fun b => o b + stock handles shared b)
    fun b => ol b + looseStock handles b)
include hhandles hshared halive hall

theorem call_destroy_safe
    (hcall : call δ g ⟨handles, shared, .idle⟩ (.destroy i) = some (g', l', e)) :
    Safe δ g o ol g' l' e := by
  rw [call] at hcall
  dsimp only at hcall
  cases hi : handles[i]? with
  | none =>
    rw [hi] at hcall
    cases hcall
  | some hd =>
    rw [hi] at hcall
    cases hcall
    refine .of_stock (fun h hh => hhandles h (List.mem_of_mem_eraseIdx hh)) hshared
      (Destroy.start_ok (hhandles hd (List.mem_of_getElem? hi))) halive id (fun _ => rfl)
      (by split <;> simp [Event.skipped?, (hhandles hd (List.mem_of_getElem? hi)).ne])
      (hall.congr (fun b => ?_) fun b => ?_)
    · rw [← (stock_erase_handle hi shared b).1, Op.refs]
      by_cases hforeign : hd.foreign
      · simp only [if_pos hforeign, (Destroy.start_refs hforeign b).1, Event.skipped?,
          Option.toList_none, List.count_nil]
        omega
      · simp only [if_neg hforeign, Destroy.start, Destroy.refs, Event.skipped?,
          Option.toList_some, count_cons_single, List.count_nil, Handle.refs]
        omega
    · rw [← (stock_erase_handle hi shared b).2, Op.loose, Destroy.start, Handle.loose]
      split
      · rw [Destroy.loose, Nat.add_assoc]
      · rfl

theorem call_copy_safe
    (hsound : (shared[i]?).all (fun block => intact g block 0) = true)
    (hcall : call δ g ⟨handles, shared, .idle⟩ (.copy i) = some (g', l', e)) :
    Safe δ g o ol g' l' e := by
  rw [call] at hcall
  dsimp only at hcall
  cases hi : shared[i]? with
  | none =>
    rw [hi] at hcall
    cases hcall
  | some block =>
    rw [hi] at hcall hsound
    have hmem : block ∈ shared := List.mem_of_getElem? hi
    have hne := hshared block hmem
    have hpos : 0 < shared.count block := List.count_pos_iff.mpr hmem
    obtain ⟨c, hc⟩ := hall.exists_block hne (by rw [stock]; omega)
    obtain ⟨before, -, c', hadd, hbalanced⟩ := hall.fetchAdd (d := 1)
      (fun b => o b + stock handles (block :: shared) b) hne (by
        rw [Shared.owners, stock]
        omega) (fun b => by
        rw [stock, stock, count_cons_single]
        omega) Nat.one_pos
    obtain ⟨rfl, -⟩ : c.refCount = before ∧ _ := by simpa [fetchAdd, hc] using hadd
    have hint : toInt c.refCount ≠ 0 := intact_ne hsound hc (hall.refCount_pos hc).ne'
    simp only [hadd, if_neg hint] at hcall
    cases hcall
    exact .of_stock hhandles (List.forall_mem_cons.mpr ⟨hne, hshared⟩) trivial halive id
      (fun _ => rfl) (by simp [Event.skipped?]) hbalanced

theorem call_drop_safe
    (hcall : call δ g ⟨handles, shared, .idle⟩ (.drop i) = some (g', l', e)) :
    Safe δ g o ol g' l' e := by
  rw [call] at hcall
  dsimp only at hcall
  cases hi : shared[i]? with
  | none =>
    rw [hi] at hcall
    cases hcall
  | some block =>
    rw [hi] at hcall
    cases hcall
    refine .of_stock hhandles (fun b hb => hshared b (List.mem_of_mem_eraseIdx hb)) trivial halive
      id (fun _ => rfl) (by simp [Event.skipped?]) (hall.congr (fun b => ?_) fun b => rfl)
    have herase := stock_erase_shared hi handles b
    simp only [Op.refs, count_cons_single, List.count_nil, Event.skipped?, Option.toList_none]
    omega

theorem call_exchange_safe {expected : ℕ}
    (hcall : call δ g ⟨handles, shared, .idle⟩ (.exchange expected i) = some (g', l', e)) :
    Safe δ g o ol g' l' e := by
  rw [call] at hcall
  dsimp only at hcall
  cases hi : shared[i]? with
  | none =>
    rw [hi] at hcall
    cases hcall
  | some new =>
    rw [hi] at hcall
    cases hcall
    refine .of_stock hhandles (fun b hb => hshared b (List.mem_of_mem_eraseIdx hb))
      ⟨hshared new (List.mem_of_getElem? hi), trivial⟩ halive
      id (fun _ => rfl) (by simp [Event.skipped?]) (hall.congr (fun b => ?_) fun b => rfl)
    have herase := stock_erase_shared hi handles b
    simp only [Op.refs, Exchange.refs, Event.skipped?, Option.toList_none, List.count_nil]
    omega

theorem call_make_safe
    (hcall : call δ g ⟨handles, shared, .idle⟩ .make = some (g', l', e)) :
    Safe δ g o ol g' l' e := by
  cases hcall
  refine .of_stock hhandles (List.forall_mem_cons.mpr ⟨Nat.succ_ne_zero _, hshared⟩) trivial
    halive .make (fun _ => rfl) (by simp [Event.skipped?])
    (hall.create (fun b => o b + stock handles ((g.created + 1) :: shared) b)
      _ ?_ (fun b hb => ?_) fun b => ?_)
  · split <;> simp_all
  · split
    · rfl
    · exact if_neg (Ne.symm hb)
  · rw [stock, stock, count_cons_single]
    omega

end

theorem call_safe {c : Choice}
    (h : Balanced δ g (fun b => o b + l.refs b) fun b => ol b + l.loose b) (hok : l.Ok δ)
    (halive : g.destroyed = false) (hidle : l.op.isIdle = true)
    (hsound : ∀ i, c = .copy i → (l.shared[i]?).all (fun block => intact g block 0) = true)
    (hcall : call δ g l c = some (g', l', e)) : Safe δ g o ol g' l' e := by
  obtain ⟨handles, shared, op⟩ := l
  obtain ⟨hhandles, hshared, -⟩ := hok
  dsimp only at hhandles hshared hidle hsound
  obtain rfl : op = .idle := by
    cases op with
    | idle => rfl
    | getFast | destroy | get | exchange | unref => cases hidle
  have hall : Balanced δ g (fun b => o b + stock handles shared b)
      fun b => ol b + looseStock handles b := h
  cases c with
  | getFast | get =>
    cases hcall
    exact .of_stock hhandles hshared trivial halive id (fun _ => rfl) (by simp [Event.skipped?]) hall
  | destroy i => exact call_destroy_safe hhandles hshared halive hall hcall
  | make => exact call_make_safe hhandles hshared halive hall hcall
  | copy i => exact call_copy_safe hhandles hshared halive hall (hsound i rfl) hcall
  | drop i => exact call_drop_safe hhandles hshared halive hall hcall
  | exchange expected i => exact call_exchange_safe hhandles hshared halive hall hcall
  | step spurious => cases hcall

end
end LockFree.SharedPtrClients
