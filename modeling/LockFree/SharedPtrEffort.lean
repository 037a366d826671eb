import Mathlib.Data.Finset.Card
import LockFree.DirectReferences

/-!
# The effort of AtomicSharedPtr

How many steps an operation on `head_` still takes as long as no other thread changes the
word, and how often it may still change the word itself. What it takes to free what is no
longer referenced is counted with the blocks: each is freed once, and leaves one more block
to be released.
-/

namespace LockFree.AtomicSharedPtr

section
variable {T : Type*}

def Shared.live (g : Shared T) : ℕ :=
  ((Finset.range (g.created + 1)).filter fun b => (g.blocks b).isSome).card

def Shared.flushes (g : Shared T) : ℕ := if localCount g.packedPtr = 0 then 0 else 1

def Shared.stale (g : Shared T) (expected : ℕ) : ℕ := if expected = g.packedPtr then 0 else 1

def Destroy.changes : Destroy → ℕ
  | .cas _ => 1
  | _ => 0

def Destroy.effort (g : Shared T) : Destroy → ℕ
  | .cas expected => 4 + g.stale expected
  | .refSub => 3
  | .releasing queue => 2 + queue.length
  | .done => 1

def Destroy.after (g : Shared T) : Destroy → ℕ
  | .done => 0
  | x => x.effort g

def Get.changes : Get → ℕ
  | .addLocal => 3
  | .refAdd _ | .cas _ _ => 1
  | .refSub _ | .done _ => 0

def Get.effort (g : Shared T) : Get → ℕ
  | .addLocal => 6
  | .refAdd _ => 5
  | .cas _ expected => 3 + g.stale expected
  | .refSub _ => 2
  | .done _ => 1

def Get.after (g : Shared T) : Get → ℕ
  | .done _ => 0
  | x => x.effort g

def Fast.changes : Fast → ℕ
  | .addLocal => 3
  | _ => 1

def Fast.effort : Fast → ℕ
  | .addLocal => 3
  | .readData _ => 2
  | _ => 1

def Fast.after : Fast → ℕ
  | .done _ => 0
  | x => x.effort

def Exchange.changes : Exchange → ℕ
  | .compare => 3
  | .getFast x => x.changes
  | .destroy _ _ x => x.changes
  | .done _ _ => 0
  | _ => 1

def Exchange.effort (g : Shared T) : Exchange → ℕ
  | .compare => 15
  | .getFast x => 11 + x.effort
  | .flushSub _ expected _ => 9 + 3 * g.stale expected
  | .flushAdd _ expected => 8 + 3 * g.stale expected
  | .flushCas _ expected | .swap _ expected => 7 + 3 * g.stale expected
  | .destroyOld _ _ => 7
  | .releaseOld _ queue => 6 + queue.length
  | .destroy _ _ x => x.effort g
  | .done _ _ => 0

inductive Spends (spurious : Bool) (g g' : Shared T) (changes effort changes' effort' : ℕ) :
    Prop where
  | quiet : g'.packedPtr = g.packedPtr → changes' ≤ changes →
      effort' + 2 * g'.live < effort + 2 * g.live + (if spurious then 3 else 0) →
      Spends spurious g g' changes effort changes' effort'
  | change : pointer g'.packedPtr = pointer g.packedPtr →
      changes' + g'.flushes < changes + g.flushes →
      effort' + 2 * g'.live ≤ effort + 2 * g.live + 4 →
      Spends spurious g g' changes effort changes' effort'

variable {g g' : Shared T} {b d n : ℕ} {c : ControlBlock} {queue queue' : List ℕ}
  {spurious : Bool} {δ : ℕ → ℕ} {P : ℕ → Prop}

theorem Spends.lift {changes effort changes' effort' i j i' j' : ℕ}
    (h : Spends spurious g g' changes effort changes' effort')
    (hchanges : i' + changes ≤ i + changes') (heffort : j' + effort ≤ j + effort') :
    Spends spurious g g' i j i' j' := by
  cases h with
  | quiet hword hc he => exact .quiet hword (by omega) (by omega)
  | change hword hc he => exact .change hword (by omega) (by omega)

theorem Spends.pointer {changes effort changes' effort' : ℕ}
    (h : Spends spurious g g' changes effort changes' effort') :
    pointer g'.packedPtr = pointer g.packedPtr := by
  cases h with
  | quiet hword => rw [hword]
  | change hpointer => exact hpointer

theorem Spends.rest {changes effort changes' effort' : ℕ} (hchanges : changes' ≤ changes)
    (heffort : effort' < effort) : Spends spurious g g changes effort changes' effort' :=
  .quiet rfl hchanges (by omega)

theorem Shared.stale_le (g : Shared T) (expected : ℕ) : g.stale expected ≤ 1 := by
  rw [stale]
  split <;> omega

theorem Shared.stale_self (g : Shared T) : g.stale g.packedPtr = 0 := if_pos rfl

theorem Shared.flushes_le (g : Shared T) : g.flushes ≤ 1 := by
  rw [flushes]
  split <;> omega

theorem Shared.stale_congr (h : g'.packedPtr = g.packedPtr) (expected : ℕ) :
    g'.stale expected = g.stale expected := by
  rw [stale, stale, h]

section
variable (hstale : ∀ expected, g'.stale expected ≤ g.stale expected + d)
include hstale

theorem Destroy.effort_le (x : Destroy) : x.effort g' ≤ x.effort g + 3 * d := by
  cases x with
  | cas expected =>
    have := hstale expected
    simp only [effort]
    omega
  | refSub | releasing | done => exact Nat.le_add_right _ _

theorem Get.effort_le (x : Get) : x.effort g' ≤ x.effort g + 3 * d := by
  cases x with
  | cas copy expected =>
    have := hstale expected
    simp only [effort]
    omega
  | addLocal | refAdd | refSub | done => exact Nat.le_add_right _ _

theorem Exchange.effort_le (x : Exchange) : x.effort g' ≤ x.effort g + 3 * d := by
  cases x with
  | flushAdd holder expected | flushCas holder expected | swap holder expected
  | flushSub holder expected =>
    have := hstale expected
    simp only [effort]
    omega
  | destroy moved holder x => exact Destroy.effort_le hstale x
  | compare | getFast | destroyOld | releaseOld | done => exact Nat.le_add_right _ _

end

theorem Shared.live_congr (hcreated : g'.created = g.created)
    (hblocks : ∀ b, (g'.blocks b).isSome = (g.blocks b).isSome) : g'.live = g.live := by
  simp only [live, hcreated, hblocks]

theorem Shared.live_setRefCount (hc : g.blocks b = some c) : (g.setRefCount b c n).live = g.live := by
  refine live_congr rfl fun x => ?_
  by_cases hx : x = b
  · subst hx
    simp [setRefCount, hc]
  · simp [setRefCount, hx]

theorem fetchAdd_live (h : fetchAdd g b d = some (n, g')) :
    g'.live = g.live ∧ g'.packedPtr = g.packedPtr := by
  rw [fetchAdd] at h
  split at h
  · cases h
  · rename_i hc
    cases h
    exact ⟨Shared.live_setRefCount hc, rfl⟩

theorem fetchSub_live (h : fetchSub g b d = some (n, g')) :
    g'.live = g.live ∧ g'.packedPtr = g.packedPtr := by
  rw [fetchSub] at h
  split at h
  · cases h
  · rename_i hc
    split at h
    · cases h
    · cases h
      exact ⟨Shared.live_setRefCount hc, rfl⟩

section
variable (hfresh : ∀ b, g.created < b → g.blocks b = none)
include hfresh

theorem Shared.live_remove (hc : g.blocks b = some c) (hcreated : g'.created = g.created)
    (hblocks : g'.blocks = Function.update g.blocks b none) : g'.live + 1 = g.live := by
  have hlt : b < g.created + 1 := by
    by_contra hge
    rw [hfresh b (by omega)] at hc
    cases hc
  have herase : ((Finset.range (g'.created + 1)).filter fun x => (g'.blocks x).isSome) =
      ((Finset.range (g.created + 1)).filter fun x => (g.blocks x).isSome).erase b := by
    ext x
    by_cases hx : x = b
    · subst hx
      simp [hblocks]
    · simp [hblocks, hcreated, hx]
  rw [live, live, herase]
  apply Finset.card_erase_add_one
  simp [hlt, hc]

theorem dropRef_live {data : ControlBlock → ℕ} (h : dropRef g b data = some (g', queue)) :
    queue.length + 2 * g'.live ≤ 2 * g.live ∧ g'.packedPtr = g.packedPtr := by
  rw [dropRef] at h
  split at h
  · cases h
  · rename_i c hc
    split at h
    · cases h
    · split at h
      · rw [delete] at h
        split at h
        · cases h
          have hlive : Shared.live { g with blocks := Function.update g.blocks b none } + 1 =
            g.live := Shared.live_remove hfresh hc rfl rfl
          exact ⟨by simp only [List.length_nil]; omega, rfl⟩
        · split at h
          · cases h
          · cases h
            rename_i node hnode
            have hlive : Shared.live { g with
                blocks := Function.update g.blocks b none
                nodes := Function.update g.nodes (data c) none } + 1 = g.live :=
              Shared.live_remove hfresh hc rfl rfl
            exact ⟨by simp only [List.length_cons, List.length_nil]; omega, rfl⟩
      · cases h
        rw [Shared.live_setRefCount hc]
        exact ⟨by simp, rfl⟩

theorem release_live (h : release g b queue = some (g', queue')) :
    queue'.length + 2 * g'.live < (b :: queue).length + 2 * g.live ∧
      g'.packedPtr = g.packedPtr := by
  rw [release] at h
  rw [List.length_cons]
  split at h
  · cases h
    exact ⟨by omega, rfl⟩
  · split at h
    · cases h
    · rename_i hdrop
      cases h
      obtain ⟨hlive, hword⟩ := dropRef_live hfresh hdrop
      rw [List.length_append]
      exact ⟨by omega, hword⟩

omit hfresh in
theorem Destroy.start_effort (h : Handle) : (start h).effort g ≤ 5 ∧ (start h).changes ≤ 1 := by
  have hstale := g.stale_le h.known
  rw [start]
  split
  · exact ⟨by simp only [effort]; omega, le_rfl⟩
  · exact ⟨by simp only [effort]; omega, Nat.zero_le _⟩

omit hfresh in
theorem failed_effort {expected : ℕ} (h : ¬(g.packedPtr = expected ∧ ¬spurious = true)) :
    3 ≤ 3 * g.stale expected + if spurious then 3 else 0 := by
  by_cases hword : g.packedPtr = expected
  · have hspurious : spurious = true := by simpa [hword] using h
    rw [hspurious, if_pos rfl]
    exact Nat.le_add_left _ _
  · have hstale : g.stale expected = 1 := if_neg (Ne.symm hword)
    omega

omit hfresh in
theorem spends_subLocal {expected changes effort effort' : ℕ} (hcount : localCount expected ≠ 0)
    (hword : g.packedPtr = expected) (heffort : effort' ≤ effort) :
    Spends spurious g { g with packedPtr := expected - 1 } (changes + 1) effort changes effort' := by
  subst hword
  have hflushes : g.flushes = 1 := if_neg hcount
  have hle := Shared.flushes_le { g with packedPtr := g.packedPtr - 1 }
  have hlive : Shared.live { g with packedPtr := g.packedPtr - 1 } = g.live := rfl
  exact .change (packed_pred hcount).1 (by omega) (by omega)

theorem Destroy.spends {x x' : Destroy} {h : Handle} (hx : x.Direct)
    (hstep : x.step g h spurious = some (g', x')) :
    Spends spurious g g' x.changes (x.effort g) x'.changes (x'.after g') := by
  cases x with
  | cas expected =>
    have hstale := g.stale_le expected
    simp only [step] at hstep
    split at hstep
    · rename_i hsuccess
      cases hstep
      exact spends_subLocal hx hsuccess.1 (Nat.zero_le _)
    · rename_i hfail
      split at hstep
      · cases hstep
        exact .quiet rfl (Nat.zero_le _) (by simp only [effort, after]; omega)
      · cases hstep
        have hfailed := failed_effort hfail
        exact .quiet rfl le_rfl (by simp only [effort, after, g.stale_self]; omega)
  | refSub =>
    simp only [step] at hstep
    split at hstep
    · cases hstep
    · rename_i hdrop
      cases hstep
      obtain ⟨hlive, hword⟩ := dropRef_live hfresh hdrop
      exact .quiet hword le_rfl (by simp only [effort, after]; omega)
  | releasing queue =>
    cases queue with
    | nil =>
      cases hstep
      exact .quiet rfl le_rfl (by simp only [effort, after]; omega)
    | cons block queue =>
      simp only [step] at hstep
      split at hstep
      · cases hstep
      · rename_i hrelease
        cases hstep
        obtain ⟨hlive, hword⟩ := release_live hfresh hrelease
        exact .quiet hword le_rfl (by simp only [effort, after]; omega)
  | done =>
    cases hstep
    exact .quiet rfl le_rfl (by simp only [effort, after]; omega)

omit hfresh in
theorem Get.spends {x x' : Get} (hok : x.Ok) (hlt : localCount g.packedPtr < 65535)
    (hstep : x.step g spurious = some (g', x')) :
    Spends spurious g g' x.changes (x.effort g) x'.changes (x'.after g') := by
  cases x with
  | addLocal =>
    cases hstep
    have hle := Shared.flushes_le { g with packedPtr := g.packedPtr + 1 }
    have hlive : Shared.live { g with packedPtr := g.packedPtr + 1 } = g.live := rfl
    exact .change (packed_succ hlt).1 (by simp only [changes]; omega)
      (by simp only [effort, after]; omega)
  | refAdd copy =>
    simp only [step] at hstep
    split at hstep
    · cases hstep
    · rename_i hadd
      obtain ⟨hlive, hword⟩ := fetchAdd_live hadd
      split at hstep <;> cases hstep
      have hstale := Shared.stale_le g' (copy + 1)
      exact .quiet hword le_rfl (by simp only [effort, after]; omega)
  | cas copy expected =>
    have hstale := g.stale_le expected
    simp only [step] at hstep
    split at hstep
    · cases hstep
    · rename_i hcount
      split at hstep
      · rename_i hsuccess
        cases hstep
        exact spends_subLocal hcount hsuccess.1 (Nat.zero_le _)
      · rename_i hfail
        split at hstep
        · cases hstep
          exact .quiet rfl (Nat.zero_le _) (by simp only [effort, after]; omega)
        · cases hstep
          have hfailed := failed_effort hfail
          exact .quiet rfl le_rfl (by simp only [effort, after, g.stale_self]; omega)
  | refSub copy =>
    simp only [step] at hstep
    split at hstep
    · cases hstep
    · rename_i hsub
      cases hstep
      obtain ⟨hlive, hword⟩ := fetchSub_live hsub
      exact .quiet hword le_rfl (by simp only [effort, after]; omega)
  | done block =>
    cases hstep
    exact .quiet rfl le_rfl (by simp only [effort, after]; omega)

omit hfresh in
theorem Fast.spends {x x' : Fast} (hx : x.Direct P) (hlt : localCount g.packedPtr < 65535)
    (hstep : x.step g = some (g', x')) :
    Spends spurious g g' x.changes x.effort x'.changes x'.after := by
  cases x with
  | addLocal =>
    cases hstep
    have hle := Shared.flushes_le { g with packedPtr := g.packedPtr + 1 }
    have hlive : Shared.live { g with packedPtr := g.packedPtr + 1 } = g.live := rfl
    exact .change (packed_succ hlt).1 (by simp only [changes]; omega)
      (by simp only [effort, after]; omega)
  | readData known =>
    have hfew := hx.2.2
    simp only [step] at hstep
    split at hstep
    · cases hstep
    · cases hstep
      rw [check, if_neg (by omega)]
      exact .quiet rfl le_rfl (by simp only [effort, after]; omega)
  | migrateAdd | migrateCas | migrateSub => exact hx.elim
  | done h =>
    cases hstep
    exact .quiet rfl le_rfl (by simp only [effort, after]; omega)

omit hfresh in
theorem Exchange.loop_effort (holder : Handle) (expected : ℕ) :
    (loop holder expected).effort g ≤ 8 + 3 * g.stale expected ∧
      (loop holder expected).changes ≤ 1 := by
  have hstart := Destroy.start_effort (g := g) holder
  rw [loop]
  split
  · exact ⟨by simp only [effort]; omega, hstart.2⟩
  · split
    · exact ⟨by simp only [effort]; omega, le_rfl⟩
    · exact ⟨by simp only [effort]; omega, le_rfl⟩

omit hfresh in
theorem Exchange.hold_effort {holder : Handle} {expected : ℕ} :
    (hold expected holder).effort g ≤ 11 ∧ (hold expected holder).changes ≤ 1 := by
  have hstart := Destroy.start_effort (g := g) holder
  have hloop := loop_effort (g := g) holder (pack (pointer holder.known))
  have hstale := g.stale_le (pack (pointer holder.known))
  rw [hold]
  split
  · exact ⟨by omega, hloop.2⟩
  · exact ⟨by simp only [effort]; omega, hstart.2⟩

omit hfresh in
theorem Exchange.compare_spends {x' : Exchange} {expected new : ℕ}
    (hstep : step g expected new spurious .compare = some (g', x')) :
    Spends spurious g g' (changes .compare) (effort g .compare) x'.changes (x'.effort g') := by
  have hquiet : ∀ {y : Exchange}, (y = .done true false ∨ y = .getFast .addLocal) →
      Spends spurious g g (changes .compare) (effort g .compare) y.changes (y.effort g) := by
    rintro y (rfl | rfl)
    · exact .quiet rfl (Nat.zero_le _) (by simp only [effort]; omega)
    · exact .quiet rfl le_rfl (by simp only [effort, Fast.effort]; omega)
  simp only [step] at hstep
  split at hstep
  · split at hstep <;> cases hstep
    · exact hquiet (.inl rfl)
    · exact hquiet (.inr rfl)
  · split at hstep
    · cases hstep
    · split at hstep <;> cases hstep
      · exact hquiet (.inl rfl)
      · exact hquiet (.inr rfl)

omit hfresh in
theorem Exchange.getFast_spends {x' : Exchange} {expected new : ℕ} {y : Fast} (hx : y.Direct P)
    (hlt : localCount g.packedPtr < 65535)
    (hstep : step g expected new spurious (.getFast y) = some (g', x')) :
    Spends spurious g g' (changes (.getFast y)) (effort g (.getFast y))
      x'.changes (x'.effort g') := by
  simp only [step] at hstep
  split at hstep
  · cases hstep
  · rename_i holder hdone
    cases hstep
    have hhold : (hold expected holder).effort g' ≤ 11 ∧ (hold expected holder).changes ≤ 1 :=
      hold_effort
    refine (Fast.spends hx hlt hdone).lift ?_ ?_
    · simp only [changes, Fast.changes] at hhold ⊢
      omega
    · simp only [effort, Fast.after] at hhold ⊢
      omega
  · rename_i y' hnot hmore
    cases hstep
    have hafter : Fast.after y' = y'.effort := by
      cases y' with
      | done h => exact absurd rfl (hnot h)
      | _ => rfl
    refine (Fast.spends hx hlt hmore).lift ?_ ?_
    · simp only [changes]
      omega
    · simp only [effort, hafter]
      omega

omit hfresh in
theorem Exchange.flushAdd_spends {x' : Exchange} {expected new : ℕ} {holder : Handle} {packed : ℕ}
    (hstep : step g expected new spurious (.flushAdd holder packed) = some (g', x')) :
    Spends spurious g g' (changes (.flushAdd holder packed)) (effort g (.flushAdd holder packed))
      x'.changes (x'.effort g') := by
  simp only [step] at hstep
  split at hstep
  · cases hstep
  · rename_i hadd
    cases hstep
    obtain ⟨hlive, hword⟩ := fetchAdd_live hadd
    exact .quiet hword le_rfl (by simp only [effort, Shared.stale_congr hword]; omega)

omit hfresh in
theorem Exchange.flushCas_spends {x' : Exchange} {expected new : ℕ} {holder : Handle} {packed : ℕ}
    (hcount : localCount packed ≠ 0)
    (hstep : step g expected new spurious (.flushCas holder packed) = some (g', x')) :
    Spends spurious g g' (changes (.flushCas holder packed)) (effort g (.flushCas holder packed))
      x'.changes (x'.effort g') := by
  simp only [step] at hstep
  split at hstep
  · rename_i hsuccess
    obtain ⟨rfl, -⟩ := hsuccess
    cases hstep
    obtain ⟨hptr, hzero⟩ := packed_clear g.packedPtr
    have hloop := loop_effort (g := { g with packedPtr := g.packedPtr - localCount g.packedPtr })
      holder g.packedPtr
    have hstale := Shared.stale_le
      { g with packedPtr := g.packedPtr - localCount g.packedPtr } g.packedPtr
    have hlive : Shared.live { g with packedPtr := g.packedPtr - localCount g.packedPtr } =
      g.live := rfl
    have hbefore : g.flushes = 1 := if_neg hcount
    have hafter : Shared.flushes { g with packedPtr := g.packedPtr - localCount g.packedPtr } =
      0 := if_pos hzero
    have hmine : effort g (.flushCas holder g.packedPtr) = 7 + 3 * g.stale g.packedPtr := rfl
    have hchanges : changes (.flushCas holder g.packedPtr) = 1 := rfl
    exact .change hptr (by omega) (by omega)
  · rename_i hfail
    cases hstep
    have hfailed := failed_effort hfail
    exact .quiet rfl le_rfl (by simp only [effort, g.stale_self]; omega)

omit hfresh in
theorem Exchange.flushSub_spends {x' : Exchange} {expected new : ℕ} {holder : Handle}
    {packed diff : ℕ}
    (hstep : step g expected new spurious (.flushSub holder packed diff) = some (g', x')) :
    Spends spurious g g' (changes (.flushSub holder packed diff)) (effort g (.flushSub holder packed diff))
      x'.changes (x'.effort g') := by
  simp only [step] at hstep
  split at hstep
  · cases hstep
  · rename_i hsub
    cases hstep
    obtain ⟨hlive, hword⟩ := fetchSub_live hsub
    have hloop := loop_effort (g := g') holder packed
    rw [Shared.stale_congr hword] at hloop
    have hmine : effort g (.flushSub holder packed diff) = 9 + 3 * g.stale packed := rfl
    exact .quiet hword hloop.2 (by omega)

omit hfresh in
theorem Exchange.swap_spends {x' : Exchange} {expected new : ℕ} {holder : Handle} {packed : ℕ}
    (hstep : step g expected new spurious (.swap holder packed) = some (g', x'))
    (hnotSwap : ∀ holder packed, x' ≠ .destroyOld holder packed) :
    Spends spurious g g' (changes (.swap holder packed)) (effort g (.swap holder packed))
      x'.changes (x'.effort g') := by
  simp only [step] at hstep
  split at hstep
  · cases hstep
  · split at hstep
    · cases hstep
      exact absurd rfl (hnotSwap _ _)
    · rename_i hfail
      cases hstep
      have hloop := loop_effort (g := g) holder g.packedPtr
      have hfailed := failed_effort hfail
      have hmine : effort g (.swap holder packed) = 7 + 3 * g.stale packed := rfl
      rw [g.stale_self] at hloop
      exact .quiet rfl hloop.2 (by omega)

theorem Exchange.destroyOld_spends {x' : Exchange} {expected new : ℕ} {holder : Handle} {packed : ℕ}
    (hstep : step g expected new spurious (.destroyOld holder packed) = some (g', x')) :
    Spends spurious g g' (changes (.destroyOld holder packed)) (effort g (.destroyOld holder packed))
      x'.changes (x'.effort g') := by
  simp only [step] at hstep
  split at hstep
  · cases hstep
  · rename_i hdrop
    cases hstep
    obtain ⟨hlive, hword⟩ := dropRef_live hfresh hdrop
    exact .quiet hword le_rfl (by simp only [effort]; omega)

theorem Exchange.releaseOld_spends {x' : Exchange} {expected new : ℕ} {holder : Handle} {queue : List ℕ}
    (hstep : step g expected new spurious (.releaseOld holder queue) = some (g', x')) :
    Spends spurious g g' (changes (.releaseOld holder queue)) (effort g (.releaseOld holder queue))
      x'.changes (x'.effort g') := by
  cases queue with
  | nil =>
    cases hstep
    have hstart := Destroy.start_effort (g := g) holder
    exact .quiet rfl hstart.2 (by simp only [effort, List.length_nil]; omega)
  | cons block queue =>
    simp only [step] at hstep
    split at hstep
    · cases hstep
    · rename_i hrelease
      cases hstep
      obtain ⟨hlive, hword⟩ := release_live hfresh hrelease
      exact .quiet hword le_rfl (by simp only [effort]; omega)

theorem Exchange.destroy_spends {x' : Exchange} {expected new : ℕ} {moved : Bool}
    {holder : Handle} {y : Destroy}
    (hx : y.Direct)
    (hstep : step g expected new spurious (.destroy moved holder y) = some (g', x')) :
    Spends spurious g g' (changes (.destroy moved holder y)) (effort g (.destroy moved holder y))
      x'.changes (x'.effort g') := by
  simp only [step] at hstep
  split at hstep
  · cases hstep
  · rename_i hdone
    cases hstep
    exact Destroy.spends hfresh hx hdone
  · rename_i y' hnot hmore
    cases hstep
    have hafter : Destroy.after g' y' = y'.effort g' := by
      cases y' with
      | done => exact absurd rfl hnot
      | _ => rfl
    have hspends := Destroy.spends hfresh hx hmore
    rwa [hafter] at hspends

/-- All steps but the one that exchanges the pointer, and what comes after the last one. -/
theorem Exchange.spends {x x' : Exchange} {expected new : ℕ} (hok : x.Ok δ expected new)
    (hx : x.Direct P) (hlt : localCount g.packedPtr < 65535)
    (hstep : x.step g expected new spurious = some (g', x'))
    (hnotDone : ∀ result moved, x ≠ .done result moved)
    (hnotSwap : ∀ holder packed, x' ≠ .destroyOld holder packed) :
    Spends spurious g g' x.changes (x.effort g) x'.changes (x'.effort g') := by
  cases x with
  | compare => exact compare_spends hstep
  | getFast y => exact getFast_spends hx hlt hstep
  | flushAdd holder packed => exact flushAdd_spends hstep
  | flushCas holder packed => exact flushCas_spends hok.2.2.2.2 hstep
  | flushSub holder packed diff => exact flushSub_spends hstep
  | swap holder packed => exact swap_spends hstep hnotSwap
  | destroyOld holder packed => exact destroyOld_spends hfresh hstep
  | releaseOld holder queue => exact releaseOld_spends hfresh hstep
  | destroy moved holder y => exact destroy_spends hfresh hx.2.1 hstep
  | done result moved => exact absurd rfl (hnotDone _ _)

end

def Get.fresh (head : ℕ) : Get → Bool
  | .addLocal => true
  | .refAdd copy | .cas copy _ | .refSub copy => pointer copy = head
  | .done block => block = head

def Fast.fresh (head : ℕ) : Fast → Bool
  | .addLocal => true
  | .readData known => pointer known = head
  | .done h => pointer h.known = head
  | _ => false

def Exchange.fresh (head : ℕ) : Exchange → Bool
  | .compare => true
  | .getFast x => x.fresh head
  | .flushAdd holder packed | .flushCas holder packed | .flushSub holder packed _
  | .swap holder packed => pointer holder.known = head ∧ pointer packed = head
  | _ => false

theorem Get.fresh_step {x x' : Get} (hx : x.fresh (pointer g.packedPtr) = true)
    (hstep : x.step g spurious = some (g', x')) : x'.fresh (pointer g.packedPtr) = true := by
  cases x with
  | addLocal =>
    cases hstep
    simp [fresh]
  | refAdd copy =>
    simp only [step] at hstep
    split at hstep
    · cases hstep
    · split at hstep <;> cases hstep
      exact hx
  | cas copy expected =>
    simp only [step] at hstep
    split at hstep
    · cases hstep
    · split at hstep
      · cases hstep
        exact hx
      · split at hstep <;> cases hstep <;> exact hx
  | refSub copy =>
    simp only [step] at hstep
    split at hstep <;> cases hstep
    exact hx
  | done block =>
    cases hstep
    exact hx

theorem Fast.fresh_step {x x' : Fast} (hx : x.Direct P) (hlt : localCount g.packedPtr < 65535)
    (hfresh : x.fresh (pointer g.packedPtr) = true) (hstep : x.step g = some (g', x')) :
    x'.fresh (pointer g.packedPtr) = true := by
  cases x with
  | addLocal =>
    cases hstep
    simp [fresh, (packed_succ hlt).1]
  | readData known =>
    have hfew := hx.2.2
    simp only [step] at hstep
    split at hstep
    · cases hstep
    · cases hstep
      rw [check, if_neg (by omega)]
      exact hfresh
  | migrateAdd | migrateCas | migrateSub => exact hx.elim
  | done h =>
    cases hstep
    exact hfresh

theorem Exchange.loop_fresh {holder : Handle} {packed head : ℕ}
    (hholder : pointer holder.known = head) (hpacked : pointer packed = head) :
    (loop holder packed).fresh head = true := by
  rw [loop, if_neg (by simp [hholder, hpacked])]
  split <;> simp [fresh, hholder, hpacked]

theorem Exchange.fresh_step {x x' : Exchange} {expected new : ℕ}
    (hdata : ∀ b c, g.blocks b = some c → c.data = δ b) (hok : x.Ok δ expected new)
    (hx : x.Direct P) (hlt : localCount g.packedPtr < 65535)
    (hexpected : expected = δ (pointer g.packedPtr))
    (hfresh : x.fresh (pointer g.packedPtr) = true)
    (hstep : x.step g expected new spurious = some (g', x')) :
    x'.fresh (pointer g.packedPtr) = true ∨ x'.moved = true ∨ ∃ moved, x' = .done true moved := by
  cases x with
  | compare =>
    simp only [step] at hstep
    split at hstep
    · split at hstep <;> cases hstep
      · exact .inr (.inr ⟨false, rfl⟩)
      · exact .inl rfl
    · split at hstep
      · cases hstep
      · split at hstep <;> cases hstep
        · exact .inr (.inr ⟨false, rfl⟩)
        · exact .inl rfl
  | getFast y =>
    simp only [step] at hstep
    split at hstep
    · cases hstep
    · rename_i holder hdone
      cases hstep
      have hholder : pointer holder.known = pointer g.packedPtr := by
        simpa [Fast.fresh] using Fast.fresh_step hx hlt hfresh hdone
      have hmine : holder.data = expected := by
        rw [hexpected, ← hholder]
        cases y with
        | addLocal => cases hdone
        | readData known =>
          have hfew := hx.2.2
          simp only [Fast.step] at hdone
          split at hdone
          · cases hdone
          · rename_i c hc
            rw [Fast.check, if_neg (by omega)] at hdone
            cases hdone
            exact hdata _ c hc
        | migrateAdd | migrateCas | migrateSub => exact hx.elim
        | done h =>
          cases hdone
          exact hok.1.data
      rw [hold, if_pos hmine]
      exact .inl (loop_fresh hholder (by rw [pointer_pack, hholder]))
    · rename_i hmore
      cases hstep
      exact .inl (Fast.fresh_step hx hlt hfresh hmore)
  | flushAdd holder packed =>
    simp only [step] at hstep
    split at hstep <;> cases hstep
    exact .inl hfresh
  | flushCas holder packed =>
    obtain ⟨hholder, hpacked⟩ : pointer holder.known = pointer g.packedPtr ∧
        pointer packed = pointer g.packedPtr := by simpa [fresh] using hfresh
    simp only [step] at hstep
    split at hstep <;> cases hstep
    · exact .inl (loop_fresh hholder hpacked)
    · exact .inl (by simp [fresh, hholder])
  | flushSub holder packed diff =>
    obtain ⟨hholder, hpacked⟩ : pointer holder.known = pointer g.packedPtr ∧
        pointer packed = pointer g.packedPtr := by simpa [fresh] using hfresh
    simp only [step] at hstep
    split at hstep <;> cases hstep
    exact .inl (loop_fresh hholder hpacked)
  | swap holder packed =>
    obtain ⟨hholder, hpacked⟩ : pointer holder.known = pointer g.packedPtr ∧
        pointer packed = pointer g.packedPtr := by simpa [fresh] using hfresh
    simp only [step] at hstep
    split at hstep
    · cases hstep
    · split at hstep <;> cases hstep
      · exact .inr (.inl rfl)
      · exact .inl (loop_fresh hholder rfl)
  | destroyOld | releaseOld | destroy | done => cases hfresh

end
end LockFree.AtomicSharedPtr
