import LockFree.ReferenceSteps

/-!
# Calls that never migrate

As long as the local count stays at `1000` or below, `getFast` only adds one to it, every
handle is released by `destroy`, and `destroy` never finds a count of zero. `P` holds of the
blocks that `head_` may point to.
-/

namespace LockFree.AtomicSharedPtr

structure Handle.Direct (P : ℕ → Prop) (h : Handle) : Prop where
  mem : P (pointer h.known)
  foreign : h.foreign = true
  count : localCount h.known ≠ 0

def Fast.Direct (P : ℕ → Prop) : Fast → Prop
  | .addLocal => True
  | .readData known => P (pointer known) ∧ localCount known ≠ 0 ∧ localCount known ≤ 1000
  | .done h => h.Direct P
  | _ => False

def Destroy.Direct : Destroy → Prop
  | .cas expected => localCount expected ≠ 0
  | _ => True

def Get.Direct (P : ℕ → Prop) : Get → Prop
  | .addLocal => True
  | .refAdd copy | .cas copy _ | .refSub copy => P (pointer copy)
  | .done block => P block

def Exchange.Direct (P : ℕ → Prop) : Exchange → Prop
  | .compare | .done _ _ => True
  | .getFast x => x.Direct P
  | .flushAdd holder _ | .flushCas holder _ | .flushSub holder _ _ | .swap holder _
  | .destroyOld holder _ | .releaseOld holder _ => holder.Direct P
  | .destroy _ holder x => holder.foreign = true ∧ x.Direct ∧ x ≠ .done

def Exchange.moved : Exchange → Bool
  | .destroyOld _ _ | .releaseOld _ _ => true
  | .destroy moved _ _ | .done _ moved => moved
  | _ => false

section
variable {T : Type*} {P Q : ℕ → Prop} {δ : ℕ → ℕ} {g g' : Shared T} {o ol : ℕ → ℕ} {spurious : Bool}

theorem Handle.Direct.mono {h : Handle} (hd : h.Direct P) (hPQ : ∀ b, P b → Q b) : h.Direct Q :=
  ⟨hPQ _ hd.mem, hd.foreign, hd.count⟩

theorem Fast.Direct.mono {x : Fast} (hd : x.Direct P) (hPQ : ∀ b, P b → Q b) : x.Direct Q := by
  cases x with
  | addLocal => trivial
  | readData known => exact ⟨hPQ _ hd.1, hd.2⟩
  | migrateAdd | migrateCas | migrateSub => exact hd
  | done h => exact Handle.Direct.mono hd hPQ

theorem Get.Direct.mono {x : Get} (hd : x.Direct P) (hPQ : ∀ b, P b → Q b) : x.Direct Q := by
  cases x with
  | addLocal => trivial
  | refAdd | cas | refSub | done => exact hPQ _ hd

theorem Exchange.Direct.mono {x : Exchange} (hd : x.Direct P) (hPQ : ∀ b, P b → Q b) :
    x.Direct Q := by
  cases x with
  | compare | done => trivial
  | getFast y => exact Fast.Direct.mono hd hPQ
  | flushAdd | flushCas | flushSub | swap | destroyOld | releaseOld =>
    exact Handle.Direct.mono hd hPQ
  | destroy => exact hd

theorem Destroy.start_direct {h : Handle} (hd : h.Direct P) : (Destroy.start h).Direct := by
  rw [start, if_pos hd.foreign]
  exact hd.count

theorem Exchange.start_direct (moved : Bool) {h : Handle} (hd : h.Direct P) :
    (Exchange.destroy moved h (.start h)).Direct P := by
  refine ⟨hd.foreign, Destroy.start_direct hd, ?_⟩
  rw [Destroy.start, if_pos hd.foreign]
  exact Destroy.noConfusion

theorem Exchange.Direct.skipped {x : Exchange} (hd : x.Direct P) : x.skipped = [] := by
  cases x with
  | destroy moved h y =>
    cases y with
    | done => exact absurd rfl hd.2.2
    | cas | refSub | releasing => rfl
  | compare | getFast | flushAdd | flushCas | flushSub | swap | destroyOld | releaseOld | done => rfl

theorem Fast.check_direct {known data : ℕ} (hmem : P (pointer known))
    (hcount : localCount known ≠ 0) (hfew : localCount known ≤ 1000) :
    (Fast.check known data (pointer known)).Direct P := by
  rw [check, if_neg (by omega)]
  exact ⟨hmem, rfl, hcount⟩

theorem Fast.direct_of_step {x x' : Fast} (hd : x.Direct P) (hnot : x ≠ .addLocal)
    (hstep : x.step g = some (g', x')) : x'.Direct P := by
  cases x with
  | addLocal => exact absurd rfl hnot
  | readData known =>
    obtain ⟨hmem, hcount, hbound⟩ := hd
    simp only [step] at hstep
    split at hstep
    · cases hstep
    · cases hstep
      exact check_direct hmem hcount hbound
  | migrateAdd | migrateCas | migrateSub => exact hd.elim
  | done h' =>
    cases hstep
    exact hd

theorem Fast.step_direct {x : Fast}
    (h : Balanced δ g (fun b => o b + x.refs b) (fun b => ol b + x.loose b))
    (hol : ∀ b, ol b ≤ o b) (hok : x.Ok δ) (hd : x.Direct P) (halive : g.destroyed = false)
    (hhead : P (pointer g.packedPtr)) (hlt : localCount g.packedPtr < 65535) :
    ∃ g' x', x.step g = some (g', x') ∧ x'.Ok δ ∧ Keeps g g' ∧
      (localCount g'.packedPtr ≤ 1000 → x'.Direct P) ∧
      Balanced δ g' (fun b => o b + x'.refs b) (fun b => ol b + x'.loose b) := by
  obtain ⟨g', x', hstep, hok', hkeeps, hbalanced⟩ := Fast.step_keeps h hol hok halive
    (fun _ => hlt) fun known data block heq => by
      subst heq
      exact hd.elim
  refine ⟨g', x', hstep, hok', hkeeps, fun hfew => ?_, hbalanced⟩
  by_cases hadd : x = .addLocal
  · subst hadd
    cases hstep
    obtain ⟨hptr, hcount⟩ := packed_succ hlt
    exact ⟨hptr ▸ hhead, by omega, hfew⟩
  · exact direct_of_step hd hadd hstep

theorem Destroy.direct_of_step {x x' : Destroy} {hd : Handle} (hx : x.Direct)
    (hstep : x.step g hd spurious = some (g', x')) : x'.Direct := by
  cases x with
  | cas expected =>
    simp only [step] at hstep
    split at hstep
    · cases hstep
      trivial
    · split at hstep
      · cases hstep
        trivial
      · rename_i hstay
        cases hstep
        simp only [not_or, not_not] at hstay
        exact hstay.2
  | refSub =>
    simp only [step] at hstep
    split at hstep
    · cases hstep
    · cases hstep
      trivial
  | releasing queue =>
    cases queue with
    | nil =>
      cases hstep
      trivial
    | cons block queue =>
      simp only [step] at hstep
      split at hstep
      · cases hstep
      · cases hstep
        trivial
  | done =>
    cases hstep
    trivial

theorem Destroy.step_direct (spurious : Bool) {x : Destroy} {hd : Handle}
    (h : Balanced δ g (fun b => o b + x.refs hd b) (fun b => ol b + x.loose hd b))
    (hol : ∀ b, ol b ≤ o b) (hok : x.Ok δ hd) (hx : x.Direct) (halive : g.destroyed = false) :
    ∃ g' x', x.step g hd spurious = some (g', x') ∧ x'.Ok δ hd ∧ Keeps g g' ∧ x'.Direct ∧
      Balanced δ g' (fun b => o b + x'.refs hd b) (fun b => ol b + x'.loose hd b) := by
  obtain ⟨g', x', hstep, hok', hkeeps, hbalanced⟩ := Destroy.step_keeps spurious h hol hok halive
  exact ⟨g', x', hstep, hok', hkeeps, direct_of_step hx hstep, hbalanced⟩

theorem Get.step_direct (spurious : Bool) {x : Get}
    (h : Balanced δ g (fun b => o b + x.refs b) (fun b => ol b + x.loose b))
    (hol : ∀ b, ol b ≤ o b) (hok : x.Ok) (hd : x.Direct P) (halive : g.destroyed = false)
    (hhead : P (pointer g.packedPtr)) (hlt : localCount g.packedPtr < 65535) :
    ∃ g' x', x.step g spurious = some (g', x') ∧ x'.Ok ∧ Keeps g g' ∧ x'.Direct P ∧
      Balanced δ g' (fun b => o b + x'.refs b) (fun b => ol b + x'.loose b) := by
  obtain ⟨g', x', hstep, hok', hkeeps, hbalanced⟩ := Get.step_keeps spurious h hol hok halive
    fun _ => hlt
  refine ⟨g', x', hstep, hok', hkeeps, ?_, hbalanced⟩
  cases x with
  | addLocal =>
    cases hstep
    exact hhead
  | refAdd copy =>
    simp only [step] at hstep
    split at hstep
    · cases hstep
    · split at hstep
      · cases hstep
      · cases hstep
        exact hd
  | cas copy expected =>
    simp only [step, if_neg hok.2.2] at hstep
    split at hstep
    · cases hstep
      exact hd
    · split at hstep <;> cases hstep <;> exact hd
  | refSub copy =>
    simp only [step] at hstep
    split at hstep
    · cases hstep
    · cases hstep
      exact hd
  | done block =>
    cases hstep
    exact hd

theorem Exchange.loop_direct {hd : Handle} (packed : ℕ) (h : hd.Direct P) :
    (loop hd packed).Direct P ∧ (loop hd packed).moved = false := by
  rw [loop]
  split
  · exact ⟨start_direct false h, rfl⟩
  · split <;> exact ⟨h, rfl⟩

theorem Exchange.hold_direct {hd : Handle} (expected : ℕ) (h : hd.Direct P) :
    (hold expected hd).Direct P ∧ (hold expected hd).moved = false := by
  rw [hold]
  split
  · exact loop_direct _ h
  · exact ⟨start_direct false h, rfl⟩

theorem Exchange.direct_of_step {x x' : Exchange} {expected new : ℕ} (hd : x.Direct P)
    (hnot : x ≠ .getFast .addLocal) (hstep : x.step g expected new spurious = some (g', x')) :
    x'.Direct P ∧ ((∀ h e, x' ≠ .destroyOld h e) → x'.moved = x.moved) := by
  cases x with
  | compare =>
    simp only [step] at hstep
    split at hstep
    · cases hstep
      split <;> exact ⟨trivial, fun _ => rfl⟩
    · split at hstep
      · cases hstep
      · cases hstep
        split <;> exact ⟨trivial, fun _ => rfl⟩
  | getFast y =>
    simp only [step] at hstep
    have hy : ∀ g' y', y.step g = some (g', y') → y'.Direct P := fun g' y' h =>
      Fast.direct_of_step hd (fun heq => hnot (congrArg _ heq)) h
    split at hstep
    · cases hstep
    · rename_i hdone
      cases hstep
      obtain ⟨hdirect, hmoved⟩ := hold_direct expected (hy _ _ hdone)
      exact ⟨hdirect, fun _ => hmoved⟩
    · rename_i hmore
      cases hstep
      exact ⟨hy _ _ hmore, fun _ => rfl⟩
  | flushAdd hd' packed =>
    simp only [step] at hstep
    split at hstep
    · cases hstep
    · cases hstep
      exact ⟨hd, fun _ => rfl⟩
  | flushCas hd' packed =>
    simp only [step] at hstep
    split at hstep <;> cases hstep
    · obtain ⟨hdirect, hmoved⟩ := loop_direct packed hd
      exact ⟨hdirect, fun _ => hmoved⟩
    · exact ⟨hd, fun _ => rfl⟩
  | flushSub hd' packed diff =>
    simp only [step] at hstep
    split at hstep
    · cases hstep
    · cases hstep
      obtain ⟨hdirect, hmoved⟩ := loop_direct packed hd
      exact ⟨hdirect, fun _ => hmoved⟩
  | swap hd' packed =>
    simp only [step] at hstep
    split at hstep
    · cases hstep
    · split at hstep <;> cases hstep
      · exact ⟨hd, fun h => absurd rfl (h _ _)⟩
      · obtain ⟨hdirect, hmoved⟩ := loop_direct g.packedPtr hd
        exact ⟨hdirect, fun _ => hmoved⟩
  | destroyOld hd' packed =>
    simp only [step] at hstep
    split at hstep
    · cases hstep
    · cases hstep
      exact ⟨hd, fun _ => rfl⟩
  | releaseOld hd' queue =>
    cases queue with
    | nil =>
      cases hstep
      exact ⟨start_direct true hd, fun _ => rfl⟩
    | cons block queue =>
      simp only [step] at hstep
      split at hstep
      · cases hstep
      · cases hstep
        exact ⟨hd, fun _ => rfl⟩
  | destroy moved hd' y =>
    simp only [step] at hstep
    split at hstep
    · cases hstep
    · cases hstep
      exact ⟨trivial, fun _ => rfl⟩
    · rename_i hdone hmore
      cases hstep
      exact ⟨⟨hd.1, Destroy.direct_of_step hd.2.1 hmore, hdone⟩,
        fun _ => rfl⟩
  | done result moved =>
    cases hstep
    exact ⟨trivial, fun _ => rfl⟩

theorem Exchange.step_direct (spurious : Bool) {x : Exchange} {expected new : ℕ}
    (h : Balanced δ g (fun b => o b + x.refs new b) (fun b => ol b + x.loose b))
    (hol : ∀ b, ol b ≤ o b) (hok : x.Ok δ expected new) (hne : new ≠ 0) (hd : x.Direct P)
    (halive : g.destroyed = false) (hhead : P (pointer g.packedPtr))
    (hlt : localCount g.packedPtr < 65535) :
    ∃ g' x', x.step g expected new spurious = some (g', x') ∧ x'.Ok δ expected new ∧
      Effect g g' new x x' ∧ (localCount g'.packedPtr ≤ 1000 → x'.Direct P) ∧
      ((∀ h e, x' ≠ .destroyOld h e) → x'.moved = x.moved) ∧
      Balanced δ g' (fun b => o b + x'.refs new b) (fun b => ol b + x'.loose b) := by
  have hadd : ∀ g' x', x = .getFast .addLocal → x.step g expected new spurious = some (g', x') →
      g' = { g with packedPtr := g.packedPtr + 1 } ∧
        x' = .getFast (.readData (g.packedPtr + 1)) := by
    rintro g' x' rfl hstep
    cases hstep
    exact ⟨rfl, rfl⟩
  obtain ⟨g', x', hstep, hok', heffect, hbalanced⟩ := Exchange.step_keeps spurious h hol hok hne
    halive (fun _ => hlt)
    fun known data block heq => by
      subst heq
      exact hd.elim
  have hskipped : x'.skipped = [] := by
    by_cases heq : x = .getFast .addLocal
    · rw [(hadd _ _ heq hstep).2]
      rfl
    · exact (direct_of_step hd heq hstep).1.skipped
  refine ⟨g', x', hstep, hok', heffect, fun hfew => ?_, fun hnot => ?_, hbalanced.congr
    (fun b => by rw [hskipped, List.count_nil, Nat.add_zero]) fun _ => rfl⟩
  · by_cases heq : x = .getFast .addLocal
    · obtain ⟨rfl, rfl⟩ := hadd _ _ heq hstep
      obtain ⟨hptr, hcount⟩ := packed_succ hlt
      exact ⟨hptr ▸ hhead, by omega, hfew⟩
    · exact (direct_of_step hd heq hstep).1
  · by_cases heq : x = .getFast .addLocal
    · obtain ⟨-, rfl⟩ := hadd _ _ heq hstep
      rw [heq]
      rfl
    · exact (direct_of_step hd heq hstep).2 hnot

end
end LockFree.AtomicSharedPtr
