import LockFree.LockFreeStackSteps

/-!
# The steps of Pop and of the destructor
-/

namespace LockFree.LockFreeStack
open AtomicSharedPtr Linearizability TransitionRuns

variable {T : Type*} {P : List ℕ} {g g' : Shared T} {l l' : Local T} {o ol R R' L L' : ℕ → ℕ}
  {e : Event T} {n : ℕ} {node : Node T} {leave : T → T} {top old : Handle}

theorem test_spec (h : Holds P top) :
    (test top : Local T).Ok P ∧ (test top : Local T).Sees P g ∧
      ((test top : Local T).pending? = none ∧ (test top : Local T).taken? = none ∧
        (test top : Local T).ending = false) ∧
      ∀ b, (test top : Local T).refs b = top.refs b ∧
        (test top : Local T).loose b = top.loose b := by
  rw [test]
  split
  · exact ⟨⟨Destroy.start_ok h.ok, Destroy.start_direct h.direct⟩, trivial, ⟨rfl, rfl, rfl⟩,
      Destroy.start_refs h.direct.foreign⟩
  · rename_i hdata
    exact ⟨⟨h, hdata⟩, trivial, ⟨rfl, rfl, rfl⟩, fun b => ⟨rfl, rfl⟩⟩

theorem Ready.popGet {old : Option Handle} {x : Fast} (h : Ready P g (.popGet old x) o ol)
    (spurious : Bool) :
    ∃ g' l' e, step leave g spurious (.popGet old x) = some (g', l', e) ∧
      Safe P g (.popGet old x) o ol g' l' e := by
  obtain ⟨hold, hok, hdirect⟩ := h.ok
  have hall : Balanced dataOf g (fun b => (o b + heldRefs old b) + x.refs b)
      fun b => (ol b + heldLoose old b) + x.loose b :=
    h.balanced.congr (fun b => Nat.add_assoc _ _ _) fun b => Nat.add_assoc _ _ _
  obtain ⟨g', x', hstep, hok', hkeeps, hdirect', hbalanced⟩ := Fast.step_direct hall
    (fun b => Nat.add_le_add (h.others b) (heldLoose_le old b)) hok hdirect (h.alive rfl)
    h.order.head (h.lt rfl)
  have hbalanced' : Balanced dataOf g' (fun b => o b + (heldRefs old b + x'.refs b))
      fun b => ol b + (heldLoose old b + x'.loose b) :=
    hbalanced.congr (fun b => (Nat.add_assoc _ _ _).symm) fun b => (Nat.add_assoc _ _ _).symm
  by_cases hadd : x = .addLocal
  · subst hadd
    cases hstep
    obtain ⟨c, (hc : g.blocks (pointer (g.packedPtr + 1)) = some c)⟩ :=
      hbalanced.exists_block hok'.1 (by simp [Fast.refs])
    have hstep : step leave g spurious (.popGet old .addLocal) = some
        ({ g with packedPtr := g.packedPtr + 1 }, .popGet old (.readData (g.packedPtr + 1)),
          if c.data = 0 then .sawEmpty else .silent) := by
      simp only [step, Fast.step, hc]
    by_cases hempty : c.data = 0
    · rw [if_pos hempty] at hstep
      refine ⟨_, _, _, hstep, .of_frame ⟨?_, hkeeps.pointer⟩ rfl (by simp) .setPacked rfl (.inl rfl)
        (.inl rfl) (.inl rfl) (fun hfew => ⟨hold, hok', hdirect' (hfew (h.alive rfl))⟩) trivial
        hbalanced'⟩
      have hdata := (hbalanced.data _ c hc).1
      rw [hempty, dataOf] at hdata
      split at hdata
      · rename_i hone
        exact hkeeps.pointer.symm.trans hone
      · exact absurd hdata.symm hok'.1
    · rw [if_neg hempty] at hstep
      exact ⟨_, _, _, hstep, .quiet rfl hkeeps (.inl rfl) (.inl rfl) (.inl rfl)
        (fun hfew => ⟨hold, hok', hdirect' (hfew (h.alive rfl))⟩) trivial hbalanced'⟩
  · have hdirect' := Fast.direct_of_step hdirect hadd hstep
    obtain ⟨top, rfl⟩ : ∃ top, x' = .done top := by
      cases x with
      | addLocal => exact absurd rfl hadd
      | readData known =>
        simp only [Fast.step] at hstep
        split at hstep
        · cases hstep
        · cases hstep
          exact ⟨_, if_neg (by have := hdirect.2.2; omega)⟩
      | migrateAdd | migrateCas | migrateSub => exact hdirect.elim
      | done top =>
        cases hstep
        exact ⟨_, rfl⟩
    have htop : Holds P top := ⟨hok', hdirect'⟩
    cases old with
    | none =>
      obtain ⟨htest, hsees, ⟨hpending, htaken, hending⟩, hrefs⟩ := test_spec (g := g') htop
      refine ⟨g', test top, .silent, by simp only [step, hstep], .quiet rfl hkeeps (.inl hending)
        (.inr hpending) (.inr htaken) (fun _ => htest) hsees
        (hbalanced'.congr (fun b => ?_) fun b => ?_)⟩
      · rw [(hrefs b).1, heldRefs, Option.elim_none, Nat.zero_add]
        rfl
      · rw [(hrefs b).2, heldLoose, Option.elim_none, Nat.zero_add]
        rfl
    | some old =>
      have hold := hold old rfl
      have hrefs := Destroy.start_refs hold.direct.foreign
      refine ⟨g', .popAssign top old (.start old), .silent, by simp only [step, hstep],
        .quiet rfl hkeeps (.inl rfl) (.inl rfl) (.inl rfl) (fun _ => ⟨htop,
        Destroy.start_ok hold.ok, Destroy.start_direct hold.direct⟩) trivial
        (hbalanced'.congr (fun b => ?_) fun b => ?_)⟩
      · rw [Local.refs, (hrefs b).1, Nat.add_comm (top.refs b)]
        rfl
      · rw [Local.loose, (hrefs b).2, Nat.add_comm (top.loose b)]
        rfl

theorem Ready.popAssign {x : Destroy} (h : Ready P g (.popAssign top old x) o ol)
    (spurious : Bool) :
    ∃ g' l' e, step leave g spurious (.popAssign top old x) = some (g', l', e) ∧
      Safe P g (.popAssign top old x) o ol g' l' e := by
  obtain ⟨htop, hok, hdirect⟩ := h.ok
  have hall : Balanced dataOf g (fun b => (o b + top.refs b) + x.refs old b)
      fun b => (ol b + top.loose b) + x.loose old b :=
    h.balanced.congr (fun b => Nat.add_assoc _ _ _) fun b => Nat.add_assoc _ _ _
  obtain ⟨g', x', hstep, hok', hkeeps, hdirect', hbalanced⟩ := Destroy.step_direct spurious hall
    (fun b => Nat.add_le_add (h.others b) (top.loose_le_refs b)) hok hdirect (h.alive rfl)
  by_cases hdone : x' = .done
  · subst hdone
    obtain ⟨htest, hsees, ⟨hpending, htaken, hending⟩, hrefs⟩ := test_spec (g := g') htop
    refine ⟨g', test top, .silent, by simp only [step, hstep], .quiet rfl hkeeps (.inl hending)
      (.inr hpending) (.inr htaken) (fun _ => htest) hsees
      (hbalanced.congr (fun b => ?_) fun b => ?_)⟩
    · rw [(hrefs b).1]
      rfl
    · rw [(hrefs b).2]
      rfl
  · refine ⟨g', .popAssign top old x', .silent, ?_, .quiet rfl hkeeps (.inl rfl) (.inl rfl)
      (.inl rfl) (fun _ => ⟨htop, hok', hdirect'⟩) trivial
      (hbalanced.congr (fun b => (Nat.add_assoc _ _ _).symm) fun b => (Nat.add_assoc _ _ _).symm)⟩
    cases x' with
    | done => exact absurd rfl hdone
    | cas | refSub | releasing => simp only [step, hstep]

theorem Ready.top_node (h : Ready P g l o ol) (htop : Holds P top) (hdata : top.data ≠ 0)
    (hrefs : top.refs (pointer top.known) ≤ l.refs (pointer top.known)) :
    ∃ node, g.nodes top.data = some node ∧ node.prev ∈ P ∧ node.prev ≠ top.data := by
  rw [Handle.refs, single_self] at hrefs
  obtain ⟨-, node, hnode⟩ := held_node h.balanced htop.ok hdata (by omega)
  exact ⟨node, hnode, h.order.prev_ne (htop.data_mem hdata) hnode⟩

theorem Ready.popCopy (h : Ready P g (.popCopy top) o ol) (spurious : Bool) :
    ∃ g' l' e, step leave g spurious (.popCopy top) = some (g', l', e) ∧
      Safe P g (.popCopy top) o ol g' l' e := by
  obtain ⟨htop, hdata⟩ := h.ok
  obtain ⟨node, hnode, hprev, hne⟩ := h.top_node htop hdata le_rfl
  have hprev0 := (h.order.created _ hprev).1
  obtain ⟨before, hbefore, c, hadd, hbalanced⟩ := h.balanced.fetchAdd (d := 1)
    (fun b => o b + Local.refs (.popExchange top node.prev .compare : Local T) b) hprev0
    (prev_live h.balanced hnode hprev0).1 (fun b => by
      simp only [Local.refs, Exchange.refs, Nat.one_mul, Nat.add_assoc]) Nat.one_pos
  have hother : dataOf node.prev ≠ top.data := by
    rcases dataOf_value node.prev with hzero | hsame
    · rw [hzero]
      exact Ne.symm hdata
    · rw [hsame]
      exact hne
  refine ⟨_, .popExchange top node.prev .compare, .silent, ?_,
    .quiet rfl (.fetchAdd hadd) (.inl rfl) (.inl rfl) (.inl rfl)
      (fun _ => ⟨htop, hdata, hprev, hother, trivial, trivial⟩) (fun _ => ⟨node, hnode, rfl⟩)
      (hbalanced.congr (fun b => rfl) fun b => rfl)⟩
  simp only [step, hnode, if_neg hprev0, hadd, if_neg hbefore]

theorem Ready.popExchange {copy : ℕ} {x : Exchange} (h : Ready P g (.popExchange top copy x) o ol)
    (spurious : Bool) :
    ∃ g' l' e, step leave g spurious (.popExchange top copy x) = some (g', l', e) ∧
      Safe P g (.popExchange top copy x) o ol g' l' e := by
  obtain ⟨htop, hdata, hcopy, hother, hok, hdirect⟩ := h.ok
  have hall : Balanced dataOf g (fun b => (o b + top.refs b) + x.refs copy b)
      fun b => (ol b + top.loose b) + x.loose b :=
    h.balanced.congr (fun b => Nat.add_assoc _ _ _) fun b => Nat.add_assoc _ _ _
  obtain ⟨g', x', hstep, hok', heffect, hdirect', hmoved, hbalanced⟩ := Exchange.step_direct
    spurious hall (fun b => Nat.add_le_add (h.others b) (top.loose_le_refs b)) hok
    (h.order.created _ hcopy).1 hdirect (h.alive rfl) h.order.head (h.lt rfl)
  have hbalanced' : Balanced dataOf g' (fun b => o b + (top.refs b + x'.refs copy b))
      fun b => ol b + (top.loose b + x'.loose b) :=
    hbalanced.congr (fun b => (Nat.add_assoc _ _ _).symm) fun b => (Nat.add_assoc _ _ _).symm
  obtain ⟨node, hnode, -⟩ := h.top_node htop hdata (Nat.le_add_right _ _)
  rcases heffect with ⟨hnot, hkeeps⟩ | ⟨hd, rfl, rfl, -, rfl⟩
  · have halive := hkeeps.destroyed.trans (h.alive rfl)
    have hmoved := hmoved hnot
    by_cases hdone : ∃ result moved, x' = .done result moved
    · obtain ⟨result, moved, rfl⟩ := hdone
      obtain rfl : moved = result := hok'.resolve_right hother
      have htaken : Local.taken? (.popRelease top moved (if moved then [] else [copy]) : Local T) =
          Local.taken? (.popExchange top copy x : Local T) := by
        change (if moved then _ else none) = if x.moved then _ else none
        rw [← hmoved]
        rfl
      refine ⟨g', .popRelease top moved (if moved then [] else [copy]), .silent,
        by simp only [step, hstep], .quiet rfl hkeeps (.inl rfl) (.inl rfl) (.inl htaken)
          (fun _ => ⟨htop, hdata⟩) trivial (hbalanced'.congr (fun b => ?_) fun b => rfl)⟩
      cases moved with
      | true => rfl
      | false => simp [Local.refs, Exchange.refs, count_cons_single]
    · have htaken : Local.taken? (.popExchange top copy x' : Local T) =
          Local.taken? (.popExchange top copy x : Local T) := by
        simp only [Local.taken?, hmoved]
      have hsees : x'.moved = false → ∃ node, g'.nodes top.data = some node ∧ node.prev = copy := by
        intro hfalse
        obtain ⟨node, hnode, hprev⟩ := h.sees (hmoved ▸ hfalse)
        refine ⟨node, node_stays h.balanced hbalanced' hkeeps hnode ?_, hprev⟩
        rw [data_eq htop.ok hdata, Handle.refs, single_self]
        omega
      refine ⟨g', .popExchange top copy x', .silent, ?_,
        .quiet rfl hkeeps (.inl rfl) (.inl rfl) (.inl htaken)
          (fun hfew => ⟨htop, hdata, hcopy, hother, hok', hdirect' (hfew halive)⟩) hsees hbalanced'⟩
      cases x' with
      | done result moved => exact absurd ⟨result, moved, rfl⟩ hdone
      | destroyOld hd packed => exact absurd rfl (hnot hd packed)
      | compare | getFast | flushAdd | flushCas | flushSub | swap | releaseOld | destroy =>
        simp only [step, hstep]
  · obtain ⟨hhd, -, hexpected, hptr, -⟩ := hok
    obtain ⟨node', hnode', hprev⟩ := h.sees rfl
    obtain rfl : node = node' := Option.some.inj (hnode.symm.trans hnode')
    -- the block in `head_` has the data of the node that `Pop` has read
    have hhead : pointer g.packedPtr = top.data := by
      have hsame : dataOf (pointer g.packedPtr) = top.data := by
        rw [hptr, ← hhd.data, hexpected]
      rw [← hsame]
      exact (dataOf_of_ne (hsame ▸ hdata)).symm
    refine ⟨{ g with packedPtr := pack copy },
      .popExchange top copy (.destroyOld hd g.packedPtr), .popped top.data node.data,
      by simp only [step, hstep, hnode], hbalanced', .setPacked, rfl, .inl rfl,
      ⟨hhead, node, hnode, rfl, hprev.trans (pointer_pack copy).symm⟩, fun hfew => ?_,
      by simp [Local.Sees, Exchange.moved], by simp [Local.pending?], by simp [Event.node?], ?_,
      by simp⟩
    · have hmore : ∀ b ∈ P, b ∈ P ++ (Event.node? (.popped top.data node.data : Event T)).toList :=
        fun b hb => List.mem_append_left _ hb
      exact ⟨htop.mono hmore, hdata, hmore _ hcopy, hother, hok',
        (hdirect' (hfew (h.alive rfl))).mono hmore⟩
    · rintro n hn
      cases hn
      exact .inr ⟨_, rfl⟩

theorem Ready.popRelease {result : Bool} {queue : List ℕ}
    (h : Ready P g (.popRelease top result queue) o ol) (spurious : Bool) :
    ∃ g' l' e, step leave g spurious (.popRelease top result queue) = some (g', l', e) ∧
      Safe P g (.popRelease top result queue) o ol g' l' e := by
  obtain ⟨htop, hdata⟩ := h.ok
  cases queue with
  | nil =>
    cases result with
    | true =>
      exact ⟨g, .popMove top, .silent, rfl, .quiet rfl (.refl g) (.inl rfl) (.inl rfl) (.inl rfl)
        (fun _ => ⟨htop, hdata⟩) trivial (h.balanced.congr (fun b => rfl) fun b => rfl)⟩
    | false =>
      refine ⟨g, .popGet (some top) .addLocal, .silent, rfl, .quiet rfl (.refl g) (.inl rfl)
        (.inl rfl) (.inl rfl) (fun _ => ⟨fun old hold => ?_, trivial, trivial⟩) trivial
        (h.balanced.congr (fun b => rfl) fun b => rfl)⟩
      cases hold
      exact htop
  | cons block queue =>
    obtain ⟨g', queue', hrelease, hkeeps, hbalanced⟩ := release_held h.balanced h.others
      top.loose_le_refs
    exact ⟨g', .popRelease top result queue', .silent, by simp only [step, hrelease],
      .quiet rfl hkeeps (.inl rfl) (.inl rfl) (.inl rfl) (fun _ => ⟨htop, hdata⟩) trivial hbalanced⟩

theorem Ready.popMove (h : Ready P g (.popMove top) o ol) (spurious : Bool) :
    ∃ g' l' e, step leave g spurious (.popMove top) = some (g', l', e) ∧
      Safe P g (.popMove top) o ol g' l' e := by
  obtain ⟨htop, hdata⟩ := h.ok
  obtain ⟨node, hnode, -⟩ := h.top_node htop hdata le_rfl
  have hrefs := Destroy.start_refs htop.direct.foreign
  have hmove : Balanced dataOf { g with
      nodes := Function.update g.nodes top.data (some { node with data := leave node.data }) }
      (fun b => o b + Local.refs (.popMove top : Local T) b)
      fun b => ol b + Local.loose (.popMove top : Local T) b :=
    h.balanced.setNode _ hnode (fun b => rfl) h.balanced.loose
  refine ⟨{ g with nodes := Function.update g.nodes top.data (some ⟨node.prev, leave node.data⟩) },
    .popLeave top (.popped node.data) (.start top), .silent, by simp only [step, hnode],
    .of_frame rfl rfl nofun (.of_setNode hnode (.inl ⟨rfl, rfl⟩)) rfl (.inl rfl) (.inl rfl)
      (.inr rfl) (fun _ => ⟨Destroy.start_ok htop.ok, Destroy.start_direct htop.direct⟩) trivial
      (hmove.congr (fun b => congrArg (o b + ·) (hrefs b).1) fun b =>
        congrArg (ol b + ·) (hrefs b).2)⟩

theorem Ready.popLeave {r : Result T} {x : Destroy} (h : Ready P g (.popLeave top r x) o ol)
    (spurious : Bool) :
    ∃ g' l' e, step leave g spurious (.popLeave top r x) = some (g', l', e) ∧
      Safe P g (.popLeave top r x) o ol g' l' e := by
  obtain ⟨hok, hdirect⟩ := h.ok
  obtain ⟨g', x', hstep, hok', hkeeps, hdirect', hbalanced⟩ := Destroy.step_direct spurious
    h.balanced h.others hok hdirect (h.alive rfl)
  by_cases hdone : x' = .done
  · subst hdone
    exact ⟨g', .idle, .returned r, by simp only [step, hstep], .quiet rfl hkeeps (.inr rfl)
      (.inl rfl) (.inl rfl) (fun _ => trivial) trivial
      (hbalanced.congr (fun b => rfl) fun b => rfl)⟩
  · refine ⟨g', .popLeave top r x', .silent, ?_, .quiet rfl hkeeps (.inl rfl) (.inl rfl) (.inl rfl)
      (fun _ => ⟨hok', hdirect'⟩) trivial hbalanced⟩
    cases x' with
    | done => exact absurd rfl hdone
    | cas | refSub | releasing => simp only [step, hstep]

theorem Ready.destroySub {copy : ℕ} (h : Ready P g (.destroySub copy) o ol) (spurious : Bool) :
    ∃ g' l' e, step leave g spurious (.destroySub copy) = some (g', l', e) ∧
      Safe P g (.destroySub copy) o ol g' l' e := by
  obtain ⟨g', queue, hdrop, hkeeps, hbalanced⟩ := h.balanced.dropRef_keeps (b := pointer copy)
    ControlBlock.data h.ok (by
      have := h.others (pointer copy)
      simp only [Local.refs, Local.loose, single_self]
      omega) fun c hc => (h.balanced.data _ c hc).1
  refine ⟨g', .destroyRelease queue, .silent, by simp only [step, hdrop],
    .quiet rfl hkeeps (.inl rfl) (.inl rfl) (.inl rfl) (fun _ => trivial) trivial
      ((hbalanced (fun b => o b + queue.count b) fun b => ?_).congr (fun b => rfl) fun b => rfl)⟩
  simp only [Local.refs]
  omega

theorem Ready.destroyRelease {queue : List ℕ} (h : Ready P g (.destroyRelease queue) o ol)
    (spurious : Bool) :
    ∃ g' l' e, step leave g spurious (.destroyRelease queue) = some (g', l', e) ∧
      Safe P g (.destroyRelease queue) o ol g' l' e := by
  cases queue with
  | nil =>
    exact ⟨g, .idle, .destroyed, rfl, .quiet rfl (.refl g) (.inr rfl) (.inr rfl) (.inr rfl)
      (fun _ => trivial) trivial (h.balanced.congr (fun b => rfl) fun b => rfl)⟩
  | cons block queue =>
    obtain ⟨g', queue', hrelease, hkeeps, hbalanced⟩ := h.balanced.release h.others
    exact ⟨g', .destroyRelease queue', .silent, by simp only [step, hrelease],
      .quiet rfl hkeeps (.inl rfl) (.inl rfl) (.inl rfl) (fun _ => trivial) trivial hbalanced⟩

theorem Ready.step (leave : T → T) (h : Ready P g l o ol) (hidle : l.isIdle = false)
    (spurious : Bool) :
    ∃ g' l' e, LockFreeStack.step leave g spurious l = some (g', l', e) ∧
      Safe P g l o ol g' l' e := by
  cases l with
  | idle => cases hidle
  | pushGet => exact h.pushGet spurious
  | pushAssign => exact h.pushAssign spurious
  | pushRelease => exact h.pushRelease spurious
  | pushExchange => exact h.pushExchange spurious
  | pushLeave => exact h.pushLeave spurious
  | popGet => exact h.popGet spurious
  | popAssign => exact h.popAssign spurious
  | popCopy => exact h.popCopy spurious
  | popExchange => exact h.popExchange spurious
  | popRelease => exact h.popRelease spurious
  | popMove => exact h.popMove spurious
  | popLeave => exact h.popLeave spurious
  | destroyAdd => exact h.ok.elim
  | destroySub => exact h.destroySub spurious
  | destroyRelease => exact h.destroyRelease spurious

end LockFree.LockFreeStack
