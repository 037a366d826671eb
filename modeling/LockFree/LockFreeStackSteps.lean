import LockFree.LockFreeStackReferences

/-!
# The steps of UnboundedLockFreeStack

No step of a thread is a fault, and what it does to the nodes, to `head_` and to the
references is told by its event and by the node that it is about to publish or to empty.
-/

namespace LockFree.LockFreeStack
open AtomicSharedPtr Linearizability TransitionRuns

variable {T : Type*}

def Event.node? : Event T → Option ℕ
  | .pushed n _ => some n
  | _ => none

def Event.Effect (g g' : Shared T) : Event T → Prop
  | .pushed n v => pointer g'.packedPtr = n ∧
    ∃ node, g'.nodes n = some node ∧ node.data = v ∧ node.prev = pointer g.packedPtr
  | .popped n v => pointer g.packedPtr = n ∧
    ∃ node, g.nodes n = some node ∧ node.data = v ∧ node.prev = pointer g'.packedPtr
  | .sawEmpty => pointer g.packedPtr = 1 ∧ pointer g'.packedPtr = pointer g.packedPtr
  | _ => pointer g'.packedPtr = pointer g.packedPtr

def Event.isQuiet : Event T → Bool
  | .pushed _ _ | .popped _ _ | .sawEmpty | .fault => false
  | _ => true

structure Frame (P : List ℕ) (g g' : Shared T) (l : Local T) : Prop where
  created : g.created ≤ g'.created
  blocks : ∀ b, b ≤ g.created → g.blocks b = none → g'.blocks b = none
  born : ∀ b, g.created < b → b ≤ g'.created → (g'.blocks b).isSome
  nodes : ∀ n node', g'.nodes n = some node' →
    (∃ node, g.nodes n = some node ∧ node'.prev = node.prev ∧
      (l.emptied? ≠ some n → node'.data = node.data)) ∨
    ((l.pending? = some n ∨ g.created < n) ∧ (node'.prev = 0 ∨ node'.prev ∈ P))

def Few (g : Shared T) : Prop := g.destroyed = false → localCount g.packedPtr ≤ 1000

structure Ready (P : List ℕ) (g : Shared T) (l : Local T) (o ol : ℕ → ℕ) : Prop where
  balanced : Balanced dataOf g (fun b => o b + l.refs b) fun b => ol b + l.loose b
  others : ∀ b, ol b ≤ o b
  order : Order P g
  ok : l.Ok P
  sees : l.Sees P g
  pending : ∀ n, l.pending? = some n → n ∉ P
  alive : l.ending = false → g.destroyed = false
  few : Few g

structure Safe (P : List ℕ) (g : Shared T) (l : Local T) (o ol : ℕ → ℕ) (g' : Shared T)
    (l' : Local T) (e : Event T) : Prop where
  balanced : Balanced dataOf g' (fun b => o b + l'.refs b) fun b => ol b + l'.loose b
  frame : Frame P g g' l
  destroyed : g'.destroyed = g.destroyed
  ending : l'.ending = l.ending ∨ l' = .idle
  effect : e.Effect g g'
  ok : Few g' → l'.Ok (P ++ e.node?.toList)
  sees : l'.Sees (P ++ e.node?.toList) g'
  pending : ∀ n, l'.pending? = some n →
    (l.pending? = some n ∧ e.node? ≠ some n) ∨ (g.created < n ∧ n ≤ g'.created)
  published : ∀ n, e.node? = some n → l.pending? = some n ∧
    ∀ node, g'.nodes n = some node → node.prev ∈ P
  taken : ∀ n, l'.taken? = some n → l.taken? = some n ∨ ∃ v, e = .popped n v
  noFault : e ≠ .fault

section
variable {P : List ℕ} {g g' : Shared T} {l l' : Local T} {o ol R R' L L' : ℕ → ℕ} {e : Event T}
  {n : ℕ} {node : Node T} {leave : T → T}

theorem Ready.lt (h : Ready P g l o ol) (hl : l.ending = false) :
    localCount g.packedPtr < 65535 :=
  (h.few (h.alive hl)).trans_lt (by decide)

theorem Frame.of_keeps (h : Keeps g g') : Frame P g g' l where
  created := h.created.ge
  blocks b _ hb := h.blocks b hb
  born b hlt hle := by
    have := h.created
    omega
  nodes n node' hn := by
    rcases h.nodes n with hnone | hsame
    · rw [hnone] at hn
      cases hn
    · exact .inl ⟨node', hsame ▸ hn, rfl, fun _ => rfl⟩

theorem Event.effect_of_quiet (he : e.isQuiet = true)
    (h : pointer g'.packedPtr = pointer g.packedPtr) :
    e.Effect g g' ∧ e.node? = none ∧ e ≠ .fault := by
  cases e with
  | pushed | popped | sawEmpty | fault => cases he
  | called | returned | destroying | destroyed | silent => exact ⟨h, rfl, nofun⟩

theorem Frame.of_setNode {node' : Node T} (hn : g.nodes n = some node)
    (h : (node'.prev = node.prev ∧ l.emptied? = some n) ∨ (l.pending? = some n ∧ node'.prev ∈ P)) :
    Frame P g { g with nodes := Function.update g.nodes n (some node') } l where
  created := le_rfl
  blocks _ _ hb := hb
  born _ hlt hle := absurd hle hlt.not_ge
  nodes m node'' hm := by
    dsimp only at hm
    by_cases hmn : m = n
    · subst hmn
      rw [Function.update_self] at hm
      cases hm
      rcases h with ⟨hprev, hemptied⟩ | ⟨hpending, hprev⟩
      · exact .inl ⟨node, hn, hprev, fun hnot => absurd hemptied hnot⟩
      · exact .inr ⟨.inl hpending, .inr hprev⟩
    · rw [Function.update_of_ne hmn] at hm
      exact .inl ⟨node'', hm, rfl, fun _ => rfl⟩

theorem Frame.setPacked {w : ℕ} : Frame P g { g with packedPtr := w } l :=
  ⟨le_rfl, fun _ _ hb => hb, fun _ hlt hle => absurd hle hlt.not_ge,
    fun _ node' hn => .inl ⟨node', hn, rfl, fun _ => rfl⟩⟩

theorem Safe.of_frame (heffect : e.Effect g g') (hnode : e.node? = none) (hfault : e ≠ .fault)
    (hframe : Frame P g g' l) (hdestroyed : g'.destroyed = g.destroyed)
    (hending : l'.ending = l.ending ∨ l' = .idle)
    (hpending : l'.pending? = l.pending? ∨ l'.pending? = none)
    (htaken : l'.taken? = l.taken? ∨ l'.taken? = none)
    (hok : Few g' → l'.Ok P) (hsees : l'.Sees P g')
    (hbalanced : Balanced dataOf g' (fun b => o b + l'.refs b) fun b => ol b + l'.loose b) :
    Safe P g l o ol g' l' e := by
  have hP : P ++ e.node?.toList = P := by rw [hnode, Option.toList_none, List.append_nil]
  refine ⟨hbalanced, hframe, hdestroyed, hending, heffect, ?_, ?_, fun n hn => ?_,
    fun n hn => ?_, fun n hn => ?_, hfault⟩
  · rwa [hP]
  · rwa [hP]
  · rcases hpending with hsame | hnone
    · exact .inl ⟨hsame ▸ hn, by rw [hnode]; nofun⟩
    · rw [hnone] at hn
      cases hn
  · rw [hnode] at hn
    cases hn
  · rcases htaken with hsame | hnone
    · exact .inl (hsame ▸ hn)
    · rw [hnone] at hn
      cases hn

theorem Safe.quiet (he : e.isQuiet = true) (hkeeps : Keeps g g')
    (hending : l'.ending = l.ending ∨ l' = .idle)
    (hpending : l'.pending? = l.pending? ∨ l'.pending? = none)
    (htaken : l'.taken? = l.taken? ∨ l'.taken? = none)
    (hok : Few g' → l'.Ok P) (hsees : l'.Sees P g')
    (hbalanced : Balanced dataOf g' (fun b => o b + l'.refs b) fun b => ol b + l'.loose b) :
    Safe P g l o ol g' l' e := by
  obtain ⟨heffect, hnode, hfault⟩ := Event.effect_of_quiet he hkeeps.pointer
  exact .of_frame heffect hnode hfault (.of_keeps hkeeps) hkeeps.destroyed hending hpending htaken
    hok hsees hbalanced

theorem node_stays (h : Balanced dataOf g R L) (h' : Balanced dataOf g' R' L') (hkeeps : Keeps g g')
    (hn : g.nodes n = some node) (hR' : 0 < R' n) : g'.nodes n = some node := by
  obtain ⟨hdata, hlive⟩ := (h.node n).mp (by rw [hn]; rfl)
  obtain ⟨c, hc⟩ := Option.isSome_iff_exists.mp hlive
  obtain ⟨c', hc'⟩ := h'.exists_block (h.data n c hc).2 hR'
  have hlive' := (h'.node n).mpr ⟨hdata, by rw [hc']; rfl⟩
  rcases hkeeps.nodes n with hnone | hsame
  · rw [hnone] at hlive'
    cases hlive'
  · rw [hsame, hn]

theorem held_node {top : Handle} (h : Balanced dataOf g R L) (hok : top.Ok dataOf)
    (hdata : top.data ≠ 0) (hR : 0 < R (pointer top.known)) :
    top.data = pointer top.known ∧ ∃ node, g.nodes top.data = some node := by
  have htop := data_eq hok hdata
  obtain ⟨c, hc⟩ := h.exists_block hok.ne hR
  refine ⟨htop, Option.isSome_iff_exists.mp ((h.node _).mpr ?_)⟩
  rw [htop, hc, ← hok.data]
  exact ⟨hdata, rfl⟩

theorem block_of_node (h : Balanced dataOf g R L) (hn : g.nodes n = some node) :
    ∃ c, g.blocks n = some c ∧ c.data = n := by
  obtain ⟨hdata, hlive⟩ := (h.node n).mp (by rw [hn]; rfl)
  obtain ⟨c, hc⟩ := Option.isSome_iff_exists.mp hlive
  exact ⟨c, hc, (h.data n c hc).1.trans (dataOf_of_ne hdata)⟩

theorem prev_live (h : Balanced dataOf g R L) (hn : g.nodes n = some node) (hprev : node.prev ≠ 0) :
    0 < g.owners node.prev R ∧ ∃ c, g.blocks node.prev = some c ∧ c.data = dataOf node.prev := by
  have hmem : n ∈ Finset.range (g.created + 1) := Finset.mem_range.mpr (h.node_lt hn)
  have hle : prevRef node.prev (g.nodes n) ≤ g.prevs node.prev :=
    Finset.single_le_sum (f := fun m => prevRef node.prev (g.nodes m))
      (fun _ _ => Nat.zero_le _) hmem
  have hpos : 0 < g.owners node.prev R := by
    rw [hn, prevRef, single_self] at hle
    rw [Shared.owners]
    omega
  obtain ⟨c, hc⟩ := Option.isSome_iff_exists.mp ((h.owned _ hprev).mpr hpos)
  exact ⟨hpos, c, hc, (h.data _ c hc).1⟩

theorem refs_pos {x : Exchange} {new : ℕ} (hx : x.moved = false) : 0 < x.refs new new := by
  cases x with
  | compare | done =>
    simp only [Exchange.moved] at hx
    simp [Exchange.refs, hx]
  | getFast | flushAdd | flushCas | flushSub | swap =>
    simp only [Exchange.refs, single_self]
    omega
  | destroyOld | releaseOld => cases hx
  | destroy =>
    simp only [Exchange.moved] at hx
    simp [Exchange.refs, hx]

theorem release_held {held loose : ℕ → ℕ} {block : ℕ} {queue : List ℕ}
    (h : Balanced dataOf g (fun b => o b + (held b + (block :: queue).count b))
      fun b => ol b + loose b)
    (hol : ∀ b, ol b ≤ o b) (hloose : ∀ b, loose b ≤ held b) :
    ∃ g' queue', release g block queue = some (g', queue') ∧ Keeps g g' ∧
      Balanced dataOf g' (fun b => o b + (held b + queue'.count b)) fun b => ol b + loose b := by
  have hqueue : Balanced dataOf g (fun b => (o b + held b) + (block :: queue).count b)
      fun b => ol b + loose b :=
    h.congr (fun b => Nat.add_assoc _ _ _) fun b => rfl
  obtain ⟨g', queue', hrelease, hkeeps, hbalanced⟩ := hqueue.release fun b =>
    Nat.add_le_add (hol b) (hloose b)
  exact ⟨g', queue', hrelease, hkeeps,
    hbalanced.congr (fun b => (Nat.add_assoc _ _ _).symm) fun b => rfl⟩

section
variable {new : ℕ} {v : T}

theorem Ready.pushGet {x : Get} (h : Ready P g (.pushGet new v x) o ol) (spurious : Bool) :
    ∃ g' l' e, step leave g spurious (.pushGet new v x) = some (g', l', e) ∧
      Safe P g (.pushGet new v x) o ol g' l' e := by
  obtain ⟨hne, hok, hdirect⟩ := h.ok
  obtain ⟨node, hnode, hdata⟩ := h.sees
  have hall : Balanced dataOf g (fun b => (o b + single new b) + x.refs b)
      fun b => ol b + x.loose b :=
    h.balanced.congr (fun b => Nat.add_assoc _ _ _) fun b => rfl
  obtain ⟨g', x', hstep, hok', hkeeps, hdirect', hbalanced⟩ := Get.step_direct spurious hall
    (fun b => Nat.le_add_right_of_le (h.others b)) hok hdirect (h.alive rfl) h.order.head (h.lt rfl)
  have hnode' : g'.nodes new = some node := node_stays h.balanced hbalanced hkeeps hnode (by
    rw [single_self]
    omega)
  by_cases hdone : ∃ block, x' = .done block
  · obtain ⟨block, rfl⟩ := hdone
    exact ⟨g', .pushAssign new v block, .silent, by simp only [step, hstep],
      .quiet rfl hkeeps (.inl rfl) (.inl rfl) (.inl rfl) (fun _ => ⟨hne, hdirect'⟩)
        ⟨node, hnode', hdata⟩
        (hbalanced.congr (fun b => by simp only [Local.refs, Get.refs, Nat.add_assoc])
          fun b => rfl)⟩
  · refine ⟨g', .pushGet new v x', .silent, ?_,
      .quiet rfl hkeeps (.inl rfl) (.inl rfl) (.inl rfl) (fun _ => ⟨hne, hok', hdirect'⟩)
        ⟨node, hnode', hdata⟩
        (hbalanced.congr (fun b => by simp only [Local.refs, Nat.add_assoc]) fun b => rfl)⟩
    cases x' with
    | done block => exact absurd ⟨block, rfl⟩ hdone
    | addLocal | refAdd | cas | refSub => simp only [step, hstep]

theorem Ready.pushAssign {block : ℕ} (h : Ready P g (.pushAssign new v block) o ol)
    (spurious : Bool) :
    ∃ g' l' e, step leave g spurious (.pushAssign new v block) = some (g', l', e) ∧
      Safe P g (.pushAssign new v block) o ol g' l' e := by
  obtain ⟨hne, hblock⟩ := h.ok
  obtain ⟨node, hnode, hdata⟩ := h.sees
  obtain ⟨c, hc, hnew⟩ := block_of_node h.balanced hnode
  by_cases hsame : node.prev = block
  · refine ⟨g, .pushRelease new v [block], .silent, ?_, .quiet rfl (.refl g) (.inl rfl) (.inl rfl)
      (.inl rfl) (fun _ => hne) ⟨node, hnode, hdata, hsame ▸ hblock⟩
      (h.balanced.congr (fun b => ?_) fun b => rfl)⟩
    · simp only [step, hc, hnew, hnode, if_pos hsame]
    · simp only [Local.refs, count_cons_single, List.count_nil, Nat.zero_add]
  · refine ⟨{ g with nodes := Function.update g.nodes new (some { node with prev := block }) },
      .pushRelease new v [node.prev], .silent, ?_, .of_frame rfl rfl nofun
      (.of_setNode hnode (.inr ⟨rfl, hblock⟩)) rfl (.inl rfl) (.inl rfl) (.inl rfl)
      (fun _ => hne) ⟨{ node with prev := block }, Function.update_self .., hdata, hblock⟩
      (h.balanced.setNode _ hnode (fun b => ?_) fun b => ?_)⟩
    · simp only [step, hc, hnew, hnode, if_neg hsame]
    · simp only [Local.refs, count_cons_single, List.count_nil]
      omega
    · exact Nat.le_add_right_of_le (h.others b)

theorem Ready.pushRelease {queue : List ℕ} (h : Ready P g (.pushRelease new v queue) o ol)
    (spurious : Bool) :
    ∃ g' l' e, step leave g spurious (.pushRelease new v queue) = some (g', l', e) ∧
      Safe P g (.pushRelease new v queue) o ol g' l' e := by
  have hne : new ≠ 0 := h.ok
  obtain ⟨node, hnode, hdata, hprev⟩ := h.sees
  cases queue with
  | nil =>
    obtain ⟨c, hc, hnew⟩ := block_of_node h.balanced hnode
    have hprev0 := (h.order.created _ hprev).1
    obtain ⟨-, d, hd, hdprev⟩ := prev_live h.balanced hnode hprev0
    have hother : dataOf new ≠ dataOf node.prev := by
      intro heq
      exact h.pending new rfl (dataOf_inj hne hprev0 heq ▸ hprev)
    refine ⟨g, .pushExchange new v d.data .compare, .silent, ?_, .quiet rfl (.refl g) (.inl rfl)
      (.inl rfl) (.inl rfl) (fun _ => ⟨hne, hdprev ▸ hother, trivial, trivial⟩)
      (fun _ => ⟨node, hnode, hdata, hprev, hdprev.symm⟩)
      (h.balanced.congr (fun b => rfl) fun b => rfl)⟩
    simp only [step, hc, hnew, hnode, if_neg hprev0, hd]
  | cons block queue =>
    obtain ⟨g', queue', hrelease, hkeeps, hbalanced⟩ := release_held h.balanced h.others
      fun _ => Nat.zero_le _
    have hnode' : g'.nodes new = some node := node_stays h.balanced hbalanced hkeeps hnode (by
      rw [single_self]
      omega)
    exact ⟨g', .pushRelease new v queue', .silent, by simp only [step, hrelease],
      .quiet rfl hkeeps (.inl rfl) (.inl rfl) (.inl rfl) (fun _ => hne) ⟨node, hnode', hdata, hprev⟩
        hbalanced⟩

theorem Ready.pushExchange {expected : ℕ} {x : Exchange}
    (h : Ready P g (.pushExchange new v expected x) o ol) (spurious : Bool) :
    ∃ g' l' e, step leave g spurious (.pushExchange new v expected x) = some (g', l', e) ∧
      Safe P g (.pushExchange new v expected x) o ol g' l' e := by
  obtain ⟨hne, hother, hok, hdirect⟩ := h.ok
  obtain ⟨g', x', hstep, hok', heffect, hdirect', hmoved, hbalanced⟩ := Exchange.step_direct
    spurious h.balanced h.others hok hne hdirect (h.alive rfl) h.order.head (h.lt rfl)
  rcases heffect with ⟨hnot, hkeeps⟩ | ⟨hd, rfl, rfl, -, rfl⟩
  · have halive := hkeeps.destroyed.trans (h.alive rfl)
    have hmoved := hmoved hnot
    have hpending : ∀ y : Exchange, y.moved = x.moved →
        Local.pending? (.pushExchange new v expected y) =
          Local.pending? (.pushExchange new v expected x) := fun y hy => by
      simp only [Local.pending?, hy]
    have hsees : x'.moved = false → ∃ node, g'.nodes new = some node ∧ node.data = v ∧
        node.prev ∈ P ∧ dataOf node.prev = expected := by
      intro hfalse
      obtain ⟨node, hnode, hrest⟩ := h.sees (hmoved ▸ hfalse)
      exact ⟨node, node_stays h.balanced hbalanced hkeeps hnode
        (Nat.add_pos_right _ (refs_pos hfalse)), hrest⟩
    by_cases hdone : ∃ result moved, x' = .done result moved
    · obtain ⟨result, moved, rfl⟩ := hdone
      obtain rfl : moved = result := hok'.resolve_right hother
      cases moved with
      | true =>
        exact ⟨g', .pushLeave [], .silent, by simp only [step, hstep, if_true],
          .quiet rfl hkeeps (.inl rfl) (.inr rfl) (.inl rfl) (fun _ => trivial) trivial
            (hbalanced.congr (fun b => rfl) fun b => rfl)⟩
      | false =>
        obtain ⟨node, hnode, hdata, -⟩ := hsees rfl
        exact ⟨g', .pushGet new v .addLocal, .silent, by simp only [step, hstep],
          .quiet rfl hkeeps (.inl rfl) (.inl (hpending _ hmoved)) (.inl rfl)
            (fun _ => ⟨hne, trivial, trivial⟩) ⟨node, hnode, hdata⟩
            (hbalanced.congr (fun b => rfl) fun b => rfl)⟩
    · refine ⟨g', .pushExchange new v expected x', .silent, ?_,
        .quiet rfl hkeeps (.inl rfl) (.inl (hpending _ hmoved)) (.inl rfl)
          (fun hfew => ⟨hne, hother, hok', hdirect' (hfew halive)⟩) hsees hbalanced⟩
      cases x' with
      | done result moved => exact absurd ⟨result, moved, rfl⟩ hdone
      | destroyOld hd packed => exact absurd rfl (hnot hd packed)
      | compare | getFast | flushAdd | flushCas | flushSub | swap | releaseOld | destroy =>
        simp only [step, hstep]
  · obtain ⟨hhd, -, hexpected, hptr, -⟩ := hok
    obtain ⟨node, hnode, hdata, hprev, hsame⟩ := h.sees rfl
    -- the block in `head_` has the data that `Push` expects, and so it is the one of `prev_`
    have hhead : node.prev = pointer g.packedPtr := by
      apply dataOf_inj (h.order.created _ hprev).1 (h.order.created _ h.order.head).1
      rw [hsame, hptr, ← hhd.data, hexpected]
    refine ⟨{ g with packedPtr := pack new },
      .pushExchange new v expected (.destroyOld hd g.packedPtr), .pushed new v,
      by simp only [step, hstep], hbalanced, .setPacked, rfl, .inl rfl,
      ⟨pointer_pack new, node, hnode, hdata, hhead⟩, fun hfew => ?_, nofun, nofun, ?_, nofun, nofun⟩
    · exact ⟨hne, hother, hok',
        (hdirect' (hfew (h.alive rfl))).mono fun b hb => List.mem_append_left _ hb⟩
    · rintro n hn
      cases hn
      refine ⟨rfl, fun node' hnode' => ?_⟩
      cases hnode.symm.trans hnode'
      exact hprev

theorem Ready.pushLeave {queue : List ℕ} (h : Ready P g (.pushLeave queue) o ol) (spurious : Bool) :
    ∃ g' l' e, step leave g spurious (.pushLeave queue) = some (g', l', e) ∧
      Safe P g (.pushLeave queue) o ol g' l' e := by
  cases queue with
  | nil =>
    exact ⟨g, .idle, .returned .done, rfl, .quiet rfl (.refl g) (.inr rfl) (.inr rfl) (.inr rfl)
      (fun _ => trivial) trivial (h.balanced.congr (fun b => rfl) fun b => rfl)⟩
  | cons block queue =>
    obtain ⟨g', queue', hrelease, hkeeps, hbalanced⟩ := h.balanced.release h.others
    exact ⟨g', .pushLeave queue', .silent, by simp only [step, hrelease],
      .quiet rfl hkeeps (.inl rfl) (.inl rfl) (.inl rfl) (fun _ => trivial) trivial hbalanced⟩

end
end
end LockFree.LockFreeStack
