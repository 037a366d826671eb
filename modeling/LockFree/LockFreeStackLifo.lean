import LockFree.LockFreeStackCalls

/-!
# UnboundedLockFreeStack is a linearizable stack

The nodes from `head_` down are those that have been pushed and not popped, the last pushed
first.
-/

namespace LockFree.LockFreeStack
open AtomicSharedPtr Linearizability TransitionRuns

inductive Chain {T : Type*} (g : Shared T) : ℕ → List (ℕ × T) → Prop where
  | nil : Chain g 1 []
  | cons {n : ℕ} {node : Node T} {q : List (ℕ × T)} :
      g.nodes n = some node → Chain g node.prev q → Chain g n ((n, node.data) :: q)

section
variable {T Tid : Type*}

def Event.push? : Event T → Option (ℕ × T)
  | .pushed n v => some (n, v)
  | _ => none

def Event.pop? : Event T → Option (ℕ × T)
  | .popped n v => some (n, v)
  | _ => none

def pushes (es : List (Tid × Event T)) : List (ℕ × T) := es.filterMap fun e => e.2.push?

def pops (es : List (Tid × Event T)) : List (ℕ × T) := es.filterMap fun e => e.2.pop?

theorem published_eq (es : List (Tid × Event T)) :
    published es = 1 :: (pushes es).map Prod.fst := by
  rw [published, pushes, List.map_filterMap]
  congr 2
  funext e
  cases e.2 <;> rfl

theorem pushes_snoc (es : List (Tid × Event T)) (e : Tid × Event T) :
    pushes (es ++ [e]) = pushes es ++ e.2.push?.toList := by
  rw [pushes, pushes, List.filterMap_append]
  cases h : e.2.push? <;> simp [h]

theorem pops_snoc (es : List (Tid × Event T)) (e : Tid × Event T) :
    pops (es ++ [e]) = pops es ++ e.2.pop?.toList := by
  rw [pops, pops, List.filterMap_append]
  cases h : e.2.pop? <;> simp [h]

end

variable {T Tid : Type*} [DecidableEq Tid] [Fintype Tid] {leave : T → T} {P : List ℕ}
  {g g' : Shared T} {l l' : Local T} {s s' : Pool Tid (Shared T) (Local T)} {t : Tid} {f : Event T}
  {e : Tid × Event T} {es : List (Tid × Event T)} {n b : ℕ} {q : List (ℕ × T)} {v : T}

theorem Chain.idxOf_le (h : Chain g b q) (horder : Order P g) (hb : b ∈ P) :
    ∀ n ∈ q.map Prod.fst, P.idxOf n ≤ P.idxOf b := by
  induction h with
  | nil => nofun
  | @cons n node q hn _ ih =>
    intro m hm
    rcases List.mem_cons.mp hm with rfl | hm
    · exact le_rfl
    · exact (ih (horder.prev_ne hb hn).1 m hm).trans (horder.idxOf_lt hb hn).le

theorem Chain.head_notMem {node : Node T} (h : Chain g node.prev q) (horder : Order P g)
    (hn : n ∈ P) (hnode : g.nodes n = some node) : n ∉ q.map Prod.fst := fun hmem =>
  (h.idxOf_le horder (horder.prev_ne hn hnode).1 n hmem).not_gt (horder.idxOf_lt hn hnode)

theorem Chain.of_one (h : Chain g 1 q) (hone : g.nodes 1 = none) : q = [] := by
  cases h with
  | nil => rfl
  | cons hn => simp [hone] at hn

theorem Chain.uncons {node : Node T} (h : Chain g n q) (hnode : g.nodes n = some node)
    (hone : g.nodes 1 = none) : ∃ q', q = (n, node.data) :: q' ∧ Chain g node.prev q' := by
  cases h with
  | nil => simp [hone] at hnode
  | cons hn htail =>
    cases hn.symm.trans hnode
    exact ⟨_, rfl, htail⟩

theorem head_owned {R : ℕ → ℕ} (hd : g.destroyed = false) :
    0 < g.owners (pointer g.packedPtr) R := by
  rw [Shared.owners, Shared.headRef, hd]
  simp only [Bool.false_eq_true, if_false, single_self]
  omega

omit [DecidableEq Tid] in
theorem Inv.node_one (h : Inv P s) : s.shared.nodes 1 = none :=
  Option.not_isSome_iff_eq_none.mp fun hsome => ((h.balanced.node 1).mp hsome).1 rfl

theorem Inv.chain_after (h : Inv P s) (hsafe : SafeAt P s t g l f) (hc : Chain s.shared b q)
    (hb : b ∈ P) (howned : 0 < g.owners b fun b => ∑ u, (Function.update s.threads t l u).refs b)
    (hnot : ∀ n, (s.threads t).emptied? = some n → n ∉ q.map Prod.fst) : Chain g b q := by
  induction hc with
  | nil => exact .nil
  | @cons n node q hn _ ih =>
    obtain ⟨node', hnode', hprev, hdata⟩ := h.node_after hsafe hn howned fun hpending =>
      (h.pending t n hpending).1 hb
    have hbelow := (h.order.prev_ne hb hn).1
    have hprev0 : node'.prev ≠ 0 := hprev ▸ (h.order.created _ hbelow).1
    have htail := ih hbelow (hprev ▸ (prev_live hsafe.balanced_after hnode' hprev0).1)
      fun m hm hmem => hnot m hm (List.mem_cons_of_mem _ hmem)
    rw [← hdata fun hemptied => hnot n hemptied List.mem_cons_self]
    exact .cons hnode' (hprev ▸ htail)

structure Stacked (es : List (Tid × Event T)) (s : Pool Tid (Shared T) (Local T)) : Prop where
  phases : ∃ ph, Follows (history es) ph ∧ ∀ t, (s.threads t).Phased s.shared (ph t)
  distinct : ∀ a b n, (s.threads a).taken? = some n → (s.threads b).taken? = some n → a = b
  contents : ∃ q, Accepts Lifo [] (commits (history es)) (q.map Prod.snd) ∧
    (pushes es).Perm (pops es ++ q) ∧ (s.shared.destroyed = false →
      Chain s.shared (pointer s.shared.packedPtr) q ∧
        ∀ t n, (s.threads t).taken? = some n → n ∉ q.map Prod.fst)

/-- The step that empties a node is the last of those that know it. -/
theorem not_emptied {c : Choice T} (hn : next leave g l c = some (g', l', f)) (hfault : f ≠ .fault)
    (hl : l'.taken? = some n) : l.emptied? ≠ some n := by
  cases l with
  | popMove top =>
    cases c with
    | call c => cases hn
    | destroy => cases hn
    | step spurious =>
      simp only [next, Local.isIdle, Bool.false_eq_true, if_false, step] at hn
      cases hnode : g.nodes top.data with
      | none =>
        rw [hnode] at hn
        cases hn
        exact absurd rfl hfault
      | some node =>
        rw [hnode] at hn
        cases hn
        cases hl
  | idle | pushGet | pushAssign | pushRelease | pushExchange | pushLeave | popGet | popAssign
  | popCopy | popExchange | popRelease | popLeave | destroyAdd | destroySub
  | destroyRelease => simp [Local.emptied?]

theorem Inv.phased {c : Choice T} {p : Phase (Call T) (Result T)} (h : Inv P s)
    (hn : next leave s.shared (s.threads t) c = some (g, l, f))
    (hp : (s.threads t).Phased s.shared p)
    (hkeep : ∀ n, l.taken? = some n → StillHolds s.shared g n) :
    ∃ p', p.Moves f.mark? p' ∧ l.Phased g p' := by
  cases c with
  | call c =>
    by_cases hidle : (s.threads t).isIdle = true
    · rw [eq_idle hidle] at hn hp
      exact call_phased hn hp
    · simp [next, hidle] at hn
  | destroy =>
    by_cases hidle : (s.threads t).isIdle = true
    · rw [eq_idle hidle] at hn hp
      simp only [next] at hn
      split at hn
      · cases hn
        refine ⟨p, rfl, ?_⟩
        split <;> exact hp
      · cases hn
    · simp [next, hidle] at hn
  | step spurious =>
    by_cases hidle : (s.threads t).isIdle = true
    · simp [next, hidle] at hn
    · have hidle : (s.threads t).isIdle = false := by simpa using hidle
      have hready := h.ready (h.alive_of_busy hidle)
      obtain ⟨g', l', f', hstep, -⟩ := hready.step leave hidle spurious
      simp only [next, hidle, Bool.false_eq_true, if_false, hstep] at hn
      cases hn
      exact hready.phased hstep hp hkeep

theorem SafeAt.taken_before (hsafe : SafeAt P s t g l f) {u : Tid}
    (hu : (Function.update s.threads t l u).taken? = some n) :
    (∃ a, (s.threads a).taken? = some n) ∨ ∃ v, f = .popped n v := by
  by_cases hut : u = t
  · subst hut
    rw [Function.update_self] at hu
    exact (hsafe.taken n hu).imp_left fun htaken => ⟨u, htaken⟩
  · rw [Function.update_of_ne hut] at hu
    exact .inl ⟨u, hu⟩

theorem Inv.chain_same (h : Inv P s) (hsafe : SafeAt P s t g l f)
    (hptr : pointer g.packedPtr = pointer s.shared.packedPtr) (hpop : ∀ n v, f ≠ .popped n v)
    (hchain : s.shared.destroyed = false → Chain s.shared (pointer s.shared.packedPtr) q ∧
      ∀ u n, (s.threads u).taken? = some n → n ∉ q.map Prod.fst) :
    g.destroyed = false → Chain g (pointer g.packedPtr) q ∧
      ∀ u n, (Function.update s.threads t l u).taken? = some n → n ∉ q.map Prod.fst := by
  intro hd
  obtain ⟨hchain, hfree⟩ := hchain (hsafe.destroyed ▸ hd)
  refine ⟨?_, fun u n hu => ?_⟩
  · rw [hptr]
    exact h.chain_after hsafe hchain h.order.head (hptr ▸ head_owned hd) fun n hemptied =>
      hfree t n (taken_of_emptied hemptied)
  · obtain ⟨a, ha⟩ := (hsafe.taken_before hu).resolve_right fun ⟨v, hv⟩ => hpop n v hv
    exact hfree a n ha

section
variable (hst : Stacked es s) (h : Inv P s) (hsafe : SafeAt P s t g l f)
include hst h hsafe

theorem Stacked.stillHolds {Q : List ℕ} {c : Choice T}
    (hn : next leave s.shared (s.threads t) c = some (g, l, f))
    (h' : Inv Q ⟨g, Function.update s.threads t l⟩) {u : Tid}
    (hu : (Function.update s.threads t l u).taken? = some n) : StillHolds s.shared g n := by
  have hrefs := taken_refs (h'.ok u) hu
  have hold : n ∈ P ∧ (s.threads t).emptied? ≠ some n := by
    by_cases hut : u = t
    · subst hut
      rw [Function.update_self] at hu
      refine ⟨?_, not_emptied hn hsafe.noFault hu⟩
      rcases hsafe.taken n hu with htaken | ⟨v, rfl⟩
      · exact taken_mem (h.ok u) htaken
      · exact hsafe.effect.1 ▸ h.order.head
    · rw [Function.update_of_ne hut] at hu
      exact ⟨taken_mem (h.ok u) hu, fun hemptied =>
        hut (hst.distinct u t n hu (taken_of_emptied hemptied))⟩
  intro node hnode
  obtain ⟨node', hnode', -, hdata⟩ := h.node_after hsafe hnode (owned_of_refs hrefs) fun hpending =>
    (h.pending t n hpending).1 hold.1
  exact ⟨node', hnode', hdata hold.2⟩

theorem Stacked.contents_after
    (halive : ∀ o r, f.mark? = some (.commit o r) → s.shared.destroyed = false) :
    ∃ q, Accepts Lifo [] (commits (history (es ++ [(t, f)]))) (q.map Prod.snd) ∧
      (pushes (es ++ [(t, f)])).Perm (pops (es ++ [(t, f)]) ++ q) ∧ (g.destroyed = false →
        Chain g (pointer g.packedPtr) q ∧
          ∀ u n, (Function.update s.threads t l u).taken? = some n → n ∉ q.map Prod.fst) := by
  obtain ⟨q, haccepts, hperm, hchain⟩ := hst.contents
  rw [history, commits_snoc, pushes_snoc, pops_snoc]
  cases f with
  | pushed n v =>
    obtain ⟨hcall, hfree⟩ := hchain (halive _ _ rfl)
    obtain ⟨hptr, node, hnode, rfl, hprev⟩ := hsafe.effect
    obtain ⟨hpending, hbelow⟩ := hsafe.published n rfl
    have hprev0 := (h.order.created _ (hbelow node hnode)).1
    have htail := h.chain_after hsafe hcall h.order.head
      (hprev ▸ (prev_live hsafe.balanced_after hnode hprev0).1) fun m hemptied =>
        hfree t m (taken_of_emptied hemptied)
    refine ⟨(n, node.data) :: q, haccepts.snoc (.push _ _), ?_, fun _ => ⟨?_, fun u m hu => ?_⟩⟩
    · apply (hperm.append_right _).trans
      rw [List.append_assoc, List.append_assoc]
      exact List.Perm.append_left _ List.perm_append_comm
    · rw [hptr]
      exact .cons hnode (hprev ▸ htail)
    · rcases hsafe.taken_before hu with ⟨a, ha⟩ | ⟨v, hv⟩
      · refine List.not_mem_cons_of_ne_of_not_mem ?_ (hfree a m ha)
        rintro rfl
        exact (h.pending t _ hpending).1 (taken_mem (h.ok a) ha)
      · cases hv
  | popped n v =>
    obtain ⟨hcall, hfree⟩ := hchain (halive _ _ rfl)
    obtain ⟨hptr, node, hnode, rfl, hprev⟩ := hsafe.effect
    have hmem : n ∈ P := hptr ▸ h.order.head
    rw [hptr] at hcall
    obtain ⟨q, rfl, htail⟩ := hcall.uncons hnode h.node_one
    refine ⟨q, haccepts.snoc (.pop _ _), by simpa [Event.push?, Event.pop?] using hperm,
      fun hd => ⟨?_, fun u m hu => ?_⟩⟩
    · rw [← hprev]
      refine h.chain_after hsafe htail (h.order.prev_ne hmem hnode).1 (hprev ▸ head_owned hd)
        fun m hemptied hin => ?_
      exact hfree t m (taken_of_emptied hemptied) (List.mem_cons_of_mem _ hin)
    · rcases hsafe.taken_before hu with ⟨a, ha⟩ | ⟨v, hv⟩
      · exact fun hin => hfree a m ha (List.mem_cons_of_mem _ hin)
      · cases hv
        exact htail.head_notMem h.order hmem hnode
  | sawEmpty =>
    obtain ⟨hcall, -⟩ := hchain (halive _ _ rfl)
    obtain ⟨hone, hptr⟩ := hsafe.effect
    rw [hone] at hcall
    obtain rfl := hcall.of_one h.node_one
    exact ⟨[], haccepts.snoc .empty, by simpa [Event.push?, Event.pop?] using hperm,
      h.chain_same hsafe hptr (by simp) hchain⟩
  | called | returned | destroying | destroyed | silent =>
    refine ⟨q, by simpa [history, Event.mark?, Mark.commit?] using haccepts,
      by simpa [Event.push?, Event.pop?] using hperm,
      h.chain_same hsafe hsafe.effect (by simp) hchain⟩
  | fault => exact absurd rfl hsafe.noFault

end

theorem phase_idle {p : Phase (Call T) (Result T)} (hp : l.Phased g p)
    (hl : l.isIdle = true ∨ l.ending = true) : p = .idle := by
  cases l with
  | idle | destroyAdd | destroySub | destroyRelease => exact hp
  | pushGet | pushAssign | pushRelease | pushExchange | pushLeave | popGet | popAssign | popCopy
  | popExchange | popRelease | popMove | popLeave => rcases hl with hl | hl <;> cases hl

theorem Stacked.step (hst : Stacked es s) (h : Inv P s) (hs : (bounded leave Tid).Step s e s') :
    Stacked (es ++ [e]) s' := by
  obtain ⟨t, c, g, l, f, hn, rfl, rfl, hinv, hcase⟩ := h.step hs
  obtain ⟨ph, hfollows, hphased⟩ := hst.phases
  have hkeep : ∀ u n, (Function.update s.threads t l u).taken? = some n →
      StillHolds s.shared g n := by
    rcases hcase with hsafe | ⟨-, -, rfl, -⟩
    · exact fun u n hu => hst.stillHolds h hsafe hn hinv hu
    · exact fun u n _ node hnode => ⟨node, hnode, rfl⟩
  obtain ⟨p, hmoves, hp⟩ := h.phased hn (hphased t) fun n hl =>
    hkeep t n (by rwa [Function.update_self])
  -- no call is under way when the stack is destroyed
  have halive : ∀ o r, f.mark? = some (.commit o r) → s.shared.destroyed = false := by
    intro o r hm
    by_contra hd
    have hidle := phase_idle (hphased t) (h.ended (by simpa using hd) t)
    rw [hm, hidle] at hmoves
    cases hmoves
  refine ⟨⟨Function.update ph t p, hfollows.moves hmoves, fun u => ?_⟩, ?_, ?_⟩
  · by_cases hut : u = t
    · subst hut
      dsimp only
      rwa [Function.update_self, Function.update_self]
    · have hsame := hkeep u
      dsimp only
      rw [Function.update_of_ne hut] at hsame ⊢
      rw [Function.update_of_ne hut]
      exact (hphased u).mono hsame
  · refine Pool.distinct_update hst.distinct fun n hl => ?_
    rcases hcase with hsafe | ⟨-, -, -, rfl⟩
    · rcases hsafe.taken n hl with hold | ⟨v, rfl⟩
      · exact .inl hold
      · refine .inr fun u _ hu => ?_
        obtain ⟨q, -, -, hchain⟩ := hst.contents
        obtain ⟨hcall, hfree⟩ := hchain (halive _ _ rfl)
        obtain ⟨hptr, node, hnode, -⟩ := hsafe.effect
        obtain ⟨q, rfl, -⟩ := (hptr ▸ hcall).uncons hnode h.node_one
        exact hfree u n hu List.mem_cons_self
    · cases hl
  · rcases hcase with hsafe | ⟨-, rfl, rfl, -⟩
    · exact hst.contents_after h hsafe halive
    · obtain ⟨q, haccepts, hperm, -⟩ := hst.contents
      rw [history, commits_snoc, pushes_snoc, pops_snoc]
      exact ⟨q, by simpa [history, Event.mark?] using haccepts,
        by simpa [Event.push?, Event.pop?] using hperm, nofun⟩

theorem start_stacked : Stacked [] (bounded leave Tid).start where
  phases := ⟨fun _ => .idle, .nil, fun _ => rfl⟩
  distinct := nofun
  contents := by
    refine ⟨[], .nil [], .nil, fun _ => ⟨?_, nofun⟩⟩
    have hone : pointer (bounded leave Tid).start.shared.packedPtr = 1 := pointer_pack 1
    rw [hone]
    exact .nil

theorem stacked_of_run (h : (bounded leave Tid).Run es s) : Stacked es s :=
  Machine.Run.invariant (M := bounded leave Tid) start_stacked
    (fun _ _ _ _ hr hst hs => hst.step (inv_of_run hr).1 hs) h

/-- The calls take effect at `pushed`, `popped` and `sawEmpty`. What was pushed and not popped
is, with its nodes, what `head_` leads to, as long as the stack is not destroyed. -/
theorem lifo_of_run (h : (bounded leave Tid).Run es s) :
    Linearizable (history es) Lifo [] ∧ (∃ ph, Follows (history es) ph) ∧
      ((pushes es).map Prod.fst).Nodup ∧
      ∃ q, Accepts Lifo [] (commits (history es)) (q.map Prod.snd) ∧
        (pushes es).Perm (pops es ++ q) ∧
        (s.shared.destroyed = false → Chain s.shared (pointer s.shared.packedPtr) q) := by
  have hst := stacked_of_run h
  obtain ⟨ph, hfollows, -⟩ := hst.phases
  obtain ⟨q, haccepts, hperm, hchain⟩ := hst.contents
  have hnodup := (inv_of_run h).1.order.nodup
  rw [published_eq] at hnodup
  exact ⟨hfollows.linearizable haccepts, ⟨ph, hfollows⟩, hnodup.of_cons, q, haccepts, hperm,
    fun hd => (hchain hd).1⟩

theorem lifo_of_run_two : ∃ es s, (bounded id Bool : Machine _ (Bool × Choice ℕ) _).Run es s ∧
    Linearizable (history es) Lifo [] ∧ Chain s.shared 3 [(3, 7)] ∧
    (false, .returned (.popped 5)) ∈ es := by
  obtain ⟨es, s, hrun, hchain, hmem⟩ : ∃ es s,
      (bounded id Bool : Machine _ (Bool × Choice ℕ) _).Run es s ∧ Chain s.shared 3 [(3, 7)] ∧
        (false, .returned (.popped 5)) ∈ es := by
    refine ⟨_, _, Machine.Path.of_exec
      ((((true, .call (.push 5)) :: List.replicate 8 (true, .step false)) ++
        ((false, .call (.push 7)) :: List.replicate 22 (false, .step false)) ++
        List.replicate 27 (true, .step false)) ++
        ((false, .call .pop) :: List.replicate 24 (false, .step false))) rfl, ?_, ?_⟩
    · exact .cons (show _ = some (⟨1, 7⟩ : Node ℕ) from rfl) .nil
    · exact List.mem_of_getLast? rfl
  exact ⟨es, s, hrun, (lifo_of_run hrun).1, hchain, hmem⟩

end LockFree.LockFreeStack
