import SavannahNode.ForStd.Dag
import SavannahNode.Native.Avalanche
import SavannahNode.Spec.DirectedStatus

/-!
# Updating vertices

`update` visits a vertex after its parents, at most once between two resets of the caches, and
may decide it. A vertex that was visited is not touched again, one that was not visited is as
it was, and what is known of the transactions when a vertex is inspected still holds when it
is decided.

## Key results

- `settle_cases` — what deciding a vertex can do
- `update_spec` — one update keeps the invariants `Safe` and `Covered`
-/

namespace SavannahNode.Avalanche

open Except Finset Function List

/-- The vertex was undecided when the call was made, and the decision is justified by what
    vertices and transactions reported. -/
def VertexCall.Justified (dag : ID → Vertex) (call : VertexCall) : Prop :=
  (call.vtxStatus call.decision.id).decided = false ∧
  match call.decision with
  | .accept v => call.txStatus v = .accepted ∧
      (∀ tx ∈ (dag v).txs, call.txStatus tx.id = .accepted) ∧
      ∀ p ∈ (dag v).parents, call.vtxStatus p = .accepted
  | .reject v => call.txStatus v = .rejected ∨
      (∃ tx ∈ (dag v).txs, call.txStatus tx.id = .rejected) ∨
      ∃ p ∈ (dag v).parents, call.vtxStatus p = .rejected

namespace Topological

open Snowstorm (Tx Directed)
open Dag

variable {ta ta' ta'' : Topological} {order : RangeOrder ID} {height : ID → Nat} {n : Nat} {v : ID}

/-- The parents of a vertex. -/
def parents (ta : Topological) (v : ID) : List ID := (ta.dag v).parents

/-- The vertices visited since the caches were reset. -/
def visited (ta : Topological) : Finset ID := ta.preferenceCache.keys

/-! ## Inspecting a vertex -/

theorem acceptable_inspect (h : (ta.inspect v).acceptable = true) :
    ta.cg.decidables.status v = .accepted ∧
      ∀ tx ∈ (ta.dag v).txs, ta.cg.decidables.status tx.id = .accepted := by
  have hfold : ∀ (txs : List Tx) (w : View), (txs.foldl ta.inspectTx w).acceptable = true →
      w.acceptable = true ∧ ∀ tx ∈ txs, ta.cg.decidables.status tx.id = .accepted := by
    intro txs
    induction txs with
    | nil => exact fun w hw => ⟨hw, by simp⟩
    | cons tx txs ih =>
      intro w hw
      obtain ⟨hw, htxs⟩ := ih _ hw
      by_cases htx : ta.cg.decidables.status tx.id = .accepted
      · have hsame : ta.inspectTx w tx = w := by
          simp [inspectTx, htx]
        rw [hsame] at hw
        refine ⟨hw, fun tx' hmem => ?_⟩
        rcases mem_cons.mp hmem with rfl | hmem
        · exact htx
        · exact htxs tx' hmem
      have hfalse : (ta.inspectTx w tx).acceptable = false := by
        simp only [inspectTx]
        rw [if_pos htx]
      rw [hfalse] at hw
      cases hw
  obtain ⟨hv, htxs⟩ := hfold _ _ h
  exact ⟨of_decide_eq_true hv, htxs⟩

theorem rejectable_inspect (h : (ta.inspect v).rejectable = true) :
    ta.cg.decidables.status v = .rejected ∨
      ∃ tx ∈ (ta.dag v).txs, ta.cg.decidables.status tx.id = .rejected := by
  have hfold : ∀ (txs : List Tx) (w : View), (txs.foldl ta.inspectTx w).rejectable = true →
      w.rejectable = true ∨ ∃ tx ∈ txs, ta.cg.decidables.status tx.id = .rejected := by
    intro txs
    induction txs with
    | nil => exact fun w hw => .inl hw
    | cons tx txs ih =>
      intro w hw
      rcases ih _ hw with hw | ⟨tx', hmem, hrej⟩
      · by_cases htx : ta.cg.decidables.status tx.id = .rejected
        · exact .inr ⟨tx, mem_cons_self, htx⟩
        have hsame : (ta.inspectTx w tx).rejectable = w.rejectable := by
          simp only [inspectTx, if_neg htx]
          split <;> rfl
        rw [hsame] at hw
        exact .inl hw
      · exact .inr ⟨tx', mem_cons_of_mem _ hmem, hrej⟩
  rcases hfold _ _ h with hv | htx
  · exact .inl (of_decide_eq_true hv)
  · exact .inr htx

/-! ## Deciding a vertex -/

theorem onGraph_eq_ok {α : Type} {op : Except Snowstorm.Fault α} {a : α} :
    onGraph op = .ok a ↔ op = .ok a :=
  mapError_eq_ok

/-- Rejecting a vertex decides its transaction vertex as well. -/
theorem rejectVertex_spec (ht : ta.cg.Tidy) (h : ta.rejectVertex order v = .ok ta') :
    ta.cg.Evolves ta'.cg ∧ (ta'.cg.decidables.status v).decided = true ∧
      ta'.dag = ta.dag ∧ ta'.params = ta.params ∧
      ta'.vts = ta.vts.reject ta.cg.decidables.status v ∧ ta'.nodes = ta.nodes.erase v ∧
      ta'.frontier = ta.frontier ∧ ta'.preferenceCache = ta.preferenceCache := by
  obtain ⟨ta1, h1, h⟩ := bind_eq_ok.mp h
  rw [removeTxv] at h1
  split at h1
  · rename_i hdecided
    cases h1
    cases h
    exact ⟨.refl ht, hdecided, rfl, rfl, rfl, rfl, rfl, rfl⟩
  obtain ⟨cg, hcg, h1⟩ := bind_eq_ok.mp h1
  rw [onGraph_eq_ok] at hcg
  cases h1
  cases h
  have hstatus := Directed.status_of_remove ht hcg
  refine ⟨(Directed.moves_remove ht hcg).evolves ht, ?_, rfl, rfl, rfl, rfl, rfl, rfl⟩
  rw [hstatus]
  rfl

theorem place_spec (ta : Topological) (v : ID) (w : View) :
    (ta.place v w).cg = ta.cg ∧ (ta.place v w).dag = ta.dag ∧
      (ta.place v w).params = ta.params ∧ (ta.place v w).vts = ta.vts ∧
      (ta.place v w).nodes = ta.nodes ∧
      (ta.place v w).frontier = insert v (ta.frontier \ (ta.parents v).toFinset) ∧
      (ta.place v w).preferenceCache = ta.preferenceCache.insert v w.preferred := by
  rw [place]
  split <;> split <;> exact ⟨rfl, rfl, rfl, rfl, rfl, rfl, rfl⟩

/-- How `settle` decides a vertex. -/
inductive Outcome (ta ta' : Topological) (v : ID) (w : View) : Prop where
  /-- A rejected parent: the frontier stays. -/
  | orphaned (hparent : ∃ p ∈ ta.parents v, ta.vts.status p = .rejected)
      (hfrontier : ta'.frontier = ta.frontier)
      (hvts : ta'.vts = ta.vts.reject ta.cg.decidables.status v)
      (hnodes : ta'.nodes = ta.nodes.erase v) (htxv : (ta'.cg.decidables.status v).decided = true)
  | accepted (hparents : ∀ p ∈ ta.parents v, ta.vts.status p = .accepted)
      (hview : w.acceptable = true) (hcg : ta'.cg = ta.cg)
      (hfrontier : ta'.frontier = insert v (ta.frontier \ (ta.parents v).toFinset))
      (hvts : ta'.vts = ta.vts.accept ta.cg.decidables.status v)
      (hnodes : ta'.nodes = ta.nodes.erase v)
  | rejected (hparents : ∀ p ∈ ta.parents v, ta.vts.status p ≠ .rejected)
      (hview : w.rejectable = true)
      (hfrontier : ta'.frontier = insert v (ta.frontier \ (ta.parents v).toFinset))
      (hvts : ta'.vts = ta.vts.reject ta.cg.decidables.status v)
      (hnodes : ta'.nodes = ta.nodes.erase v) (htxv : (ta'.cg.decidables.status v).decided = true)
  | undecided (hparents : ∀ p ∈ ta.parents v, ta.vts.status p ≠ .rejected)
      (hfrontier : ta'.frontier = insert v (ta.frontier \ (ta.parents v).toFinset))
      (hvts : ta'.vts = ta.vts) (hnodes : ta'.nodes = ta.nodes)

theorem settle_cases {w : View} (ht : ta.cg.Tidy) (h : ta.settle order v w = .ok ta') :
    ta.cg.Evolves ta'.cg ∧ ta'.dag = ta.dag ∧ ta'.params = ta.params ∧
      ta'.visited = insert v ta.visited ∧ Outcome ta ta' v w := by
  rw [settle] at h
  split at h
  · rename_i hany
    obtain ⟨ta1, h1, h⟩ := bind_eq_ok.mp h
    cases h
    obtain ⟨hcg, htxv, hdag, hparams, hvts, hnodes, hfrontier, hcache⟩ := rejectVertex_spec ht h1
    obtain ⟨p, hp, hrej⟩ := any_eq_true.mp hany
    refine ⟨hcg, hdag, hparams, ?_, .orphaned ⟨p, hp, of_decide_eq_true hrej⟩ hfrontier hvts
      hnodes htxv⟩
    show (ta1.preferenceCache.insert v false).keys = _
    rw [Finmap.keys_insert, hcache]
    rfl
  rename_i hany
  have hparents : ∀ p ∈ ta.parents v, ta.vts.status p ≠ .rejected := by
    intro p hp hrej
    exact hany (any_eq_true.mpr ⟨p, hp, decide_eq_true hrej⟩)
  obtain ⟨hcg, hdag, hparams, hvts, hnodes, hfrontier, hcache⟩ := place_spec ta v w
  have hvisited : (ta.place v w).visited = insert v ta.visited := by
    rw [visited, hcache, Finmap.keys_insert]
    rfl
  dsimp only at h
  split at h
  · rename_i hacc
    cases h
    obtain ⟨hview, hall⟩ := (Bool.and_eq_true _ _).mp hacc
    refine ⟨by rw [hcg]; exact .refl ht, hdag, hparams, hvisited, .accepted ?_ hview hcg
      hfrontier ?_ ?_⟩
    · exact fun p hp => of_decide_eq_true (all_eq_true.mp hall p hp)
    · rw [hvts, hcg]
    · rw [hnodes]
  split at h
  · rename_i hview
    obtain ⟨hcg', htxv, hdag', hparams', hvts', hnodes', hfrontier', hcache'⟩ :=
      rejectVertex_spec (by rw [hcg]; exact ht) h
    rw [hcg] at hcg' hvts'
    rw [hvts] at hvts'
    rw [hnodes] at hnodes'
    refine ⟨hcg', hdag'.trans hdag, hparams'.trans hparams, ?_, .rejected hparents hview
      (hfrontier'.trans hfrontier) hvts' hnodes' htxv⟩
    rw [visited, hcache']
    exact hvisited
  cases h
  exact ⟨by rw [hcg]; exact .refl ht, hdag, hparams, hvisited,
    .undecided hparents hfrontier hvts hnodes⟩

/-! ## What an update leaves alone -/

/-- `ta'` is `ta` after some vertices were updated. -/
structure Updates (ta ta' : Topological) : Prop where
  dag_eq : ta'.dag = ta.dag
  params_eq : ta'.params = ta.params
  graph : ta.cg.Evolves ta'.cg
  visited_sub : ta.visited ⊆ ta'.visited
  nodes_sub : ta'.nodes ⊆ ta.nodes
  status_kept : ∀ w, (ta.vts.status w).decided = true → ta'.vts.status w = ta.vts.status w
  same : ∀ w, w ∈ ta.visited ∨ w ∉ ta'.visited →
    ta'.vts.status w = ta.vts.status w ∧ (w ∈ ta'.nodes ↔ w ∈ ta.nodes)
  parents_visited : ∀ w ∈ ta'.visited, w ∉ ta.visited → w ∈ ta.nodes →
    ∀ p ∈ ta.parents w, p ∈ ta'.visited

theorem Updates.refl (h : ta.cg.Tidy) : ta.Updates ta where
  dag_eq := rfl
  params_eq := rfl
  graph := .refl h
  visited_sub := Finset.Subset.refl _
  nodes_sub := Finset.Subset.refl _
  status_kept := fun _ _ => rfl
  same := fun _ _ => ⟨rfl, Iff.rfl⟩
  parents_visited := fun _ hw hnot => absurd hw hnot

theorem Updates.parents_eq (h : ta.Updates ta') : ta'.parents = ta.parents := by
  funext v
  rw [parents, h.dag_eq]
  rfl

theorem Updates.trans (h : ta.Updates ta') (h' : ta'.Updates ta'') : ta.Updates ta'' where
  dag_eq := h'.dag_eq.trans h.dag_eq
  params_eq := h'.params_eq.trans h.params_eq
  graph := h.graph.trans h'.graph
  visited_sub := h.visited_sub.trans h'.visited_sub
  nodes_sub := h'.nodes_sub.trans h.nodes_sub
  status_kept := by
    intro w hw
    have hsame := h.status_kept w hw
    rw [← hsame] at hw
    exact (h'.status_kept w hw).trans hsame
  same := by
    intro w hw
    have h1 : w ∈ ta.visited ∨ w ∉ ta'.visited :=
      hw.imp id fun hnot hmem => hnot (h'.visited_sub hmem)
    have h2 : w ∈ ta'.visited ∨ w ∉ ta''.visited := hw.imp (fun hmem => h.visited_sub hmem) id
    exact ⟨(h'.same w h2).1.trans (h.same w h1).1, (h'.same w h2).2.trans (h.same w h1).2⟩
  parents_visited := by
    intro w hw hnot hmem p hp
    by_cases hw' : w ∈ ta'.visited
    · exact h'.visited_sub (h.parents_visited w hw' hnot hmem p hp)
    have hmem' := (h.same w (.inr hw')).2.mpr hmem
    exact h'.parents_visited w hw hw' hmem' p (by rw [h.parents_eq]; exact hp)

/-- Only vertices lower than `n` were visited. -/
def VisitsBelow (height : ID → Nat) (n : Nat) (ta ta' : Topological) : Prop :=
  ∀ w, n ≤ height w → w ∈ ta'.visited → w ∈ ta.visited

theorem VisitsBelow.trans (h : VisitsBelow height n ta ta') (h' : VisitsBelow height n ta' ta'') :
    VisitsBelow height n ta ta'' :=
  fun w hw hmem => h w hw (h' w hw hmem)

theorem VisitsBelow.mono {m : Nat} (h : VisitsBelow height n ta ta') (hle : n ≤ m) :
    VisitsBelow height m ta ta' :=
  fun w hw => h w (hle.trans hw)

/-! ## The invariants -/

/-- Vertices are decided once, for good reasons, and then no longer processing. -/
structure Safe (ta : Topological) : Prop where
  tidy : ta.cg.Tidy
  undecided : ∀ v ∈ ta.nodes, (ta.vts.status v).decided = false
  known : ∀ v ∈ ta.visited, v ∈ ta.nodes ∨ (ta.vts.status v).decided = true
  justified : ∀ call ∈ ta.vts.calls, call.Justified ta.dag
  nodup : (ta.vts.calls.map fun call => call.decision.id).Nodup
  called : ∀ call ∈ ta.vts.calls, (ta.vts.status call.decision.id).decided = true ∧
    (ta.cg.decidables.status call.decision.id).decided = true

/-- A decided vertex is not processing. -/
theorem Safe.notMem_nodes (h : ta.Safe) (hv : (ta.vts.status v).decided = true) : v ∉ ta.nodes := by
  intro hmem
  rw [h.undecided v hmem] at hv
  cases hv

/-- The processing vertices that were visited are ancestors of the frontier. -/
structure Covered (ta : Topological) : Prop where
  frontier_visited : ta.frontier ⊆ ta.visited
  covered : ∀ v ∈ ta.nodes, v ∈ ta.visited → ∃ f ∈ ta.frontier, Ancestor ta.parents f v
  parents_kept : ∀ v ∈ ta.visited, v ∈ ta.nodes ∨ v ∈ ta.frontier ∧ ta.vts.status v = .rejected →
    ∀ p ∈ ta.parents v, p ∈ ta.visited ∧ ta.vts.status p ≠ .rejected

/-- The parents of accepted vertices are accepted. -/
def Rooted (ta : Topological) : Prop :=
  ∀ v, ta.vts.status v = .accepted → ∀ p ∈ ta.parents v, ta.vts.status p = .accepted

/-! ## One vertex settled -/

section Settle

variable {v : ID} {w : View}

/-- What is known when the parents of a vertex were updated. -/
structure Ready (ta : Topological) (v : ID) (w : View) : Prop where
  mem_nodes : v ∈ ta.nodes
  notMem_visited : v ∉ ta.visited
  parents_visited : ∀ p ∈ ta.parents v, p ∈ ta.visited
  acceptable : w.acceptable = true → ta.cg.decidables.status v = .accepted ∧
    ∀ tx ∈ (ta.dag v).txs, ta.cg.decidables.status tx.id = .accepted
  rejectable : w.rejectable = true → ta.cg.decidables.status v = .rejected ∨
    ∃ tx ∈ (ta.dag v).txs, ta.cg.decidables.status tx.id = .rejected

/-- Only the vertex itself may change its status or be removed. -/
theorem Outcome.same (h : Outcome ta ta' v w) {x : ID} (hx : x ≠ v) :
    ta'.vts.status x = ta.vts.status x ∧ (x ∈ ta'.nodes ↔ x ∈ ta.nodes) := by
  have herase : x ∈ ta.nodes.erase v ↔ x ∈ ta.nodes := mem_erase.trans (and_iff_right hx)
  cases h with
  | orphaned _ _ hvts hnodes _ =>
    rw [hvts, hnodes]
    exact ⟨update_of_ne hx _ _, herase⟩
  | accepted _ _ _ _ hvts hnodes =>
    rw [hvts, hnodes]
    exact ⟨update_of_ne hx _ _, herase⟩
  | rejected _ _ _ hvts hnodes _ =>
    rw [hvts, hnodes]
    exact ⟨update_of_ne hx _ _, herase⟩
  | undecided _ _ hvts hnodes =>
    rw [hvts, hnodes]
    exact ⟨rfl, Iff.rfl⟩

theorem Outcome.nodes_sub (h : Outcome ta ta' v w) : ta'.nodes ⊆ ta.nodes := by
  cases h with
  | orphaned _ _ _ hnodes _ => rw [hnodes]; exact erase_subset _ _
  | accepted _ _ _ _ _ hnodes => rw [hnodes]; exact erase_subset _ _
  | rejected _ _ _ _ hnodes _ => rw [hnodes]; exact erase_subset _ _
  | undecided _ _ _ hnodes => rw [hnodes]

theorem updates_settle (hsafe : ta.Safe) (hready : ta.Ready v w)
    (h : ta.settle order v w = .ok ta') : ta.Updates ta' := by
  obtain ⟨hgraph, hdag, hparams, hvisited, hout⟩ := settle_cases hsafe.tidy h
  refine ⟨hdag, hparams, hgraph, ?_, hout.nodes_sub, ?_, ?_, ?_⟩
  · rw [hvisited]
    exact subset_insert _ _
  · intro x hx
    refine (hout.same ?_).1
    rintro rfl
    exact hsafe.notMem_nodes hx hready.mem_nodes
  · intro x hx
    refine hout.same ?_
    rintro rfl
    rw [hvisited] at hx
    rcases hx with hx | hx
    · exact hready.notMem_visited hx
    · exact hx (mem_insert_self _ _)
  intro x hx hnot _ p hp
  rw [hvisited, mem_insert] at hx ⊢
  rcases hx with rfl | hx
  · exact .inr (hready.parents_visited p hp)
  · exact absurd hx hnot

/-- The invariant after a call on a vertex that was still undecided. -/
theorem Safe.of_call (call : VertexCall) (hsafe : ta.Safe) (hupd : ta.Updates ta')
    (hid : call.decision.id = v) (hmem : v ∈ ta.nodes) (hvisited : ta'.visited = insert v ta.visited)
    (hnodes : ta'.nodes = ta.nodes.erase v) (hcalls : ta'.vts.calls = ta.vts.calls ++ [call])
    (hstatus : (ta'.vts.status v).decided = true)
    (htxv : (ta'.cg.decidables.status v).decided = true) (hjust : call.Justified ta.dag) :
    ta'.Safe := by
  refine ⟨hupd.graph.tidy, ?_, ?_, ?_, ?_, ?_⟩
  · intro x hx
    have hne : x ≠ v := by
      rintro rfl
      rw [hnodes] at hx
      exact notMem_erase x _ hx
    by_contra hdec
    rw [Bool.not_eq_false] at hdec
    -- a vertex other than the one called has the status it had
    have hx' := hupd.nodes_sub hx
    have hsame : ta'.vts.status x = ta.vts.status x := by
      refine (hupd.same x ?_).1
      by_cases hvis : x ∈ ta.visited
      · exact .inl hvis
      refine .inr ?_
      rw [hvisited, mem_insert]
      tauto
    rw [hsame, hsafe.undecided x hx'] at hdec
    cases hdec
  · intro x hx
    rw [hvisited, mem_insert] at hx
    rcases hx with rfl | hx
    · exact .inr hstatus
    rw [(hupd.same x (.inl hx)).1, (hupd.same x (.inl hx)).2]
    exact hsafe.known x hx
  · rw [hupd.dag_eq, hcalls]
    intro c hc
    rcases mem_append.mp hc with hc | hc
    · exact hsafe.justified c hc
    rw [List.mem_singleton] at hc
    rw [hc]
    exact hjust
  · rw [hcalls, List.map_append, List.map_singleton, hid]
    refine List.Nodup.append hsafe.nodup (nodup_singleton v) ?_
    intro x hx hx'
    rw [List.mem_singleton] at hx'
    subst hx'
    obtain ⟨c, hc, hcid⟩ := mem_map.mp hx
    have := (hsafe.called c hc).1
    rw [hcid] at this
    exact hsafe.notMem_nodes this hmem
  · rw [hcalls]
    intro c hc
    rcases mem_append.mp hc with hc | hc
    · obtain ⟨h1, h2⟩ := hsafe.called c hc
      rw [hupd.status_kept _ h1, hupd.graph.status_eq _ h2]
      exact ⟨h1, h2⟩
    rw [List.mem_singleton] at hc
    rw [hc, hid]
    exact ⟨hstatus, htxv⟩

theorem safe_settle (hsafe : ta.Safe) (hready : ta.Ready v w)
    (h : ta.settle order v w = .ok ta') : ta'.Safe := by
  have hupd := updates_settle hsafe hready h
  have hund := hsafe.undecided v hready.mem_nodes
  obtain ⟨-, hdag, -, hvisited, hout⟩ := settle_cases hsafe.tidy h
  cases hout with
  | orphaned hparent _ hvts hnodes htxv =>
    refine Safe.of_call ⟨.reject v, ta.vts.status, ta.cg.decidables.status⟩ hsafe hupd rfl
      hready.mem_nodes hvisited hnodes (by rw [hvts]; rfl) ?_ htxv
      ⟨hund, .inr (.inr hparent)⟩
    rw [hvts]
    exact congrArg _ (update_self v _ _)
  | accepted hparents hview hcg _ hvts hnodes =>
    obtain ⟨htxv, htxs⟩ := hready.acceptable hview
    refine Safe.of_call ⟨.accept v, ta.vts.status, ta.cg.decidables.status⟩ hsafe hupd rfl
      hready.mem_nodes hvisited hnodes (by rw [hvts]; rfl) ?_ ?_
      ⟨hund, htxv, htxs, hparents⟩
    · rw [hvts]
      exact congrArg _ (update_self v _ _)
    · rw [hcg]
      exact congrArg Status.decided htxv
  | rejected _ hview _ hvts hnodes htxv =>
    refine Safe.of_call ⟨.reject v, ta.vts.status, ta.cg.decidables.status⟩ hsafe hupd rfl
      hready.mem_nodes hvisited hnodes (by rw [hvts]; rfl) ?_ htxv ?_
    · rw [hvts]
      exact congrArg _ (update_self v _ _)
    · rcases hready.rejectable hview with hv | htx
      · exact ⟨hund, .inl hv⟩
      · exact ⟨hund, .inr (.inl htx)⟩
  | undecided _ _ hvts hnodes =>
    refine ⟨hupd.graph.tidy, ?_, ?_, ?_, ?_, ?_⟩
    · rw [hvts, hnodes]
      exact hsafe.undecided
    · rw [hvts, hnodes, hvisited]
      intro x hx
      rcases mem_insert.mp hx with rfl | hx
      · exact .inl hready.mem_nodes
      · exact hsafe.known x hx
    · rw [hvts, hdag]
      exact hsafe.justified
    · rw [hvts]
      exact hsafe.nodup
    rw [hvts]
    intro c hc
    obtain ⟨h1, h2⟩ := hsafe.called c hc
    rw [hupd.graph.status_eq _ h2]
    exact ⟨h1, h2⟩

/-- Replacing the parents of a vertex by the vertex loses no ancestor. -/
theorem exists_ancestor_replace {frontier : Finset ID} {parents : ID → List ID} {v x : ID}
    (h : ∃ f ∈ frontier, Ancestor parents f x) :
    ∃ f ∈ insert v (frontier \ (parents v).toFinset), Ancestor parents f x := by
  obtain ⟨f, hf, hanc⟩ := h
  by_cases hp : f ∈ parents v
  · exact ⟨v, mem_insert_self _ _, ((Ancestor.refl v).tail hp).trans hanc⟩
  refine ⟨f, mem_insert_of_mem (mem_sdiff.mpr ⟨hf, ?_⟩), hanc⟩
  rw [mem_toFinset]
  exact hp

theorem covered_settle (hsafe : ta.Safe) (hcov : ta.Covered) (hready : ta.Ready v w)
    (h : ta.settle order v w = .ok ta') : ta'.Covered := by
  have hupd := updates_settle hsafe hready h
  have hparents := hupd.parents_eq
  obtain ⟨-, -, -, hvisited, hout⟩ := settle_cases hsafe.tidy h
  -- the new frontier, apart from the vertex itself, is part of the old one
  have hfrontier : ∀ f ∈ ta'.frontier, f = v ∨ f ∈ ta.frontier := by
    intro f hf
    cases hout with
    | orphaned _ hfr => exact .inr (by rw [← hfr]; exact hf)
    | accepted _ _ _ hfr =>
      rw [hfr] at hf
      exact (mem_insert.mp hf).imp id fun h => (mem_sdiff.mp h).1
    | rejected _ _ hfr =>
      rw [hfr] at hf
      exact (mem_insert.mp hf).imp id fun h => (mem_sdiff.mp h).1
    | undecided _ hfr =>
      rw [hfr] at hf
      exact (mem_insert.mp hf).imp id fun h => (mem_sdiff.mp h).1
  have hkeep : ∀ x, (∃ f ∈ ta.frontier, Ancestor ta.parents f x) →
      ∃ f ∈ ta'.frontier, Ancestor ta.parents f x := by
    intro x hx
    cases hout with
    | orphaned _ hfr => rw [hfr]; exact hx
    | accepted _ _ _ hfr => rw [hfr]; exact exists_ancestor_replace hx
    | rejected _ _ hfr => rw [hfr]; exact exists_ancestor_replace hx
    | undecided _ hfr => rw [hfr]; exact exists_ancestor_replace hx
  -- if the vertex stays processing or in the frontier, no parent of it is rejected
  have hself : v ∈ ta'.nodes ∨ v ∈ ta'.frontier ∧ ta'.vts.status v = .rejected →
      v ∈ ta'.frontier ∧ ∀ p ∈ ta.parents v, ta.vts.status p ≠ .rejected := by
    intro hv
    cases hout with
    | orphaned _ hfr _ hnodes =>
      rcases hv with hv | hv
      · rw [hnodes] at hv
        exact absurd hv (notMem_erase v _)
      rw [hfr] at hv
      exact absurd (hcov.frontier_visited hv.1) hready.notMem_visited
    | accepted hpar _ _ hfr hvts hnodes =>
      rcases hv with hv | hv
      · rw [hnodes] at hv
        exact absurd hv (notMem_erase v _)
      have hacc : ta'.vts.status v = .accepted := by
        rw [hvts]
        exact update_self _ _ _
      rw [hacc] at hv
      cases hv.2
    | rejected hpar _ hfr =>
      rw [hfr]
      exact ⟨mem_insert_self _ _, hpar⟩
    | undecided hpar hfr =>
      rw [hfr]
      exact ⟨mem_insert_self _ _, hpar⟩
  refine ⟨?_, ?_, ?_⟩
  · intro f hf
    rw [hvisited, mem_insert]
    exact (hfrontier f hf).imp id fun h => hcov.frontier_visited h
  · intro x hx hvis
    rw [hparents]
    rw [hvisited, mem_insert] at hvis
    rcases hvis with rfl | hvis
    · exact ⟨x, (hself (.inl hx)).1, .refl x⟩
    · exact hkeep x (hcov.covered x (hupd.nodes_sub hx) hvis)
  intro x hvis hx p hp
  rw [hparents] at hp
  rw [hvisited, mem_insert] at hvis
  have hp' : p ∈ ta.visited ∧ ta.vts.status p ≠ .rejected := by
    by_cases hxv : x = v
    · subst hxv
      exact ⟨hready.parents_visited p hp, (hself hx).2 p hp⟩
    have hvis' := hvis.resolve_left hxv
    refine hcov.parents_kept x hvis' ?_ p hp
    rcases hx with hx | hx
    · exact .inl (hupd.nodes_sub hx)
    rw [(hupd.same x (.inl hvis')).1] at hx
    exact .inr ⟨(hfrontier x hx.1).resolve_left hxv, hx.2⟩
  exact ⟨hupd.visited_sub hp'.1, by rw [(hupd.same p (.inl hp'.1)).1]; exact hp'.2⟩

theorem rooted_settle (hsafe : ta.Safe) (hrooted : ta.Rooted) (hready : ta.Ready v w)
    (h : ta.settle order v w = .ok ta') : ta'.Rooted := by
  have hupd := updates_settle hsafe hready h
  obtain ⟨-, -, -, -, hout⟩ := settle_cases hsafe.tidy h
  intro x hx p hp
  rw [hupd.parents_eq] at hp
  have hacc : ta.vts.status p = .accepted := by
    by_cases hxv : x = v
    · subst hxv
      cases hout with
      | orphaned _ _ hvts =>
        rw [hvts] at hx
        cases (update_self x _ _).symm.trans hx
      | accepted hpar => exact hpar p hp
      | rejected _ _ _ hvts =>
        rw [hvts] at hx
        cases (update_self x _ _).symm.trans hx
      | undecided _ _ hvts =>
        rw [hvts] at hx
        exact hrooted x hx p hp
    rw [(hout.same hxv).1] at hx
    exact hrooted x hx p hp
  rw [hupd.status_kept p (by rw [hacc]; rfl)]
  exact hacc

end Settle

/-! ## Updating -/

/-- What an update does, and the invariants it keeps. -/
structure Visits (height : ID → Nat) (n : Nat) (ta ta' : Topological) : Prop where
  updates : ta.Updates ta'
  below : VisitsBelow height n ta ta'
  safe : ta'.Safe
  covered : ta'.Covered
  rooted : ta.Rooted → ta'.Rooted

theorem Visits.refl (hsafe : ta.Safe) (hcov : ta.Covered) : Visits height n ta ta :=
  ⟨.refl hsafe.tidy, fun _ _ h => h, hsafe, hcov, id⟩

theorem Visits.trans (h : Visits height n ta ta') (h' : Visits height n ta' ta'') :
    Visits height n ta ta'' :=
  ⟨h.updates.trans h'.updates, h.below.trans h'.below, h'.safe, h'.covered,
    fun hr => h'.rooted (h.rooted hr)⟩

theorem Visits.mono {m : Nat} (h : Visits height n ta ta') (hle : n ≤ m) : Visits height m ta ta' :=
  { h with below := h.below.mono hle }

/-- A vertex that is already decided is visited. -/
theorem visits_decided (hsafe : ta.Safe) (hcov : ta.Covered)
    (hv : (ta.vts.status v).decided = true) (hnot : v ∉ ta.visited)
    (hdag : ta'.dag = ta.dag) (hparams : ta'.params = ta.params) (hcg : ta'.cg = ta.cg)
    (hvts : ta'.vts = ta.vts) (hnodes : ta'.nodes = ta.nodes)
    (hvisited : ta'.visited = insert v ta.visited)
    (hfrontier : ta'.frontier = ta.frontier ∨
      ta'.frontier = insert v ta.frontier ∧ ta.vts.status v = .accepted) :
    Visits height (height v + 1) ta ta' := by
  have hv' : v ∉ ta.nodes := hsafe.notMem_nodes hv
  have hparents : ta'.parents = ta.parents := by
    funext x
    rw [parents, hdag]
    rfl
  have hfr : ∀ f ∈ ta'.frontier, f ∈ ta.frontier ∨ f = v ∧ ta.vts.status v = .accepted := by
    intro f hf
    rcases hfrontier with h | ⟨h, hacc⟩
    · exact .inl (by rw [← h]; exact hf)
    rw [h] at hf
    exact (mem_insert.mp hf).elim (fun h => .inr ⟨h, hacc⟩) .inl
  have hfr' : ta.frontier ⊆ ta'.frontier := by
    rcases hfrontier with h | ⟨h, -⟩
    · rw [h]
    rw [h]
    exact subset_insert _ _
  refine ⟨⟨hdag, hparams, ?_, ?_, by rw [hnodes], ?_, ?_, ?_⟩, ?_, ⟨?_, ?_, ?_, ?_, ?_, ?_⟩,
    ⟨?_, ?_, ?_⟩, ?_⟩
  -- the traversal only adds `v` to what is visited
  · rw [hcg]
    exact .refl hsafe.tidy
  · rw [hvisited]
    exact subset_insert _ _
  · exact fun x _ => by rw [hvts]
  · exact fun x _ => ⟨by rw [hvts], by rw [hnodes]⟩
  · intro x hx hx' hmem
    rw [hvisited, mem_insert] at hx
    rcases hx with rfl | hx
    · exact absurd hmem hv'
    · exact absurd hx hx'
  · intro x hle hx
    rw [hvisited, mem_insert] at hx
    rcases hx with rfl | hx
    · omega
    · exact hx
  -- statuses and transactions are as before
  · rw [hcg]
    exact hsafe.tidy
  · rw [hvts, hnodes]
    exact hsafe.undecided
  · rw [hvts, hnodes, hvisited]
    intro x hx
    rcases mem_insert.mp hx with rfl | hx
    · exact .inr hv
    · exact hsafe.known x hx
  · rw [hvts, hdag]
    exact hsafe.justified
  · rw [hvts]
    exact hsafe.nodup
  · rw [hvts, hcg]
    exact hsafe.called
  -- what `v` covers is no node, so the old frontier covers the nodes
  · intro f hf
    rw [hvisited, mem_insert]
    rcases hfr f hf with hf | ⟨rfl, -⟩
    · exact .inr (hcov.frontier_visited hf)
    · exact .inl rfl
  · intro x hx hvis
    rw [hnodes] at hx
    rw [hvisited, mem_insert] at hvis
    have hne : x ≠ v := by
      rintro rfl
      exact hv' hx
    obtain ⟨f, hf, hanc⟩ := hcov.covered x hx (hvis.resolve_left hne)
    rw [hparents]
    exact ⟨f, hfr' hf, hanc⟩
  · rw [hvts, hnodes, hparents]
    intro x hvis hx p hp
    rw [hvisited, mem_insert] at hvis
    -- only an accepted vertex is put into the frontier
    have hx' : x ∈ ta.nodes ∨ x ∈ ta.frontier ∧ ta.vts.status x = .rejected := by
      rcases hx with hx | ⟨hx, hrej⟩
      · exact .inl hx
      rcases hfr x hx with hx | ⟨rfl, hacc⟩
      · exact .inr ⟨hx, hrej⟩
      rw [hacc] at hrej
      cases hrej
    have hne : x ≠ v := by
      rintro rfl
      rcases hx' with hx' | hx'
      · exact hv' hx'
      · exact hnot (hcov.frontier_visited hx'.1)
    obtain ⟨hp1, hp2⟩ := hcov.parents_kept x (hvis.resolve_left hne) hx' p hp
    rw [hvisited]
    exact ⟨mem_insert_of_mem hp1, hp2⟩
  · intro hrooted
    rw [Rooted, hvts, hparents]
    exact hrooted

/-- Facts that don't depend on the orphans. -/
theorem visits_eraseOrphan (hsafe : ta.Safe) (hcov : ta.Covered) (v : ID) :
    Visits height n ta { ta with orphans := ta.orphans.erase v } :=
  ⟨⟨rfl, rfl, .refl hsafe.tidy, Finset.Subset.refl _, Finset.Subset.refl _, fun _ _ => rfl,
    fun _ _ => ⟨rfl, Iff.rfl⟩, fun _ hw hnot => absurd hw hnot⟩, fun _ _ h => h,
    { hsafe with },
    { hcov with }, id⟩

/-- The loop over the parents, once `update` is known to visit each of them. -/
theorem visits_parents {update : Topological → ID → Except Fault Topological}
    {w : View} {s : Topological × View}
    (hupdate : ∀ ta1 ta2 p, ta1.dag = ta.dag → ta1.Safe → ta1.Covered → p ∈ ta.parents v →
      update ta1 p = .ok ta2 → Visits height (height v) ta1 ta2 ∧ p ∈ ta2.visited)
    (hsafe : ta.Safe) (hcov : ta.Covered)
    (h : (ta.parents v).foldlM (updateParent update) (ta, w) = .ok s) :
    Visits height (height v) ta s.1 ∧ (∀ p ∈ ta.parents v, p ∈ s.1.visited) ∧
      s.2.acceptable = w.acceptable ∧ s.2.rejectable = w.rejectable := by
  refine foldlM_ok_history (P := fun done s => Visits height (height v) ta s.1 ∧
      (∀ p ∈ done, p ∈ s.1.visited) ∧ s.2.acceptable = w.acceptable ∧
      s.2.rejectable = w.rejectable) h ⟨.refl hsafe hcov, by simp, rfl, rfl⟩ ?_
  rintro done p rest s s' hl ⟨hvisits, hdone, hacc, hrej⟩ hs'
  obtain ⟨ta1, h1, hs'⟩ := bind_eq_ok.mp hs'
  cases hs'
  have hp : p ∈ ta.parents v := by
    rw [hl]
    exact mem_append_right _ mem_cons_self
  obtain ⟨hvisits', hp'⟩ := hupdate s.1 ta1 p hvisits.updates.dag_eq hvisits.safe hvisits.covered
    hp h1
  refine ⟨hvisits.trans hvisits', fun q hq => ?_, hacc, hrej⟩
  rcases mem_append.mp hq with hq | hq
  · exact hvisits'.updates.visited_sub (hdone q hq)
  rw [List.mem_singleton] at hq
  rw [hq]
  exact hp'

/-- One update: the invariants hold again, and the vertex was visited. -/
theorem update_spec (order : RangeOrder ID) (fuel : Nat)
    (hheight : ∀ v, ∀ p ∈ ta.parents v, height p < height v) (hsafe : ta.Safe)
    (hcov : ta.Covered) (h : update order fuel ta v = .ok ta') :
    Visits height (height v + 1) ta ta' ∧ v ∈ ta'.visited := by
  induction fuel generalizing ta ta' v with
  | zero => cases h
  | succ fuel ih =>
    rw [update] at h
    split at h
    · rename_i b hcache
      cases h
      exact ⟨.refl hsafe hcov, (Finmap.mem_keys_iff _ _).mpr ⟨b, hcache⟩⟩
    rename_i hcache
    have hnot : v ∉ ta.visited := Finmap.lookup_eq_none.mp hcache
    have hv0 : ∀ n, Visits height n ta { ta with orphans := ta.orphans.erase v } :=
      fun n => visits_eraseOrphan hsafe hcov v
    dsimp only at h
    set ta0 : Topological := { ta with orphans := ta.orphans.erase v } with hta0
    have hvisited : ∀ b, (ta0.preferenceCache.insert v b).keys = insert v ta0.visited :=
      fun b => Finmap.keys_insert _ _ _
    split at h
    · rename_i hstatus
      cases h
      refine ⟨(hv0 _).trans (visits_decided (hv0 0).safe (hv0 0).covered ?_ hnot rfl rfl rfl rfl
        rfl (hvisited _) (.inr ⟨rfl, hstatus⟩)), ?_⟩
      · exact congrArg Status.decided hstatus
      · show v ∈ (ta0.preferenceCache.insert v true).keys
        rw [hvisited]
        exact mem_insert_self _ _
    · rename_i hstatus
      cases h
      refine ⟨(hv0 _).trans (visits_decided (hv0 0).safe (hv0 0).covered ?_ hnot rfl rfl rfl rfl
        rfl (hvisited _) (.inl rfl)), ?_⟩
      · exact congrArg Status.decided hstatus
      · show v ∈ (ta0.preferenceCache.insert v false).keys
        rw [hvisited]
        exact mem_insert_self _ _
    split at h
    · cases h
    rename_i hmem
    obtain ⟨s, hfold, hsettle⟩ := bind_eq_ok.mp h
    -- the parents are lower, so the vertex itself is not touched while they are updated
    have hupdate : ∀ ta1 ta2 p, ta1.dag = ta0.dag → ta1.Safe → ta1.Covered →
        p ∈ ta0.parents v → update order fuel ta1 p = .ok ta2 →
        Visits height (height v) ta1 ta2 ∧ p ∈ ta2.visited := by
      intro ta1 ta2 p hdag hs hc hp hu
      have hlt := hheight v p hp
      have hheight1 : ∀ v, ∀ p ∈ ta1.parents v, height p < height v := by
        intro x q hq
        rw [parents, hdag] at hq
        exact hheight x q hq
      obtain ⟨hv1, hp1⟩ := ih hheight1 hs hc hu
      exact ⟨hv1.mono hlt, hp1⟩
    obtain ⟨hvisits, hpar, hacc, hrej⟩ := visits_parents hupdate (hv0 0).safe (hv0 0).covered hfold
    have hnot' : v ∉ s.1.visited := fun hvis => hnot (hvisits.below v le_rfl hvis)
    have hkept : ∀ id, (ta0.cg.decidables.status id).decided = true →
        s.1.cg.decidables.status id = ta0.cg.decidables.status id :=
      hvisits.updates.graph.status_eq
    have hready : s.1.Ready v s.2 := by
      refine ⟨?_, hnot', ?_, fun hview => ?_, fun hview => ?_⟩
      · exact (hvisits.updates.same v (.inr hnot')).2.mpr (not_not.mp hmem)
      · rw [hvisits.updates.parents_eq]
        exact hpar
      · rw [hacc] at hview
        obtain ⟨htxv, htxs⟩ := acceptable_inspect hview
        rw [hvisits.updates.dag_eq]
        exact ⟨(hkept v (congrArg Status.decided htxv)).trans htxv, fun tx htx =>
          (hkept tx.id (congrArg Status.decided (htxs tx htx))).trans (htxs tx htx)⟩
      rw [hrej] at hview
      rw [hvisits.updates.dag_eq]
      rcases rejectable_inspect hview with htxv | ⟨tx, htx, htxs⟩
      · exact .inl ((hkept v (congrArg Status.decided htxv)).trans htxv)
      · exact .inr ⟨tx, htx, (hkept tx.id (congrArg Status.decided htxs)).trans htxs⟩
    obtain ⟨-, -, -, hvis, -⟩ := settle_cases hvisits.safe.tidy hsettle
    have hlast : Visits height (height v + 1) s.1 ta' := by
      refine ⟨updates_settle hvisits.safe hready hsettle, fun x hle hx => ?_,
        safe_settle hvisits.safe hready hsettle,
        covered_settle hvisits.safe hvisits.covered hready hsettle,
        fun hrooted => rooted_settle hvisits.safe hrooted hready hsettle⟩
      rw [hvis, mem_insert] at hx
      rcases hx with rfl | hx
      · omega
      · exact hx
    refine ⟨((hv0 _).trans (hvisits.mono (Nat.le_succ _))).trans hlast, ?_⟩
    rw [hvis]
    exact mem_insert_self _ _

end Topological

end SavannahNode.Avalanche
