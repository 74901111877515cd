import Mathlib.Order.Lattice.Nat
import SavannahNode.Spec.AvalancheUpdate
import SavannahNode.Spec.AvalancheVotes

/-!
# Safety of vertex decisions

Over every run of avalanche consensus, a vertex is accepted when its transactions, its
transaction vertex and its parents are, rejected when one of them is, decided at most once,
and no longer processing afterwards.

## Key results

- `updateFrontiers_spec`, `add_cases`, `recordPoll_cases`: what the operations do
- `decisions_justified`: every run
-/

namespace SavannahNode.Avalanche.Topological

open Except Finset Function

open Snowstorm (Tx Directed)
open Dag

variable {ta ta' : Topological} {order pops : RangeOrder ID} {height : ID → Nat}

/-! ## Changes of the conflict graph -/

/-- `ta'` is `ta` with a later conflict graph. -/
structure GraphOnly (ta ta' : Topological) : Prop where
  dag_eq : ta'.dag = ta.dag
  vts_eq : ta'.vts = ta.vts
  nodes_eq : ta'.nodes = ta.nodes
  frontier_eq : ta'.frontier = ta.frontier
  cache_eq : ta'.preferenceCache = ta.preferenceCache
  graph : ta.cg.Evolves ta'.cg

theorem GraphOnly.refl (h : ta.cg.Tidy) : ta.GraphOnly ta := ⟨rfl, rfl, rfl, rfl, rfl, .refl h⟩

theorem GraphOnly.trans {ta'' : Topological} (h : ta.GraphOnly ta') (h' : ta'.GraphOnly ta'') :
    ta.GraphOnly ta'' :=
  ⟨h'.dag_eq.trans h.dag_eq, h'.vts_eq.trans h.vts_eq, h'.nodes_eq.trans h.nodes_eq,
    h'.frontier_eq.trans h.frontier_eq, h'.cache_eq.trans h.cache_eq, h.graph.trans h'.graph⟩

theorem GraphOnly.parents_eq (h : ta.GraphOnly ta') : ta'.parents = ta.parents := by
  funext v
  rw [parents, h.dag_eq]
  rfl

theorem GraphOnly.visited_eq (h : ta.GraphOnly ta') : ta'.visited = ta.visited := by
  rw [visited, h.cache_eq]
  rfl

theorem Safe.of_graphOnly (hsafe : ta.Safe) (h : ta.GraphOnly ta') : ta'.Safe := by
  refine ⟨h.graph.tidy, ?_, ?_, ?_, ?_, ?_⟩
  · rw [h.vts_eq, h.nodes_eq]
    exact hsafe.undecided
  · rw [h.vts_eq, h.nodes_eq, h.visited_eq]
    exact hsafe.known
  · rw [h.vts_eq, h.dag_eq]
    exact hsafe.justified
  · rw [h.vts_eq]
    exact hsafe.nodup
  rw [h.vts_eq]
  intro c hc
  obtain ⟨h1, h2⟩ := hsafe.called c hc
  rw [h.graph.status_eq _ h2]
  exact ⟨h1, h2⟩

theorem Covered.of_graphOnly (hcov : ta.Covered) (h : ta.GraphOnly ta') : ta'.Covered := by
  refine ⟨?_, ?_, ?_⟩
  · rw [h.frontier_eq, h.visited_eq]
    exact hcov.frontier_visited
  · rw [h.nodes_eq, h.visited_eq, h.frontier_eq, h.parents_eq]
    exact hcov.covered
  · rw [h.nodes_eq, h.visited_eq, h.frontier_eq, h.parents_eq, h.vts_eq]
    exact hcov.parents_kept

theorem Rooted.of_graphOnly (hrooted : ta.Rooted) (h : ta.GraphOnly ta') : ta'.Rooted := by
  rw [Rooted, h.vts_eq, h.parents_eq]
  exact hrooted

/-! ## Updating the frontiers -/

/-- `updateFrontiers` visits the previous frontier, starting with nothing visited. -/
theorem updateFrontiers_spec (hheight : ∀ v, ∀ p ∈ ta.parents v, height p < height v)
    (hsafe : ta.Safe) (h : ta.updateFrontiers order = .ok ta') :
    Visits height (ta.frontier.sup height + 1) ta.clearFrontiers ta' ∧
      ∀ f ∈ ta.frontier, f ∈ ta'.visited := by
  have hsafe' : ta.clearFrontiers.Safe := { hsafe with known := fun v hv => absurd hv (notMem_empty v) }
  have hcovered : ta.clearFrontiers.Covered :=
    ⟨empty_subset _, fun v _ hv => absurd hv (notMem_empty v), fun v hv => absurd hv (notMem_empty v)⟩
  have hall := List.foldlM_ok_history (P := fun done s =>
      Visits height (ta.frontier.sup height + 1) ta.clearFrontiers s ∧ ∀ f ∈ done, f ∈ s.visited) h
    ⟨.refl hsafe' hcovered, by simp⟩ (by
      rintro done f rest s s' hl ⟨hvisits, hdone⟩ hs'
      have hf : f ∈ ta.frontier := by
        rw [← order.mem_list, hl]
        exact List.mem_append_right _ List.mem_cons_self
      have hheight' : ∀ v, ∀ p ∈ s.parents v, height p < height v := by
        rw [hvisits.updates.parents_eq]
        exact hheight
      obtain ⟨hvisits', hf'⟩ := update_spec order _ hheight' hvisits.safe hvisits.covered hs'
      have hle : height f + 1 ≤ ta.frontier.sup height + 1 := Nat.succ_le_succ (le_sup hf)
      refine ⟨hvisits.trans (hvisits'.mono hle), fun g hg => ?_⟩
      rcases List.mem_append.mp hg with hg | hg
      · exact hvisits'.updates.visited_sub (hdone g hg)
      rw [List.mem_singleton] at hg
      rw [hg]
      exact hf')
  exact ⟨hall.1, fun f hf => hall.2 f ((order.mem_list _ _).mpr hf)⟩

/-! ## Adding a vertex -/

theorem graphOnly_addTx {tx : Tx} (ht : ta.cg.Tidy) (h : addTx order ta tx = .ok ta') :
    ta.GraphOnly ta' := by
  rw [addTx] at h
  split at h
  · cases h
    exact .refl ht
  obtain ⟨cg, hcg, h⟩ := bind_eq_ok.mp h
  rw [onGraph_eq_ok] at hcg
  cases h
  exact ⟨rfl, rfl, rfl, rfl, rfl, (Directed.evolves_add ht hcg).1⟩

/-- The state in which a new vertex is updated for the first time. -/
structure Issues (ta ta' : Topological) (v : ID) : Prop where
  dag_eq : ta'.dag = ta.dag
  vts_eq : ta'.vts = ta.vts
  nodes_eq : ta'.nodes = insert v ta.nodes
  frontier_eq : ta'.frontier = ta.frontier
  cache_eq : ta'.preferenceCache = ta.preferenceCache
  tidy : ta'.cg.Tidy
  status_eq : ∀ id, id ≠ v → (ta.cg.decidables.status id).decided = true →
    ta'.cg.decidables.status id = ta.cg.decidables.status id

theorem issues_addVertex {v : ID} (ht : ta.cg.Tidy) (h : ta.addVertex order v = .ok ta') :
    ta.Issues ta' v := by
  obtain ⟨cg, hcg, h⟩ := bind_eq_ok.mp h
  rw [onGraph_eq_ok] at hcg
  cases h
  -- the transaction vertex is a new object
  have ht' : ({ ta.cg with decidables := { ta.cg.decidables with
      status := Function.update ta.cg.decidables.status v .processing } } : Directed).Tidy := by
    refine ⟨ht.keyed, fun id hid => ?_⟩
    show (Function.update ta.cg.decidables.status v Status.processing id).decided = false
    by_cases hv : id = v
    · rw [hv, update_self]
      rfl
    rw [update_of_ne hv]
    exact ht.undecided id hid
  have hev := (Directed.evolves_add ht' hcg).1
  refine ⟨rfl, rfl, rfl, rfl, rfl, hev.tidy, fun id hne hid => ?_⟩
  have hsame : Function.update ta.cg.decidables.status v Status.processing id =
      ta.cg.decidables.status id := Function.update_of_ne hne _ _
  have := hev.status_eq id (by
    show (Function.update ta.cg.decidables.status v Status.processing id).decided = true
    rw [hsame]
    exact hid)
  exact this.trans hsame

section Issues

variable {v : ID}

theorem Issues.parents_eq (h : ta.Issues ta' v) : ta'.parents = ta.parents := by
  funext x
  rw [parents, h.dag_eq]
  rfl

theorem Issues.visited_eq (h : ta.Issues ta' v) : ta'.visited = ta.visited := by
  rw [visited, h.cache_eq]
  rfl

/-- A vertex that is neither processing nor decided was not visited. -/
theorem Safe.notMem_visited (hsafe : ta.Safe) (hv : (ta.vts.status v).decided = false)
    (hnot : v ∉ ta.nodes) : v ∉ ta.visited := by
  intro hvis
  rcases hsafe.known v hvis with h | h
  · exact hnot h
  rw [hv] at h
  cases h

theorem Issues.safe (h : ta.Issues ta' v) (hsafe : ta.Safe)
    (hv : (ta.vts.status v).decided = false) : ta'.Safe := by
  refine ⟨h.tidy, ?_, ?_, ?_, ?_, ?_⟩
  · rw [h.nodes_eq, h.vts_eq]
    intro x hx
    rcases mem_insert.mp hx with rfl | hx
    · exact hv
    · exact hsafe.undecided x hx
  · rw [h.nodes_eq, h.vts_eq, h.visited_eq]
    exact fun x hx => (hsafe.known x hx).imp (mem_insert_of_mem ·) id
  · rw [h.vts_eq, h.dag_eq]
    exact hsafe.justified
  · rw [h.vts_eq]
    exact hsafe.nodup
  rw [h.vts_eq]
  intro c hc
  obtain ⟨h1, h2⟩ := hsafe.called c hc
  have hne : c.decision.id ≠ v := by
    rintro rfl
    rw [hv] at h1
    cases h1
  rw [h.status_eq _ hne h2]
  exact ⟨h1, h2⟩

theorem Issues.covered (h : ta.Issues ta' v) (hcov : ta.Covered) (hvis : v ∉ ta.visited) :
    ta'.Covered := by
  have hmem : ∀ x ∈ ta.visited, x ∈ ta'.nodes → x ∈ ta.nodes := by
    intro x hx hx'
    rw [h.nodes_eq] at hx'
    rcases mem_insert.mp hx' with rfl | hx'
    · exact absurd hx hvis
    · exact hx'
  refine ⟨?_, ?_, ?_⟩
  · rw [h.frontier_eq, h.visited_eq]
    exact hcov.frontier_visited
  · rw [h.visited_eq, h.frontier_eq, h.parents_eq]
    exact fun x hx hx' => hcov.covered x (hmem x hx' hx) hx'
  · rw [h.visited_eq, h.frontier_eq, h.parents_eq, h.vts_eq]
    exact fun x hx hx' => hcov.parents_kept x hx (hx'.imp (hmem x hx) id)

end Issues

/-- `Add` leaves the state as it is, or issues the vertex and updates it. -/
theorem add_cases {v : ID} (hheight : ∀ v, ∀ p ∈ ta.parents v, height p < height v)
    (hsafe : ta.Safe) (hcov : ta.Covered) (h : ta.add order v = .ok ta') :
    ta' = ta ∨ v ∉ ta.visited ∧ ∃ ta1 ta2, ta.GraphOnly ta1 ∧ ta1.Issues ta2 v ∧
      Visits height (height v + 1) ta2 ta' ∧ v ∈ ta'.visited := by
  rw [add] at h
  split at h
  · cases h
    exact .inl rfl
  rename_i hnew
  rw [Bool.or_eq_true, not_or, Bool.not_eq_true, decide_eq_true_eq] at hnew
  obtain ⟨ta1, h1, h⟩ := bind_eq_ok.mp h
  obtain ⟨ta2, h2, h⟩ := bind_eq_ok.mp h
  have hgraph : ta.GraphOnly ta1 := List.foldlM_ok (P := fun s => ta.GraphOnly s) h1
    (.refl hsafe.tidy) fun s tx s' _ hs hs' => hs.trans (graphOnly_addTx hs.graph.tidy hs')
  have hissues := issues_addVertex hgraph.graph.tidy h2
  have hsafe1 := hsafe.of_graphOnly hgraph
  have hund : (ta1.vts.status v).decided = false := by
    rw [hgraph.vts_eq]
    exact hnew.1
  have hvis : v ∉ ta1.visited := hsafe1.notMem_visited hund (by
    rw [hgraph.nodes_eq]
    exact hnew.2)
  have hheight2 : ∀ v, ∀ p ∈ ta2.parents v, height p < height v := by
    rw [hissues.parents_eq, hgraph.parents_eq]
    exact hheight
  obtain ⟨hvisits, hv⟩ := update_spec order _ hheight2 (hissues.safe hsafe1 hund)
    (hissues.covered (hcov.of_graphOnly hgraph) hvis) h
  rw [hgraph.visited_eq] at hvis
  exact .inr ⟨hvis, ta1, ta2, hgraph, hissues, hvisits, hv⟩

/-! ## Polling -/

/-- `RecordPoll` goes on to update the frontiers: the responses have alpha votes in total, and
    they change the conflict graph. -/
def Traverses (ta : Topological) (order pops : RangeOrder ID) (responses : UniqueBag) : Prop :=
  let ta := { ta with pollNumber := ta.pollNumber + 1 }
  ta.params.alpha ≤ (ta.partialVotes order responses).len ∧
    ∃ votes cg, ta.collectVotes order pops responses = .ok votes ∧
      ta.cg.recordPoll order ta.dependencies votes = .ok (cg, true)

/-- `RecordPoll` changes the conflict graph, and may update the frontiers. -/
theorem recordPoll_cases {responses : UniqueBag} (ht : ta.cg.Tidy)
    (h : ta.recordPoll order pops responses = .ok ta') :
    ∃ ta1, ta.GraphOnly ta1 ∧ (ta' = ta1 ∨
      ta.Traverses order pops responses ∧ ta1.updateFrontiers order = .ok ta') := by
  rw [recordPoll] at h
  split at h
  · obtain ⟨polled, hpolled, h⟩ := bind_eq_ok.mp h
    rw [onGraph_eq_ok] at hpolled
    cases h
    exact ⟨{ ta with pollNumber := ta.pollNumber + 1, cg := polled.1 },
      ⟨rfl, rfl, rfl, rfl, rfl, (Directed.moves_recordPoll ht hpolled).evolves ht⟩, .inl rfl⟩
  rename_i hmany
  obtain ⟨votes, hvotes, h⟩ := bind_eq_ok.mp h
  obtain ⟨polled, hpolled, h⟩ := bind_eq_ok.mp h
  rw [onGraph_eq_ok] at hpolled
  refine ⟨{ ta with pollNumber := ta.pollNumber + 1, cg := polled.1 },
    ⟨rfl, rfl, rfl, rfl, rfl, (Directed.moves_recordPoll ht hpolled).evolves ht⟩, ?_⟩
  split at h
  · rename_i hchanged
    refine .inr ⟨⟨not_lt.mp hmany, votes, polled.1, hvotes, ?_⟩, h⟩
    rw [← hchanged]
    exact hpolled
  cases h
  exact .inl rfl

/-! ## Runs -/

/-- What every operation keeps. -/
structure Sound (dag : ID → Vertex) (ta : Topological) : Prop where
  dag_eq : ta.dag = dag
  safe : ta.Safe
  covered : ta.Covered

section Run

variable {dag : ID → Vertex}

variable (hheight : ∀ v, ∀ p ∈ (dag v).parents, height p < height v)

theorem Sound.height_lt (h : ta.Sound dag)
    (hheight : ∀ v, ∀ p ∈ (dag v).parents, height p < height v) :
    ∀ v, ∀ p ∈ ta.parents v, height p < height v := by
  intro v p hp
  rw [parents, h.dag_eq] at hp
  exact hheight v p hp

include hheight in
theorem Sound.updateFrontiers
    (hs : ta.Sound dag) (h : ta.updateFrontiers order = .ok ta') : ta'.Sound dag := by
  obtain ⟨hvisits, -⟩ := updateFrontiers_spec (hs.height_lt hheight) hs.safe h
  exact ⟨hvisits.updates.dag_eq.trans hs.dag_eq, hvisits.safe, hvisits.covered⟩

theorem Sound.of_graphOnly (hs : ta.Sound dag) (h : ta.GraphOnly ta') : ta'.Sound dag :=
  ⟨h.dag_eq.trans hs.dag_eq, hs.safe.of_graphOnly h, hs.covered.of_graphOnly h⟩

include hheight in
theorem Sound.step (hs : ta.Sound dag) {op : Op} (h : ta.step op = .ok ta') : ta'.Sound dag := by
  cases op with
  | add order v =>
    rcases add_cases (hs.height_lt hheight) hs.safe hs.covered h with
      rfl | ⟨-, ta1, ta2, hgraph, hissues, hvisits, -⟩
    · exact hs
    · refine ⟨?_, hvisits.safe, hvisits.covered⟩
      rw [hvisits.updates.dag_eq, hissues.dag_eq, hgraph.dag_eq]
      exact hs.dag_eq
  | recordPoll order pops responses =>
    obtain ⟨ta1, hgraph, rfl | ⟨-, hupd⟩⟩ := recordPoll_cases hs.safe.tidy h
    · exact hs.of_graphOnly hgraph
    · exact (hs.of_graphOnly hgraph).updateFrontiers hheight hupd

variable {params : Parameters} {frontier : Finset ID} {vtxStatus txStatus : ID → Status}

/-- `Initialize` updates the frontiers of a state in which nothing is processing. -/
theorem init_cases (h : init dag params frontier vtxStatus txStatus order = .ok ta) :
    ∃ ta0 : Topological, ta0.dag = dag ∧ ta0.vts.status = vtxStatus ∧ ta0.nodes = ∅ ∧ ta0.Safe ∧
      ta0.updateFrontiers order = .ok ta := by
  rw [init] at h
  split at h
  · cases h
  obtain ⟨cg, hcg, h⟩ := bind_eq_ok.mp h
  rw [mapError_eq_ok] at hcg
  refine ⟨_, ?_, ?_, ?_, ?_, h⟩
  · rfl
  · rfl
  · rfl
  refine ⟨(Directed.tidy_init hcg).1, ?_, ?_, ?_, List.nodup_nil, ?_⟩
  · exact fun v hv => absurd hv (notMem_empty v)
  · exact fun v hv => absurd hv (notMem_empty v)
  · exact fun call hcall => absurd hcall List.not_mem_nil
  · exact fun call hcall => absurd hcall List.not_mem_nil

include hheight in
theorem sound_init
    (h : init dag params frontier vtxStatus txStatus order = .ok ta) : ta.Sound dag := by
  obtain ⟨ta0, hdag, -, -, hsafe, hupd⟩ := init_cases h
  subst hdag
  obtain ⟨hvisits, -⟩ := updateFrontiers_spec hheight hsafe hupd
  exact ⟨hvisits.updates.dag_eq, hvisits.safe, hvisits.covered⟩

include hheight in
theorem sound_run {ta0 : Topological} {ops : List Op}
    (hinit : init dag params frontier vtxStatus txStatus order = .ok ta0)
    (hrun : ta0.run ops = .ok ta) : ta.Sound dag :=
  List.foldlM_ok (P := fun s => Sound dag s) hrun (sound_init hheight hinit)
    fun _ _ _ _ hs hs' => hs.step hheight hs'

/-- In every run, every call on a vertex is justified by the statuses at that moment, each
    vertex is decided at most once, and one that was decided is no longer processing and its
    transaction vertex is decided. -/
theorem decisions_justified {params : Parameters} {frontier : Finset ID}
    {vtxStatus txStatus : ID → Status} {ta₀ : Topological} {ops : List Op}
    (hheight : ∀ v, ∀ p ∈ (dag v).parents, height p < height v)
    (hinit : init dag params frontier vtxStatus txStatus order = .ok ta₀)
    (hrun : ta₀.run ops = .ok ta) :
    (∀ call ∈ ta.vts.calls, call.Justified dag) ∧
      (ta.vts.calls.map fun call => call.decision.id).Nodup ∧
      ∀ call ∈ ta.vts.calls, call.decision.id ∉ ta.nodes ∧
        (ta.cg.decidables.status call.decision.id).decided = true := by
  have hs := sound_run hheight hinit hrun
  refine ⟨fun call hcall => ?_, hs.safe.nodup, fun call hcall => ?_⟩
  · rw [← hs.dag_eq]
    exact hs.safe.justified call hcall
  · obtain ⟨hvtx, htxv⟩ := hs.safe.called call hcall
    exact ⟨hs.safe.notMem_nodes hvtx, htxv⟩

end Run

/-! ## A run in which a vertex is accepted and one rejected -/

/-- The heights of the vertices of `twoSpenders`. -/
def spenderHeight (id : ID) : Nat := if id = ⟨9⟩ then 0 else if id = ⟨3⟩ then 2 else 1

theorem spenderHeight_lt : ∀ v, ∀ p ∈ (twoSpenders v).parents,
    spenderHeight p < spenderHeight v := by
  intro v p hp
  have h1 : spenderHeight ⟨9⟩ < spenderHeight ⟨1⟩ := by decide
  have h2 : spenderHeight ⟨9⟩ < spenderHeight ⟨2⟩ := by decide
  have h3 : spenderHeight ⟨1⟩ < spenderHeight ⟨3⟩ := by decide
  rw [twoSpenders] at hp
  split at hp
  · rename_i hv
    rw [hv, List.mem_singleton.mp hp]
    exact h1
  split at hp
  · rename_i hv
    rw [hv, List.mem_singleton.mp hp]
    exact h2
  split at hp
  · rename_i hv
    rw [hv, List.mem_singleton.mp hp]
    exact h3
  · cases hp

/-- A poll of one vote decides. -/
def oneVote : Parameters :=
  { SavannahNode.Parameters.minimal with parents := 2, batchSize := 1 }

/-- Both spenders are issued, and the first one wins. -/
def firstWins : List Op :=
  [.add .ids ⟨1⟩, .add .ids ⟨2⟩, .recordPoll .ids .ids (UniqueBag.add ∅ 0 [⟨1⟩])]

theorem observed_firstWins :
    (init twoSpenders oneVote {⟨9⟩} genesisAccepted (fun _ => .processing) .ids >>=
      (·.run firstWins)).toOption.map (fun ta =>
        (ta.vts.calls.map fun call => call.decision, ta.nodes)) =
      some ([.accept ⟨1⟩, .reject ⟨2⟩], ∅) := by
  decide +kernel

theorem decisions_justified_firstWins : ∃ ta₀ ta,
      init twoSpenders oneVote {⟨9⟩} genesisAccepted (fun _ => .processing) .ids = .ok ta₀ ∧
      ta₀.run firstWins = .ok ta ∧
      (ta.vts.calls.map fun call => call.decision) = [.accept ⟨1⟩, .reject ⟨2⟩] ∧
      (∀ call ∈ ta.vts.calls, call.Justified twoSpenders) ∧
      (ta.vts.calls.map fun call => call.decision.id).Nodup ∧
      ∀ call ∈ ta.vts.calls, call.decision.id ∉ ta.nodes ∧
        (ta.cg.decidables.status call.decision.id).decided = true := by
  obtain ⟨ta, hta, hobs⟩ := exists_of_observed observed_firstWins
  obtain ⟨ta₀, hinit, hrun⟩ := bind_eq_ok.mp hta
  exact ⟨ta₀, ta, hinit, hrun, (Prod.mk.inj hobs).1,
    decisions_justified spenderHeight_lt hinit hrun⟩

end SavannahNode.Avalanche.Topological
