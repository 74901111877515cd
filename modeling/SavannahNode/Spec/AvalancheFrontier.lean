import SavannahNode.Spec.AvalancheSafety

/-!
# The frontier covers the live set

`updateFrontiers` starts from the frontier, so a processing vertex has to be an ancestor of a
frontier vertex to be visited. A vertex that is rejected because of its transactions replaces
its parents in the frontier, but a rejected vertex is not followed to its parents by the next
update. The frontier covers the processing vertices throughout a run, provided that at every
poll that updates it the processing parents of rejected frontier vertices are ancestors of other
frontier vertices as well.

## Key results

- `Complete.updateFrontiers`: every processing vertex is visited
- `frontier_covers`: every run
- `exists_uncovered`: a run in which a processing vertex is lost
-/

namespace SavannahNode.Avalanche.Topological

open Dag Except

variable {ta ta' : Topological} {order pops : RangeOrder ID} {height : ID → Nat}
  {dag : ID → Vertex}

/-- The processing parents of rejected frontier vertices are ancestors of frontier vertices
    that aren't rejected. -/
def Exposed (ta : Topological) : Prop :=
  ∀ f ∈ ta.frontier, ta.vts.status f = .rejected → ∀ p ∈ ta.parents f, p ∈ ta.nodes →
    ∃ f' ∈ ta.frontier, ta.vts.status f' ≠ .rejected ∧ Ancestor ta.parents f' p

/-- Every processing vertex was visited since the caches were reset. -/
structure Complete (dag : ID → Vertex) (ta : Topological) : Prop extends ta.Sound dag where
  rooted : ta.Rooted
  visited : ∀ v ∈ ta.nodes, v ∈ ta.visited

theorem Rooted.ancestor_accepted (h : ta.Rooted) {x v : ID} (hanc : Ancestor ta.parents x v)
    (hx : ta.vts.status x = .accepted) : ta.vts.status v = .accepted := by
  induction hanc with
  | refl => exact hx
  | tail _ hp ih => exact h _ ih _ hp

/-- On the way to a processing vertex, a vertex that was visited and isn't rejected is
    processing. -/
theorem Complete.mem_nodes (h : ta.Complete dag) {x v : ID} (hv : v ∈ ta.nodes)
    (hanc : Ancestor ta.parents x v) (hvis : x ∈ ta.visited)
    (hrej : ta.vts.status x ≠ .rejected) : x ∈ ta.nodes := by
  refine (h.safe.known x hvis).resolve_right fun hdec => ?_
  have hacc : ta.vts.status x = .accepted := by
    cases hs : ta.vts.status x with
    | accepted => rfl
    | rejected => exact absurd hs hrej
    | unknown => rw [hs] at hdec; cases hdec
    | processing => rw [hs] at hdec; cases hdec
  have := h.safe.undecided v hv
  rw [h.rooted.ancestor_accepted hanc hacc] at this
  cases this

/-- Every processing vertex is an ancestor of a frontier vertex that isn't rejected. -/
theorem Complete.exists_live_cover (h : ta.Complete dag) (hexp : ta.Exposed) {v : ID}
    (hv : v ∈ ta.nodes) :
    ∃ f ∈ ta.frontier, ta.vts.status f ≠ .rejected ∧ Ancestor ta.parents f v := by
  obtain ⟨f, hf, hanc⟩ := h.covered.covered v hv (h.visited v hv)
  by_cases hrej : ta.vts.status f = .rejected
  · rcases Relation.ReflTransGen.cases_head hanc with rfl | ⟨p, hp, hanc'⟩
    · have := h.safe.undecided f hv
      rw [hrej] at this
      cases this
    obtain ⟨hpvis, hprej⟩ := h.covered.parents_kept f (h.covered.frontier_visited hf)
      (.inr ⟨hf, hrej⟩) p hp
    have hpn := h.mem_nodes hv hanc' hpvis hprej
    obtain ⟨f', hf', hrej', hanc''⟩ := hexp f hf hrej p hp hpn
    exact ⟨f', hf', hrej', hanc''.trans hanc'⟩
  · exact ⟨f, hf, hrej, hanc⟩

theorem Complete.of_graphOnly (h : ta.Complete dag) (hg : ta.GraphOnly ta') : ta'.Complete dag := by
  refine ⟨h.toSound.of_graphOnly hg, h.rooted.of_graphOnly hg, ?_⟩
  rw [hg.nodes_eq, hg.visited_eq]
  exact h.visited

section

variable (hheight : ∀ v, ∀ p ∈ (dag v).parents, height p < height v)

include hheight

/-- Updating the frontiers visits every processing vertex. -/
theorem Complete.updateFrontiers (h : ta.Complete dag) (hexp : ta.Exposed)
    (hupd : ta.updateFrontiers order = .ok ta') : ta'.Complete dag := by
  obtain ⟨hvisits, hfront⟩ := updateFrontiers_spec (h.toSound.height_lt hheight) h.safe hupd
  refine ⟨h.toSound.updateFrontiers hheight hupd, hvisits.rooted h.rooted, fun v hv => ?_⟩
  have hv' : v ∈ ta.nodes := hvisits.updates.nodes_sub hv
  obtain ⟨f, hf, hrej, hanc⟩ := h.exists_live_cover hexp hv'
  -- down the path from the frontier vertex, each vertex is processing, so its parents are visited
  have hpath : ∀ x, Ancestor ta.parents x v → x ∈ ta.visited → ta.vts.status x ≠ .rejected →
      x ∈ ta'.visited → v ∈ ta'.visited := by
    intro x hx
    induction hx using Relation.ReflTransGen.head_induction_on with
    | refl => exact fun _ _ hvis => hvis
    | head hp hanc ih =>
      rename_i x p
      intro hxvis hxrej hxvis'
      have hxn := h.mem_nodes hv' (Relation.ReflTransGen.head hp hanc) hxvis hxrej
      obtain ⟨hpvis, hprej⟩ := h.covered.parents_kept x hxvis (.inl hxn) p hp
      exact ih hpvis hprej (hvisits.updates.parents_visited x hxvis' (Finset.notMem_empty x) hxn p hp)
  exact hpath f hanc (h.covered.frontier_visited hf) hrej (hfront f hf)

theorem Complete.step (h : ta.Complete dag) {op : Op}
    (hop : ∀ order pops responses, op = .recordPoll order pops responses →
      ta.Traverses order pops responses → ta.Exposed)
    (hstep : ta.step op = .ok ta') : ta'.Complete dag := by
  have hsound := h.toSound.step hheight hstep
  cases op with
  | add order v =>
    rcases add_cases (h.toSound.height_lt hheight) h.safe h.covered hstep with
      rfl | ⟨hvis, ta1, ta2, hgraph, hissues, hvisits, hv⟩
    · exact h
    · refine ⟨hsound, ?_, fun x hx => ?_⟩
      · have hrooted1 := h.rooted.of_graphOnly hgraph
        refine hvisits.rooted ?_
        rw [Rooted, hissues.vts_eq, hissues.parents_eq]
        exact hrooted1
      have hx2 := hvisits.updates.nodes_sub hx
      rw [hissues.nodes_eq] at hx2
      rcases Finset.mem_insert.mp hx2 with rfl | hx1
      · exact hv
      apply hvisits.updates.visited_sub
      rw [hissues.visited_eq, hgraph.visited_eq]
      rw [hgraph.nodes_eq] at hx1
      exact h.visited x hx1
  | recordPoll order pops responses =>
    obtain ⟨ta1, hgraph, rfl | ⟨htraverses, hupd⟩⟩ := recordPoll_cases h.safe.tidy hstep
    · exact h.of_graphOnly hgraph
    have hexp := hop order pops responses rfl htraverses
    have hexp1 : ta1.Exposed := by
      rw [Exposed, hgraph.frontier_eq, hgraph.vts_eq, hgraph.parents_eq, hgraph.nodes_eq]
      exact hexp
    exact (h.of_graphOnly hgraph).updateFrontiers hheight hexp1 hupd

theorem complete_init {params : Parameters} {frontier : Finset ID}
    {vtxStatus txStatus : ID → Status}
    (hclosed : ∀ v, vtxStatus v = .accepted → ∀ p ∈ (dag v).parents, vtxStatus p = .accepted)
    (hinit : init dag params frontier vtxStatus txStatus order = .ok ta) : ta.Complete dag := by
  have hsound := sound_init hheight hinit
  obtain ⟨ta0, hdag, hstatus, hnodes, hsafe, hupd⟩ := init_cases hinit
  subst hdag hstatus
  obtain ⟨hvisits, -⟩ := updateFrontiers_spec hheight hsafe hupd
  refine ⟨hsound, hvisits.rooted hclosed, fun v hv => ?_⟩
  have hv' : v ∈ ta0.nodes := hvisits.updates.nodes_sub hv
  rw [hnodes] at hv'
  exact absurd hv' (Finset.notMem_empty v)

end

/-- Over every run in which the polls that update the frontiers find them exposed, every
    processing vertex is an ancestor of a frontier vertex. -/
theorem frontier_covers {params : Parameters} {frontier : Finset ID}
    {vtxStatus txStatus : ID → Status} {ta₀ : Topological} {ops : List Op}
    (hheight : ∀ v, ∀ p ∈ (dag v).parents, height p < height v)
    (hclosed : ∀ v, vtxStatus v = .accepted → ∀ p ∈ (dag v).parents, vtxStatus p = .accepted)
    (hinit : init dag params frontier vtxStatus txStatus order = .ok ta₀)
    (hpolls : ∀ before after order pops responses ta₁,
      ops = before ++ .recordPoll order pops responses :: after → ta₀.run before = .ok ta₁ →
      ta₁.Traverses order pops responses → ta₁.Exposed)
    (hrun : ta₀.run ops = .ok ta) :
    ∀ v ∈ ta.nodes, ∃ f ∈ ta.frontier, Ancestor ta.parents f v := by
  have hall := List.foldlM_ok_history
    (P := fun done s => ta₀.run done = .ok s ∧ s.Complete dag) hrun
    ⟨rfl, complete_init hheight hclosed hinit⟩ (by
      rintro done op rest s s' hl ⟨hdone, hs⟩ hstep
      refine ⟨?_, hs.step hheight (fun order pops responses hop => ?_) hstep⟩
      · rw [run, List.foldlM_append]
        exact bind_eq_ok.mpr ⟨s, hdone, by
          exact bind_eq_ok.mpr ⟨s', hstep, rfl⟩⟩
      · subst hop
        exact hpolls done rest order pops responses s hl hdone)
  exact fun v hv => hall.2.covered.covered v hv (hall.2.visited v hv)

/-! ## Runs that keep and lose a vertex -/

/-- Vertex 2 on vertex 1 conflicts with vertex 3, and vertex 4 is on vertex 3. -/
def lostParent (id : ID) : Vertex :=
  if id = ⟨1⟩ then
    { parents := [⟨9⟩]
      txs := [{ id := ⟨11⟩, inputIDs := [⟨21⟩], dependencies := [], whitelist := none }]
      whitelist := none }
  else if id = ⟨2⟩ then
    { parents := [⟨1⟩]
      txs := [{ id := ⟨12⟩, inputIDs := [⟨22⟩], dependencies := [], whitelist := none }]
      whitelist := none }
  else if id = ⟨3⟩ then
    { parents := [⟨9⟩]
      txs := [{ id := ⟨13⟩, inputIDs := [⟨22⟩], dependencies := [], whitelist := none }]
      whitelist := none }
  else if id = ⟨4⟩ then
    { parents := [⟨3⟩]
      txs := [{ id := ⟨14⟩, inputIDs := [⟨24⟩], dependencies := [], whitelist := none }]
      whitelist := none }
  else { parents := [], txs := [], whitelist := none }

theorem lostParent_height_lt : ∀ v, ∀ p ∈ (lostParent v).parents,
    (if p = ⟨9⟩ then 0 else if p = ⟨1⟩ ∨ p = ⟨3⟩ then 1 else 2) <
      if v = ⟨9⟩ then 0 else if v = ⟨1⟩ ∨ v = ⟨3⟩ then 1 else 2 := by
  intro v p hp
  rw [lostParent] at hp
  split at hp
  · rename_i hv
    rw [hv, List.mem_singleton.mp hp]
    decide
  split at hp
  · rename_i hv
    rw [hv, List.mem_singleton.mp hp]
    decide
  split at hp
  · rename_i hv
    rw [hv, List.mem_singleton.mp hp]
    decide
  split at hp
  · rename_i hv
    rw [hv, List.mem_singleton.mp hp]
    decide
  · cases hp

/-- Vertices 1, 2 and 3 are issued. -/
def issueThree : List Op := [.add .ids ⟨1⟩, .add .ids ⟨2⟩, .add .ids ⟨3⟩]

/-- Vertex 3 wins over vertex 2. -/
def keepParent : List Op := issueThree ++ [.recordPoll .ids .ids (UniqueBag.add ∅ 0 [⟨3⟩])]

theorem observed_issueThree :
    (init lostParent oneVote {⟨9⟩} genesisAccepted (fun _ => .processing) .ids >>=
      (·.run issueThree)).toOption.map (fun ta =>
        ta.frontier.filter fun f => ta.vts.status f = .rejected) = some ∅ := by
  decide +kernel

theorem observed_keepParent :
    (init lostParent oneVote {⟨9⟩} genesisAccepted (fun _ => .processing) .ids >>=
      (·.run keepParent)).toOption.map (fun ta => (ta.nodes, ta.frontier)) =
      some ({⟨1⟩}, {⟨2⟩, ⟨3⟩}) := by
  decide +kernel

/-- After the poll, vertex 1 is covered by vertex 2, which was rejected. -/
theorem frontier_covers_keepParent : ∃ ta₀ ta,
      init lostParent oneVote {⟨9⟩} genesisAccepted (fun _ => .processing) .ids = .ok ta₀ ∧
      ta₀.run keepParent = .ok ta ∧ ta.nodes = {⟨1⟩} ∧
      ∀ v ∈ ta.nodes, ∃ f ∈ ta.frontier, Ancestor ta.parents f v := by
  obtain ⟨ta, hta, hobs⟩ := exists_of_observed observed_keepParent
  obtain ⟨ta₀, hinit, hrun⟩ := bind_eq_ok.mp hta
  obtain ⟨ta₁, hta₁, hobs₁⟩ := exists_of_observed observed_issueThree
  obtain ⟨ta₀', hinit', hrun'⟩ := bind_eq_ok.mp hta₁
  obtain rfl := ok.inj (hinit.symm.trans hinit')
  refine ⟨ta₀, ta, hinit, hrun, (Prod.mk.inj hobs).1,
    frontier_covers lostParent_height_lt ?_ hinit ?_ hrun⟩
  · intro v hv p hp
    rw [genesisAccepted] at hv
    split at hv
    · rename_i hgenesis
      have hnone : (lostParent ⟨9⟩).parents = [] := by decide
      rw [hgenesis, hnone] at hp
      cases hp
    · cases hv
  intro before after order pops responses ta₂ hops hta₂ _
  -- the only poll is the last operation
  have hbefore : before = issueThree := by
    rcases before with _ | ⟨a, _ | ⟨b, _ | ⟨c, _ | ⟨d, before⟩⟩⟩⟩
    · cases hops
    · cases hops
    · cases hops
    · cases hops
      rfl
    have hlen := congrArg List.length hops
    simp [keepParent, issueThree] at hlen
  subst hbefore
  obtain rfl := ok.inj (hrun'.symm.trans hta₂)
  intro f hf hrej
  have : f ∈ ta₁.frontier.filter fun f => ta₁.vts.status f = .rejected :=
    Finset.mem_filter.mpr ⟨hf, hrej⟩
  rw [hobs₁] at this
  exact absurd this (Finset.notMem_empty f)

/-- Then vertex 4 is accepted. -/
def loseParent : List Op :=
  keepParent ++ [.add .ids ⟨4⟩, .recordPoll .ids .ids (UniqueBag.add ∅ 0 [⟨4⟩])]

theorem observed_loseParent :
    (init lostParent oneVote {⟨9⟩} genesisAccepted (fun _ => .processing) .ids >>=
      (·.run loseParent)).toOption.map (fun ta => (ta.nodes, ta.frontier)) =
      some ({⟨1⟩}, {⟨4⟩}) := by
  decide +kernel

/-- Vertex 1 is processing, but not an ancestor of the frontier. -/
theorem exists_uncovered : ∃ ta₀ ta,
      init lostParent oneVote {⟨9⟩} genesisAccepted (fun _ => .processing) .ids = .ok ta₀ ∧
      ta₀.run loseParent = .ok ta ∧
      ∃ v ∈ ta.nodes, ¬ ∃ f ∈ ta.frontier, Ancestor ta.parents f v := by
  obtain ⟨ta, hta, hobs⟩ := exists_of_observed observed_loseParent
  obtain ⟨ta₀, hinit, hrun⟩ := bind_eq_ok.mp hta
  obtain ⟨hnodes, hfrontier⟩ := Prod.mk.inj hobs
  have hdag := (sound_run lostParent_height_lt hinit hrun).dag_eq
  refine ⟨ta₀, ta, hinit, hrun, ⟨1⟩, by rw [hnodes]; exact Finset.mem_singleton_self _, ?_⟩
  rintro ⟨f, hf, hanc⟩
  rw [hfrontier, Finset.mem_singleton] at hf
  subst hf
  have hclosed : ∀ u ∈ ({⟨4⟩, ⟨3⟩, ⟨9⟩} : Finset ID), ∀ p ∈ ta.parents u,
      p ∈ ({⟨4⟩, ⟨3⟩, ⟨9⟩} : Finset ID) := by
    have hdecide : ∀ u ∈ ({⟨4⟩, ⟨3⟩, ⟨9⟩} : Finset ID), ∀ p ∈ (lostParent u).parents,
      p ∈ ({⟨4⟩, ⟨3⟩, ⟨9⟩} : Finset ID) := by decide
    intro u hu p hp
    rw [parents, hdag] at hp
    exact hdecide u hu p hp
  have hmem := hanc.mem_of_closed hclosed (by decide)
  revert hmem
  decide

end SavannahNode.Avalanche.Topological
