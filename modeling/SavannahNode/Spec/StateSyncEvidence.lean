import SavannahNode.Native.StateSyncer
import SavannahNode.Spec.BootstrapEvidence

/-!
# What the state syncer acts on

Both rounds of the state syncer are ballots: in the first one the seeders report summaries, in
the second one all beacons vote on them. A summary that is accepted was reported in the current
attempt, has a support of at least `Alpha` among the votes of this attempt, and is the ongoing
one if that qualifies, and one of greatest height otherwise.

Two things can break this, and are excluded step by step. `GetStateSummaryFrontierFailed` does
not look whether the node was asked, so that a failure nobody waits for moves the request ID
under the voters; and `startup` keeps the ongoing summary of an earlier attempt when the VM has
none any more.
-/

namespace SavannahNode.StateSyncer

open Finmap List StateSyncer

/-! ## The ballots of an attempt -/

/-- What happened in the current attempt. -/
structure Attempt where
  frontier : Ballot NodeID UInt32 ID
  votes : Ballot NodeID UInt32 ID
  ongoing : Option ID

/-- An attempt that has just begun. -/
def Attempt.fresh : Attempt := ⟨.empty, .empty, none⟩

/-- What an event means for the current attempt. A request that failed is answered by the empty
    list, and so is one whose summary does not parse. -/
def Event.count (vm : VM) (a : Attempt) : Event → Attempt
  | .attempt => .fresh
  | .ongoing summary => { a with ongoing := some summary }
  | .getStateSummaryFrontier vdrs requestID => { a with frontier := a.frontier.ask vdrs requestID }
  | .getAcceptedStateSummary vdrs requestID _ => { a with votes := a.votes.ask vdrs requestID }
  | .received (.stateSummaryFrontier nodeID requestID summary) =>
    { a with
      frontier := a.frontier.reply nodeID requestID (vm.parseStateSummary summary).toList }
  | .received (.getStateSummaryFrontierFailed nodeID requestID) =>
    { a with frontier := a.frontier.reply nodeID requestID [] }
  | .received (.acceptedStateSummary nodeID requestID ids) =>
    { a with votes := a.votes.reply nodeID requestID ids }
  | .received (.getAcceptedStateSummaryFailed nodeID requestID) =>
    { a with votes := a.votes.reply nodeID requestID [] }
  | _ => a

/-- The current attempt after some events. -/
def attemptOf (vm : VM) (events : List Event) : Attempt := events.foldl (Event.count vm) .fresh

/-- The summary is ongoing or was reported. -/
def Attempt.Known (a : Attempt) (id : ID) : Prop := a.ongoing = some id ∨ ∃ n, a.frontier.Lists n id

/-- The summary is known and has enough votes. -/
def Attempt.Qualifies (cfg : SyncConfig) (a : Attempt) (id : ID) : Prop :=
  a.Known id ∧ cfg.alpha ≤ a.votes.support cfg.beacons.weight id

/-- A summary is accepted after every beacon has answered or failed: it qualifies, it is the
    ongoing one if that qualifies, and otherwise no other one that qualifies is higher. -/
structure Evidence (cfg : SyncConfig) (vm : VM) (a : Attempt) (id : ID) : Prop where
  answered : a.votes.answers.keys = cfg.beacons.nodes
  qualifies : a.Qualifies cfg id
  ongoing : ∀ local', a.ongoing = some local' → a.Qualifies cfg local' → id = local'
  highest : (∀ local', a.ongoing = some local' → ¬ a.Qualifies cfg local') →
    ∀ id', a.Qualifies cfg id' → vm.height id' ≤ vm.height id

/-- What an event needs of the attempt before it. -/
def Justified (cfg : SyncConfig) (vm : VM) (a : Attempt) : Event → Prop
  | .accept id => Evidence cfg vm a id
  | _ => True

/-- The node and the request ID of a failure of the first round. -/
def Op.failedSeeder? {cfg : SyncConfig} : Op cfg → Option (NodeID × UInt32)
  | .receive (.getStateSummaryFrontierFailed nodeID requestID) _ => some (nodeID, requestID)
  | _ => none

/-- A failure with the current request ID comes from a seeder that is pending, and a VM that has
    reported an ongoing summary reports one again when it is asked. -/
def Expected {cfg : SyncConfig} (s : StateSyncer) (op : Op cfg) : Prop :=
  (∀ failed ∈ op.failedSeeder?, failed.2 = s.requestID → failed.1 ∈ s.seeders.pending) ∧
  (op.choices.ongoing = .notFound → s.locallyAvailableSummary = none)

instance {cfg : SyncConfig} (s : StateSyncer) (op : Op cfg) : Decidable (Expected s op) :=
  inferInstanceAs (Decidable (_ ∧ _))

/-! ## Votes -/

variable {ids : List ID}

/-- Only the summaries that are known and listed get another vote. -/
theorem lookup_countVotes (weight : Nat) (votes : IDMap Nat) (h : ids.Nodup)
    (id : ID) : (countVotes weight votes ids).lookup id =
      if id ∈ ids then (votes.lookup id).map (addVote weight) else votes.lookup id := by
  unfold countVotes
  induction ids generalizing votes with
  | nil => simp
  | cons a ids ih =>
    obtain ⟨ha, hids⟩ := nodup_cons.mp h
    rw [foldl_cons, ih _ hids]
    by_cases hid : id = a
    · subst hid
      cases hlook : votes.lookup id with
      | none => simp [ha, hlook]
      | some previous => simp [ha]
    cases votes.lookup a with
    | none => simp [hid]
    | some previous => simp [hid]

theorem mem_countVotes (weight : Nat) (votes : IDMap Nat) (h : ids.Nodup) (id : ID) :
    id ∈ (countVotes weight votes ids).keys ↔ id ∈ votes.keys := by
  rw [mem_keys_iff, mem_keys_iff, lookup_countVotes weight votes h]
  split <;> simp

/-- What is visited and too low is dropped, and nothing else is. -/
theorem mem_foldl_drop (alpha : Nat) (votes : IDMap Nat) (ids : List ID) (id : ID) :
    id ∈ (dropInsufficient alpha votes ids).keys ↔
      id ∈ votes.keys ∧ (id ∈ ids → alpha ≤ (votes.lookup id).getD 0) := by
  unfold dropInsufficient
  induction ids generalizing votes with
  | nil => simp
  | cons a ids ih =>
    rw [foldl_cons, ih]
    split
    · rename_i hlow
      by_cases hid : id = a
      · subst hid
        simp [hlow]
      · simp [hid]
    rename_i hhigh
    by_cases hid : id = a
    · subst hid
      have := Nat.le_of_not_lt hhigh
      simp [this]
    · simp [hid]

theorem mem_dropInsufficient (order : RangeOrder ID) (alpha : Nat) (votes : IDMap Nat) (id : ID) :
    id ∈ (dropInsufficient alpha votes (order.list votes.keys)).keys ↔
      id ∈ votes.keys ∧ alpha ≤ (votes.lookup id).getD 0 := by
  rw [mem_foldl_drop, order.mem_list]
  constructor
  · intro h
    exact ⟨h.1, h.2 h.1⟩
  · intro h
    exact ⟨h.1, fun _ => h.2⟩

/-! ## The choice of a summary -/

/-- The loop returns the local summary if it meets it, and otherwise the highest one it meets, as
    long as that is not below the previous maximum. -/
theorem selectLoop_spec (vm : VM) (local' : Option ID) {height : Nat}
    {preferred : Option ID} (hpreferred : ∀ id ∈ preferred, vm.height id = height) {summary : ID}
    (h : selectLoop vm local' ids height preferred = some summary) :
    (summary ∈ ids ∨ preferred = some summary) ∧ (∀ id ∈ ids, local' = some id → summary = id) ∧
      ((∀ id ∈ ids, local' ≠ some id) →
        (∀ id ∈ ids, vm.height id ≤ vm.height summary) ∧ height ≤ vm.height summary) := by
  induction ids generalizing height preferred with
  | nil =>
    subst h
    refine ⟨.inr rfl, by simp, fun _ => ⟨by simp, ?_⟩⟩
    exact (hpreferred summary rfl).ge
  | cons a ids ih =>
    rw [selectLoop] at h
    split at h
    · rename_i hlocal
      cases h
      refine ⟨.inl mem_cons_self, fun id _ hid => ?_, fun hno => ?_⟩
      · rw [hlocal] at hid
        exact Option.some.inj hid
      · exact absurd hlocal (hno _ mem_cons_self)
    rename_i hlocal
    have hothers : ∀ id ∈ a :: ids, local' = some id → id ∈ ids := by
      intro id hid heq
      rcases mem_cons.mp hid with rfl | hid
      · exact absurd heq hlocal
      · exact hid
    split at h
    · obtain ⟨hmem, hfound, hmax⟩ := ih (by rintro id ⟨⟩; rfl) h
      refine ⟨?_, fun id hid heq => hfound id (hothers id hid heq) heq, fun hno => ?_⟩
      · rcases hmem with hmem | hmem
        · exact .inl (mem_cons_of_mem _ hmem)
        cases hmem
        exact .inl mem_cons_self
      obtain ⟨hall, hle⟩ := hmax fun id hid => hno id (mem_cons_of_mem _ hid)
      refine ⟨fun id hid => ?_, by omega⟩
      rcases mem_cons.mp hid with rfl | hid
      · exact hle
      · exact hall id hid
    obtain ⟨hmem, hfound, hmax⟩ := ih hpreferred h
    refine ⟨hmem.imp_left (mem_cons_of_mem _),
      fun id hid heq => hfound id (hothers id hid heq) heq, fun hno => ?_⟩
    obtain ⟨hall, hle⟩ := hmax fun id hid => hno id (mem_cons_of_mem _ hid)
    refine ⟨fun id hid => ?_, hle⟩
    rcases mem_cons.mp hid with rfl | hid
    · omega
    · exact hall id hid

/-! ## The invariant -/

/-- The rounds agree with the ballots of the attempt. -/
structure Core (cfg : SyncConfig) (vm : VM) (s : StateSyncer) (a : Attempt) : Prop where
  log : List.Observed (Event.count vm) .fresh (Justified cfg vm) s.events a
  voters : Polled s.voters a.votes cfg.beacons.nodes s.requestID
  seeders : ∃ sampled, Polled s.seeders a.frontier sampled s.requestID

/-- The summaries to vote on are those that are known, with their votes. -/
structure Tally (cfg : SyncConfig) (s : StateSyncer) (a : Attempt) : Prop where
  ongoing : a.ongoing = s.locallyAvailableSummary
  known : ∀ id, id ∈ s.weightedSummaries.keys ↔ a.Known id
  votes : ∀ id ∈ s.weightedSummaries.keys,
    (s.weightedSummaries.lookup id).getD 0 = a.votes.support cfg.beacons.weight id

/-- The first round of an attempt: nobody was asked to vote. -/
structure Seeding (s : StateSyncer) (a : Attempt) : Prop where
  pending : s.voters.pending = ∅
  answers : a.votes.answers.keys = ∅

/-- What holds between two calls: the tally is kept as long as a reply is outstanding. -/
structure Inv (cfg : SyncConfig) (vm : VM) (s : StateSyncer) (a : Attempt) : Prop
    extends Core cfg vm s a where
  phase : s.seeders.pending ≠ ∅ → Seeding s a
  tally : s.seeders.pending ≠ ∅ ∨ s.voters.pending ≠ ∅ → Tally cfg s a

variable {cfg : SyncConfig} {vm : VM} {s : StateSyncer} {a : Attempt}

/-- Once no reply is outstanding, nothing needs to be known about the tally. -/
theorem Core.rest (h : Core cfg vm s a) (hseeders : s.seeders.pending = ∅)
    (hvoters : s.voters.pending = ∅) : ∃ a', Inv cfg vm s a' := by
  refine ⟨a, h, fun hne => absurd hseeders hne, ?_⟩
  rintro (hne | hne)
  · exact absurd hseeders hne
  · exact absurd hvoters hne

/-- Both rounds may go on under another request ID while no reply is outstanding. -/
theorem Core.renew (h : Core cfg vm s a) (hseeders : s.seeders.pending = ∅)
    (hvoters : s.voters.pending = ∅) (requestID : UInt32) :
    Core cfg vm { s with requestID := requestID } a := by
  obtain ⟨sampled, hpolled⟩ := h.seeders
  exact ⟨h.log, h.voters.renew hvoters _, sampled, hpolled.renew hseeders _⟩

/-! ### Requests -/

section

variable (hcore : Core cfg vm s a) (htally : Tally cfg s a)

include hcore htally

/-- Asking seeders changes neither what is known nor the votes. -/
theorem sendGetStateSummaryFrontiers_spec (hseed : Seeding s a) (order : RangeOrder NodeID) :
    ∃ a', Core cfg vm (s.sendGetStateSummaryFrontiers order) a' ∧
      Tally cfg (s.sendGetStateSummaryFrontiers order) a' ∧
      Seeding (s.sendGetStateSummaryFrontiers order) a' ∧
      (s.sendGetStateSummaryFrontiers order).locallyAvailableSummary =
        s.locallyAvailableSummary := by
  obtain ⟨sampled, hpolled⟩ := hcore.seeders
  have hsend := hpolled.send order
  refine ⟨{ a with frontier := a.frontier.ask (s.seeders.send order).1 s.requestID }, ?_⟩
  unfold sendGetStateSummaryFrontiers
  generalize s.seeders.send order = result at hsend
  obtain ⟨vdrs, round⟩ := result
  dsimp only at hsend ⊢
  split
  case isTrue hnone =>
    subst hnone
    exact ⟨⟨hcore.log, hcore.voters, sampled, hsend⟩, { htally with }, { hseed with }, rfl⟩
  case isFalse =>
    exact ⟨⟨hcore.log.concat trivial, hcore.voters, sampled, hsend⟩,
      { htally with }, { hseed with }, rfl⟩

/-- Asking voters changes neither what is known nor the votes. -/
theorem sendGetAcceptedStateSummaries_spec (order : RangeOrder NodeID) :
    ∃ a', Core cfg vm (s.sendGetAcceptedStateSummaries order) a' ∧
      Tally cfg (s.sendGetAcceptedStateSummaries order) a' ∧
      a'.votes.answers = a.votes.answers ∧
      (s.sendGetAcceptedStateSummaries order).seeders = s.seeders ∧
      (s.sendGetAcceptedStateSummaries order).locallyAvailableSummary = s.locallyAvailableSummary ∧
      ((s.sendGetAcceptedStateSummaries order).voters.pending = ∅ →
        (s.sendGetAcceptedStateSummaries order).voters.unsent = ∅) := by
  have hsend := hcore.voters.send order
  have hall := (s.voters.send_spec order).2.2.2
  refine ⟨{ a with votes := a.votes.ask (s.voters.send order).1 s.requestID }, ?_⟩
  unfold sendGetAcceptedStateSummaries
  generalize s.voters.send order = result at hsend hall
  obtain ⟨vdrs, round⟩ := result
  dsimp only at hsend hall ⊢
  split
  case isTrue hnone =>
    subst hnone
    exact ⟨⟨hcore.log, hsend, hcore.seeders⟩, { htally with }, rfl, rfl, rfl, hall⟩
  case isFalse =>
    exact ⟨⟨hcore.log.concat trivial, hsend, hcore.seeders⟩, { htally with }, rfl, rfl, rfl, hall⟩

/-! ### Attempts -/

theorem Inv.initiate (hseed : Seeding s a)
    (hidle : s.seeders.pending = ∅) (choice : SyncChoice cfg) :
    ∃ a', Inv cfg vm (s.initiate cfg choice) a' := by
  unfold StateSyncer.initiate
  split
  · exact Core.rest ⟨hcore.log.concat trivial, hcore.voters, hcore.seeders⟩ hidle hseed.pending
  obtain ⟨a', hcore', htally', hseed', _⟩ := sendGetStateSummaryFrontiers_spec
    (hcore.renew hidle hseed.pending (s.requestID + 1)) { htally with }
    { hseed with } choice.nodes
  exact ⟨a', hcore', fun _ => hseed', fun _ => htally'⟩

end

theorem not_known_fresh (id : ID) : ¬ Attempt.fresh.Known id := by
  simp [Attempt.Known, Attempt.fresh, Ballot.Lists, Ballot.empty]

/-! ### Replies -/

/-- The summaries of a list, with no votes yet. -/
def registerAll (votes : IDMap Nat) (l : List ID) : IDMap Nat :=
  l.foldl (fun votes id => votes.insert id 0) votes

theorem registerAll_spec {votes : IDMap Nat} (h : ∀ id, (votes.lookup id).getD 0 = 0)
    (l : List ID) (id : ID) :
    (id ∈ (registerAll votes l).keys ↔ id ∈ votes.keys ∨ id ∈ l) ∧
      ((registerAll votes l).lookup id).getD 0 = 0 := by
  unfold registerAll
  induction l generalizing votes with
  | nil => simp [h]
  | cons x l ih =>
    have hinsert : ∀ id, ((votes.insert x 0).lookup id).getD 0 = 0 := by
      intro id
      rw [lookup_insert_ite]
      split
      · rfl
      · exact h id
    obtain ⟨hkeys, hzero⟩ := ih hinsert
    refine ⟨?_, hzero⟩
    rw [foldl_cons, hkeys, keys_insert, Finset.mem_insert, mem_cons]
    tauto

theorem Seeding.support_eq_zero (h : Seeding s a) (weight : NodeID → Nat) (id : ID) :
    a.votes.support weight id = 0 := by
  unfold Ballot.support Ballot.supporters
  rw [h.answers]
  rfl

/-- In the first round nobody has voted. -/
theorem Tally.lookup_eq_zero (h : Tally cfg s a) (hseed : Seeding s a) (id : ID) :
    (s.weightedSummaries.lookup id).getD 0 = 0 := by
  by_cases hid : id ∈ s.weightedSummaries.keys
  · rw [h.votes id hid, hseed.support_eq_zero]
  rw [lookup_eq_none.mpr hid]
  rfl

/-- What a seeder that is pending has reported becomes known. -/
theorem Inv.reported (h : Inv cfg vm s a) {e : Event} {nodeID : NodeID} {l : List ID}
    (hlog : Observed (Event.count vm) .fresh (Justified cfg vm) (s.events ++ [e])
      { a with frontier := a.frontier.reply nodeID s.requestID l })
    (hn : nodeID ∈ s.seeders.pending) (failedSeeders : Finset NodeID) (heights : List Nat) :
    let s' : StateSyncer := { s.emit e with
      seeders := s.seeders.receive nodeID
      failedSeeders := failedSeeders
      weightedSummaries := registerAll s.weightedSummaries l
      uniqueSummariesHeights := heights }
    let a' := { a with frontier := a.frontier.reply nodeID s.requestID l }
    Core cfg vm s' a' ∧ Tally cfg s' a' ∧ Seeding s' a' := by
  obtain ⟨sampled, hpolled⟩ := h.seeders
  have hne := Finset.ne_empty_of_mem hn
  have hseed := h.phase hne
  have htally := h.tally (.inl hne)
  have hregister := registerAll_spec (htally.lookup_eq_zero hseed) l
  refine ⟨⟨hlog, h.voters, sampled, hpolled.receive hn l⟩, ⟨htally.ongoing, fun id => ?_, fun id _ => ?_⟩,
    { hseed with }⟩
  · rw [(hregister id).1, htally.known]
    unfold Attempt.Known
    simp only [Ballot.lists_reply_of_open (hpolled.isOpen hn)]
    constructor
    · rintro ((hid | ⟨n, hid⟩) | hid)
      · exact .inl hid
      · exact .inr ⟨n, .inl hid⟩
      · exact .inr ⟨nodeID, .inr ⟨rfl, hid⟩⟩
    rintro (hid | ⟨n, hid | ⟨_, hid⟩⟩)
    · exact .inl (.inl hid)
    · exact .inl (.inr ⟨n, hid⟩)
    · exact .inr hid
  · exact (hregister id).2.trans (hseed.support_eq_zero _ id).symm

/-- A reply that does not count leaves everything as it is. -/
theorem Inv.ignored (h : Inv cfg vm s a) {e : Event} (he : e.count vm a = a)
    (hjust : Justified cfg vm a e) : ∃ a', Inv cfg vm (s.emit e) a' := by
  have hlog := h.log.concat hjust
  rw [he] at hlog
  exact ⟨a, ⟨hlog, h.voters, h.seeders⟩, fun hne => { h.phase hne with },
    fun hne => { h.tally hne with }⟩

/-- The summary that is selected once every beacon has voted. -/
theorem Tally.evidence (h : Tally cfg s a) (order : RangeOrder ID)
    (hanswered : a.votes.answers.keys = cfg.beacons.nodes) {summary : ID}
    (hselect : selectSyncableStateSummary vm order { s with
      weightedSummaries := dropInsufficient cfg.alpha s.weightedSummaries
        (order.list s.weightedSummaries.keys) } = some summary) :
    Evidence cfg vm a summary := by
  have hmem : ∀ id, id ∈ order.list (dropInsufficient cfg.alpha s.weightedSummaries
      (order.list s.weightedSummaries.keys)).keys ↔ a.Qualifies cfg id := by
    intro id
    rw [order.mem_list, mem_dropInsufficient]
    unfold Attempt.Qualifies
    rw [← h.known]
    exact and_congr_right fun hid => by rw [h.votes id hid]
  obtain ⟨hsummary, hfound, hmax⟩ := selectLoop_spec vm _ (by simp) hselect
  rcases hsummary with hsummary | hnone
  · refine ⟨hanswered, (hmem summary).mp hsummary, ?_, ?_⟩
    · intro id hid hqual
      exact hfound id ((hmem id).mpr hqual) (h.ongoing ▸ hid)
    intro hno id' hqual
    refine (hmax fun id hid hlocal => ?_).1 id' ((hmem id').mpr hqual)
    exact hno id (h.ongoing.trans hlocal) ((hmem id).mp hid)
  · cases hnone

/-! ### Starting an attempt -/

section

-- a summary that was ongoing once stays with the syncer
variable (choice : SyncChoice cfg)
  (honce : choice.ongoing = .notFound → s.locallyAvailableSummary = none)

include honce

/-- A new attempt begins with empty ballots. -/
theorem Core.startup (hcore : Core cfg vm s a) : ∃ a', Inv cfg vm (s.startup cfg vm choice) a' := by
  unfold StateSyncer.startup
  split
  · exact Core.rest ⟨hcore.log.concat trivial, .idle _ _, ∅, .idle _ _⟩ rfl rfl
  rename_i beacons hsample
  have htarget : Core cfg vm (s.clear.target cfg beacons) .fresh :=
    ⟨hcore.log.concat trivial, .start _ _, beacons.toFinset, .start _ _⟩
  split
  · exact htarget.rest rfl rfl
  · rename_i hongoing
    -- a summary that is not ongoing any more would stay here
    refine Inv.initiate htarget ⟨(honce hongoing).symm, fun id => ?_, ?_⟩ ⟨rfl, rfl⟩ rfl choice
    · exact ⟨fun hid => (by cases hid), fun hknown => absurd hknown (not_known_fresh id)⟩
    · intro id hid
      cases hid
  rename_i summary hongoing
  have hlog := htarget.log.concat (show Justified cfg vm .fresh (.ongoing summary) from trivial)
  refine Inv.initiate (s := (s.clear.target cfg beacons).resume vm summary)
    ⟨hlog, htarget.voters, htarget.seeders⟩ ⟨rfl, fun id => ?_, fun id _ => ?_⟩ ⟨rfl, rfl⟩ rfl
    choice
  · show id ∈ ((∅ : IDMap Nat).insert summary 0).keys ↔ _
    rw [keys_insert]
    simp [Attempt.Known, Attempt.fresh, Event.count, Ballot.Lists, Ballot.empty, eq_comm]
  · show (((∅ : IDMap Nat).insert summary 0).lookup id).getD 0 = _
    rw [lookup_insert_ite]
    split <;> rfl

/-! ### The first round -/

theorem Inv.requestVotes (hcore : Core cfg vm s a) (htally : Tally cfg s a) (hseed : Seeding s a) :
    ∃ a', Inv cfg vm (s.requestVotes cfg vm choice) a' := by
  unfold StateSyncer.requestVotes
  split
  · exact ⟨a, hcore, fun _ => hseed, fun _ => htally⟩
  rename_i hdone
  have hidle : s.seeders.pending = ∅ := Finset.card_eq_zero.mp (not_not.mp hdone)
  split
  · exact hcore.rest hidle hseed.pending
  split
  · exact hcore.startup choice honce
  -- the next round uses the next request ID
  obtain ⟨a', hcore', htally', _, hseeders, _⟩ := sendGetAcceptedStateSummaries_spec
    (hcore.renew hidle hseed.pending (s.requestID + 1)) { htally with } choice.nodes
  refine ⟨a', hcore', fun hne => absurd ?_ hne, fun _ => htally'⟩
  rw [hseeders]
  exact hidle

theorem Inv.receivedStateSummaryFrontier (hcore : Core cfg vm s a) (htally : Tally cfg s a)
    (hseed : Seeding s a) : ∃ a', Inv cfg vm (s.receivedStateSummaryFrontier cfg vm choice) a' := by
  obtain ⟨a', hcore', htally', hseed', hlocal⟩ :=
    sendGetStateSummaryFrontiers_spec hcore htally hseed choice.nodes
  exact Inv.requestVotes choice (fun hongoing => hlocal.trans (honce hongoing)) hcore' htally' hseed'

theorem Inv.onStateSummaryFrontier (h : Inv cfg vm s a) (nodeID : NodeID) (requestID : UInt32)
    (summary : Bytes) :
    ∃ a', Inv cfg vm ((s.emit (.received (.stateSummaryFrontier nodeID requestID
      summary))).onStateSummaryFrontier cfg vm choice nodeID requestID summary) a' := by
  obtain ⟨sampled, hpolled⟩ := h.seeders
  have hignored : (requestID = s.requestID → nodeID ∉ s.seeders.pending) →
      ∃ a', Inv cfg vm (s.emit (.received (.stateSummaryFrontier nodeID requestID summary))) a' :=
    fun hno => h.ignored (by rw [Event.count, hpolled.reply_of_ignored hno]) trivial
  unfold StateSyncer.onStateSummaryFrontier
  split
  · rename_i hreq
    exact hignored fun heq => absurd heq hreq
  rename_i hreq
  split
  · rename_i hno
    exact hignored fun _ => hno
  rename_i hpending
  obtain rfl : requestID = s.requestID := not_not.mp hreq
  have hlog := h.log.concat (show Justified cfg vm a
    (.received (.stateSummaryFrontier nodeID s.requestID summary)) from trivial)
  rw [Event.count] at hlog
  split
  · rename_i id hparse
    rw [hparse] at hlog
    obtain ⟨hcore, htally, hseed⟩ := h.reported hlog (not_not.mp hpending) s.failedSeeders _
    exact Inv.receivedStateSummaryFrontier choice honce hcore htally hseed
  rename_i hparse
  rw [hparse] at hlog
  obtain ⟨hcore, htally, hseed⟩ := h.reported hlog (not_not.mp hpending) s.failedSeeders
    s.uniqueSummariesHeights
  exact Inv.receivedStateSummaryFrontier choice honce hcore htally hseed

/-- A failure is the empty reply, if the seeder is pending. -/
theorem Inv.onGetStateSummaryFrontierFailed (h : Inv cfg vm s a) {nodeID : NodeID}
    {requestID : UInt32} (hseeder : requestID = s.requestID → nodeID ∈ s.seeders.pending) :
    ∃ a', Inv cfg vm ((s.emit (.received (.getStateSummaryFrontierFailed nodeID
      requestID))).onGetStateSummaryFrontierFailed cfg vm choice nodeID requestID) a' := by
  unfold StateSyncer.onGetStateSummaryFrontierFailed
  split
  · rename_i hreq
    obtain ⟨sampled, hpolled⟩ := h.seeders
    refine h.ignored ?_ trivial
    rw [Event.count, hpolled.reply_of_ignored fun heq => absurd heq hreq]
  rename_i hreq
  obtain rfl : requestID = s.requestID := not_not.mp hreq
  have hlog := h.log.concat (show Justified cfg vm a
    (.received (.getStateSummaryFrontierFailed nodeID s.requestID)) from trivial)
  obtain ⟨hcore, htally, hseed⟩ := h.reported hlog (hseeder rfl) (insert nodeID s.failedSeeders)
    s.uniqueSummariesHeights
  exact Inv.receivedStateSummaryFrontier choice honce hcore htally hseed

/-! ### The second round -/

theorem Inv.acceptSufficient (hcore : Core cfg vm s a) (htally : Tally cfg s a)
    (hidle : s.seeders.pending = ∅)
    (hsome : a.votes.answers.keys ≠ ∅) (hall : s.voters.pending = ∅ → s.voters.unsent = ∅) :
    ∃ a', Inv cfg vm (s.acceptSufficient cfg vm choice) a' := by
  unfold StateSyncer.acceptSufficient
  split
  · exact ⟨a, hcore, fun hne => absurd hidle hne, fun _ => htally⟩
  rename_i hdone
  have hpending : s.voters.pending = ∅ := Finset.card_eq_zero.mp (not_not.mp hdone)
  have hcore' : Core cfg vm { s with
      weightedSummaries := dropInsufficient cfg.alpha s.weightedSummaries
        (choice.ids.list s.weightedSummaries.keys) } a := { hcore with }
  dsimp only
  split
  · split
    · exact hcore'.startup choice honce
    · exact Core.rest ⟨hcore.log.concat trivial, hcore.voters, hcore.seeders⟩ hidle hpending
  split
  · exact hcore'.rest hidle hpending
  rename_i summary hselect
  have haccept := hcore.log.concat (show Justified cfg vm a (.accept summary) from
    htally.evidence choice.ids (hcore.voters.answers_eq hsome (hall hpending) hpending) hselect)
  unfold acceptSummary
  split
  · exact Core.rest ⟨haccept.concat trivial, hcore.voters, hcore.seeders⟩ hidle hpending
  · exact Core.rest ⟨haccept, hcore.voters, hcore.seeders⟩ hidle hpending

/-- A vote, or a failure as an empty one, is counted or ignored as it is in the ballot. -/
theorem Inv.onAcceptedStateSummary (h : Inv cfg vm s a) {e : Event}
    (nodeID : NodeID) (requestID : UInt32) (hids : ids.Nodup)
    (he : e.count vm a = { a with votes := a.votes.reply nodeID requestID ids })
    (hjust : Justified cfg vm a e) :
    ∃ a', Inv cfg vm ((s.emit e).onAcceptedStateSummary cfg vm choice nodeID requestID ids) a' := by
  unfold StateSyncer.onAcceptedStateSummary
  split
  · rename_i hreq
    exact h.ignored (by rw [he, h.voters.reply_of_ignored fun heq => absurd heq hreq]) hjust
  rename_i hreq
  split
  · rename_i hno
    exact h.ignored (by rw [he, h.voters.reply_of_ignored fun _ => hno]) hjust
  rename_i hpending
  obtain rfl : requestID = s.requestID := not_not.mp hreq
  have hn : nodeID ∈ s.voters.pending := not_not.mp hpending
  have hne := Finset.ne_empty_of_mem hn
  have hidle : s.seeders.pending = ∅ := by
    by_contra hseeders
    exact hne (h.phase hseeders).pending
  have htally := h.tally (.inr hne)
  have hopen := h.voters.isOpen hn
  have hreceive := h.voters.receive hn ids
  have hlog := h.log.concat hjust
  rw [he] at hlog
  obtain ⟨hcore, hcounted⟩ : let s' : StateSyncer := { s.emit e with
        voters := s.voters.receive nodeID
        weightedSummaries := countVotes (cfg.beacons.weight nodeID) s.weightedSummaries ids }
      let a' := { a with votes := a.votes.reply nodeID s.requestID ids }
      Core cfg vm s' a' ∧ Tally cfg s' a' := by
    refine ⟨⟨hlog, hreceive, h.seeders⟩, htally.ongoing,
      fun id => (mem_countVotes _ _ hids id).trans (htally.known id), fun id hid => ?_⟩
    obtain ⟨weight, hweight⟩ := (mem_keys_iff _ _).mp ((mem_countVotes _ _ hids id).mp hid)
    have hvotes := htally.votes id ((mem_countVotes _ _ hids id).mp hid)
    rw [hweight, Option.getD_some] at hvotes
    rw [lookup_countVotes _ _ hids, hweight, hvotes]
    split
    · exact cfg.beacons.addVote_eq hopen ‹_› hreceive.answers_subset
    rw [Ballot.support_reply_of_open hopen, if_neg ‹_›, Nat.add_zero]
    rfl
  obtain ⟨a', hcore', htally', hsame, hseeders, hlocal, hall⟩ :=
    sendGetAcceptedStateSummaries_spec hcore hcounted choice.nodes
  exact Inv.acceptSufficient choice (fun hongoing => hlocal.trans (honce hongoing)) hcore' htally'
    (hseeders.symm ▸ hidle) (hsame ▸ Ballot.keys_reply_ne_empty hopen ids) hall

end

theorem Inv.step (h : Inv cfg vm s a) {op : Op cfg} (hop : Expected s op) :
    ∃ a', Inv cfg vm (s.step cfg vm op) a' := by
  cases op with
  | start choice =>
    unfold StateSyncer.step
    dsimp only
    split
    · exact ⟨a, h⟩
    · exact Core.startup (s := { s with started := true }) choice hop.2 { h with }
  | receive msg choice =>
    have honce : choice.ongoing = .notFound → s.locallyAvailableSummary = none := hop.2
    cases msg with
    | stateSummaryFrontier nodeID requestID summary =>
      exact h.onStateSummaryFrontier choice honce nodeID requestID summary
    | getStateSummaryFrontierFailed nodeID requestID =>
      exact h.onGetStateSummaryFrontierFailed choice honce (hop.1 (nodeID, requestID) rfl)
    | acceptedStateSummary nodeID requestID ids =>
      exact h.onAcceptedStateSummary choice honce nodeID requestID ids.2 rfl trivial
    | getAcceptedStateSummaryFailed nodeID requestID =>
      unfold StateSyncer.step handle onGetAcceptedStateSummaryFailed
      dsimp only
      split
      · rename_i hreq
        refine h.ignored ?_ trivial
        rw [Event.count, h.voters.reply_of_ignored fun heq => absurd heq hreq]
      exact Inv.onAcceptedStateSummary (s := { s with failedVoters := insert nodeID s.failedVoters })
        choice honce ⟨{ h with }, fun hne => { h.phase hne with }, fun hne => { h.tally hne with }⟩
        nodeID requestID nodup_nil rfl trivial

/-- In every run of expected steps, a summary is accepted on evidence only. -/
theorem run_justified (cfg : SyncConfig) (vm : VM) (startReqID : UInt32) {ops : List (Op cfg)}
    (h : AtEach (fun before op => Expected (run cfg vm startReqID before) op) ops) :
    AtEach (fun before e => Justified cfg vm (attemptOf vm before) e)
      (run cfg vm startReqID ops).events := by
  have hnew : ∃ a, Inv cfg vm (new startReqID) a :=
    Core.rest (a := .fresh) ⟨.nil _ _ _, .idle _ _, ∅, .idle _ _⟩ rfl rfl
  obtain ⟨_, hrun⟩ := AtEach.foldl (C := Expected) (I := fun s => ∃ a, Inv cfg vm s a) hnew
    (fun _ _ hs hop => hs.elim fun _ h => h.step hop) h
  exact hrun.log.justified

end SavannahNode.StateSyncer

namespace SavannahNode

/-- The bootstrapper and the state syncer act on the evidence of their current attempt only: the
    one in every run, the other in every run of expected steps. -/
theorem syncing_on_evidence (cfg : SyncConfig) (startReqID : UInt32) :
    (∀ ops : List (CommonBootstrapper.Op cfg), List.AtEach (fun before e =>
          CommonBootstrapper.Justified cfg (CommonBootstrapper.ballotOf before) e)
        (CommonBootstrapper.run cfg startReqID ops).events) ∧
    (∀ (vm : StateSyncer.VM) (ops : List (StateSyncer.Op cfg)),
      List.AtEach (fun before op => StateSyncer.Expected (StateSyncer.run cfg vm startReqID before) op)
        ops →
      List.AtEach (fun before e => StateSyncer.Justified cfg vm (StateSyncer.attemptOf vm before) e)
        (StateSyncer.run cfg vm startReqID ops).events) :=
  ⟨CommonBootstrapper.run_justified cfg startReqID,
    fun vm _ h => StateSyncer.run_justified cfg vm startReqID h⟩

namespace SmallSync

/-- Two beacons of weight one, both of which are sampled and needed. -/
def config : SyncConfig where
  beacons := ⟨((∅ : Finmap fun _ : NodeID => Nat).insert ⟨1⟩ 1).insert ⟨2⟩ 1, by decide +kernel⟩
  sampleK := 2
  sampleK_pos := fun _ => by decide
  alpha := 2
  alpha_pos := by decide
  retryBootstrap := true
  frontierFails := fun sampled failed => decide (sampled ∩ failed ≠ ∅)

/-- The choices of a call, in which the VM may be asked for its ongoing summary. -/
def choices (ongoing : StateSyncer.Ongoing) : StateSyncer.SyncChoice config where
  sample := some [⟨1⟩, ⟨2⟩]
  length_sample := by
    intro s hs
    cases hs
    rfl
  nodes := .nodeIDs
  ids := .ids
  ongoing := ongoing
  startedSyncing := some true

/-- Summary 1 has height one, summary 2 height ten. -/
def vm : StateSyncer.VM where
  parseStateSummary bytes := if bytes = [1] then some ⟨1⟩ else if bytes = [2] then some ⟨2⟩ else none
  height id := if id = ⟨2⟩ then 10 else 1

open StateSyncer

/-- A message while the VM has no ongoing summary. -/
def message (msg : Msg) : Op config := .receive msg (choices .notFound)

/-- Each beacon reports one of the summaries under a request ID. -/
def reports (requestID : UInt32) : List (Op config) :=
  [message (.stateSummaryFrontier ⟨1⟩ requestID [1]), message (.stateSummaryFrontier ⟨2⟩ requestID [2])]

/-- Both beacons vote for some summaries under a request ID. -/
def bothVote (requestID : UInt32) (ids : ParsedIDs) : List (Op config) :=
  [message (.acceptedStateSummary ⟨1⟩ requestID ids), message (.acceptedStateSummary ⟨2⟩ requestID ids)]

/-- Both summaries get all votes: the higher one is accepted. -/
def plainRun : List (Op config) :=
  .start (choices .notFound) :: (reports 1 ++ bothVote 2 ⟨[⟨1⟩, ⟨2⟩], by decide⟩)

/-- The VM syncs to summary 1 in the first attempt, which fails, and to none in the second. -/
def staleRun : List (Op config) :=
  .start (choices (.found ⟨1⟩)) ::
    ([message (.getStateSummaryFrontierFailed ⟨1⟩ 1), message (.getStateSummaryFrontierFailed ⟨2⟩ 1)] ++
      reports 2 ++ bothVote 3 ⟨[⟨1⟩, ⟨2⟩], by decide⟩)

/-- A failure of the first round, of a node that nobody has asked, arrives in the second one. -/
def unaskedRun : List (Op config) :=
  .start (choices .notFound) ::
    (reports 1 ++ message (.getStateSummaryFrontierFailed ⟨9⟩ 2) ::
      (bothVote 2 ⟨[⟨2⟩], by decide⟩ ++ bothVote 3 ⟨[⟨1⟩], by decide⟩))

end SmallSync

open SmallSync in
/-- The plain run meets the conditions, and the higher summary is accepted in it. -/
theorem syncing_on_evidence_plainRun :
    List.AtEach (fun before e => StateSyncer.Justified config vm (StateSyncer.attemptOf vm before) e)
        (StateSyncer.run config vm 0 plainRun).events ∧
      .accept ⟨2⟩ ∈ (StateSyncer.run config vm 0 plainRun).events :=
  ⟨(syncing_on_evidence config 0).2 vm plainRun (by decide +kernel), by decide +kernel⟩

open SmallSync in
/-- The state syncer accepts a summary that is neither ongoing nor the highest one, and one that
    no answer to its requests has listed. -/
theorem exists_accept_without_evidence :
    ¬ List.AtEach (fun before e => StateSyncer.Justified config vm (StateSyncer.attemptOf vm before) e)
        (StateSyncer.run config vm 0 staleRun).events ∧
      ¬ List.AtEach (fun before e =>
          StateSyncer.Justified config vm (StateSyncer.attemptOf vm before) e)
        (StateSyncer.run config vm 0 unaskedRun).events := by
  constructor
  · intro h
    have hevidence : StateSyncer.Evidence config vm _ ⟨1⟩ :=
      h (StateSyncer.run config vm 0 staleRun).events.dropLast (.accept ⟨1⟩) [] (by decide +kernel)
    have hnone : (StateSyncer.attemptOf vm
        (StateSyncer.run config vm 0 staleRun).events.dropLast).ongoing = none := by decide +kernel
    have hhighest := hevidence.highest (fun id hid => by rw [hnone] at hid; cases hid) ⟨2⟩
      ⟨.inr ⟨⟨2⟩, by decide +kernel⟩, by decide +kernel⟩
    exact absurd hhighest (by decide)
  intro h
  have hevidence : StateSyncer.Evidence config vm _ ⟨1⟩ :=
    h (StateSyncer.run config vm 0 unaskedRun).events.dropLast (.accept ⟨1⟩) [] (by decide +kernel)
  exact absurd hevidence.qualifies.2 (by decide +kernel)

end SavannahNode
