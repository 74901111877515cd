import SavannahNode.ForStd.Ballot
import SavannahNode.ForStd.Run
import SavannahNode.Native.CommonBootstrapper

/-!
# What the bootstrapper acts on

A round of requests implements a ballot: whoever is pending has been asked under the current
request ID and has not answered, so that exactly the first reply under this ID counts. The
ballot of an attempt is read off what the bootstrapper sent and received since the attempt
began. When `ForceAccepted` is called, all beacons have answered this ballot, and the
containers are those with a support of at least `Alpha`.
-/

namespace SavannahNode

open Ballot Finset List

/-! ## Rounds and ballots -/

/-- The round of requests agrees with a ballot of these voters, in which the requests that are
    outstanding were sent under one request ID. Unless the round is idle, every voter was asked
    or is still to be asked. -/
structure Polled (round : Broadcast) (ballot : Ballot NodeID UInt32 ID) (voters : Finset NodeID)
    (requestID : UInt32) : Prop where
  cover : (round.unsent = ∅ ∧ ballot.asked.keys = ∅) ∨
    ∀ n, n ∈ voters ↔ n ∈ round.unsent ∨ n ∈ ballot.asked.keys
  unasked : ∀ n ∈ round.unsent, n ∉ ballot.asked.keys
  pending : ∀ n, n ∈ round.pending ↔ n ∈ ballot.asked.keys ∧ n ∉ ballot.answers.keys
  asked : ballot.answers.keys ⊆ ballot.asked.keys
  ticket : ∀ n ∈ round.pending, ballot.asked.lookup n = some requestID

namespace Broadcast

/-- The nodes that are asked come from those to be asked, and all of them are asked unless too
    many requests are outstanding. -/
theorem sendLoop_spec {l : List NodeID} {b : Broadcast} (hl : ∀ n ∈ l, n ∈ b.unsent)
    (hnodup : l.Nodup) {vdrs : List NodeID} {b' : Broadcast} (h : sendLoop l b = (vdrs, b')) :
    (∀ n ∈ vdrs, n ∈ l) ∧ (∀ n, n ∈ b'.unsent ↔ n ∈ b.unsent ∧ n ∉ vdrs) ∧
      (∀ n, n ∈ b'.pending ↔ n ∈ b.pending ∨ n ∈ vdrs) ∧
      (b'.pending = ∅ → ∀ n ∈ l, n ∈ vdrs) := by
  induction l generalizing b vdrs b' with
  | nil =>
    cases h
    simp
  | cons vdr rest ih =>
    rw [sendLoop] at h
    split at h
    case isFalse hfull =>
      cases h
      refine ⟨by simp, by simp, by simp, fun hempty => ?_⟩
      -- nothing pending contradicts that the limit is reached
      rw [hempty] at hfull
      exact absurd (by decide) hfull
    case isTrue =>
      obtain ⟨hvdr, hrest⟩ := nodup_cons.mp hnodup
      generalize hloop : sendLoop rest ⟨b.unsent.erase vdr, insert vdr b.pending⟩ = result at h
      obtain ⟨vdrs', b''⟩ := result
      cases h
      have hunsent : ∀ n ∈ rest, n ∈ b.unsent.erase vdr := by
        intro n hn
        refine mem_erase.mpr ⟨?_, hl n (mem_cons_of_mem _ hn)⟩
        rintro rfl
        exact hvdr hn
      obtain ⟨hsub, hun, hpend, hall⟩ := ih hunsent hrest hloop
      refine ⟨?_, ?_, ?_, ?_⟩
      · intro n hn
        rcases mem_cons.mp hn with rfl | hn
        · exact mem_cons_self
        · exact mem_cons_of_mem _ (hsub n hn)
      · intro n
        rw [hun, mem_erase, List.mem_cons]
        tauto
      · intro n
        rw [hpend, mem_insert, List.mem_cons]
        tauto
      intro hempty n hn
      rcases mem_cons.mp hn with rfl | hn
      · exact mem_cons_self
      · exact mem_cons_of_mem _ (hall hempty n hn)

theorem send_spec (order : RangeOrder NodeID) (b : Broadcast) :
    (∀ n ∈ (b.send order).1, n ∈ b.unsent) ∧
      (∀ n, n ∈ (b.send order).2.unsent ↔ n ∈ b.unsent ∧ n ∉ (b.send order).1) ∧
      (∀ n, n ∈ (b.send order).2.pending ↔ n ∈ b.pending ∨ n ∈ (b.send order).1) ∧
      ((b.send order).2.pending = ∅ → (b.send order).2.unsent = ∅) := by
  obtain ⟨hsub, hun, hpend, hall⟩ := sendLoop_spec (l := order.list b.unsent) (b := b)
    (fun n hn => (order.mem_list _ n).mp hn) (order.nodup_list _) rfl
  refine ⟨fun n hn => (order.mem_list _ n).mp (hsub n hn), hun, hpend, fun hempty => ?_⟩
  refine eq_empty_of_forall_notMem fun n hn => ?_
  obtain ⟨hn, hnot⟩ := (hun n).mp hn
  exact hnot (hall hempty n ((order.mem_list _ n).mpr hn))

end Broadcast

namespace Polled

variable {round : Broadcast} {ballot : Ballot NodeID UInt32 ID} {voters : Finset NodeID}
  {requestID : UInt32}

theorem idle (voters : Finset NodeID) (requestID : UInt32) :
    Polled .empty .empty voters requestID :=
  ⟨.inl ⟨rfl, rfl⟩, by simp [Broadcast.empty], by simp [Broadcast.empty, empty],
    by simp [empty], by simp [Broadcast.empty]⟩

theorem start (voters : Finset NodeID) (requestID : UInt32) :
    Polled (.start voters) .empty voters requestID :=
  ⟨.inr (by simp [Broadcast.start, empty]), by simp [empty],
    by simp [Broadcast.start, empty], by simp [empty], by simp [Broadcast.start]⟩

section

variable (h : Polled round ballot voters requestID)

include h

/-- While nothing is outstanding, the next request ID may be any. -/
theorem renew (hpending : round.pending = ∅)
    (requestID' : UInt32) : Polled round ballot voters requestID' :=
  { h with ticket := by simp [hpending] }

theorem send (order : RangeOrder NodeID) :
    Polled (round.send order).2 (ballot.ask (round.send order).1 requestID) voters requestID := by
  obtain ⟨hsub, hun, hpend, _⟩ := round.send_spec order
  generalize (round.send order).1 = vdrs at *
  generalize (round.send order).2 = round' at *
  have hasked : ∀ n, n ∈ (ballot.ask vdrs requestID).asked.keys ↔
      n ∈ vdrs ∨ n ∈ ballot.asked.keys := by
    intro n
    rw [Finmap.mem_keys_iff, Finmap.mem_keys_iff, lookup_ask]
    by_cases hn : n ∈ vdrs <;> simp [hn]
  constructor
  · rcases h.cover with ⟨hunsent, hnone⟩ | hcover
    · left
      have hnobody : ∀ n, n ∉ vdrs := fun n hn => by simpa [hunsent] using hsub n hn
      constructor
      · refine eq_empty_of_forall_notMem fun n hn => ?_
        simpa [hunsent] using ((hun n).mp hn).1
      refine eq_empty_of_forall_notMem fun n hn => ?_
      rcases (hasked n).mp hn with hn | hn
      · exact hnobody n hn
      · simp [hnone] at hn
    right
    intro n
    rw [hcover, hun, hasked]
    by_cases hn : n ∈ vdrs
    · simp [hn, hsub n hn]
    · simp [hn]
  · intro n hn
    rw [hasked]
    rintro (hvdr | hold)
    · exact ((hun n).mp hn).2 hvdr
    · exact h.unasked n ((hun n).mp hn).1 hold
  · intro n
    rw [hpend, hasked, answers_ask, h.pending]
    -- who is asked only now has not answered before
    by_cases hn : n ∈ vdrs
    · have : n ∉ ballot.answers.keys := fun ha => h.unasked n (hsub n hn) (h.asked ha)
      simp [hn, this]
    · simp [hn]
  · intro n hn
    exact (hasked n).mpr (.inr (h.asked hn))
  · intro n hn
    rw [lookup_ask]
    split
    · rfl
    rename_i hnot
    exact h.ticket n (((hpend n).mp hn).resolve_right hnot)

/-- A reply under the current request ID of a node that is pending counts, -/
theorem isOpen {n : NodeID} (hn : n ∈ round.pending) : ballot.Open n requestID :=
  ⟨h.ticket n hn, ((h.pending n).mp hn).2⟩

/-- and no other reply does. -/
theorem reply_of_ignored {n : NodeID}
    {requestID' : UInt32} (hn : requestID' = requestID → n ∉ round.pending) {l : List ID} :
    ballot.reply n requestID' l = ballot := by
  refine if_neg ?_
  rintro ⟨hasked, hanswer⟩
  have hpending : n ∈ round.pending :=
    (h.pending n).mpr ⟨(Finmap.mem_keys_iff _ _).mpr ⟨_, hasked⟩, hanswer⟩
  have := h.ticket n hpending
  rw [hasked, Option.some.injEq] at this
  exact hn this hpending

theorem receive {n : NodeID} (hn : n ∈ round.pending)
    (l : List ID) : Polled (round.receive n) (ballot.reply n requestID l) voters requestID := by
  have hanswers : (ballot.reply n requestID l).answers.keys = insert n ballot.answers.keys := by
    rw [reply_of_open (h.isOpen hn)]
    exact Finmap.keys_insert _ _ _
  have hpending : ∀ m, m ∈ (round.receive n).pending ↔ m ≠ n ∧ m ∈ round.pending :=
    fun m => mem_erase
  constructor
  · rw [asked_reply]
    exact h.cover
  · rw [asked_reply]
    exact h.unasked
  · intro m
    rw [hpending, asked_reply, hanswers, h.pending, mem_insert]
    tauto
  · rw [asked_reply, hanswers]
    exact insert_subset ((h.pending n).mp hn).1 h.asked
  intro m hm
  rw [asked_reply]
  exact h.ticket m ((hpending m).mp hm).2

/-- Only voters answer. -/
theorem answers_subset : ballot.answers.keys ⊆ voters := by
  intro n hn
  rcases h.cover with ⟨_, hnone⟩ | hcover
  · have := h.asked hn
    simp [hnone] at this
  · exact (hcover n).mpr (.inr (h.asked hn))

/-- Once nothing is outstanding after a send, every voter has answered. -/
theorem answers_eq (hsome : ballot.answers.keys ≠ ∅) (hunsent : round.unsent = ∅)
    (hpending : round.pending = ∅) : ballot.answers.keys = voters := by
  refine Finset.Subset.antisymm h.answers_subset fun n hn => ?_
  rcases h.cover with ⟨_, hnone⟩ | hcover
  · exact absurd (subset_empty.mp (hnone ▸ h.asked)) hsome
  rcases (hcover n).mp hn with hn | hn
  · simp [hunsent] at hn
  by_contra hnot
  have := (h.pending n).mpr ⟨hn, hnot⟩
  simp [hpending] at this

end

end Polled

/-! ## Votes -/

theorem addVote_eq_min {weight previous : Nat} (h : previous ≤ maxUint64) :
    addVote weight previous = min maxUint64 (weight + previous) := by
  unfold addVote add64
  split
  · show maxUint64 = _
    omega
  show weight + previous = _
  omega

/-- The votes that can be counted are those of all beacons, so no count is cut off. -/
theorem Beacons.addVote_eq (b : Beacons) {ballot : Ballot NodeID UInt32 ID} {n : NodeID}
    {requestID : UInt32} (hopen : ballot.Open n requestID) {l : List ID} {id : ID} (hid : id ∈ l)
    (hvoters : (ballot.reply n requestID l).answers.keys ⊆ b.nodes) :
    addVote (b.weight n) (ballot.support b.weight id) =
      (ballot.reply n requestID l).support b.weight id := by
  have hsum := support_le hvoters b.weight id
  have hfits : ∑ m ∈ b.nodes, b.weight m ≤ maxUint64 := b.fits
  rw [support_reply_of_open hopen, if_pos hid] at hsum ⊢
  rw [addVote_eq_min (by omega)]
  omega

namespace CommonBootstrapper

/-- Each container has its votes, and only the containers of the list get another one. -/
theorem lookup_countVotes (weight : Nat) (votes : IDMap Nat) {ids : List ID} (h : ids.Nodup)
    (id : ID) : ((countVotes weight votes ids).lookup id).getD 0 =
      if id ∈ ids then addVote weight ((votes.lookup id).getD 0) else (votes.lookup id).getD 0 := by
  unfold countVotes
  induction ids generalizing votes with
  | nil => simp
  | cons a ids ih =>
    obtain ⟨ha, hids⟩ := nodup_cons.mp h
    rw [foldl_cons, ih _ hids, Finmap.lookup_insert_ite]
    by_cases hid : id = a
    · subst hid
      simp [ha]
    · simp [hid]

/-! ## The ballot of an attempt -/

/-- What an event means for the ballot of the current attempt. A request that failed is answered
    by the empty list. -/
def Event.count (ballot : Ballot NodeID UInt32 ID) : Event → Ballot NodeID UInt32 ID
  | .attempt => .empty
  | .getAccepted vdrs requestID _ => ballot.ask vdrs requestID
  | .received (.accepted nodeID requestID ids) => ballot.reply nodeID requestID ids
  | .received (.getAcceptedFailed nodeID requestID) => ballot.reply nodeID requestID []
  | _ => ballot

/-- `ForceAccepted` is called with exactly the containers that have a support of `Alpha`, after
    every beacon has answered or failed. -/
structure Evidence (cfg : SyncConfig) (ballot : Ballot NodeID UInt32 ID) (ids : List ID) :
    Prop where
  nodup : ids.Nodup
  answered : ballot.answers.keys = cfg.beacons.nodes
  mem_iff : ∀ id, id ∈ ids ↔ cfg.alpha ≤ ballot.support cfg.beacons.weight id

/-- What an event needs of the ballot before it. -/
def Justified (cfg : SyncConfig) (ballot : Ballot NodeID UInt32 ID) : Event → Prop
  | .forceAccepted ids => Evidence cfg ballot ids
  | _ => True

/-! ## The invariant -/

/-- What holds between two calls, with the ballot of the current attempt. -/
structure Inv (cfg : SyncConfig) (b : CommonBootstrapper) (ballot : Ballot NodeID UInt32 ID) :
    Prop where
  log : List.Observed Event.count .empty (Justified cfg) b.events ballot
  polled : Polled b.acceptedRound ballot cfg.beacons.nodes b.requestID
  phase : b.frontierRound.pending = ∅ ∨ b.acceptedRound.pending = ∅
  votes : ∀ id, (b.acceptedVotes.lookup id).getD 0 = ballot.support cfg.beacons.weight id

variable {cfg : SyncConfig} {b : CommonBootstrapper} {ballot : Ballot NodeID UInt32 ID}

section

variable (h : Inv cfg b ballot)

include h

/-- Asking for frontiers concerns neither the votes nor the ballot. -/
theorem Inv.sendGetAcceptedFrontiers (hidle : b.acceptedRound.pending = ∅)
    (order : RangeOrder NodeID) :
    Inv cfg (b.sendGetAcceptedFrontiers order) ballot ∧
      (b.sendGetAcceptedFrontiers order).acceptedRound.pending = ∅ := by
  unfold CommonBootstrapper.sendGetAcceptedFrontiers
  generalize b.frontierRound.send order = result
  obtain ⟨vdrs, round⟩ := result
  dsimp only
  split
  · exact ⟨{ h with phase := .inr hidle }, hidle⟩
  · exact ⟨⟨h.log.concat trivial, h.polled, .inr hidle, h.votes⟩, hidle⟩

/-- Asking for accepted containers: the beacons are asked in the ballot. -/
theorem Inv.sendGetAccepted (hidle : b.frontierRound.pending = ∅) (order : RangeOrder NodeID) :
    ∃ ballot', Inv cfg (b.sendGetAccepted order) ballot' ∧ ballot'.answers = ballot.answers ∧
      ((b.sendGetAccepted order).acceptedRound.pending = ∅ →
        (b.sendGetAccepted order).acceptedRound.unsent = ∅) := by
  have hsend := h.polled.send order
  have hall := (b.acceptedRound.send_spec order).2.2.2
  refine ⟨ballot.ask (b.acceptedRound.send order).1 b.requestID, ?_⟩
  unfold CommonBootstrapper.sendGetAccepted
  generalize b.acceptedRound.send order = result at hsend hall
  obtain ⟨vdrs, round⟩ := result
  dsimp only at hsend hall ⊢
  split
  case isTrue hnone =>
    subst hnone
    exact ⟨⟨h.log, hsend, .inl hidle, h.votes⟩, rfl, hall⟩
  case isFalse => exact ⟨⟨h.log.concat trivial, hsend, .inl hidle, h.votes⟩, rfl, hall⟩

section

variable (choice : Choice cfg)

/-- A new attempt begins with an empty ballot. Without beacons it ends at once. -/
theorem Inv.startup : ∃ ballot', Inv cfg (b.startup cfg choice) ballot' := by
  unfold CommonBootstrapper.startup
  split
  · exact ⟨ballot, h⟩
  rename_i beacons hsample
  have hstart : ∀ requestID, Inv cfg ({ b with
      requestID := requestID
      sampledBeacons := beacons.toFinset
      frontierRound := .start beacons.toFinset
      failedAcceptedFrontier := ∅
      acceptedFrontierSet := ∅
      acceptedRound := .start cfg.beacons.nodes
      failedAccepted := ∅
      acceptedVotes := ∅ }.emit .attempt) .empty :=
    fun requestID => ⟨h.log.concat trivial, .start _ _, .inl rfl, fun _ => rfl⟩
  refine ⟨.empty, ?_⟩
  dsimp only
  split
  case isTrue hnone =>
    -- an empty sample means that there are no beacons
    have hnobody : cfg.beacons.nodes = ∅ := by
      by_contra hsome
      have hpos := cfg.sampleK_pos hsome
      have hlen := choice.length_sample beacons hsample
      obtain rfl := (toFinset_eq_empty_iff _).mp (card_eq_zero.mp hnone)
      rw [length_nil] at hlen
      omega
    have hstart := hstart b.requestID
    refine { hstart with
      log := hstart.log.concat ⟨nodup_nil, hnobody.symm ▸ rfl, fun id => ?_⟩ }
    have hpos := cfg.alpha_pos
    simp
    omega
  case isFalse => exact ((hstart (b.requestID + 1)).sendGetAcceptedFrontiers rfl choice.nodes).1

theorem Inv.requestAccepted (hidle : b.acceptedRound.pending = ∅)
    (choice : Choice cfg) : ∃ ballot', Inv cfg (b.requestAccepted cfg choice) ballot' := by
  unfold CommonBootstrapper.requestAccepted
  split
  · exact ⟨ballot, h⟩
  rename_i hdone
  split
  · exact h.startup choice
  -- the next phase uses the next request ID
  have hnext : Inv cfg { b with
      requestID := b.requestID + 1
      acceptedFrontier := choice.ids.list b.acceptedFrontierSet } ballot :=
    { h with polled := h.polled.renew hidle _ }
  obtain ⟨ballot', hsent, _⟩ :=
    hnext.sendGetAccepted (card_eq_zero.mp (not_not.mp hdone)) choice.nodes
  exact ⟨ballot', hsent⟩

theorem Inv.onAcceptedFrontier (nodeID : NodeID) (requestID : UInt32) (ids : List ID) :
    ∃ ballot', Inv cfg (b.onAcceptedFrontier cfg choice nodeID requestID ids) ballot' := by
  unfold CommonBootstrapper.onAcceptedFrontier
  split
  · exact ⟨ballot, h⟩
  split
  · exact ⟨ballot, h⟩
  rename_i hpending
  have hidle : b.acceptedRound.pending = ∅ :=
    h.phase.resolve_left (ne_empty_of_mem (not_not.mp hpending))
  have hreceived : Inv cfg { b with
      frontierRound := b.frontierRound.receive nodeID
      acceptedFrontierSet := b.acceptedFrontierSet ∪ ids.toFinset } ballot :=
    { h with phase := .inr hidle }
  obtain ⟨hsent, hidle'⟩ := hreceived.sendGetAcceptedFrontiers hidle choice.nodes
  exact hsent.requestAccepted hidle' choice

/-- The containers that are handed over are those with enough support. -/
theorem Inv.evidence (hsome : ballot.answers.keys ≠ ∅) (hunsent : b.acceptedRound.unsent = ∅)
    (hpending : b.acceptedRound.pending = ∅) : Evidence cfg ballot (b.sufficient cfg choice) where
  nodup := (choice.ids.nodup_list _).filter _
  answered := h.polled.answers_eq hsome hunsent hpending
  mem_iff := by
    intro id
    unfold sufficient
    rw [mem_filter, choice.ids.mem_list, decide_eq_true_eq, h.votes]
    refine ⟨fun hid => hid.2, fun hid => ⟨?_, hid⟩⟩
    -- a container without votes has no support
    by_contra hnone
    have hpos := cfg.alpha_pos
    have hzero := h.votes id
    rw [Finmap.lookup_eq_none.mpr hnone, Option.getD_none] at hzero
    omega

theorem Inv.acceptSufficient (hsome : ballot.answers.keys ≠ ∅)
    (hall : b.acceptedRound.pending = ∅ → b.acceptedRound.unsent = ∅) :
    ∃ ballot', Inv cfg (b.acceptSufficient cfg choice) ballot' := by
  unfold CommonBootstrapper.acceptSufficient
  split
  · exact ⟨ballot, h⟩
  rename_i hdone
  have hpending := card_eq_zero.mp (not_not.mp hdone)
  dsimp only
  split
  · exact h.startup choice
  exact ⟨ballot, h.log.concat (h.evidence choice hsome (hall hpending) hpending), h.polled,
    h.phase, h.votes⟩

/-- A reply, or a failure as an empty reply, is counted or ignored as it is in the ballot. -/
theorem Inv.onAccepted {e : Event} (nodeID : NodeID)
    (requestID : UInt32) {ids : List ID} (hids : ids.Nodup)
    (he : e.count ballot = ballot.reply nodeID requestID ids) (hjust : Justified cfg ballot e) :
    ∃ ballot', Inv cfg ((b.emit e).onAccepted cfg choice nodeID requestID ids) ballot' := by
  have hlog := h.log.concat hjust
  rw [he] at hlog
  unfold CommonBootstrapper.onAccepted
  split
  · rename_i hreq
    rw [h.polled.reply_of_ignored fun heq => absurd heq hreq] at hlog
    exact ⟨ballot, hlog, h.polled, h.phase, h.votes⟩
  rename_i hreq
  split
  · rename_i hno
    rw [h.polled.reply_of_ignored fun _ => hno] at hlog
    exact ⟨ballot, hlog, h.polled, h.phase, h.votes⟩
  rename_i hpending
  obtain rfl : requestID = b.requestID := not_not.mp hreq
  have hn : nodeID ∈ b.acceptedRound.pending := not_not.mp hpending
  have hopen := h.polled.isOpen hn
  have hreceive := h.polled.receive hn ids
  have hidle : b.frontierRound.pending = ∅ := h.phase.resolve_right (ne_empty_of_mem hn)
  have hcounted : Inv cfg { b.emit e with
      acceptedRound := b.acceptedRound.receive nodeID
      acceptedVotes := countVotes (cfg.beacons.weight nodeID) b.acceptedVotes ids }
      (ballot.reply nodeID b.requestID ids) := by
    refine ⟨hlog, hreceive, .inl hidle, fun id => ?_⟩
    rw [lookup_countVotes _ _ hids, h.votes]
    split
    · exact cfg.beacons.addVote_eq hopen ‹_› hreceive.answers_subset
    · rw [support_reply_of_open hopen, if_neg ‹_›, Nat.add_zero]
  obtain ⟨ballot', hsent, hsame, hall⟩ := hcounted.sendGetAccepted hidle choice.nodes
  exact hsent.acceptSufficient choice (hsame ▸ keys_reply_ne_empty hopen ids) hall

theorem Inv.handle (msg : Msg) :
    ∃ ballot', Inv cfg ((b.emit (.received msg)).handle cfg choice msg) ballot' := by
  cases msg with
  | acceptedFrontier nodeID requestID ids =>
    have hemit : Inv cfg (b.emit (.received (.acceptedFrontier nodeID requestID ids))) ballot :=
      { h with log := h.log.concat trivial }
    exact hemit.onAcceptedFrontier choice nodeID requestID ids
  | getAcceptedFrontierFailed nodeID requestID =>
    have hlog := h.log.concat
      (show Justified cfg ballot (.received (.getAcceptedFrontierFailed nodeID requestID)) from trivial)
    unfold CommonBootstrapper.handle onGetAcceptedFrontierFailed
    dsimp only
    split
    · exact ⟨ballot, hlog, h.polled, h.phase, h.votes⟩
    have hfailed : Inv cfg { b.emit (.received (.getAcceptedFrontierFailed nodeID requestID)) with
        failedAcceptedFrontier := insert nodeID b.failedAcceptedFrontier } ballot :=
      { h with log := hlog }
    exact hfailed.onAcceptedFrontier choice nodeID requestID []
  | accepted nodeID requestID ids => exact h.onAccepted choice nodeID requestID ids.2 rfl trivial
  | getAcceptedFailed nodeID requestID =>
    unfold CommonBootstrapper.handle onGetAcceptedFailed
    dsimp only
    split
    · rename_i hreq
      have hlog := h.log.concat
        (show Justified cfg ballot (.received (.getAcceptedFailed nodeID requestID)) from trivial)
      refine ⟨ballot, ?_, h.polled, h.phase, h.votes⟩
      rwa [Event.count, h.polled.reply_of_ignored fun heq => absurd heq hreq] at hlog
    have hfailed : Inv cfg { b with failedAccepted := insert nodeID b.failedAccepted } ballot :=
      { h with }
    exact hfailed.onAccepted choice nodeID requestID nodup_nil rfl trivial

end

theorem Inv.step (op : Op cfg) : ∃ ballot', Inv cfg (b.step cfg op) ballot' := by
  cases op with
  | startup choice => exact h.startup choice
  | restart choice => exact h.startup choice
  | fetch =>
    unfold CommonBootstrapper.step
    dsimp only
    split
    · rename_i hidle
      exact ⟨ballot, h.log, h.polled.renew hidle.2 _, h.phase, h.votes⟩
    · exact ⟨ballot, h⟩
  | receive msg choice => exact h.handle choice msg

end

/-- The ballot of the current attempt after some events. -/
def ballotOf (events : List Event) : Ballot NodeID UInt32 ID := events.foldl Event.count .empty

/-- In every run, `ForceAccepted` is called on evidence only. -/
theorem run_justified (cfg : SyncConfig) (startReqID : UInt32) (ops : List (Op cfg)) :
    List.AtEach (fun before e => Justified cfg (ballotOf before) e)
      (run cfg startReqID ops).events := by
  obtain ⟨_, h⟩ := foldl_history (P := fun _ b => ∃ ballot, Inv cfg b ballot) (s := new startReqID)
    ⟨.empty, .nil _ _ _, .idle _ _, .inl rfl, fun _ => rfl⟩
    (fun _ b op hb => hb.elim fun _ h => h.step op) ops
  exact h.log.justified

end CommonBootstrapper

end SavannahNode
