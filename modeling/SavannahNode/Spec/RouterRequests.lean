import SavannahNode.ForStd.Run
import SavannahNode.Native.ChainRouter

/-!
# Requests are answered once

The messages pushed for a request and its entry in `timedRequests` are one together, from its
registration on: whatever is pushed for it takes the entry away. The entry goes at the latest
with the timeout, if that is handled while the node that was asked counts as a validator of the
chain, and a `Put` that was asked for does not look like gossip.
-/

namespace SavannahNode

open ChainRouter Finset List

/-- The request a message is for, as a reply or as a failure. -/
def InboundMessage.request (msg : InboundMessage) : Option RequestKey :=
  if msg.op ∈ MessageOp.unrequestedOps then none
  else some (createRequestID msg.nodeID msg.chainID msg.requestID
    (msg.op.failedToResponseOps.getD msg.op))

/-- A message that is passed on though nobody has asked for it. -/
def InboundMessage.Gossip (msg : InboundMessage) : Prop :=
  msg.op = .put ∧ msg.requestID = gossipMsgRequestID

/-- The reply to such a request looks like gossip. -/
def RequestKey.Gossip (id : RequestKey) : Prop := id.op = .put ∧ id.requestID = gossipMsgRequestID

instance (id : RequestKey) : Decidable id.Gossip := inferInstanceAs (Decidable (_ ∧ _))

namespace ChainRouter

variable {cr : ChainRouter} {id : RequestKey} {msg : InboundMessage}

/-! ## Inbound messages -/

/-- The request is not outstanding any more. -/
def clear (cr : ChainRouter) (id : RequestKey) : ChainRouter :=
  { cr with timedRequests := cr.timedRequests.erase id, timeoutMap := cr.timeoutMap.erase id }

theorem clearRequest_cases (cr : ChainRouter) (op : MessageOp) (nodeID : NodeID) (chainID : ID)
    (requestID : UInt32) :
    let id := createRequestID nodeID chainID requestID op
    (id ∉ cr.timedRequests ∧ cr.clearRequest op nodeID chainID requestID = none) ∨
    (id ∈ cr.timedRequests ∧ cr.clearRequest op nodeID chainID requestID =
      some (id, { cr with timedRequests := cr.timedRequests.erase id })) := by
  intro id
  by_cases h : id ∈ cr.timedRequests
  · exact .inr ⟨h, if_pos h⟩
  · exact .inl ⟨h, if_neg h⟩

/-- A message is dropped, or it is passed on: unasked, or as the answer to an outstanding
    request, which it clears. -/
theorem handleInbound_cases (cr : ChainRouter) (msg : InboundMessage) : cr.handleInbound msg = cr ∨
    ((msg.request = none ∨ msg.Gossip) ∧ cr.handleInbound msg = cr.push msg) ∨
    ∃ id, msg.request = some id ∧ id ∈ cr.timedRequests ∧
      cr.handleInbound msg = (cr.clear id).push msg := by
  unfold handleInbound
  split
  · exact .inl rfl
  split
  · exact .inl rfl
  split
  · rename_i hunasked
    split
    · exact .inl rfl
    · exact .inr (.inl ⟨hunasked.imp_left fun h => if_pos h, rfl⟩)
  rename_i hasked
  have hrequest : msg.request = some _ := if_neg fun h => hasked (.inl h)
  split
  · rename_i expected hfailed
    rw [hfailed, Option.getD_some] at hrequest
    obtain ⟨-, hclear⟩ | ⟨hid, hclear⟩ :=
      cr.clearRequest_cases expected msg.nodeID msg.chainID msg.requestID
    · rw [hclear]
      exact .inl rfl
    · rw [hclear]
      exact .inr (.inr ⟨_, hrequest, hid, rfl⟩)
  rename_i hfailed
  rw [hfailed, Option.getD_none] at hrequest
  split
  · exact .inl rfl
  obtain ⟨-, hclear⟩ | ⟨hid, hclear⟩ :=
    cr.clearRequest_cases msg.op msg.nodeID msg.chainID msg.requestID
  · rw [hclear]
    exact .inl rfl
  · rw [hclear]
    exact .inr (.inr ⟨_, hrequest, hid, rfl⟩)

theorem timedRequests_handleInbound (cr : ChainRouter) (msg : InboundMessage) :
    (cr.handleInbound msg).timedRequests ⊆ cr.timedRequests := by
  obtain heq | ⟨-, heq⟩ | ⟨id, -, -, heq⟩ := handleInbound_cases cr msg
  · rw [heq]
  · rw [heq]
    exact Finset.Subset.refl _
  rw [heq]
  exact erase_subset _ _

/-- The node of the request counts as a validator of its chain. -/
def Reachable (cr : ChainRouter) (id : RequestKey) : Prop :=
  (cr.chains.lookup id.chainID).any (·.isValidator id.nodeID) = true

instance (cr : ChainRouter) (id : RequestKey) : Decidable (cr.Reachable id) :=
  inferInstanceAs (Decidable (_ = true))

/-- The failure of a request is not dropped then, unless the request was answered. -/
theorem notMem_handleInbound_failedRequest {nodeID : NodeID} {chainID : ID} {requestID : UInt32}
    {op : MessageOp} (hid : id = createRequestID nodeID chainID requestID op)
    (hmsg : failedRequest id = some msg) (hreach : cr.Reachable id) :
    id ∉ (cr.handleInbound msg).timedRequests := by
  obtain ⟨chain, hchain, hvalidator⟩ := (Option.any_eq_true _ _).mp hreach
  obtain ⟨failedOp, hop, rfl⟩ := Option.map_eq_some_iff.mp hmsg
  obtain ⟨hresponse, hasked, hput⟩ : failedOp.failedToResponseOps = some id.op.standard ∧
      failedOp ∉ MessageOp.unrequestedOps ∧ failedOp ≠ .put := by
    generalize id.op = idOp at hop
    cases idOp <;> cases hop <;> decide
  have hkey : createRequestID id.nodeID id.chainID id.requestID id.op.standard = id := by
    subst hid
    cases op <;> rfl
  unfold handleInbound
  simp only [hchain, hvalidator, hasked, hput,
    hresponse, false_and, or_self, if_false, Bool.true_eq_false]
  obtain ⟨hnotMem, hclear⟩ | ⟨-, hclear⟩ :=
    cr.clearRequest_cases id.op.standard id.nodeID id.chainID id.requestID
  · rw [hclear]
    rwa [hkey] at hnotMem
  · rw [hclear, hkey]
    exact notMem_erase id _

/-! ## Messages and entries -/

/-- How many messages for the request were pushed. -/
def answers (cr : ChainRouter) (id : RequestKey) : Nat :=
  cr.pushed.countP fun msg => msg.request = some id

/-- The messages pushed for a request, and its entry. -/
def tokens (cr : ChainRouter) (id : RequestKey) : Nat :=
  cr.answers id + if id ∈ cr.timedRequests then 1 else 0

theorem tokens_handleInbound (cr : ChainRouter) (msg : InboundMessage) (hplain : ¬ id.Gossip) :
    (cr.handleInbound msg).tokens id = cr.tokens id := by
  have hpush : (cr.pushed ++ [msg]).countP (fun msg => msg.request = some id) =
      cr.answers id + if msg.request = some id then 1 else 0 := by
    simp [answers, countP_append, countP_singleton]
  obtain heq | ⟨hunasked, heq⟩ | ⟨id', hrequest, hid', heq⟩ := handleInbound_cases cr msg
  · rw [heq]
  · rw [heq, tokens, answers, push, hpush, if_neg, Nat.add_zero]
    · rfl
    intro hrequest
    rcases hunasked with hnone | hgossip
    · rw [hnone] at hrequest
      cases hrequest
    -- the request that gossip would be for is excluded
    apply hplain
    obtain ⟨op, nodeID, chainID, requestID⟩ := msg
    obtain ⟨rfl, rfl⟩ : op = .put ∧ requestID = gossipMsgRequestID := hgossip
    cases hrequest
    exact ⟨rfl, rfl⟩
  rw [heq]
  have htokens : ((cr.clear id').push msg).tokens id =
      (cr.answers id + if msg.request = some id then 1 else 0) +
        if id ∈ cr.timedRequests.erase id' then 1 else 0 := by
    rw [← hpush]
    rfl
  rw [htokens, tokens]
  by_cases h : id' = id
  · subst h
    simp [hrequest, hid']
  · simp [hrequest, h, Ne.symm h]

/-- The timeout of the request is still to come: it is being registered, it is in the map, or its
    handler is about to run. -/
def Pending (cr : ChainRouter) (id : RequestKey) : Prop :=
  id ∈ cr.registering ∨ id ∈ cr.timeoutMap ∨ cr.firing = some id

theorem pending_handleInbound (h : cr.Pending id)
    (hid : id ∈ (cr.handleInbound msg).timedRequests) : (cr.handleInbound msg).Pending id := by
  obtain heq | ⟨-, heq⟩ | ⟨id', -, -, heq⟩ := handleInbound_cases cr msg
  · rwa [heq]
  · rwa [heq]
  rw [heq] at hid ⊢
  have hne : id ≠ id' := (mem_erase.mp hid).1
  exact h.imp_right fun h => h.imp_left fun hmem => mem_erase.mpr ⟨hne, hmem⟩

theorem of_pending_handleInbound (h : (cr.handleInbound msg).Pending id) : cr.Pending id := by
  obtain heq | ⟨-, heq⟩ | ⟨id', -, -, heq⟩ := handleInbound_cases cr msg
  · rwa [heq] at h
  · rwa [heq] at h
  rw [heq] at h
  exact h.imp_right fun h => h.imp_left mem_of_mem_erase

/-! ## Steps -/

/-- The request a step registers. -/
def Op.request : Op → Option RequestKey
  | .registerRequest nodeID chainID requestID op =>
    some (createRequestID nodeID chainID requestID op)
  | _ => none

theorem filterMap_request_concat (before : List Op) (op : Op) :
    (before ++ [op]).filterMap Op.request = before.filterMap Op.request ++ op.request.toList := by
  rw [filterMap_append]
  cases op <;> rfl

/-- A new request is for a response and differs from the earlier ones. -/
def Op.Fresh (before : List Op) (op : Op) : Prop :=
  ∀ id ∈ op.request, (failedRequest id).isSome ∧ id ∉ before.filterMap Op.request

/-- The reply to a new request cannot be taken for gossip, and the node of an outstanding request
    is reachable when its timeout is handled. -/
def Op.Safe (cr : ChainRouter) (op : Op) : Prop :=
  (∀ id ∈ op.request, ¬ id.Gossip) ∧
    (op = .handleTimeout → ∀ id ∈ cr.firing, id ∈ cr.timedRequests → cr.Reachable id)

instance (before : List Op) (op : Op) : Decidable (op.Fresh before) :=
  inferInstanceAs (Decidable (∀ id ∈ op.request, _ ∧ _))

instance (cr : ChainRouter) (op : Op) : Decidable (op.Safe cr) := inferInstanceAs (Decidable (_ ∧ _))

/-- What holds once these requests were registered. -/
structure Inv (cr : ChainRouter) (registered : List RequestKey) : Prop where
  once : ∀ id ∈ registered, cr.tokens id = 1
  silent : ∀ id ∉ registered, ¬ id.Gossip → cr.tokens id = 0
  alive : ∀ id ∈ cr.timedRequests, cr.Pending id
  known : ∀ id, cr.Pending id → id ∈ registered
  plain : ∀ id ∈ registered, ¬ id.Gossip ∧ (failedRequest id).isSome ∧
    ∃ nodeID chainID requestID op, id = createRequestID nodeID chainID requestID op

variable {registered : List RequestKey}

section

variable (h : Inv cr registered)

include h

/-- A step that registers nothing keeps what is known of the requests. -/
theorem Inv.keep {cr' : ChainRouter} (htokens : ∀ id, ¬ id.Gossip → cr'.tokens id = cr.tokens id)
    (halive : ∀ id ∈ cr'.timedRequests, cr'.Pending id)
    (hknown : ∀ id, cr'.Pending id → cr.Pending id) : Inv cr' registered where
  once id hid := (htokens id (h.plain id hid).1).trans (h.once id hid)
  silent id hid hplain := (htokens id hplain).trans (h.silent id hid hplain)
  alive := halive
  known id hid := h.known id (hknown id hid)
  plain := h.plain

theorem Inv.same : Inv cr (registered ++ []) := by rwa [append_nil]

theorem Inv.registerRequest {nodeID : NodeID} {chainID : ID} {requestID : UInt32} {op : MessageOp}
    (hfailed : (failedRequest (createRequestID nodeID chainID requestID op)).isSome)
    (hnew : createRequestID nodeID chainID requestID op ∉ registered)
    (hplain : ¬ (createRequestID nodeID chainID requestID op).Gossip) :
    Inv (cr.registerRequest nodeID chainID requestID op)
      (registered ++ [createRequestID nodeID chainID requestID op]) := by
  have hop : op.responseToFailedOps.isSome := by
    cases op <;> first | rfl | cases hfailed
  obtain ⟨failedOp, hop⟩ := Option.isSome_iff_exists.mp hop
  have hadd : cr.registerRequest nodeID chainID requestID op = { cr with
      timedRequests := insert (createRequestID nodeID chainID requestID op) cr.timedRequests
      registering := createRequestID nodeID chainID requestID op :: cr.registering } := by
    unfold ChainRouter.registerRequest
    rw [hop]
  rw [hadd]
  constructor <;> simp only [List.mem_append, List.mem_singleton]
  · rintro id (hid | rfl)
    · have hne : id ≠ createRequestID nodeID chainID requestID op := fun heq => hnew (heq ▸ hid)
      simpa [tokens, answers, hne] using h.once id hid
    · have hzero := h.silent _ hnew hplain
      simp only [tokens, Nat.add_eq_zero_iff] at hzero
      simpa [tokens, answers] using hzero.1
  · intro id hid hplain
    rw [not_or] at hid
    simpa [tokens, answers, hid.2] using h.silent id hid.1 hplain
  · intro id hid
    obtain rfl | hid := mem_insert.mp hid
    · exact .inl mem_cons_self
    · exact (h.alive id hid).imp_left (mem_cons_of_mem _)
  · rintro id (hid | hid)
    · exact (List.mem_cons.mp hid).symm.imp_left fun hid => h.known id (.inl hid)
    · exact .inl (h.known id (.inr hid))
  rintro id (hid | rfl)
  · exact h.plain id hid
  · exact ⟨hplain, hfailed, nodeID, chainID, requestID, op, rfl⟩

/-- The handler of a timeout runs while its node is reachable: its request is not outstanding
    afterwards. -/
theorem Inv.handleTimeout
    (hreach : ∀ id ∈ cr.firing, id ∈ cr.timedRequests → cr.Reachable id) :
    Inv cr.handleTimeout registered ∧ ∀ id ∈ cr.firing, id ∉ cr.handleTimeout.timedRequests := by
  have hlose : ∀ id, ({ cr with firing := none } : ChainRouter).Pending id → cr.Pending id :=
    fun id hid => hid.imp_right fun hid => hid.imp_right fun hid => (by cases hid)
  have hkeep : ∀ id, cr.firing ≠ some id → cr.Pending id →
      ({ cr with firing := none } : ChainRouter).Pending id :=
    fun id hne hid => hid.imp_right fun hid => hid.imp_right fun hid => absurd hid hne
  unfold ChainRouter.handleTimeout
  cases hfiring : cr.firing with
  | none =>
    refine ⟨h.keep (fun _ _ => rfl) (fun id hid => ?_) hlose, by simp⟩
    exact hkeep id (by rw [hfiring]; simp) (h.alive id hid)
  | some id =>
    obtain ⟨-, hsome, _, _, _, _, hid⟩ := h.plain id (h.known id (.inr (.inr hfiring)))
    obtain ⟨msg, hmsg⟩ := Option.isSome_iff_exists.mp hsome
    have hcleared : id ∉ ({ cr with firing := none }.handleInbound msg).timedRequests := by
      by_cases htimed : id ∈ cr.timedRequests
      · exact notMem_handleInbound_failedRequest hid hmsg (hreach id hfiring htimed)
      · exact fun hid' => htimed (timedRequests_handleInbound { cr with firing := none } msg hid')
    rw [Option.bind_some, hmsg]
    refine ⟨h.keep (fun id' hplain => tokens_handleInbound _ msg hplain) (fun id' hid' => ?_)
      fun id' hid' => hlose id' (of_pending_handleInbound hid'), ?_⟩
    · have htimed := timedRequests_handleInbound { cr with firing := none } msg hid'
      refine pending_handleInbound (hkeep id' ?_ (h.alive id' htimed)) hid'
      intro heq
      cases hfiring.symm.trans heq
      exact hcleared hid'
    · rintro id' ⟨⟩
      exact hcleared

theorem Inv.handleInbound (msg : InboundMessage) : Inv (cr.handleInbound msg) registered := by
  refine h.keep (fun id hplain => tokens_handleInbound cr msg hplain) (fun id hid => ?_)
    fun id hid => of_pending_handleInbound hid
  exact pending_handleInbound (h.alive id (timedRequests_handleInbound cr msg hid)) hid

theorem Inv.putTimeout (id : RequestKey) : Inv (cr.putTimeout id) registered := by
  unfold ChainRouter.putTimeout
  split
  · rename_i hid
    refine h.keep (fun _ _ => rfl) (fun id' hid' => ?_) ?_
    · obtain hp | hp := h.alive id' hid'
      · by_cases heq : id' = id
        · exact .inr (.inl (mem_insert.mpr (.inl heq)))
        · exact .inl ((mem_erase_of_ne heq).mpr hp)
      · exact .inr (hp.imp_left mem_insert_of_mem)
    rintro id' (hp | hp | hp)
    · exact .inl (mem_of_mem_erase hp)
    · obtain rfl | hp := mem_insert.mp hp
      · exact .inl hid
      · exact .inr (.inl hp)
    · exact .inr (.inr hp)
  · exact h

theorem Inv.fire (id : RequestKey) : Inv (cr.fire id) registered := by
  unfold ChainRouter.fire
  split
  · rename_i hid
    refine h.keep (fun _ _ => rfl) (fun id' hid' => ?_) ?_
    · obtain hp | hp | hp := h.alive id' hid'
      · exact .inl hp
      · by_cases heq : id = id'
        · exact .inr (.inr (congrArg some heq))
        · exact .inr (.inl (mem_erase.mpr ⟨Ne.symm heq, hp⟩))
      rw [hid.2] at hp
      cases hp
    rintro id' (hp | hp | hp)
    · exact .inl hp
    · exact .inr (.inl (mem_of_mem_erase hp))
    · cases hp
      exact .inr (.inl hid.1)
  · exact h

theorem Inv.updateChain (chainID : ID) (f : ChainHandler → ChainHandler) :
    Inv (cr.updateChain chainID f) registered := by
  unfold ChainRouter.updateChain
  split
  · exact h
  · exact h.keep (fun _ _ => rfl) h.alive fun _ hid => hid

end

theorem Inv.step {before : List Op} (h : Inv cr (before.filterMap Op.request)) {op : Op}
    (hfresh : op.Fresh before) (hsafe : op.Safe cr) :
    Inv (cr.step op) ((before ++ [op]).filterMap Op.request) := by
  rw [filterMap_request_concat]
  cases op with
  | registerRequest nodeID chainID requestID op =>
    obtain ⟨hfailed, hnew⟩ := hfresh _ rfl
    exact h.registerRequest hfailed hnew (hsafe.1 _ rfl)
  | putTimeout id => exact (h.putTimeout id).same
  | receive msg => exact (h.handleInbound msg).same
  | fire id => exact (h.fire id).same
  | handleTimeout => exact (h.handleTimeout (hsafe.2 rfl)).1.same
  | setValidators chainID validators => exact (h.updateChain chainID _).same
  | setExecuting chainID executing => exact (h.updateChain chainID _).same

/-- Only a registration makes a request outstanding. -/
theorem mem_timedRequests_step {op : Op} (h : id ∈ (cr.step op).timedRequests) :
    id ∈ cr.timedRequests ∨ op.request = some id := by
  cases op with
  | registerRequest nodeID chainID requestID op =>
    have hinsert : id ∈ insert (createRequestID nodeID chainID requestID op) cr.timedRequests := by
      unfold step registerRequest at h
      dsimp only at h
      split at h <;> exact h
    exact (mem_insert.mp hinsert).symm.imp_right fun heq => congrArg some heq.symm
  | receive msg => exact .inl (timedRequests_handleInbound cr msg h)
  | handleTimeout =>
    unfold step handleTimeout at h
    dsimp only at h
    split at h
    · exact .inl h
    · exact .inl (timedRequests_handleInbound { cr with firing := none } _ h)
  | _ =>
    simp only [step, putTimeout, fire, updateChain, removeTimeout] at h
    split at h <;> exact .inl h

/-! ## Runs -/

/-- The handler of the timeout of the request has run. -/
def Fired (chains : IDMap ChainHandler) (ops : List Op) (id : RequestKey) : Prop :=
  ∃ before after, ops = before ++ .handleTimeout :: after ∧ (run chains before).firing = some id

theorem run_concat (chains : IDMap ChainHandler) (before : List Op) (op : Op) :
    run chains (before ++ [op]) = (run chains before).step op := by
  rw [run, foldl_append]
  rfl

theorem run_inv {chains : IDMap ChainHandler} {ops : List Op}
    (h : List.AtEach (fun before op => op.Fresh before ∧ op.Safe (run chains before)) ops) :
    Inv (run chains ops) (ops.filterMap Op.request) := by
  induction ops using reverseRecOn with
  | nil =>
    refine ⟨by simp, fun id _ _ => rfl, by simp [run], ?_, by simp⟩
    rintro id (hid | hid | hid) <;> cases hid
  | append_singleton before op ih =>
    obtain ⟨hbefore, hfresh, hsafe⟩ := atEach_concat.mp h
    rw [run_concat]
    exact (ih hbefore).step hfresh hsafe

/-- A request whose timeout was handled does not become outstanding again. -/
theorem notMem_of_fired {chains : IDMap ChainHandler} {ops : List Op}
    (h : List.AtEach (fun before op => op.Fresh before ∧ op.Safe (run chains before)) ops)
    (hfired : Fired chains ops id) :
    id ∈ ops.filterMap Op.request ∧ id ∉ (run chains ops).timedRequests := by
  obtain ⟨before, after, rfl, hfiring⟩ := hfired
  induction after using reverseRecOn with
  | nil =>
    obtain ⟨hbefore, -, hsafe⟩ := atEach_concat.mp h
    have hinv := run_inv hbefore
    have hknown := hinv.known id (.inr (.inr hfiring))
    rw [run_concat, filterMap_request_concat]
    exact ⟨mem_append_left _ hknown, (hinv.handleTimeout (hsafe.2 rfl)).2 id hfiring⟩
  | append_singleton after op ih =>
    rw [← cons_append, ← append_assoc] at h ⊢
    obtain ⟨hbefore, hfresh, -⟩ := atEach_concat.mp h
    obtain ⟨hknown, hcleared⟩ := ih hbefore
    rw [run_concat, filterMap_request_concat]
    refine ⟨mem_append_left _ hknown, fun hmem => ?_⟩
    cases mem_timedRequests_step hmem with
    | inl htimed => exact hcleared htimed
    | inr hrequest => exact (hfresh id hrequest).2 hknown

/-- Exactly one message was pushed for the request, and it is forgotten. -/
structure Answered (cr : ChainRouter) (id : RequestKey) : Prop where
  answers : cr.answers id = 1
  cleared : id ∉ cr.timedRequests

/-- Every registered request is answered exactly once. In a run in which the registered requests
    differ, the reply to none of them can be taken for gossip and every timeout of a request that is
    outstanding is handled while its node is reachable, a request was answered once and is forgotten as soon as a message for it
    was pushed or its timeout was handled, and until then its timeout is still to come. In every
    run, a message that is pushed clears an outstanding request, if it is a response and not
    gossip. -/
theorem requests_answered_once (chains : IDMap ChainHandler) (ops : List Op) :
    (List.AtEach (fun before op => op.Fresh before ∧ op.Safe (run chains before)) ops →
      ∀ id ∈ ops.filterMap Op.request,
        (0 < (run chains ops).answers id ∨ Fired chains ops id → (run chains ops).Answered id) ∧
        ((run chains ops).Answered id ∨ (run chains ops).Pending id)) ∧
    ∀ msg, ((run chains ops).handleInbound msg).pushed ≠ (run chains ops).pushed →
      msg.request = none ∨ msg.Gossip ∨
      ∃ id, msg.request = some id ∧ id ∈ (run chains ops).timedRequests ∧
        id ∉ ((run chains ops).handleInbound msg).timedRequests := by
  constructor
  · intro h id hid
    have hinv := run_inv h
    have htokens := hinv.once id hid
    unfold tokens at htokens
    by_cases htimed : id ∈ (run chains ops).timedRequests
    · rw [if_pos htimed] at htokens
      refine ⟨fun hdone => ?_, .inr (hinv.alive id htimed)⟩
      cases hdone with
      | inl hpos => omega
      | inr hfired => exact absurd htimed (notMem_of_fired h hfired).2
    rw [if_neg htimed] at htokens
    exact ⟨fun _ => ⟨htokens, htimed⟩, .inl ⟨htokens, htimed⟩⟩
  · intro msg hne
    obtain heq | ⟨hunasked, -⟩ | ⟨id, hrequest, hid, heq⟩ := handleInbound_cases (run chains ops) msg
    · exact absurd (congrArg pushed heq) hne
    · exact hunasked.imp_right .inl
    refine .inr (.inr ⟨id, hrequest, hid, ?_⟩)
    rw [heq]
    exact notMem_erase id _

namespace SmallRouter

/-- A chain for validators only, and a node that is one of them. -/
def validatorChain : IDMap ChainHandler := (∅ : IDMap ChainHandler).insert ⟨1⟩ ⟨⟨0⟩, true, {⟨1⟩}, false⟩

/-- A request to the node, and its timeout. -/
def request (requestID : UInt32) (op : MessageOp) : List Op :=
  [.registerRequest ⟨1⟩ ⟨1⟩ requestID op, .putTimeout ⟨⟨1⟩, ⟨1⟩, requestID, op⟩]

/-- The timeout of the request fires. -/
def timeout (requestID : UInt32) (op : MessageOp) : List Op :=
  [.fire ⟨⟨1⟩, ⟨1⟩, requestID, op⟩, .handleTimeout]

/-- The node votes in time, and twice, and does not send what it was asked for. -/
def plainRun : List Op :=
  request 7 .chits ++ request 8 .put ++
    [.receive ⟨.chitsV2, ⟨1⟩, ⟨1⟩, 7⟩, .receive ⟨.chits, ⟨1⟩, ⟨1⟩, 7⟩] ++ timeout 8 .put

/-- The node stops being a validator before its timeout. -/
def leavingRun : List Op := request 7 .chits ++ [.setValidators ⟨1⟩ ∅] ++ timeout 7 .chits

/-- A reply that looks like gossip, and the timeout. -/
def gossipRun : List Op :=
  request gossipMsgRequestID .put ++ [.receive ⟨.put, ⟨1⟩, ⟨1⟩, gossipMsgRequestID⟩] ++
    timeout gossipMsgRequestID .put

end SmallRouter

open SmallRouter in
/-- The vote and the failure are passed on once. -/
theorem requests_answered_once_plainRun :
    (run validatorChain plainRun).Answered ⟨⟨1⟩, ⟨1⟩, 7, .chits⟩ ∧
      (run validatorChain plainRun).Answered ⟨⟨1⟩, ⟨1⟩, 8, .put⟩ := by
  have h := (requests_answered_once validatorChain plainRun).1 (by decide +kernel)
  exact ⟨(h _ (by decide +kernel)).1 (.inl (by decide +kernel)),
    (h _ (by decide +kernel)).1 (.inr ⟨plainRun.dropLast, [], by decide +kernel, by decide +kernel⟩)⟩

open SmallRouter in
/-- A request whose timeout was handled is not answered at all and stays outstanding, and another
    one is answered twice. -/
theorem exists_request_not_answered_once :
    (List.AtEach (fun before op => op.Fresh before) leavingRun ∧
      Fired validatorChain leavingRun ⟨⟨1⟩, ⟨1⟩, 7, .chits⟩ ∧
      (run validatorChain leavingRun).answers ⟨⟨1⟩, ⟨1⟩, 7, .chits⟩ = 0 ∧
      ⟨⟨1⟩, ⟨1⟩, 7, .chits⟩ ∈ (run validatorChain leavingRun).timedRequests) ∧
    (List.AtEach (fun before op => op.Fresh before) gossipRun ∧
      (run validatorChain gossipRun).answers ⟨⟨1⟩, ⟨1⟩, gossipMsgRequestID, .put⟩ = 2) := by
  refine ⟨⟨by decide +kernel, ⟨leavingRun.dropLast, [], by decide +kernel, by decide +kernel⟩, ?_, ?_⟩,
    by decide +kernel, by decide +kernel⟩
  · decide +kernel
  · decide +kernel

end ChainRouter

end SavannahNode
