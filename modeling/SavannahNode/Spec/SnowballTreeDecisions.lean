import SavannahNode.Spec.SnowballTreeStreaks

/-!
# Decisions of the snowball tree

A decision of the root is never revoked, and every bit the tree has decided is backed by
consecutive polls: as many as the node that voted on it needed.

## Key results

- `EagerTree.extends_run`: later states keep what earlier ones have decided
- `EagerTree.history_run`: every decided bit is backed by polls of the run
- `Tree.decisions_backed`: both, for the tree of the source
-/

namespace SavannahNode

open List Node SavannahNode.Tree EagerTree

/-! ## Irrevocability -/

namespace Node

/-- A finalized root is a leaf, which ignores new choices. -/
theorem add_of_finalized {params : Parameters} {n : Node} (hw : n.WellFormed)
    (hfin : n.finalized = true) (id : ID) : n.add params id = n := by
  cases n with
  | nil => rfl
  | unary u child =>
    have hfin : u.snowball.finalized = true := hfin
    rw [add, if_pos hfin]
  | binary b children =>
    have h255 := hw.1.bit_eq_of_finalized hfin
    simp only [add, hw.1.isNil_iff.mpr h255, Bool.not_true, Bool.false_and, Bool.false_eq_true,
      if_false]

/-- A finalized root stays finalized with the same preference. -/
theorem finalized_recordPollEager {params : Parameters} {n : Node} (hw : n.WellFormed)
    (hc : n.Confident params) (hfin : n.finalized = true) (votes : Bag) :
    (n.recordPollEager params votes).1.finalized = true ∧
      (n.recordPollEager params votes).1.preference = n.preference := by
  cases n with
  | nil => cases hfin
  | unary u child =>
    have hnil : child.isNil = true := by
      cases hnil : child.isNil with
      | true => rfl
      | false => exact Bool.noConfusion (hfin.symm.trans (hc.2.1 hnil).1)
    have hsf : u.snowball.snowflake.finalized = true := hfin
    simp only [recordPollEager]
    split
    · exact ⟨(finalized_resetConfidence _).trans hfin, preference_resetConfidence _⟩
    refine ⟨?_, rfl⟩
    simp [finalized, UnarySnowball.recordSuccessfulPoll, UnarySnowball.finalized,
      UnarySnowflake.recordSuccessfulPoll, hsf]
  | binary b children =>
    have hfin : b.snowball.finalized = true := hfin
    have h255 := hw.1.bit_eq_of_finalized hfin
    simp only [recordPollEager]
    generalize decide (params.alpha ≤ (((votes.split b.bit).get true).len : Int)) = bit
    split
    · exact ⟨(finalized_resetConfidence _).trans hfin, preference_resetConfidence _⟩
    rw [if_pos (hw.1.isNil_iff.mpr h255 bit)]
    have hsf := snowflake_recordSuccessfulPoll_of_finalized bit hfin
    have hfin' : (b.snowball.recordSuccessfulPoll bit).finalized = true := by
      rw [BinarySnowball.finalized, hsf]
      exact hfin
    refine ⟨hfin', ?_⟩
    simp only [preference, pref_of_finalized hfin', pref_of_finalized hfin, hsf]

end Node

namespace EagerTree

/-- What a later state of a tree keeps of an earlier one. -/
structure Extends (t t' : EagerTree) : Prop where
  decidedPrefix_le : t.decidedPrefix ≤ t'.decidedPrefix
  agree : Agree t.decidedPrefix t'.preference t.preference
  finalized : t.finalized = true → t'.finalized = true ∧ t'.preference = t.preference

theorem Extends.refl (t : EagerTree) : t.Extends t :=
  ⟨Nat.le_refl _, Agree.refl _ _, fun h => ⟨h, rfl⟩⟩

theorem Extends.trans {t t' t'' : EagerTree} (h : t.Extends t') (h' : t'.Extends t'') :
    t.Extends t'' where
  decidedPrefix_le := Nat.le_trans h.decidedPrefix_le h'.decidedPrefix_le
  agree := (h'.agree.mono h.decidedPrefix_le).trans h.agree
  finalized := by
    intro hfin
    obtain ⟨hfin', hpref⟩ := h.finalized hfin
    obtain ⟨hfin'', hpref'⟩ := h'.finalized hfin'
    exact ⟨hfin'', hpref'.trans hpref⟩

/-- No operation revokes a decision. -/
theorem Invariant.extends_step {params : Parameters} (hle : params.betaVirtuous ≤ params.betaRogue)
    {given : List ID} {t : EagerTree} (h : Invariant params given t) (op : Op) :
    t.Extends (t.step op).1 := by
  obtain ⟨rfl, hnil, hw, hc, -⟩ := h
  cases op with
  | add choice =>
    simp only [EagerTree.step, add]
    split
    · rename_i heq
      have hag : Agree t.node.decidedPrefix choice t.node.preference :=
        ((equalSubset_zero_iff (Nat.le_of_lt (hw.decidedPrefix_lt hnil)) _ _).mp heq).symm
      have hpref := preference_add t.params t.node choice
      refine ⟨Nat.le_of_eq (added_add hw hc hag).decidedPrefix_eq.symm, ?_, fun hfin => ?_⟩
      · rw [preference, preference, hpref]
        exact Agree.refl _ _
      · rw [finalized, preference, add_of_finalized hw hfin]
        exact ⟨hfin, rfl⟩
    · exact Extends.refl t
  | recordPoll votes =>
    have hpoll := (polled_recordPollEager hle hw hc
      (votes.filter 0 t.node.decidedPrefix t.preference)).1
    exact ⟨hpoll.decidedPrefix_le,
      hw.agree (hpoll.stores _ (stores_preference (hpoll.isNil_eq.trans hnil))),
      fun hfin => finalized_recordPollEager hw hc hfin _⟩
  | recordUnsuccessfulPoll =>
    refine ⟨Nat.le_of_eq (decidedPrefix_resetConfidence _).symm, ?_, fun hfin => ?_⟩
    · rw [show (t.step .recordUnsuccessfulPoll).1.preference = t.preference from
        preference_resetConfidence _]
      exact Agree.refl _ _
    · exact ⟨(finalized_resetConfidence _).trans hfin, preference_resetConfidence _⟩

/-- No run revokes a decision. -/
theorem extends_run {params : Parameters} (hle : params.betaVirtuous ≤ params.betaRogue)
    (choice : ID) (pre post : List Op) :
    ((init params choice).run pre).Extends ((init params choice).run (pre ++ post)) := by
  have h := foldl_history (P := fun hist t =>
      Invariant params (given choice (pre ++ hist)) t ∧ ((init params choice).run pre).Extends t)
    (f := fun t op => (step t op).1) (s := (init params choice).run pre)
    ⟨by rw [append_nil]; exact invariant_run hle choice pre, Extends.refl _⟩
    (fun hist t op h => ⟨by rw [← append_assoc]; exact h.1.step hle op,
      h.2.trans (h.1.extends_step hle op)⟩) post
  have happend : (init params choice).run (pre ++ post) = ((init params choice).run pre).run post :=
    foldl_append
  rw [happend]
  exact h.2

end EagerTree

/-! ## Backed decisions -/

namespace Tree

/-- Whether an operation is a `RecordPoll`. -/
def Op.isPoll : Op → Bool
  | .recordPoll _ => true
  | _ => false

section

variable (params : Parameters) (choice : ID) (ops : List Op) (id : ID) (i : Nat)

/-- The run has `beta` consecutive polls, with no `RecordUnsuccessfulPoll` between them, in
    each of which at least `alpha` votes went to IDs that agree with `id` on the first `n`
    bits. -/
def Backed (alpha beta : Int) (ops : List Op) (n : Nat) (id : ID) : Prop :=
  ∃ before polls after, ops = before ++ polls ++ after ∧ .recordUnsuccessfulPoll ∉ polls ∧
    (∀ votes, .recordPoll votes ∈ polls → alpha ≤ votes.countWhere fun x => decide (Agree n x id)) ∧
    beta ≤ polls.countP Op.isPoll

/-- At some point of the run a binary node voted on bit `i` of the IDs that start like
    `id`. -/
def Contested : Prop :=
  ∃ pre, pre <+: ops ∧ ((init params choice).run pre).node.owner id i = .binary

/-- Bit `i` was decided as `id` has it with the polls its owner needs. -/
def Settled : Prop :=
  Backed params.alpha params.betaVirtuous ops (i + 1) id ∧
    (Contested params choice ops id i → Backed params.alpha params.betaRogue ops (i + 1) id)

/-- Every poll of the run is of at most `k` votes, all for IDs given before it. -/
def PollsGiven : Prop :=
  ∀ pre votes post, ops = pre ++ .recordPoll votes :: post →
    votes.len ≤ params.k ∧ ∀ id ∈ votes.list, id ∈ given choice pre

end

variable {alpha beta : Int} {ops : List Op} {n : Nat} {id : ID}

theorem Backed.concat (h : Backed alpha beta ops n id) (op : Op) :
    Backed alpha beta (ops ++ [op]) n id := by
  obtain ⟨before, polls, after, rfl, hrest⟩ := h
  exact ⟨before, polls, after ++ [op], by simp, hrest⟩

theorem Backed.mono {beta' : Int} (h : Backed alpha beta ops n id) (hle : beta' ≤ beta) :
    Backed alpha beta' ops n id := by
  obtain ⟨before, polls, after, heq, hun, hpolls, hcount⟩ := h
  exact ⟨before, polls, after, heq, hun, hpolls, Int.le_trans hle hcount⟩

/-- A streak is a segment of backing polls. -/
theorem backed_of_streak (h : beta ≤ streak alpha ops n id) : Backed alpha beta ops n id := by
  obtain ⟨before, polls, heq, hseg, hcount⟩ := exists_segment_streak (Op.outcome alpha n id) ops
  have hpolls : ∀ votes, .recordPoll votes ∈ polls →
      alpha ≤ votes.countWhere fun x => decide (Agree n x id) := by
    intro votes hmem
    have := hseg _ hmem
    simpa [Op.outcome] using this
  refine ⟨before, polls, [], by simpa using heq, fun hmem => hseg _ hmem rfl, hpolls, ?_⟩
  rw [streak, ← hcount] at h
  refine Int.le_trans h (Int.ofNat_le.mpr (countP_mono_left fun op hop hout => ?_))
  cases op with
  | recordPoll votes => rfl
  | add choice => cases hout
  | recordUnsuccessfulPoll => cases hout

theorem PollsGiven.of_concat {params : Parameters} {choice : ID} {op : Op}
    (h : PollsGiven params choice (ops ++ [op])) : PollsGiven params choice ops :=
  fun pre votes post heq => h pre votes (post ++ [op]) (by rw [heq]; simp)

/-- The eager tree has the same binary nodes. -/
theorem contested_concat {params : Parameters} {choice : ID} {op : Op} {i : Nat} :
    Contested params choice (ops ++ [op]) id i ↔ Contested params choice ops id i ∨
      ((EagerTree.init params choice).run (ops ++ [op])).node.owner id i = .binary := by
  have howner : ∀ ops, ((init params choice).run ops).node.owner id i =
      ((EagerTree.init params choice).run ops).node.owner id i := by
    intro ops
    rw [← eager_run_init]
    exact (owner_flush _ _ _ _).symm
  constructor
  · rintro ⟨pre, hpre, hown⟩
    rcases prefix_concat_iff.mp hpre with rfl | hpre
    · exact .inr (howner _ ▸ hown)
    · exact .inl ⟨pre, hpre, hown⟩
  rintro (⟨pre, hpre, hown⟩ | hown)
  · exact ⟨pre, hpre.trans (prefix_append _ _), hown⟩
  · exact ⟨_, prefix_rfl, (howner _).trans hown⟩

end Tree

namespace EagerTree

/-- The history invariant: counters are below the streaks, decided bits are settled. -/
structure History (params : Parameters) (choice : ID) (ops : List Tree.Op) (t : EagerTree) :
    Prop where
  eq_run : t = (init params choice).run ops
  invariant : Invariant params (Tree.given choice ops) t
  supported : t.node.Supported params.alpha ops (Tree.given choice ops)
  settled : ∀ id i, t.node.owner id i = .decided (id.bit i) → Tree.Settled params choice ops id i

theorem history_init (params : Parameters) (choice : ID) :
    History params choice [] (init params choice) where
  eq_run := rfl
  invariant := invariant_init params choice
  supported := by
    refine ⟨fun _ => ⟨Nat.le_refl _, fun id hid _ => ?_⟩, trivial⟩
    rw [mem_singleton.mp hid]
    exact Agree.refl _ _
  settled := by
    intro id i hown
    obtain ⟨-, ⟨hi, -⟩ | ⟨-, -, hf, -⟩ | ⟨-, -, hchild⟩⟩ := owner_unary_eq_decided hown
    · cases hi
    · cases hf
    · cases hchild

variable {params : Parameters} {choice : ID} {ops : List Op} {t : EagerTree} {i : Nat}

section

variable (hle : params.betaVirtuous ≤ params.betaRogue) (h : History params choice ops t)

include hle h

/-- A bit that a unary node votes on has never been contested. -/
theorem History.not_contested {id : ID} (hown : t.node.owner id i = .unary) :
    ¬ Tree.Contested params choice ops id i := by
  rintro ⟨pre, ⟨post, rfl⟩, hbin⟩
  have hinv := invariant_run hle choice pre
  rw [← eager_run_init] at hinv
  rw [← owner_flush _ ((Tree.init params choice).run pre).shouldReset] at hbin
  -- two IDs given by then differ at the bit
  have hgiven : ∀ x ∈ given choice pre, x ∈ given choice (pre ++ post) := by
    intro x hx
    simp only [given, filterMap_append, mem_cons, mem_append] at hx ⊢
    exact hx.imp_right .inl
  obtain ⟨x, hx, hxag, hxbit⟩ := stores_of_owner_binary hinv.wellFormed hbin true
  obtain ⟨y, hy, hyag, hybit⟩ := stores_of_owner_binary hinv.wellFormed hbin false
  have := bit_eq_of_owner_unary h.supported hown (hgiven x (hinv.mem_given x hx))
    (hgiven y (hinv.mem_given y hy)) hxag hyag
  rw [hxbit, hybit] at this
  cases this

/-- A bit decided by an operation is settled if its owner had the streak it needs. -/
private theorem History.settled_concat {op : Op} {id : ID}
    (hown : ((init params choice).run (ops ++ [op])).node.owner id i = .decided (id.bit i))
    (hdec : Decides params (ops ++ [op]) t.node id i) :
    Settled params choice (ops ++ [op]) id i := by
  have hcontested : Contested params choice (ops ++ [op]) id i →
      Contested params choice ops id i := by
    intro hc
    rcases contested_concat.mp hc with hc | hc
    · exact hc
    rw [hown] at hc
    cases hc
  rcases hdec with hold | ⟨hunary, hstreak⟩ | ⟨-, hstreak⟩
  · obtain ⟨hvirtuous, hrogue⟩ := h.settled id i hold
    exact ⟨hvirtuous.concat op, fun hc => (hrogue (hcontested hc)).concat op⟩
  · exact ⟨backed_of_streak hstreak, fun hc => absurd (hcontested hc) (h.not_contested hle hunary)⟩
  have hbacked := backed_of_streak hstreak
  exact ⟨hbacked.mono hle, fun _ => hbacked⟩

/-- One operation keeps the history invariant. -/
theorem History.step {op : Op}
    (hgiven : ∀ votes, op = .recordPoll votes → ∀ id ∈ votes.list, id ∈ given choice ops) :
    History params choice (ops ++ [op]) (t.step op).1 := by
  have hrun : (t.step op).1 = (init params choice).run (ops ++ [op]) := by
    rw [h.eq_run]
    simp only [run, foldl_append, foldl_cons, foldl_nil]
  suffices hnode : (t.step op).1.node.Supported params.alpha (ops ++ [op])
      (given choice (ops ++ [op])) ∧
      ∀ id i, (t.step op).1.node.owner id i = .decided (id.bit i) →
        Decides params (ops ++ [op]) t.node id i from
    { eq_run := hrun
      invariant := h.invariant.step hle op
      supported := hnode.1
      settled := fun id i hown => h.settled_concat hle (hrun ▸ hown) (hnode.2 id i hown) }
  obtain ⟨rfl, hnil, hw, hc, -⟩ := h.invariant
  have hs := h.supported
  cases op with
  | add newChoice =>
    have hmem : ∀ x ∈ given choice (ops ++ [.add newChoice]),
        x ∈ given choice ops ∨ x = newChoice := by
      intro x hx
      exact (mem_given_append.mp hx).imp_right fun h => (Option.some.inj h).symm
    have hstreak : ∀ {n : Node}, n.Supported t.params.alpha ops
        (given choice (ops ++ [.add newChoice])) → n.Supported t.params.alpha
        (ops ++ [.add newChoice]) (given choice (ops ++ [.add newChoice])) :=
      supported_of_streak_eq fun n id => (streak_add ..).symm
    have hlt := Nat.le_of_lt (hw.decidedPrefix_lt hnil)
    simp only [step, add]
    split
    · rename_i heq
      have hag : Agree t.node.decidedPrefix newChoice t.node.preference :=
        ((equalSubset_zero_iff hlt _ _).mp heq).symm
      exact ⟨hstreak (supported_add hw hc hs hmem hag), fun id i hown => .inl (owner_add hw hown)⟩
    rename_i heq
    refine ⟨hstreak (supported_of_not_agree hw hs hmem fun hag => heq ?_),
      fun id i hown => .inl hown⟩
    exact (equalSubset_zero_iff hlt _ _).mpr hag.symm
  | recordPoll votes =>
    have hsame : given choice (ops ++ [.recordPoll votes]) = given choice ops := by
      simp [given, Op.choice?]
    rw [hsame]
    have hbacks := backs_recordPollEager hle hw hc hs (Receives.root hw hnil (hgiven votes rfl))
    exact ⟨hbacks.supported, hbacks.decides⟩
  | recordUnsuccessfulPoll =>
    have hsame : given choice (ops ++ [.recordUnsuccessfulPoll]) = given choice ops := by
      simp [given, Op.choice?]
    rw [hsame]
    exact ⟨supported_resetConfidence hs, fun id i hown => .inl (by rwa [← owner_resetConfidence])⟩

end

/-- Every reachable eager tree has the history invariant. -/
theorem history_run (hle : params.betaVirtuous ≤ params.betaRogue) (choice : ID)
    (ops : List Op) (hops : PollsGiven params choice ops) :
    History params choice ops ((init params choice).run ops) := by
  refine foldl_history
    (P := fun ops t => PollsGiven params choice ops → History params choice ops t)
    (fun _ => history_init params choice) ?_ ops hops
  intro hist t op ih hpolls
  refine (ih hpolls.of_concat).step hle fun votes hop => ?_
  exact (hpolls hist votes [] (by rw [hop])).2

/-- The bits the root has decided are owned by nobody. -/
theorem owner_of_decided {given : List ID} (h : Invariant params given t)
    (hi : i < if t.finalized then 256 else t.decidedPrefix) :
    t.node.owner t.preference i = .decided (t.preference.bit i) := by
  obtain ⟨-, hnil, hw, hc, -⟩ := h
  by_cases hlt : i < t.decidedPrefix
  · exact owner_of_lt_decidedPrefix hw hlt (Agree.refl _ _)
  have hfin : t.node.finalized = true := by
    by_contra hfin
    exact hlt (by rwa [if_neg (show ¬ t.finalized = true from hfin)] at hi)
  have hi : i < 256 := by rwa [if_pos (show t.finalized = true from hfin)] at hi
  unfold decidedPrefix at hlt
  unfold preference
  -- a finalized root is a leaf
  generalize t.node = n at *
  cases n with
  | nil => cases hnil
  | unary u child =>
    have hcp : u.commonPrefix = 256 := by
      refine hw.1.isNil_iff.mp ?_
      by_contra hchild
      exact Bool.noConfusion (hfin.symm.trans (hc.2.1 (Bool.eq_false_iff.mpr hchild)).1)
    have hufin : u.snowball.finalized = true := hfin
    have hge : ¬ i < u.decidedPrefix := hlt
    show (unary u child).owner u.preference i = .decided (u.preference.bit i)
    rw [owner, if_pos (Agree.refl _ _), if_neg hge, if_pos (by omega), if_pos hufin]
  | binary b children =>
    have h255 := hw.1.bit_eq_of_finalized hfin
    have hge : ¬ i < b.bit := hlt
    have hib : i = b.bit := by omega
    have hbfin : b.snowball.finalized = true := hfin
    show (binary b children).owner (b.preferences.get b.snowball.pref) i =
      .decided ((b.preferences.get b.snowball.pref).bit i)
    rw [owner, if_pos (Agree.refl _ _), if_neg hge, if_pos hib, if_pos hbfin, hib,
      hw.1.bit_preferences]

end EagerTree

/-- Decisions are irrevocable: between any two points of a run the decided prefix does not
    shrink, its bits do not change, and a finalized tree stays finalized with the same
    preference. Decisions are backed: every decided bit of the preference, all bits of a
    finalized one, has `betaVirtuous` consecutive polls for it in the run, and `betaRogue`
    if a binary node voted on it. -/
theorem Tree.decisions_backed (params : Parameters) (hparams : params.verify = none) (choice : ID)
    (ops : List Tree.Op) (hops : PollsGiven params choice ops) :
    let t := (Tree.init params choice).run ops
    (∀ pre post, ops = pre ++ post → let t₀ := (Tree.init params choice).run pre
      t₀.decidedPrefix ≤ t.decidedPrefix ∧ Agree t₀.decidedPrefix t.preference t₀.preference ∧
        (t₀.finalized = true → t.finalized = true ∧ t.preference = t₀.preference)) ∧
    ∀ i, i < (if t.finalized then 256 else t.decidedPrefix) →
      Backed params.alpha params.betaVirtuous ops (i + 1) t.preference ∧
      (Contested params choice ops t.preference i →
        Backed params.alpha params.betaRogue ops (i + 1) t.preference) := by
  have hle := (Parameters.valid_of_verify hparams).betaVirtuous_le
  refine ⟨?_, fun i hi => ?_⟩
  · rintro pre post rfl
    have hext := extends_run hle choice pre post
    rw [← eager_run_init, ← eager_run_init] at hext
    exact ⟨by simpa using hext.decidedPrefix_le, by simpa using hext.agree,
      by simpa using hext.finalized⟩
  have hhist := history_run hle choice ops hops
  rw [← eager_run_init] at hhist
  have hown := owner_of_decided hhist.invariant (by simpa using hi)
  rw [eager_preference] at hown
  exact hhist.settled _ i hown

theorem Tree.decisions_backed_minimal :
    let ops : List Tree.Op := [.add ⟨1⟩, .recordPoll ((∅ : Bag).addCount ID.empty 1)]
    let t := (Tree.init .minimal ID.empty).run ops
    Parameters.minimal.verify = none ∧ PollsGiven .minimal ID.empty ops ∧
      ∀ i, i < (if t.finalized then 256 else t.decidedPrefix) →
        Backed 1 1 ops (i + 1) t.preference := by
  intro ops t
  have hpolls : PollsGiven .minimal ID.empty ops := by
    intro pre votes post heq
    rcases pre with _ | ⟨op, _ | ⟨op', pre⟩⟩
    · simp [ops] at heq
    · obtain ⟨rfl, rfl, rfl⟩ : op = .add ⟨1⟩ ∧ votes = (∅ : Bag).addCount ID.empty 1 ∧ post = [] := by
        simp only [ops, singleton_append, cons.injEq, Op.recordPoll.injEq] at heq
        exact ⟨heq.1.symm, heq.2.1.symm, heq.2.2.symm⟩
      decide
    · simp [ops] at heq
  exact ⟨by decide, hpolls, fun i hi =>
    ((decisions_backed .minimal (by decide) ID.empty ops hpolls).2 i hi).1⟩

end SavannahNode
