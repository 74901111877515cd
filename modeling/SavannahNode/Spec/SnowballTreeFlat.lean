import SavannahNode.Spec.SnowballTreeDecisions

/-!
# The snowball tree and the flat instance agree on two choices

With at most two choices the eager tree is a leaf, or one binary node for the first bit
at which the choices differ, with a leaf per branch and possibly a unary node above. The
n-ary instance of `Flat` goes through the same states: `Duel` relates its counters with
those of the binary node. The leaf of the branch polled last has the confidence of the
binary node, so it is finalized when the binary node gives way to it.

## Key results

- `Node.add_of_stores`: adding a choice again changes nothing
- `Tree.preference_eq_flat`: the tree and the flat instance agree after every operation
-/

namespace SavannahNode

open EagerTree Pair

/-! ## Adding a choice again -/

namespace Node

/-- A choice the tree already stores changes nothing. -/
theorem add_of_stores {params : Parameters} {n : Node} (hw : n.WellFormed) {id : ID}
    (hid : n.Stores id) : n.add params id = n := by
  induction n with
  | nil => rfl
  | unary u child ih =>
    simp only [add]
    split
    · rfl
    obtain ⟨hfits, hwchild⟩ := hw
    have hchild : child.isNil = false → child.Stores id := by
      intro hnil
      rcases hid with rfl | hid
      · rw [hfits.preference_eq hnil]
        exact stores_preference hnil
      · exact hid
    have hag : Agree u.commonPrefix id u.preference := by
      cases hnil : child.isNil with
      | true =>
        rcases hid with rfl | hid
        · exact Agree.refl _ _
        · exact absurd (isNil_of_stores hid) (by simp [hnil])
      | false =>
        rw [← hfits.decidedPrefix_child hnil]
        exact hfits.agree id (hchild hnil)
    split
    · cases hnil : child.isNil with
      | true =>
        rw [eq_nil_of_isNil hnil]
        rfl
      | false => rw [ih hwchild (hchild hnil)]
    rename_i hdiff
    obtain ⟨-, hlt, hbit, -⟩ := firstDifferenceSubset_eq_some hfits.commonPrefix_le hdiff
    exact absurd (hag _ hlt).symm hbit
  | binary b children ih =>
    obtain ⟨hfits, hwchildren⟩ := hw
    simp only [add]
    split
    · rename_i hcond
      simp only [Bool.and_eq_true, Bool.not_eq_eq_eq_not, Bool.not_true] at hcond
      have hne := hfits.bit_ne_of_isNil hcond.1
      have hchild : (children (id.bit b.bit)).Stores id := by
        rcases hid with ⟨i, rfl⟩ | ⟨i, hid⟩
        · rw [hfits.bit_preferences, hfits.preference_eq hne]
          exact stores_preference (hfits.isNil_eq_false hne i)
        · rwa [hfits.agree i id hid b.bit (hfits.bit_lt_decidedPrefix hne i), hfits.bit_preferences]
      rw [ih _ (hwchildren _) hchild, Function.update_eq_self]
    · rfl

end Node

/-! ## Polls of the flat instance -/

namespace Flat

/-- Apply one operation. -/
def step (f : Flat) : Tree.Op → Flat
  | .add choice => f.add choice
  | .recordPoll votes => (f.recordPoll votes).1
  | .recordUnsuccessfulPoll => f.recordUnsuccessfulPoll

/-- The instance after a sequence of operations. -/
def run (f : Flat) (ops : List Tree.Op) : Flat := ops.foldl step f

variable {f : Flat} {votes : Bag}

/-- With a majority of the votes, an ID is the mode. -/
theorem recordPoll_of_le_count (hparams : f.params.Valid)
    (hk : votes.len ≤ f.params.k) {id : ID} (h : f.params.alpha ≤ votes.count id) :
    (f.recordPoll votes).1 = { f with snowball := f.snowball.recordSuccessfulPoll id } := by
  have hle : votes.count id ≤ votes.modeFreq := votes.le_modeFreq id
  have hmode : votes.mode = id := by
    by_contra hne
    have hcount : votes.count votes.mode = votes.modeFreq := votes.countOf_mode
    have hsum := Bag.countWhere_add_le_len (b := votes) (P := fun x => x = votes.mode)
      (Q := fun x => x = id) (by simp_all)
    rw [← Bag.count_eq_countWhere, ← Bag.count_eq_countWhere] at hsum
    have := hparams.k_lt_two_alpha
    omega
  rw [recordPoll, if_pos (by omega), hmode]

/-- Without a majority the poll fails. -/
theorem recordPoll_of_count_lt (h : ∀ id, (votes.count id : Int) < f.params.alpha) :
    (f.recordPoll votes).1 = f.recordUnsuccessfulPoll := by
  have hcount : votes.count votes.mode = votes.modeFreq := votes.countOf_mode
  have := h votes.mode
  rw [recordPoll, if_neg (by omega)]
  rfl

@[simp] theorem params_step (f : Flat) (op : Tree.Op) : (f.step op).params = f.params := by
  cases op with
  | add choice => rfl
  | recordPoll votes =>
    simp only [step, recordPoll]
    split <;> rfl
  | recordUnsuccessfulPoll => rfl

/-- A finalized instance stays finalized with the same preference. -/
theorem finalized_step (h : f.finalized = true) (op : Tree.Op) :
    (f.step op).finalized = true ∧ (f.step op).preference = f.preference := by
  have hf : f.snowball.snowflake.finalized = true := h
  cases op with
  | add choice => simp [step, add, finalized, preference, NnarySnowball.add,
      NnarySnowball.finalized, NnarySnowball.pref, NnarySnowflake.add, hf]
  | recordPoll votes =>
    simp only [step, recordPoll]
    split <;> simp [finalized, preference, NnarySnowball.finalized, NnarySnowball.pref,
      NnarySnowball.recordSuccessfulPoll, NnarySnowflake.recordSuccessfulPoll,
      NnarySnowball.recordUnsuccessfulPoll, NnarySnowflake.recordUnsuccessfulPoll, hf]
  | recordUnsuccessfulPoll => simp [step, recordUnsuccessfulPoll, finalized, preference,
      NnarySnowball.finalized, NnarySnowball.pref, NnarySnowball.recordUnsuccessfulPoll,
      NnarySnowflake.recordUnsuccessfulPoll, hf]

end Flat

/-! ## The binary and the n-ary instance -/

/-- The n-ary instance over the choices `c false` and `c true` is in the state of the binary
    one. -/
structure Duel (params : Parameters) (c : Bool → ID) (sb : BinarySnowball) (f : NnarySnowball) :
    Prop where
  slush : f.snowflake.slush.preference = c sb.snowflake.slush.preference
  confidence : f.snowflake.confidence = sb.snowflake.confidence
  finalized : f.snowflake.finalized = sb.snowflake.finalized
  rogue : f.snowflake.rogue = true
  beta : sb.snowflake.beta = params.betaRogue
  betaRogue : f.snowflake.betaRogue = params.betaRogue
  numSuccessfulPolls : ∀ i, f.numSuccessfulPolls (c i) = sb.numSuccessfulPolls.get i
  maxSuccessfulPolls : ∀ i, f.maxSuccessfulPolls =
    max (sb.numSuccessfulPolls.get i) (sb.numSuccessfulPolls.get !i)
  preference : f.preference = c sb.preference

namespace Duel

variable {params : Parameters} {c : Bool → ID} {sb : BinarySnowball} {f : NnarySnowball}

theorem pref_eq (h : Duel params c sb f) : f.pref = c sb.pref := by
  unfold NnarySnowball.pref BinarySnowball.pref NnarySnowball.finalized BinarySnowball.finalized
  rw [h.finalized]
  split
  · exact h.slush
  · exact h.preference

theorem recordUnsuccessfulPoll (h : Duel params c sb f) :
    Duel params c sb.recordUnsuccessfulPoll f.recordUnsuccessfulPoll :=
  { h with confidence := rfl }

theorem recordSuccessfulPoll (hc : Function.Injective c) (h : Duel params c sb f) (bit : Bool) :
    Duel params c (sb.recordSuccessfulPoll bit) (f.recordSuccessfulPoll (c bit)) := by
  have hnum := h.numSuccessfulPolls
  have hmax := h.maxSuccessfulPolls bit
  have hbits : ∀ i, (c i = c bit) = (i = bit) := fun i => propext hc.eq_iff
  -- the n-ary maximum is passed exactly when the other bit's count is
  have hpass : (f.numSuccessfulPolls (c bit) + 1 > f.maxSuccessfulPolls) =
      (sb.numSuccessfulPolls.get bit + 1 > sb.numSuccessfulPolls.get !bit) := by
    rw [hnum, hmax]
    exact propext (by omega)
  have hsf : (f.snowflake.recordSuccessfulPoll (c bit)).slush.preference =
      c (sb.snowflake.recordSuccessfulPoll bit).slush.preference ∧
      (f.snowflake.recordSuccessfulPoll (c bit)).confidence =
        (sb.snowflake.recordSuccessfulPoll bit).confidence ∧
      (f.snowflake.recordSuccessfulPoll (c bit)).finalized =
        (sb.snowflake.recordSuccessfulPoll bit).finalized ∧
      (f.snowflake.recordSuccessfulPoll (c bit)).rogue = true ∧
      (sb.snowflake.recordSuccessfulPoll bit).beta = params.betaRogue ∧
      (f.snowflake.recordSuccessfulPoll (c bit)).betaRogue = params.betaRogue := by
    unfold NnarySnowflake.recordSuccessfulPoll BinarySnowflake.recordSuccessfulPoll
    rw [h.finalized]
    split
    · exact ⟨h.slush, h.confidence, h.finalized, h.rogue, h.beta, h.betaRogue⟩
    simp only [NnarySlush.recordSuccessfulPoll, BinarySlush.recordSuccessfulPoll, h.slush, hbits,
      h.confidence, h.rogue, h.beta, h.betaRogue, Bool.not_true, Bool.false_and, Bool.false_or,
      and_self]
  obtain ⟨hslush, hconf, hfin, hrogue, hbeta, hbetaRogue⟩ := hsf
  refine ⟨hslush, hconf, hfin, hrogue, hbeta, hbetaRogue, fun i => ?_, ?_, ?_⟩
  · simp only [NnarySnowball.recordSuccessfulPoll, BinarySnowball.recordSuccessfulPoll, hbits,
      get_set, hnum]
  · -- the maximum after the poll, seen from either bit
    suffices hboth : (f.recordSuccessfulPoll (c bit)).maxSuccessfulPolls =
        max (sb.numSuccessfulPolls.get bit + 1) (sb.numSuccessfulPolls.get !bit) by
      intro i
      rw [hboth]
      simp only [BinarySnowball.recordSuccessfulPoll]
      by_cases hi : i = bit
      · subst hi
        rw [get_set_self, get_set_not]
      obtain rfl := Bool.eq_not.mpr hi
      rw [Bool.not_not, get_set_self, get_set_not, Nat.max_comm]
    simp only [NnarySnowball.recordSuccessfulPoll, hnum, hmax]
    split <;> omega
  · simp only [NnarySnowball.recordSuccessfulPoll, BinarySnowball.recordSuccessfulPoll, hpass,
      get_set_self, get_set_not, h.preference]
    split <;> rfl

end Duel

/-! ## The two-choice tree -/

namespace Node

/-- A leaf for `id` with the given confidence. -/
def IsLeaf (params : Parameters) (id : ID) (confidence : Nat) (n : Node) : Prop :=
  ∃ u, n = .unary u .nil ∧ u.preference = id ∧
    u.snowball.snowflake.beta = params.betaVirtuous ∧ u.snowball.snowflake.confidence = confidence

variable {params : Parameters} {votes : Bag} {c : Bool → ID} {j : Nat} {f : NnarySnowball}
  {b : BinaryNode} {children : Bool → Node}

theorem IsLeaf.resetConfidence {id : ID} {confidence : Nat} {n : Node}
    (h : n.IsLeaf params id confidence) : n.resetConfidence.IsLeaf params id 0 := by
  obtain ⟨u, rfl, hp, hbeta, -⟩ := h
  exact ⟨_, rfl, hp, hbeta, rfl⟩

/-- A successful poll of a leaf counts, and finalizes it at the threshold. -/
theorem IsLeaf.recordPollEager {id : ID} {confidence : Nat} {n : Node}
    (h : n.IsLeaf params id confidence) (hlen : params.alpha ≤ votes.len) :
    (n.recordPollEager params votes).1.IsLeaf params id (confidence + 1) ∧
      (params.betaVirtuous ≤ (confidence + 1 : Nat) →
        (n.recordPollEager params votes).1.finalized = true) := by
  obtain ⟨u, rfl, hp, hbeta, hconf⟩ := h
  rw [Node.recordPollEager, if_neg (by omega)]
  refine ⟨⟨_, rfl, hp, hbeta, ?_⟩, fun hge => ?_⟩
  · simp only [UnarySnowball.recordSuccessfulPoll, UnarySnowflake.recordSuccessfulPoll, hconf]
  simp only [isNil, if_true, finalized, UnarySnowball.finalized,
    UnarySnowball.recordSuccessfulPoll, UnarySnowflake.recordSuccessfulPoll, hbeta, hconf]
  rw [decide_eq_true hge, Bool.or_true]

/-- The binary node of a tree with the two choices `c false` and `c true`, which differ at
    bit `j`, next to the flat instance over them. -/
structure IsDuel (params : Parameters) (c : Bool → ID) (j : Nat) (f : NnarySnowball)
    (b : BinaryNode) (children : Bool → Node) : Prop where
  bit_eq : b.bit = j
  get_preferences : ∀ i, b.preferences.get i = c i
  duel : Duel params c b.snowball f
  finalized_eq : b.snowball.finalized = false
  leaves : j ≠ 255 → ∀ i, (children i).IsLeaf params (c i)
    (if i = b.snowball.snowflake.slush.preference then b.snowball.snowflake.confidence else 0)

theorem IsDuel.resetConfidence (h : IsDuel params c j f b children) :
    IsDuel params c j f.recordUnsuccessfulPoll
      { b with snowball := b.snowball.recordUnsuccessfulPoll }
      (fun i => (children i).resetConfidence) where
  bit_eq := h.bit_eq
  get_preferences := h.get_preferences
  duel := h.duel.recordUnsuccessfulPoll
  finalized_eq := h.finalized_eq
  leaves := by
    intro hj i
    have hzero : (if i = b.snowball.recordUnsuccessfulPoll.snowflake.slush.preference then
        b.snowball.recordUnsuccessfulPoll.snowflake.confidence else 0) = 0 := by
      split <;> rfl
    rw [hzero]
    exact (h.leaves hj i).resetConfidence

/-- The states a two-choice node can be in next to the flat instance. -/
inductive Matches (params : Parameters) (c : Bool → ID) (j : Nat) (f : NnarySnowball) (n : Node) :
    Prop where
  /-- both are voting -/
  | voting (b : BinaryNode) (children : Bool → Node) (heq : n = .binary b children)
      (h : IsDuel params c j f b children)
  /-- both have decided for the same choice -/
  | decided (hn : n.finalized = true) (hf : f.finalized = true) (hpref : n.preference = f.pref)

/-- A successful poll of an undecided duel: `bit` is the slush preference, and the counter is
    that of its leaf. -/
private theorem IsDuel.recordSuccessfulPoll (h : IsDuel params c j f b children) (bit : Bool) :
    let sb := b.snowball.recordSuccessfulPoll bit
    sb.snowflake.slush.preference = bit ∧
      sb.snowflake.confidence = (if bit = b.snowball.snowflake.slush.preference then
        b.snowball.snowflake.confidence else 0) + 1 ∧
      (sb.finalized = true → params.betaRogue ≤ sb.snowflake.confidence) := by
  have hsf : b.snowball.snowflake.finalized = false := h.finalized_eq
  refine ⟨?_, ?_, ?_⟩
  · simp [BinarySnowball.recordSuccessfulPoll, BinarySnowflake.recordSuccessfulPoll, hsf,
      BinarySlush.recordSuccessfulPoll]
  · simp only [BinarySnowball.recordSuccessfulPoll, BinarySnowflake.recordSuccessfulPoll, hsf,
      Bool.false_eq_true, if_false, eq_comm]
    split <;> rfl
  · simp [BinarySnowball.recordSuccessfulPoll, BinarySnowflake.recordSuccessfulPoll, hsf,
      BinarySnowball.finalized, h.duel.beta]

/-- A successful poll of a duel on the last bit. -/
private theorem matches_last (hc : Function.Injective c) (h : IsDuel params c j f b children)
    (hj : j = 255) (bit : Bool) :
    Matches params c j (f.recordSuccessfulPoll (c bit))
      (.binary { b with snowball := b.snowball.recordSuccessfulPoll bit } children) := by
  have hduel := h.duel.recordSuccessfulPoll hc bit
  cases hfin : (b.snowball.recordSuccessfulPoll bit).finalized with
  | false =>
    exact .voting _ children rfl
      { bit_eq := h.bit_eq
        get_preferences := h.get_preferences
        duel := hduel
        finalized_eq := hfin
        leaves := fun hne => absurd hj hne }
  | true =>
    refine .decided hfin (hduel.finalized.trans hfin) ?_
    rw [hduel.pref_eq]
    exact h.get_preferences _

/-- A successful poll of a duel above two leaves. -/
private theorem matches_inner (hparams : params.Valid) (hc : Function.Injective c)
    (h : IsDuel params c j f b children) (hj : j ≠ 255) (bit : Bool)
    (hlen : params.alpha ≤ votes.len) :
    let sb := b.snowball.recordSuccessfulPoll bit
    let newChild := ((children bit).recordPollEager params votes).1
    (sb.finalized = true → Matches params c j (f.recordSuccessfulPoll (c bit)) newChild) ∧
    (sb.finalized = false → Matches params c j (f.recordSuccessfulPoll (c bit))
      (.binary { b with snowball := sb, preferences := b.preferences.set bit newChild.preference }
        (branches bit newChild (children !bit).resetConfidence))) := by
  intro sb newChild
  have hduel := h.duel.recordSuccessfulPoll hc bit
  obtain ⟨hslush, hconf, hfinal⟩ := h.recordSuccessfulPoll bit
  obtain ⟨hleaf, hleaffin⟩ := (h.leaves hj bit).recordPollEager hlen
  rw [← hconf] at hleaf hleaffin
  have hpref : newChild.preference = c bit := by
    obtain ⟨u, hu, hp, -⟩ := hleaf
    exact (congrArg preference hu).trans hp
  refine ⟨fun hfin => ?_, fun hfin => ?_⟩
  · refine .decided (hleaffin ?_) (hduel.finalized.trans hfin) ?_
    · exact Int.le_trans hparams.betaVirtuous_le (hfinal hfin)
    · rw [hpref, hduel.pref_eq, pref_of_finalized hfin, hslush]
  refine .voting _ _ rfl
    { bit_eq := h.bit_eq
      get_preferences := fun i => ?_
      duel := hduel
      finalized_eq := hfin
      leaves := fun _ i => ?_ }
  · rw [get_set, hpref]
    split
    · rename_i hi
      rw [hi]
    · exact h.get_preferences i
  · simp only [sb, hslush]
    by_cases hi : i = bit
    · subst hi
      rw [branches_self, if_pos rfl]
      exact hleaf
    rw [if_neg hi]
    obtain rfl := Bool.eq_not.mpr hi
    rw [branches_not]
    exact (h.leaves hj _).resetConfidence

/-- A poll of the binary node is a poll of the flat instance. -/
theorem matches_recordPollEager (hparams : params.Valid) (hc : ∀ i, (c i).bit j = i) {f : Flat}
    (hf : f.params = params) (hw : (binary b children).WellFormed)
    (h : IsDuel params c j f.snowball b children) {poll : Bag} (hk : poll.len ≤ params.k)
    (hpoll : ∀ id ∈ poll.list, ∃ i, id = c i) (hvotes : ∀ P, votes.countWhere P = poll.countWhere P) :
    Matches params c j (f.recordPoll poll).1.snowball
      ((binary b children).recordPollEager params votes).1 := by
  have hinj : Function.Injective c := fun i i' heq => by rw [← hc i, ← hc i', heq]
  -- each branch gets the votes for its choice
  have hlen : ∀ i, ((votes.split b.bit).get i).len = poll.count (c i) := by
    intro i
    rw [Bag.len_eq_countWhere, Bag.countWhere_split, hvotes, Bag.count_eq_countWhere, h.bit_eq]
    refine Bag.countWhere_congr fun id hid => ?_
    obtain ⟨i', rfl⟩ := hpoll id hid
    rw [hc, Bool.and_true, Bool.eq_iff_iff, beq_iff_eq, decide_eq_true_eq, hinj.eq_iff]
  simp only [recordPollEager]
  generalize hbit : decide (params.alpha ≤ (((votes.split b.bit).get true).len : Int)) = bit
  split
  · rename_i hlt
    rw [hlen] at hlt
    -- then no choice has enough votes
    have hall : ∀ i, (poll.count (c i) : Int) < params.alpha := by
      cases bit with
      | true =>
        rw [decide_eq_true_eq, hlen] at hbit
        omega
      | false =>
        rw [decide_eq_false_iff_not, hlen] at hbit
        intro i
        cases i <;> omega
    have hlose : ∀ id, (poll.count id : Int) < f.params.alpha := by
      intro id
      rw [hf]
      by_cases hid : id ∈ poll.list
      · obtain ⟨i, rfl⟩ := hpoll id hid
        exact hall i
      rw [Bag.mem_list_iff] at hid
      omega
    rw [Flat.recordPoll_of_count_lt hlose]
    exact .voting _ _ rfl h.resetConfidence
  · rename_i hge
    have hwin : f.params.alpha ≤ poll.count (c bit) := by
      rw [hlen] at hge
      rw [hf]
      omega
    rw [Flat.recordPoll_of_le_count (hf ▸ hparams) (hf ▸ hk) hwin]
    by_cases hj : j = 255
    · have h255 : b.bit = 255 := h.bit_eq.trans hj
      rw [if_pos (hw.1.isNil_iff.mpr h255 bit), update_reset_of_last hw.1 h255]
      exact matches_last hinj h hj bit
    have hnil := hw.1.isNil_eq_false (h.bit_eq.symm ▸ hj) bit
    -- the branch passes all its votes on to its leaf
    have hfilter : params.alpha ≤ (((votes.split b.bit).get bit).filter (b.bit + 1)
        (children bit).decidedPrefix (b.preferences.get bit)).len := by
      rw [Bag.len_filter_of_forall, hlen, ← hf]
      · exact hwin
      intro id hid
      obtain ⟨hid, hidbit⟩ := Bag.mem_list_split.mp hid
      obtain ⟨i, rfl⟩ := hpoll id ((Bag.mem_list_of_countWhere_eq hvotes).mp hid)
      rw [h.bit_eq, hc] at hidbit
      rw [hidbit, h.get_preferences]
      exact (equalSubset_iff (Nat.le_of_lt ((hw.2 bit).decidedPrefix_lt hnil)) _ _).mpr
        fun _ _ _ => rfl
    obtain ⟨hreplace, hstay⟩ := matches_inner hparams hinj h hj bit hfilter
    rw [if_neg (by simp [hnil])]
    split
    · exact hreplace ‹_›
    rename_i hfin
    exact hstay (Bool.eq_false_iff.mpr hfin)

end Node

/-- The leaf of a tree with the one choice `x`, undecided, next to the flat instance. -/
structure UnaryNode.IsSingle (params : Parameters) (x : ID) (u : UnaryNode) (f : NnarySnowball) :
    Prop where
  preference_eq : u.preference = x
  decidedPrefix_eq : u.decidedPrefix = 0
  commonPrefix_eq : u.commonPrefix = numBits
  beta : u.snowball.snowflake.beta = params.betaVirtuous
  finalized_eq : u.snowball.finalized = false
  flat : f =
    { snowflake :=
        { slush := ⟨x⟩
          betaVirtuous := params.betaVirtuous
          betaRogue := params.betaRogue
          confidence := u.snowball.snowflake.confidence
          rogue := false
          finalized := false }
      preference := x
      maxSuccessfulPolls := u.snowball.numSuccessfulPolls
      numSuccessfulPolls := fun id => if id = x then u.snowball.numSuccessfulPolls else 0 }

/-- The states a tree can be in next to a flat instance, with the choices `x` and `y`. -/
inductive TwoChoice (params : Parameters) (x y : ID) (ops : List Tree.Op) (t : EagerTree)
    (f : Flat) : Prop where
  /-- `y` has not been added -/
  | single (u : UnaryNode) (hnode : t.node = .unary u .nil) (h : u.IsSingle params x f.snowball)
      (hy : .add y ∉ ops)
  /-- the choices are voted on by a binary node, at the root or below a unary one -/
  | duel (c : Bool → ID) (j : Nat) (hc : ∀ i, (c i).bit j = i)
      (hxy : ∀ id, (id = x ∨ id = y) ↔ ∃ i, id = c i) (b : BinaryNode) (children : Bool → Node)
      (hnode : t.node = .binary b children ∨ ∃ u, t.node = .unary u (.binary b children))
      (h : Node.IsDuel params c j f.snowball b children)
  /-- both have decided for the same choice -/
  | decided (ht : t.finalized = true) (hf : f.finalized = true) (hpref : t.preference = f.preference)

/-- Every operation of the run adds one of the two choices, or is a poll of at most `k`
    votes for them, for `y` only after it was added. -/
def Tree.TwoChoices (params : Parameters) (x y : ID) (ops : List Tree.Op) : Prop :=
  ∀ pre op post, ops = pre ++ op :: post → match op with
    | .add choice => choice = x ∨ choice = y
    | .recordPoll votes =>
      votes.len ≤ params.k ∧ ∀ id ∈ votes.list, id = x ∨ (id = y ∧ .add y ∈ pre)
    | .recordUnsuccessfulPoll => True

namespace UnaryNode.IsSingle

variable {params : Parameters} {x y : ID} {u : UnaryNode} {f : NnarySnowball}

theorem recordUnsuccessfulPoll (h : u.IsSingle params x f) :
    IsSingle params x { u with snowball := u.snowball.recordUnsuccessfulPoll }
      f.recordUnsuccessfulPoll :=
  { h with flat := by rw [h.flat]; rfl }

/-- A successful poll for the only choice. -/
theorem recordSuccessfulPoll (hparams : params.Valid) (h : u.IsSingle params x f) :
    (u.snowball.recordSuccessfulPoll.finalized = false →
      IsSingle params x { u with snowball := u.snowball.recordSuccessfulPoll }
        (f.recordSuccessfulPoll x)) ∧
    (u.snowball.recordSuccessfulPoll.finalized = true →
      (f.recordSuccessfulPoll x).finalized = true ∧ (f.recordSuccessfulPoll x).pref = x) := by
  have hsf : u.snowball.snowflake.finalized = false := h.finalized_eq
  have hle := hparams.betaVirtuous_le
  -- the n-ary threshold for a lone choice is `betaVirtuous`
  have hfin : (f.recordSuccessfulPoll x).finalized = u.snowball.recordSuccessfulPoll.finalized := by
    rw [h.flat]
    simp only [NnarySnowball.recordSuccessfulPoll, NnarySnowball.finalized,
      NnarySnowflake.recordSuccessfulPoll, Bool.false_eq_true, if_false, if_true, Bool.not_false,
      Bool.true_and, UnarySnowball.recordSuccessfulPoll, UnarySnowball.finalized,
      UnarySnowflake.recordSuccessfulPoll, hsf, Bool.false_or, h.beta]
    rw [Bool.eq_iff_iff, Bool.or_eq_true_iff, decide_eq_true_eq, decide_eq_true_eq]
    omega
  refine ⟨fun hfalse => { h with finalized_eq := hfalse, beta := h.beta, flat := ?_ }, fun htrue => ?_⟩
  · have hffin := hfin.trans hfalse
    rw [h.flat] at hffin ⊢
    simp only [NnarySnowball.recordSuccessfulPoll, NnarySnowball.finalized,
      NnarySnowflake.recordSuccessfulPoll, Bool.false_eq_true, if_false, if_true,
      NnarySlush.recordSuccessfulPoll] at hffin ⊢
    simp only [hffin, UnarySnowball.recordSuccessfulPoll, UnarySnowflake.recordSuccessfulPoll,
      Nat.lt_succ_self, if_true, NnarySnowball.mk.injEq, true_and, gt_iff_lt]
    funext id
    split <;> rfl
  · refine ⟨hfin.trans htrue, ?_⟩
    rw [NnarySnowball.pref, if_pos (hfin.trans htrue), h.flat]
    rfl

/-- Adding the second choice splits the leaf at the first bit at which the choices differ. -/
theorem split (h : u.IsSingle params x f) (hxy : x ≠ y) :
    ∃ (c : Bool → ID) (j : Nat) (b : BinaryNode) (children : Bool → Node),
      (∀ i, (c i).bit j = i) ∧ (∀ id, (id = x ∨ id = y) ↔ ∃ i, id = c i) ∧
      Node.IsDuel params c j (f.add y) b children ∧
      ((Node.unary u .nil).add params y = .binary b children ∨
        ∃ u', (Node.unary u .nil).add params y = .unary u' (.binary b children)) := by
  obtain ⟨hp, hd, hcp, hbeta, hfin, hflat⟩ := h
  cases hdiff : firstDifferenceSubset 0 numBits x y with
  | none =>
    have hag := firstDifferenceSubset_eq_none (Nat.le_refl _) hdiff
    exact absurd (ID.ext_bit (agreeOn_zero_iff.mp hag)) hxy
  | some j =>
    have hadd : (Node.unary u .nil).add params y = u.split .nil params y j := by
      rw [Node.add, if_neg (by simp [hfin]), hp, hd, hcp, hdiff]
    obtain ⟨-, hj, hbit, -⟩ := firstDifferenceSubset_eq_some (Nat.le_refl _) hdiff
    have hybit : y.bit j = !x.bit j := by
      cases hx : x.bit j <;> cases hy : y.bit j <;> simp_all
    -- the choice of each branch
    have hget : ∀ i, (u.toBinary params y j).preferences.get i = if i = x.bit j then x else y := by
      intro i
      rw [UnaryNode.toBinary, get_set, get_both, hp]
    have hduel : Duel params (fun i => if i = x.bit j then x else y)
        (u.toBinary params y j).snowball (f.add y) := by
      rw [hflat]
      have hne : (y != x) = true := by simpa using hxy.symm
      refine ⟨?_, rfl, hfin.symm, ?_, rfl, rfl, fun i => ?_, fun i => ?_, ?_⟩
      · simp [UnaryNode.toBinary, UnarySnowball.extend, NnarySnowball.add, NnarySnowflake.add, hp]
      · simp [NnarySnowball.add, NnarySnowflake.add, hne]
      · simp only [NnarySnowball.add, UnaryNode.toBinary, UnarySnowball.extend, get_set,
          get_both, hp]
        split
        · rw [if_pos rfl]
        · rw [if_neg hxy.symm]
      · simp only [NnarySnowball.add, UnaryNode.toBinary, UnarySnowball.extend, get_set,
          get_both, hp]
        cases i <;> cases x.bit j <;> simp
      · simp [NnarySnowball.add, UnaryNode.toBinary, UnarySnowball.extend, hp]
    have hbits : ∀ i, (if i = x.bit j then x else y).bit j = i := by
      intro i
      split
      · exact ‹i = _›.symm
      rename_i hi
      rw [hybit]
      exact (Bool.eq_not.mpr hi).symm
    have hids : ∀ id, (id = x ∨ id = y) ↔ ∃ i, id = if i = x.bit j then x else y := by
      intro id
      constructor
      · rintro (rfl | rfl)
        · exact ⟨_, (if_pos rfl).symm⟩
        · exact ⟨!x.bit j, (if_neg (by simp)).symm⟩
      rintro ⟨i, rfl⟩
      split
      · exact .inl rfl
      · exact .inr rfl
    have hleaves : ∀ node, node.IsLeaf params x u.snowball.snowflake.confidence → ∀ i,
        (branches (u.preference.bit j) node (newChild params y j) i).IsLeaf params
          (if i = x.bit j then x else y)
          (if i = (u.toBinary params y j).snowball.snowflake.slush.preference then
            (u.toBinary params y j).snowball.snowflake.confidence else 0) := by
      intro node hnode i
      have hslush : (u.toBinary params y j).snowball.snowflake.slush.preference = x.bit j := by
        simp [UnaryNode.toBinary, UnarySnowball.extend, hp]
      rw [hslush, hp, branches]
      by_cases hi : i = x.bit j
      · rw [if_pos hi, if_pos hi, if_pos hi]
        exact hnode
      rw [if_neg hi, if_neg hi, if_neg hi]
      exact ⟨_, rfl, rfl, rfl, rfl⟩
    obtain ⟨node, other, hbranch, hsplit⟩ :=
      Node.split_eq params y .nil (hd ▸ Nat.zero_le j) (hcp ▸ hj)
    refine ⟨_, j, u.toBinary params y j, branches (u.preference.bit j) node other, hbits, hids,
      ⟨rfl, hget, hduel, hfin, fun hne => ?_⟩, ?_⟩
    · rcases hbranch with ⟨hlast, -⟩ | ⟨-, rfl, rfl⟩
      · exact absurd (Nat.succ.inj (hlast.trans hcp)) hne
      · exact hleaves _ ⟨_, rfl, hp, hbeta, rfl⟩
    · rw [hadd]
      rcases hsplit with ⟨-, heq⟩ | ⟨-, r, heq⟩
      · exact .inl heq
      · exact .inr ⟨_, heq⟩

end UnaryNode.IsSingle

/-! ## Runs -/

variable {params : Parameters} {x y : ID} {ops : List Tree.Op} {t : EagerTree} {f : Flat}

/-- Without votes for anything but `x`, a poll is one of the leaf and of the flat instance. -/
private theorem twoChoice_recordPoll_single (hparams : params.Valid) (ht : t.params = params)
    (hf : f.params = params) {u : UnaryNode} (hnode : t.node = .unary u .nil)
    (h : u.IsSingle params x f.snowball) (hy : .add y ∉ ops)
    (hk : votes.len ≤ params.k) (hx : ∀ id ∈ votes.list, id = x) :
    TwoChoice params x y ops (t.recordPoll votes).1 (f.recordPoll votes).1 := by
  -- the leaf gets all the votes
  have hlen : (votes.filter 0 u.decidedPrefix t.preference).len = votes.count x := by
    rw [h.decidedPrefix_eq, Bag.len_filter_of_forall, Bag.len_eq_countWhere, Bag.count_eq_countWhere]
    · exact Bag.countWhere_congr fun id hid => (decide_eq_true (hx id hid)).symm
    · intro id _
      exact (equalSubset_zero_iff (Nat.zero_le _) _ _).mpr fun i hi => absurd hi (Nat.not_lt_zero i)
  simp only [recordPoll, hnode, Node.decidedPrefix, Node.recordPollEager, Node.isNil,
    if_true, hlen, ht]
  by_cases hwin : params.alpha ≤ votes.count x
  · rw [Flat.recordPoll_of_le_count (hf ▸ hparams) (hf ▸ hk) (hf ▸ hwin), if_neg (by omega)]
    obtain ⟨hstay, hdecide⟩ := h.recordSuccessfulPoll hparams
    cases hfin : u.snowball.recordSuccessfulPoll.finalized with
    | false => exact .single _ rfl (hstay hfin) hy
    | true =>
      obtain ⟨hffin, hfpref⟩ := hdecide hfin
      exact .decided hfin hffin (h.preference_eq.trans hfpref.symm)
  have hlose : ∀ id, (votes.count id : Int) < f.params.alpha := by
    intro id
    rw [hf]
    by_cases hid : id ∈ votes.list
    · rw [hx id hid]
      omega
    rw [Bag.mem_list_iff] at hid
    omega
  rw [Flat.recordPoll_of_count_lt hlose, if_pos (by omega)]
  exact .single _ rfl h.recordUnsuccessfulPoll hy

/-- A tree with a two-choice node at the root or below a unary one. -/
private theorem twoChoice_of_matches {c : Bool → ID} {j : Nat} (hc : ∀ i, (c i).bit j = i)
    (hxy : ∀ id, (id = x ∨ id = y) ↔ ∃ i, id = c i) (hw : t.node.WellFormed) {n : Node}
    (h : n.Matches params c j f.snowball) (hroot : t.node = n ∨ ∃ u, t.node = .unary u n) :
    TwoChoice params x y ops t f := by
  cases h with
  | voting b children heq h =>
    rw [heq] at hroot
    exact .duel c j hc hxy b children hroot h
  | decided hfin hffin hpref =>
    rcases hroot with hroot | ⟨u, hroot⟩
    · exact .decided (by rw [finalized, hroot, hfin]) hffin (by rw [preference, hroot]; exact hpref)
    -- a unary node never has a finalized child
    rw [hroot] at hw
    have hnil : n.isNil = false := by
      cases n with
      | nil => cases hfin
      | unary _ _ => rfl
      | binary _ _ => rfl
    obtain ⟨b, children, rfl, -, hbfin⟩ := hw.1.child_binary hnil
    exact Bool.noConfusion (hfin.symm.trans hbfin)

/-- A poll of a tree with two choices is one of its binary node and of the flat instance. -/
private theorem twoChoice_recordPoll_duel (hparams : params.Valid) (ht : t.params = params)
    (hf : f.params = params) {c : Bool → ID} {j : Nat} (hc : ∀ i, (c i).bit j = i)
    (hxy : ∀ id, (id = x ∨ id = y) ↔ ∃ i, id = c i) {b : BinaryNode} {children : Bool → Node}
    (hnode : t.node = .binary b children ∨ ∃ u, t.node = .unary u (.binary b children))
    (h : Node.IsDuel params c j f.snowball b children) (hw : t.node.WellFormed)
    (hw' : (t.recordPoll votes).1.node.WellFormed) (hk : votes.len ≤ params.k)
    (hpoll : ∀ id ∈ votes.list, ∃ i, id = c i) :
    TwoChoice params x y ops (t.recordPoll votes).1 (f.recordPoll votes).1 := by
  have hnil : t.node.isNil = false := by
    rcases hnode with hnode | ⟨u, hnode⟩ <;> rw [hnode] <;> rfl
  -- every vote is for a stored choice, so the root lets it pass
  have hpass : ∀ P, (votes.filter 0 t.node.decidedPrefix t.preference).countWhere P =
      votes.countWhere P := by
    refine Bag.countWhere_filter_of_forall fun id hid => ?_
    obtain ⟨i, rfl⟩ := hpoll id hid
    have hst : t.node.Stores (c i) := by
      have hst : (Node.binary b children).Stores (c i) := .inl ⟨i, (h.get_preferences i).symm⟩
      rcases hnode with hnode | ⟨u, hnode⟩ <;> rw [hnode]
      · exact hst
      · exact .inr hst
    exact (equalSubset_zero_iff (Nat.le_of_lt (hw.decidedPrefix_lt hnil)) _ _).mpr (hw.agree hst).symm
  subst ht
  rcases hnode with hnode | ⟨u, hnode⟩
  · have hw0 : (Node.binary b children).WellFormed := hnode ▸ hw
    refine twoChoice_of_matches hc hxy hw'
      (Node.matches_recordPollEager hparams hc hf hw0 h hk hpoll hpass) (.inl ?_)
    simp only [recordPoll, hnode]
  have hw0 : (Node.unary u (.binary b children)).WellFormed := hnode ▸ hw
  by_cases hlen : ((votes.filter 0 t.node.decidedPrefix t.preference).len : Int) < t.params.alpha
  · -- too few votes for any choice
    have hlose : ∀ id, (votes.count id : Int) < f.params.alpha := by
      intro id
      have hle := votes.countWhere_le_len fun x => x = id
      rw [← Bag.count_eq_countWhere, Bag.len_eq_countWhere, ← hpass, ← Bag.len_eq_countWhere] at hle
      rw [hf]
      omega
    refine twoChoice_of_matches hc hxy hw' (n := (Node.binary b children).resetConfidence) ?_
      (.inr ⟨{ u with snowball := u.snowball.recordUnsuccessfulPoll }, ?_⟩)
    · rw [Flat.recordPoll_of_count_lt hlose]
      exact .voting _ _ rfl h.resetConfidence
    · simp only [recordPoll]
      rw [hnode] at hlen ⊢
      rw [Node.recordPollEager, if_pos hlen]
      rfl
  · refine twoChoice_of_matches hc hxy hw'
      (Node.matches_recordPollEager hparams hc hf hw0.2 h hk hpoll hpass) ?_
    simp only [recordPoll]
    rw [hnode] at hlen ⊢
    rw [Node.recordPollEager, if_neg hlen]
    simp only [Node.isNil, Bool.false_eq_true, if_false]
    split
    · exact .inl rfl
    · exact .inr ⟨_, rfl⟩

/-- Adding one of the two choices. -/
private theorem twoChoice_add (hxy : x ≠ y) {given : List ID} (hinv : Invariant params given t)
    (h : TwoChoice params x y ops t f) {choice : ID} (hchoice : choice = x ∨ choice = y) :
    TwoChoice params x y (ops ++ [.add choice]) (t.add choice) (f.add choice) := by
  obtain ⟨rfl, hnil, hw, hc, -⟩ := hinv
  have hsame : ∀ id, t.node.Stores id → t.add id = t := by
    intro id hid
    rw [add, Node.add_of_stores hw hid]
    split <;> rfl
  cases h with
  | decided ht hf hpref =>
    obtain ⟨hffin, hfkeep⟩ := Flat.finalized_step hf (.add choice)
    have hkeep : (t.add choice).node = t.node := by
      rw [add, Node.add_of_finalized hw ht]
      split <;> rfl
    refine .decided ?_ hffin ?_
    · rw [finalized, hkeep]
      exact ht
    · rw [preference, hkeep]
      exact hpref.trans hfkeep.symm
  | single u hnode h hy =>
    rcases hchoice with rfl | rfl
    · rw [hsame choice (by rw [hnode]; exact .inl h.preference_eq.symm)]
      refine .single u hnode { h with flat := ?_ } (by simpa using ⟨hy, hxy.symm⟩)
      simp [Flat.add, NnarySnowball.add, NnarySnowflake.add, h.flat]
    obtain ⟨c, j, b, children, hbits, hids, hduel, hadd⟩ := h.split hxy
    have heq : equalSubset 0 t.node.decidedPrefix t.preference choice = true := by
      rw [hnode, Node.decidedPrefix, h.decidedPrefix_eq]
      exact (equalSubset_zero_iff (Nat.zero_le _) _ _).mpr fun i hi => absurd hi (Nat.not_lt_zero i)
    refine .duel c j hbits hids b children ?_ hduel
    rw [add, if_pos heq, hnode]
    exact hadd
  | duel c j hbits hids b children hnode h =>
    obtain ⟨i, rfl⟩ := (hids choice).mp hchoice
    have hst : (Node.binary b children).Stores (c i) := .inl ⟨i, (h.get_preferences i).symm⟩
    rw [hsame (c i) (by
      rcases hnode with hnode | ⟨u, hnode⟩ <;> rw [hnode]
      · exact hst
      · exact .inr hst)]
    refine .duel c j hbits hids b children hnode { h with duel := { h.duel with rogue := ?_ } }
    simp [Flat.add, NnarySnowball.add, NnarySnowflake.add, h.duel.rogue]

/-- One operation keeps the tree and the flat instance in step. -/
theorem TwoChoice.step (hparams : params.Valid) (hxy : x ≠ y) {op : Tree.Op}
    (hops : Tree.TwoChoices params x y (ops ++ [op])) (hinv : Invariant params (Tree.given x ops) t)
    (hf : f.params = params) (h : TwoChoice params x y ops t f) :
    TwoChoice params x y (ops ++ [op]) (t.step op).1 (f.step op) := by
  have hle := hparams.betaVirtuous_le
  have hop := hops ops op [] rfl
  have hinv' := hinv.step hle op
  have hext := hinv.extends_step hle op
  cases op with
  | add choice => exact twoChoice_add hxy hinv h hop
  | recordPoll votes =>
    obtain ⟨hk, hvotes⟩ := hop
    cases h with
    | decided ht hf' hpref =>
      obtain ⟨hffin, hfkeep⟩ := Flat.finalized_step hf' (.recordPoll votes)
      obtain ⟨hfin, hkeep⟩ := hext.finalized ht
      exact .decided hfin hffin (hkeep.trans (hpref.trans hfkeep.symm))
    | single u hnode h hy =>
      exact twoChoice_recordPoll_single hparams hinv.params_eq hf hnode h (by simpa using hy) hk
        fun id hid => (hvotes id hid).resolve_right fun hgiven => hy hgiven.2
    | duel c j hbits hids b children hnode h =>
      exact twoChoice_recordPoll_duel hparams hinv.params_eq hf hbits hids hnode h hinv.wellFormed
        hinv'.wellFormed hk fun id hid => (hids id).mp ((hvotes id hid).imp_right And.left)
  | recordUnsuccessfulPoll =>
    cases h with
    | decided ht hf' hpref =>
      obtain ⟨hffin, hfkeep⟩ := Flat.finalized_step hf' .recordUnsuccessfulPoll
      obtain ⟨hfin, hkeep⟩ := hext.finalized ht
      exact .decided hfin hffin (hkeep.trans (hpref.trans hfkeep.symm))
    | single u hnode h hy =>
      exact .single _ (by simp only [EagerTree.step, EagerTree.recordUnsuccessfulPoll, hnode]; rfl)
        h.recordUnsuccessfulPoll (by simpa using hy)
    | duel c j hbits hids b children hnode h =>
      refine .duel c j hbits hids _ _ ?_ h.resetConfidence
      simp only [EagerTree.step, EagerTree.recordUnsuccessfulPoll]
      rcases hnode with hnode | ⟨u, hnode⟩ <;> rw [hnode]
      · exact .inl rfl
      · exact .inr ⟨_, rfl⟩

theorem Tree.TwoChoices.of_concat {op : Tree.Op} (h : Tree.TwoChoices params x y (ops ++ [op])) :
    Tree.TwoChoices params x y ops :=
  fun pre op' post heq => h pre op' (post ++ [op]) (by rw [heq]; simp)

/-- Every run keeps the tree and the flat instance in step. -/
theorem twoChoice_run (hparams : params.Valid) (hxy : x ≠ y) (ops : List Tree.Op)
    (hops : Tree.TwoChoices params x y ops) :
    TwoChoice params x y ops ((init params x).run ops) ((Flat.init params x).run ops) ∧
      ((Flat.init params x).run ops).params = params := by
  induction ops using List.reverseRecOn with
  | nil =>
    refine ⟨.single _ rfl ⟨rfl, rfl, rfl, rfl, rfl, ?_⟩ List.not_mem_nil, rfl⟩
    simp [Flat.run, Flat.init, NnarySnowball.init, NnarySnowflake.init, UnarySnowball.init,
      UnarySnowflake.init]
  | append_singleton ops op ih =>
    obtain ⟨h, hf⟩ := ih hops.of_concat
    have hinv := invariant_run hparams.betaVirtuous_le x ops
    have hstep := h.step hparams hxy hops hinv hf
    simp only [run, Flat.run, List.foldl_append, List.foldl_cons, List.foldl_nil] at hf ⊢
    exact ⟨hstep, (Flat.params_step _ _).trans hf⟩

/-- With two choices, the tree and the flat instance have the same preference and the same
    finality after every operation. -/
theorem Tree.preference_eq_flat (params : Parameters) (hparams : params.verify = none) (x y : ID)
    (hxy : x ≠ y) (ops : List Tree.Op) (hops : TwoChoices params x y ops) :
    let t := (Tree.init params x).run ops
    let f := (Flat.init params x).run ops
    t.preference = f.preference ∧ t.finalized = f.finalized := by
  intro t f
  have h := (twoChoice_run (Parameters.valid_of_verify hparams) hxy ops hops).1
  rw [← eager_run_init] at h
  rw [← t.eager_preference, ← t.eager_finalized]
  cases h with
  | single u hnode h hy =>
    refine ⟨?_, ?_⟩
    · rw [EagerTree.preference, hnode, Flat.preference, h.flat]
      exact h.preference_eq
    · rw [EagerTree.finalized, hnode, Flat.finalized, h.flat]
      exact h.finalized_eq
  | duel c j hbits hids b children hnode h =>
    have hinv := invariant_run (Parameters.valid_of_verify hparams).betaVirtuous_le x ops
    rw [← eager_run_init] at hinv
    have hpref : (Node.binary b children).preference = f.preference :=
      (h.get_preferences _).trans h.duel.pref_eq.symm
    have hfin : f.finalized = false := h.duel.finalized.trans h.finalized_eq
    rw [hfin]
    obtain ⟨-, -, hw, hc, -⟩ := hinv
    rcases hnode with hnode | ⟨u, hnode⟩
    · rw [EagerTree.preference, EagerTree.finalized, hnode]
      exact ⟨hpref, h.finalized_eq⟩
    rw [hnode] at hw hc
    rw [EagerTree.preference, EagerTree.finalized, hnode]
    exact ⟨(hw.1.preference_eq rfl).trans hpref, (hc.2.1 rfl).1⟩
  | decided ht hf hpref => exact ⟨hpref, ht.trans hf.symm⟩

theorem Tree.preference_eq_flat_minimal :
    let ops : List Tree.Op := [.add ⟨1⟩, .recordPoll ((∅ : Bag).addCount ⟨1⟩ 1)]
    Parameters.minimal.verify = none ∧ TwoChoices .minimal ID.empty ⟨1⟩ ops ∧
      ((Tree.init .minimal ID.empty).run ops).preference =
        ((Flat.init .minimal ID.empty).run ops).preference := by
  intro ops
  have hops : TwoChoices .minimal ID.empty ⟨1⟩ ops := by
    intro pre op post heq
    rcases pre with _ | ⟨op₁, _ | ⟨op₂, pre⟩⟩
    · obtain ⟨rfl, -⟩ := List.cons.inj heq
      exact .inr rfl
    · simp only [ops, List.singleton_append, List.cons.injEq] at heq
      obtain ⟨rfl, rfl, -⟩ := heq
      exact ⟨by decide, fun id hid => .inr ⟨List.mem_singleton.mp hid, List.mem_singleton_self _⟩⟩
    · simp [ops] at heq
  exact ⟨by decide, hops, (Tree.preference_eq_flat .minimal (by decide) ID.empty ⟨1⟩ (by decide) ops
    hops).1⟩

end SavannahNode
