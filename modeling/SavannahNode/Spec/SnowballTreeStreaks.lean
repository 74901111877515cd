import SavannahNode.ForStd.Streak
import SavannahNode.Spec.SnowballTreeInvariant

/-!
# Confidence counters and streaks of polls

Every confidence counter of the eager tree is at most a streak of the history: the number
of polls, since the last failed one, in which at least `alpha` votes went to IDs that
agree with what the counter counts for (`Node.Supported`). When a node finalizes, its
threshold is reached by that streak. Which node votes on a bit is `Node.owner`.

## Key results

- `Node.supported_add`: adding a choice keeps the counters below the streaks
- `Node.owner_add`: adding a choice decides no bit
- `Node.backs_recordPollEager`: a poll keeps the counters below the streaks, and decides a
  bit only with a streak of its owner's threshold
-/

namespace SavannahNode

open Nat SavannahNode.Tree Bag

instance (n : Nat) (id1 id2 : ID) : Decidable (Agree n id1 id2) :=
  inferInstanceAs (Decidable (∀ i, i < n → id1.bit i = id2.bit i))

/-! ## Streaks of polls -/

/-- What an operation means to the IDs that share the first `n` bits of `id`. -/
def Tree.Op.outcome (alpha : Int) (n : Nat) (id : ID) : Tree.Op → Option Bool
  | .add _ => none
  | .recordPoll votes => some (decide (alpha ≤ votes.countWhere fun x => decide (Agree n x id)))
  | .recordUnsuccessfulPoll => some false

namespace Tree

/-- The number of polls since the last failed one, where a poll succeeds when the IDs that
    share the first `n` bits of `id` get `alpha` votes. -/
def streak (alpha : Int) (ops : List Op) (n : Nat) (id : ID) : Nat :=
  ops.streak (Op.outcome alpha n id)

variable (alpha : Int) (ops : List Op)

/-- Fewer bits are easier to agree on. -/
theorem streak_anti {m n : Nat} {id1 id2 : ID} (hmn : m ≤ n) (h : Agree m id1 id2) :
    streak alpha ops n id1 ≤ streak alpha ops m id2 := by
  refine List.streak_le ?_ ops
  intro op
  cases op with
  | add choice => exact .inl rfl
  | recordUnsuccessfulPoll => exact .inl rfl
  | recordPoll votes =>
    have hle : (votes.countWhere fun x => decide (Agree n x id1)) ≤
        votes.countWhere fun x => decide (Agree m x id2) := by
      refine countWhere_mono fun x _ hx => ?_
      simp only [decide_eq_true_eq] at hx ⊢
      exact (hx.mono hmn).trans h
    simp only [Op.outcome, Option.some.injEq, decide_eq_false_iff_not, decide_eq_true_eq]
    by_cases hm : alpha ≤ (votes.countWhere fun x => decide (Agree m x id2) : Nat)
    · by_cases hn : alpha ≤ (votes.countWhere fun x => decide (Agree n x id1) : Nat)
      · exact .inl (by simp [hm, hn])
      · exact .inr ⟨hn, hm⟩
    exact .inl (by
      have hn : ¬ alpha ≤ (votes.countWhere fun x => decide (Agree n x id1) : Nat) := by omega
      simp [hm, hn])

@[simp] theorem streak_add (choice : ID) (n : Nat) (id : ID) :
    streak alpha (ops ++ [.add choice]) n id = streak alpha ops n id :=
  List.streak_concat ..

variable {alpha} in
theorem streak_recordPoll {votes : Bag} {n : Nat} {id : ID}
    (h : alpha ≤ votes.countWhere fun x => decide (Agree n x id)) :
    streak alpha (ops ++ [.recordPoll votes]) n id = streak alpha ops n id + 1 := by
  rw [streak, List.streak_concat, Op.outcome, decide_eq_true h]
  rfl

end Tree

/-! ## Who votes on a bit -/

/-- Who votes on a bit of the IDs that start with some given bits. -/
inductive BitOwner where
  /-- no node of the tree: the given bits lead out of it -/
  | absent
  /-- the bit has been decided -/
  | decided (bit : Bool)
  /-- a unary node -/
  | unary
  /-- a binary node -/
  | binary
deriving DecidableEq, Repr

namespace Node

/-- Who votes on bit `i` of the IDs that start with the first `i` bits of `id`. -/
def owner : Node → ID → Nat → BitOwner
  | nil, _, _ => .absent
  | unary u child, id, i =>
    if Agree (min i u.commonPrefix) id u.preference then
      if i < u.decidedPrefix then .decided (u.preference.bit i)
      else if i < u.commonPrefix then
        if u.snowball.finalized then .decided (u.preference.bit i) else .unary
      else child.owner id i
    else .absent
  | binary b children, id, i =>
    if Agree (min i b.bit) id (b.preferences.get b.snowball.pref) then
      if i < b.bit then .decided ((b.preferences.get b.snowball.pref).bit i)
      else if i = b.bit then
        if b.snowball.finalized then .decided b.snowball.pref else .binary
      else (children (id.bit b.bit)).owner id i
    else .absent

@[simp] theorem owner_flush (n : Node) (r : Bool) (id : ID) (i : Nat) :
    (n.flush r).owner id i = n.owner id i := by
  induction n generalizing r with
  | nil => rfl
  | unary u child ih =>
    simp only [flush, owner, ih]
    cases r <;> rfl
  | binary b children ih =>
    simp only [flush, owner, ih]
    cases r <;> rfl

@[simp] theorem owner_resetConfidence (n : Node) (id : ID) (i : Nat) :
    n.resetConfidence.owner id i = n.owner id i := by
  rw [← owner_flush _ false, flush_resetConfidence, owner_flush]

variable {n : Node} {id y : ID} {i index : Nat} {u : UnaryNode} {bit : Bool} {b : BinaryNode}
  {children : Bool → Node} {params : Parameters}

/-- Below the decided prefix every bit is decided, as the preference has it. -/
theorem owner_of_lt_decidedPrefix (hw : n.WellFormed) (hi : i < n.decidedPrefix)
    (hag : Agree i id n.preference) : n.owner id i = .decided (n.preference.bit i) := by
  cases n with
  | nil => cases hi
  | unary u child =>
    have hlt := hw.1.decidedPrefix_lt
    simp only [decidedPrefix, preference] at hi hag
    rw [owner, min_eq_left (by omega), if_pos hag, if_pos hi]
    rfl
  | binary b children =>
    simp only [decidedPrefix, preference] at hi hag
    rw [owner, min_eq_left (by omega), if_pos hag, if_pos hi]
    rfl

/-- Where the tree has an owner, the given bits agree with the decided prefix. -/
theorem agree_of_owner (hw : n.WellFormed) (h : n.owner id i ≠ .absent) :
    Agree (min i n.decidedPrefix) id n.preference := by
  cases n with
  | nil => exact absurd rfl h
  | unary u child =>
    have hlt := hw.1.decidedPrefix_lt
    by_cases hag : Agree (min i u.commonPrefix) id u.preference
    · exact hag.mono (by simp only [decidedPrefix]; omega)
    rw [owner, if_neg hag] at h
    exact absurd rfl h
  | binary b children =>
    by_cases hag : Agree (min i b.bit) id (b.preferences.get b.snowball.pref)
    · exact hag
    rw [owner, if_neg hag] at h
    exact absurd rfl h

/-- A bit below the decided prefix that is decided as `id` has it. -/
theorem agree_of_owner_decided (hw : n.WellFormed) (hi : i < n.decidedPrefix)
    (h : n.owner id i = .decided (id.bit i)) : Agree (i + 1) id n.preference := by
  have hag := agree_of_owner hw (show n.owner id i ≠ .absent by rw [h]; simp)
  rw [min_eq_left (by omega)] at hag
  rw [owner_of_lt_decidedPrefix hw hi hag] at h
  exact hag.succ (BitOwner.decided.inj h).symm

/-- How a bit comes to be decided at a unary node. -/
theorem owner_unary_eq_decided {child : Node} (h : (unary u child).owner id i = .decided bit) :
    Agree (min i u.commonPrefix) id u.preference ∧
      ((i < u.decidedPrefix ∧ u.preference.bit i = bit) ∨
       (u.decidedPrefix ≤ i ∧ i < u.commonPrefix ∧ u.snowball.finalized = true ∧
         u.preference.bit i = bit) ∨
       (u.decidedPrefix ≤ i ∧ u.commonPrefix ≤ i ∧ child.owner id i = .decided bit)) := by
  rw [owner] at h
  split at h
  · rename_i hag
    refine ⟨hag, ?_⟩
    split at h
    · exact .inl ⟨‹_›, BitOwner.decided.inj h⟩
    split at h
    · split at h
      · exact .inr (.inl ⟨by omega, ‹_›, ‹_›, BitOwner.decided.inj h⟩)
      · cases h
    · exact .inr (.inr ⟨by omega, by omega, h⟩)
  · cases h

/-- How a bit comes to be decided at a binary node. -/
theorem owner_binary_eq_decided (h : (binary b children).owner id i = .decided bit) :
    Agree (min i b.bit) id (b.preferences.get b.snowball.pref) ∧
      ((i < b.bit ∧ (b.preferences.get b.snowball.pref).bit i = bit) ∨
       (i = b.bit ∧ b.snowball.finalized = true ∧ b.snowball.pref = bit) ∨
       (b.bit < i ∧ (children (id.bit b.bit)).owner id i = .decided bit)) := by
  rw [owner] at h
  split at h
  · rename_i hag
    refine ⟨hag, ?_⟩
    split at h
    · exact .inl ⟨‹_›, BitOwner.decided.inj h⟩
    split at h
    · split at h
      · exact .inr (.inl ⟨‹_›, ‹_›, BitOwner.decided.inj h⟩)
      · cases h
    · exact .inr (.inr ⟨by omega, h⟩)
  · cases h

/-- The bits of an undecided unary node. -/
theorem owner_unary_of_lt {child : Node} (hag : Agree i id u.preference) (hge : u.decidedPrefix ≤ i)
    (hi : i < u.commonPrefix) (hfin : u.snowball.finalized = false) :
    (unary u child).owner id i = .unary := by
  rw [owner, min_eq_left (by omega), if_pos hag, if_neg (by omega), if_pos hi, hfin]
  rfl

/-- The bit of an undecided binary node. -/
theorem owner_binary_self (hag : Agree b.bit id (b.preferences.get b.snowball.pref))
    (hfin : b.snowball.finalized = false) : (binary b children).owner id b.bit = .binary := by
  rw [owner, min_self, if_pos hag, if_neg (by omega), if_pos rfl, hfin]
  rfl

/-- Below a unary node the child has the say. -/
theorem owner_unary_of_ge {child : Node} (hfits : u.Fits child) (hw : child.WellFormed)
    (hi : u.commonPrefix ≤ i) (h : child.owner id i ≠ .absent) :
    (unary u child).owner id i = child.owner id i := by
  have hnil : child.isNil = false := by
    cases child with
    | nil => exact absurd rfl h
    | unary _ _ => rfl
    | binary _ _ => rfl
  have hag := agree_of_owner hw h
  have hlt := hfits.decidedPrefix_lt
  rw [← hfits.preference_eq hnil, hfits.decidedPrefix_child hnil] at hag
  rw [owner, if_pos (hag.mono (by omega)), if_neg (by omega), if_neg (by omega)]

/-- Below a binary node the child of the ID's branch has the say. -/
theorem owner_binary_of_gt (hfits : b.Fits children) (hw : ∀ j, (children j).WellFormed)
    (hi : b.bit < i) (h : (children bit).owner id i ≠ .absent) :
    id.bit b.bit = bit ∧ (binary b children).owner id i = (children bit).owner id i := by
  have hag := agree_of_owner (hw bit) h
  have hne : b.bit ≠ 255 := by
    intro h255
    rw [eq_nil_of_isNil (hfits.isNil_iff.mpr h255 bit)] at h
    exact h rfl
  have hlt := hfits.bit_lt_decidedPrefix hne bit
  rw [← hfits.preference_eq hne bit] at hag
  have hbit : id.bit b.bit = bit := by
    rw [hag b.bit (by omega)]
    exact hfits.bit_preferences bit
  refine ⟨hbit, ?_⟩
  rw [owner, if_pos ((hag.mono (by omega)).trans ((hfits.agree_get bit _).mono (by omega))),
    if_neg (by omega), if_neg (by omega), hbit]

/-! ## Counters and streaks -/

/-- Every undecided counter is at most the streak of what it counts for, and the IDs given
    to the tree that reach a unary node agree on all its bits. -/
def Supported (alpha : Int) (ops : List Tree.Op) (given : List ID) : Node → Prop
  | nil => True
  | unary u child =>
    (u.snowball.finalized = false →
      u.snowball.snowflake.confidence ≤ Tree.streak alpha ops u.commonPrefix u.preference ∧
      ∀ id ∈ given, Agree u.decidedPrefix id u.preference → Agree u.commonPrefix id u.preference) ∧
    child.Supported alpha ops given
  | binary b children =>
    (b.snowball.finalized = false →
      b.snowball.snowflake.confidence ≤ Tree.streak alpha ops (b.bit + 1)
        (b.preferences.get b.snowball.snowflake.slush.preference)) ∧
    ∀ i, (children i).Supported alpha ops given

variable {alpha : Int} {ops ops' : List Op} {given given' : List ID}

/-- A reset clears every counter, whatever the history. -/
theorem supported_resetConfidence (h : n.Supported alpha ops given) :
    n.resetConfidence.Supported alpha ops' given := by
  induction n with
  | nil => trivial
  | unary u child ih => exact ⟨fun hfin => ⟨zero_le _, (h.1 hfin).2⟩, ih h.2⟩
  | binary b children ih => exact ⟨fun _ => zero_le _, fun i => ih i (h.2 i)⟩

/-- The history matters through its streaks only. -/
theorem supported_of_streak_eq (heq : ∀ n id, streak alpha ops n id = streak alpha ops' n id)
    (h : n.Supported alpha ops given) : n.Supported alpha ops' given := by
  induction n with
  | nil => trivial
  | unary u child ih => exact ⟨fun hfin => ⟨heq .. ▸ (h.1 hfin).1, (h.1 hfin).2⟩, ih h.2⟩
  | binary b children ih => exact ⟨fun hfin => heq .. ▸ h.1 hfin, fun i => ih i (h.2 i)⟩

private theorem supported_of_isNil (h : n.isNil = false → n.Supported alpha ops given) :
    n.Supported alpha ops given := by
  cases n with
  | nil => trivial
  | unary _ _ => exact h rfl
  | binary _ _ => exact h rfl

/-- A choice that the decided prefix excludes reaches no node. -/
theorem supported_of_not_agree (hw : n.WellFormed) (h : n.Supported alpha ops given)
    (hgiven : ∀ x ∈ given', x ∈ given ∨ x = id) (hag : ¬ Agree n.decidedPrefix id n.preference) :
    n.Supported alpha ops given' := by
  induction n with
  | nil => trivial
  | unary u child ih =>
    obtain ⟨hfits, hwchild⟩ := hw
    refine ⟨fun hfin => ⟨(h.1 hfin).1, fun x hx hxag => ?_⟩, ?_⟩
    · rcases hgiven x hx with hx | rfl
      · exact (h.1 hfin).2 x hx hxag
      · exact absurd hxag hag
    refine supported_of_isNil fun hnil => ih hwchild h.2 fun hchild => hag ?_
    rw [← hfits.preference_eq hnil] at hchild
    exact hchild.mono (le_of_lt (hfits.lt_decidedPrefix_child hnil))
  | binary b children ih =>
    obtain ⟨hfits, hwchildren⟩ := hw
    refine ⟨h.1, fun i => supported_of_isNil fun hnil => ?_⟩
    refine ih i (hwchildren i) (h.2 i) fun hchild => hag ?_
    have hne := hfits.bit_ne_of_isNil hnil
    have hlt := hfits.bit_lt_decidedPrefix hne i
    rw [← hfits.preference_eq hne i] at hchild
    exact (hchild.mono (le_of_lt hlt)).trans (hfits.agree_get i _)

/-- What a split leaves of the old node and adds for the new choice. -/
private theorem supported_split {child : Node} (hw : (unary u child).WellFormed)
    (h : (unary u child).Supported alpha ops given) (hfin : u.snowball.finalized = false)
    (hgiven : ∀ x ∈ given', x ∈ given ∨ x = id) (hag : Agree u.decidedPrefix id u.preference)
    (hdiff : firstDifferenceSubset u.decidedPrefix u.commonPrefix u.preference id = some index) :
    (u.split child params id index).Supported alpha ops given' := by
  obtain ⟨hfits, hwchild⟩ := hw
  obtain ⟨⟨hconf, hreach⟩, hchild⟩ := And.intro (h.1 hfin) h.2
  obtain ⟨hge, hlt, hbit, hagOn⟩ := firstDifferenceSubset_eq_some hfits.commonPrefix_le hdiff
  have hagree : Agree index id u.preference := (hag.symm.append hagOn).symm
  -- the new choice leaves the old branch at `index`
  have hleave : ¬ Agree (index + 1) id u.preference := fun hc => hbit (hc index (by omega)).symm
  have hchild' : child.Supported alpha ops given' := by
    refine supported_of_isNil fun hnil => ?_
    refine supported_of_not_agree hwchild hchild hgiven fun hc => hleave ?_
    rw [← hfits.preference_eq hnil, hfits.decidedPrefix_child hnil] at hc
    exact hc.mono hlt
  have hnew : (newChild params id index).Supported alpha ops given' := by
    refine ⟨fun _ => ⟨zero_le _, fun x hx hxag => ?_⟩, trivial⟩
    have hxag : Agree (index + 1) x id := hxag
    rcases hgiven x hx with hx | rfl
    · have hxu := hreach x hx ((hxag.mono (by omega)).trans hag)
      exact absurd (hxag.symm.trans (hxu.mono (by omega))) hleave
    · exact Agree.refl _ _
  have hrest : (unary { u with decidedPrefix := index + 1 } child).Supported alpha ops given' := by
    refine ⟨fun _ => ⟨hconf, fun x hx hxag => ?_⟩, hchild'⟩
    rcases hgiven x hx with hx | rfl
    · exact hreach x hx (hxag.mono (show u.decidedPrefix ≤ index + 1 by omega))
    · exact absurd hxag hleave
  obtain ⟨node, other, hbranch, hsplit⟩ := split_eq params id child hge hlt
  have hbinary : (binary (u.toBinary params id index)
      (branches (u.preference.bit index) node other)).Supported alpha ops given' := by
    refine ⟨fun _ => ?_, forall_branches.mpr ?_⟩
    · simp only [UnaryNode.toBinary, UnarySnowball.extend, Pair.get_set_self]
      exact le_trans hconf (streak_anti _ _ (by omega) (Agree.refl _ _))
    rcases hbranch with ⟨-, rfl, rfl⟩ | ⟨-, rfl, rfl⟩
    · refine ⟨hchild', ?_⟩
      split
      · trivial
      · exact hnew
    · exact ⟨hrest, hnew⟩
  rcases hsplit with ⟨-, heq⟩ | ⟨-, r, heq⟩ <;> rw [heq]
  · exact hbinary
  refine ⟨fun _ => ⟨le_trans hconf (streak_anti _ _ (le_of_lt hlt) (Agree.refl _ _)),
    fun x hx hxag => ?_⟩, hbinary⟩
  rcases hgiven x hx with hx | rfl
  · exact (hreach x hx hxag).mono (le_of_lt hlt)
  · exact hagree

/-- Adding a choice keeps the counters below the streaks. -/
theorem supported_add (hw : n.WellFormed) (hc : n.Confident params)
    (h : n.Supported alpha ops given) (hgiven : ∀ x ∈ given', x ∈ given ∨ x = id)
    (hag : Agree n.decidedPrefix id n.preference) :
    (n.add params id).Supported alpha ops given' := by
  induction n with
  | nil => trivial
  | unary u child ih =>
    simp only [add]
    split
    · rename_i hfin
      -- only a leaf is finalized
      cases hnil : child.isNil with
      | true =>
        rw [eq_nil_of_isNil hnil]
        exact ⟨fun hfin' => Bool.noConfusion (hfin.symm.trans hfin'), trivial⟩
      | false =>
        rw [(hc.2.1 hnil).1] at hfin
        cases hfin
    rename_i hfin
    have hfin : u.snowball.finalized = false := by simpa using hfin
    split
    · rename_i hdiff
      obtain ⟨hfits, hwchild⟩ := hw
      have hagOn := firstDifferenceSubset_eq_none hfits.commonPrefix_le hdiff
      have hagree : Agree u.commonPrefix id u.preference := (hag.symm.append hagOn).symm
      refine ⟨fun _ => ⟨(h.1 hfin).1, fun x hx hxag => ?_⟩, ?_⟩
      · rcases hgiven x hx with hx | rfl
        · exact (h.1 hfin).2 x hx hxag
        · exact hagree
      by_cases hnil : child.isNil = true
      · rw [eq_nil_of_isNil hnil]
        trivial
      rw [Bool.not_eq_true] at hnil
      refine ih hwchild hc.2.2 h.2 ?_
      rw [← hfits.preference_eq hnil, hfits.decidedPrefix_child hnil]
      exact hagree
    · exact supported_split hw h hfin hgiven hag ‹_›
  | binary b children ih =>
    obtain ⟨hfits, hwchildren⟩ := hw
    have hagb : ∀ i, Agree b.bit id (b.preferences.get i) := fun i => hag.trans (hfits.agree_get _ i)
    -- a branch the choice does not enter
    have hskip : ∀ i, ((children i).isNil = false →
        ¬ Agree (children i).decidedPrefix id (b.preferences.get i)) →
        (children i).Supported alpha ops given' := by
      intro i hi
      refine supported_of_isNil fun hnil => ?_
      refine supported_of_not_agree (hwchildren i) (h.2 i) hgiven ?_
      rw [← hfits.preference_eq (hfits.bit_ne_of_isNil hnil) i]
      exact hi hnil
    have hother : ∀ i, i ≠ id.bit b.bit → (children i).Supported alpha ops given' := by
      intro i hi
      refine hskip i fun hnil hchild => hi ?_
      have hlt := hfits.bit_lt_decidedPrefix (hfits.bit_ne_of_isNil hnil) i
      rw [hchild b.bit hlt, hfits.bit_preferences]
    simp only [add]
    split
    · rename_i hcond
      simp only [Bool.and_eq_true, Bool.not_eq_eq_eq_not, Bool.not_true] at hcond
      obtain ⟨hnil, heq⟩ := hcond
      refine ⟨h.1, fun i => ?_⟩
      by_cases hi : i = id.bit b.bit
      · subst hi
        rw [Function.update_self]
        refine ih _ (hwchildren _) (hc.2 _) (h.2 _) ?_
        rw [← hfits.preference_eq (hfits.bit_ne_of_isNil hnil)]
        exact hfits.agree_branch (hwchildren _) hnil (hagb _) rfl heq
      rw [Function.update_of_ne hi]
      exact hother i hi
    rename_i hcond
    refine ⟨h.1, fun i => ?_⟩
    by_cases hi : i = id.bit b.bit
    · subst hi
      refine hskip _ fun hnil hchild => hcond ?_
      have hle := le_of_lt ((hwchildren (id.bit b.bit)).decidedPrefix_lt hnil)
      rw [hnil, (equalSubset_iff hle _ _).mpr fun j _ hj => (hchild j hj).symm]
      rfl
    · exact hother i hi

/-- A split decides no bit: what is decided at its binary node was decided before. -/
private theorem owner_toBinary {node other : Node} (hfin : u.snowball.finalized = false)
    (hother : index < i → other.owner y i ≠ .decided bit) (h : (binary (u.toBinary params id index)
      (branches (u.preference.bit index) node other)).owner y i = .decided bit) :
    (i < index ∧ Agree i y u.preference ∧ u.preference.bit i = bit) ∨
    (index < i ∧ Agree (index + 1) y u.preference ∧ node.owner y i = .decided bit) := by
  have hpref := preference_toBinary hfin params id index (branches (u.preference.bit index) node other)
  rw [preference] at hpref
  obtain ⟨hag, ⟨hi, hbit⟩ | ⟨-, hf, -⟩ | ⟨hi, hchild⟩⟩ := owner_binary_eq_decided h
  · rw [hpref] at hag hbit
    have hi : i < index := hi
    exact .inl ⟨hi, hag.mono (Nat.le_min.mpr ⟨Nat.le_refl i, Nat.le_of_lt hi⟩), hbit⟩
  · exact Bool.noConfusion (hf.symm.trans hfin)
  rw [hpref] at hag
  have hi : index < i := hi
  have hag : Agree index y u.preference :=
    hag.mono (Nat.le_min.mpr ⟨Nat.le_of_lt hi, Nat.le_refl index⟩)
  by_cases hbit : y.bit index = u.preference.bit index
  · refine .inr ⟨hi, hag.succ hbit, ?_⟩
    rwa [show (u.toBinary params id index).bit = index from rfl, hbit, branches_self] at hchild
  rw [show (u.toBinary params id index).bit = index from rfl, Bool.eq_not.mpr hbit,
    branches_not] at hchild
  exact absurd hchild (hother hi)

private theorem owner_newChild (hi : index < i) :
    (newChild params id index).owner y i ≠ .decided bit := by
  intro h
  obtain ⟨-, ⟨hlt, -⟩ | ⟨-, -, hf, -⟩ | ⟨-, -, hchild⟩⟩ := owner_unary_eq_decided h
  · exact absurd hlt (show ¬ i < index + 1 by omega)
  · cases hf
  · cases hchild

/-- A split decides no bit. -/
private theorem owner_split {child : Node} (hfits : u.Fits child)
    (hfin : u.snowball.finalized = false)
    (hdiff : firstDifferenceSubset u.decidedPrefix u.commonPrefix u.preference id = some index)
    (h : (u.split child params id index).owner y i = .decided bit) :
    (unary u child).owner y i = .decided bit := by
  obtain ⟨hge, hlt, -, -⟩ := firstDifferenceSubset_eq_some hfits.commonPrefix_le hdiff
  have hdecided : i < u.decidedPrefix → Agree i y u.preference → u.preference.bit i = bit →
      (unary u child).owner y i = .decided bit := by
    intro hi hag hbit
    rw [owner, min_eq_left (by omega), if_pos hag, if_pos hi, hbit]
  have hbelow : u.commonPrefix ≤ i → Agree u.commonPrefix y u.preference →
      child.owner y i = .decided bit → (unary u child).owner y i = .decided bit := by
    intro hi hag hchild
    rw [owner, min_eq_right hi, if_pos hag, if_neg (by omega), if_neg (by omega), hchild]
  obtain ⟨node, other, hbranch, hsplit⟩ := split_eq params id child hge hlt
  have hother : index < i → other.owner y i ≠ .decided bit := by
    intro hi
    rcases hbranch with ⟨-, -, rfl⟩ | ⟨-, -, rfl⟩
    · split
      · intro hne
        cases hne
      · exact owner_newChild hi
    · exact owner_newChild hi
  have hbinary : (binary (u.toBinary params id index)
      (branches (u.preference.bit index) node other)).owner y i = .decided bit →
      (i < index ∧ Agree i y u.preference ∧ u.preference.bit i = bit) ∨
        (unary u child).owner y i = .decided bit := by
    intro hown
    refine (owner_toBinary hfin hother hown).imp_right fun hlater => ?_
    obtain ⟨hi, hag, hnode⟩ := hlater
    rcases hbranch with ⟨hidx, rfl, -⟩ | ⟨-, rfl, -⟩
    · exact hbelow (by omega) (hag.mono (by omega)) hnode
    obtain ⟨hag', ⟨hlt', -⟩ | ⟨-, -, hf, -⟩ | ⟨-, hcp, hchild⟩⟩ := owner_unary_eq_decided hnode
    · exact absurd hlt' (show ¬ i < index + 1 by omega)
    · exact Bool.noConfusion (hf.symm.trans hfin)
    simp only at hag' hcp
    exact hbelow hcp (hag'.mono (by omega)) hchild
  rcases hsplit with ⟨hidx, heq⟩ | ⟨hidx, r, heq⟩ <;> rw [heq] at h
  · rcases hbinary h with ⟨hi, hag, hbit⟩ | hown
    · exact hdecided (by omega) hag hbit
    · exact hown
  obtain ⟨hag, ⟨hi, hbit⟩ | ⟨-, -, hf, -⟩ | ⟨-, hcp, hchild⟩⟩ := owner_unary_eq_decided h
  · exact hdecided hi (hag.mono (by simp only at hi ⊢; omega)) hbit
  · exact Bool.noConfusion (hf.symm.trans hfin)
  rcases hbinary hchild with ⟨hi, -⟩ | hown
  · exact absurd hi (not_lt.mpr hcp)
  · exact hown

/-- Adding a choice decides no bit. -/
theorem owner_add (hw : n.WellFormed) (h : (n.add params id).owner y i = .decided bit) :
    n.owner y i = .decided bit := by
  induction n with
  | nil => exact h
  | unary u child ih =>
    simp only [add] at h
    split at h
    · exact h
    rename_i hfin
    have hfin : u.snowball.finalized = false := Bool.eq_false_iff.mpr hfin
    split at h
    · obtain ⟨hag, ⟨hi, hbit⟩ | ⟨hge, hi, hf, hbit⟩ | ⟨hge, hi, hchild⟩⟩ := owner_unary_eq_decided h
      · rw [owner, if_pos hag, if_pos hi, hbit]
      · exact Bool.noConfusion (hf.symm.trans hfin)
      · rw [owner, if_pos hag, if_neg (by omega), if_neg (by omega), ih hw.2 hchild]
    · exact owner_split hw.1 hfin ‹_› h
  | binary b children ih =>
    simp only [add] at h
    split at h
    · obtain ⟨hag, ⟨hi, hbit⟩ | ⟨hi, hf, hbit⟩ | ⟨hi, hchild⟩⟩ := owner_binary_eq_decided h
      · rw [owner, if_pos hag, if_pos hi, hbit]
      · rw [owner, if_pos hag, if_neg (by omega), if_pos hi, hf, hbit]
        rfl
      rw [owner, if_pos hag, if_neg (by omega), if_neg (by omega)]
      by_cases hj : y.bit b.bit = id.bit b.bit
      · rw [hj] at hchild ⊢
        rw [Function.update_self] at hchild
        exact ih _ (hw.2 _) hchild
      · rwa [Function.update_of_ne hj] at hchild
    · exact h

/-! ## What an owner says about the IDs given -/

/-- A bit a binary node votes on is one on which given IDs differ. -/
theorem stores_of_owner_binary (hw : n.WellFormed) (h : n.owner id i = .binary) :
    ∀ bit, ∃ x, n.Stores x ∧ Agree i x id ∧ x.bit i = bit := by
  induction n with
  | nil => cases h
  | unary u child ih =>
    intro bit
    rw [owner] at h
    split at h
    · split at h
      · cases h
      split at h
      · split at h <;> cases h
      obtain ⟨x, hx, hag, hbit⟩ := ih hw.2 h bit
      exact ⟨x, .inr hx, hag, hbit⟩
    · cases h
  | binary b children ih =>
    intro bit
    rw [owner] at h
    split at h
    · rename_i hag
      split at h
      · cases h
      split at h
      · rename_i hi
        subst hi
        rw [min_self] at hag
        exact ⟨b.preferences.get bit, .inl ⟨bit, rfl⟩, (hw.1.agree_get bit _).trans hag.symm,
          hw.1.bit_preferences bit⟩
      obtain ⟨x, hx, hag, hbit⟩ := ih _ (hw.2 _) h bit
      exact ⟨x, .inr ⟨_, hx⟩, hag, hbit⟩
    · cases h

/-- A bit a unary node votes on is one on which the given IDs agree. -/
theorem bit_eq_of_owner_unary (hs : n.Supported alpha ops given) (h : n.owner id i = .unary)
    {x : ID} (hx : x ∈ given) (hy : y ∈ given) (hxag : Agree i x id) (hyag : Agree i y id) :
    x.bit i = y.bit i := by
  induction n with
  | nil => cases h
  | unary u child ih =>
    rw [owner] at h
    split at h
    · rename_i hag
      split at h
      · cases h
      split at h
      · rename_i hi
        split at h
        · cases h
        rename_i hfin
        rw [min_eq_left (by omega)] at hag
        have hreach := (hs.1 (Bool.eq_false_iff.mpr hfin)).2
        have hx' := hreach x hx ((hxag.trans hag).mono (by omega))
        have hy' := hreach y hy ((hyag.trans hag).mono (by omega))
        rw [hx' i hi, hy' i hi]
      · exact ih hs.2 h
    · cases h
  | binary b children ih =>
    rw [owner] at h
    split at h
    · split at h
      · cases h
      split at h
      · split at h <;> cases h
      · exact ih _ (hs.2 _) h
    · cases h

/-! ## Polls -/

/-- The votes of a poll that reach a sub-tree. -/
structure Receives (n : Node) (given : List ID) (poll votes : Bag) : Prop where
  countWhere_le : ∀ P, votes.countWhere P ≤ poll.countWhere P
  mem : ∀ id ∈ votes.list, id ∈ given ∧ Agree n.decidedPrefix id n.preference

variable {poll votes : Bag}

/-- Votes that all agree on more bits are votes of the poll that do. -/
theorem Receives.streak_eq (ops : List Op) (h : n.Receives given poll votes)
    (hlen : alpha ≤ votes.len) {m : Nat} (hall : ∀ x ∈ votes.list, Agree m x id) :
    streak alpha (ops ++ [.recordPoll poll]) m id = streak alpha ops m id + 1 := by
  apply streak_recordPoll
  have hle : votes.len ≤ votes.countWhere fun x => decide (Agree m x id) := by
    rw [len_eq_countWhere]
    exact countWhere_mono fun x hx _ => decide_eq_true (hall x hx)
  have := h.countWhere_le fun x => decide (Agree m x id)
  omega

/-- All votes that reach an undecided unary node agree with all its bits. -/
theorem Receives.agree_unary {child : Node} (h : (unary u child).Receives given poll votes)
    (hs : (unary u child).Supported alpha ops given) (hfin : u.snowball.finalized = false) :
    ∀ x ∈ votes.list, Agree u.commonPrefix x u.preference :=
  fun x hx => (hs.1 hfin).2 x (h.mem x hx).1 (h.mem x hx).2

/-- An undecided unary node passes all its votes on. -/
theorem Receives.child {child : Node} (h : (unary u child).Receives given poll votes)
    (hfits : u.Fits child) (hs : (unary u child).Supported alpha ops given)
    (hfin : u.snowball.finalized = false) (hnil : child.isNil = false) :
    child.Receives given poll votes where
  countWhere_le := h.countWhere_le
  mem := by
    intro x hx
    refine ⟨(h.mem x hx).1, ?_⟩
    rw [← hfits.preference_eq hnil, hfits.decidedPrefix_child hnil]
    exact h.agree_unary hs hfin x hx

/-- The votes a binary node counts for one of its bits. -/
theorem Receives.split (h : (binary b children).Receives given poll votes) (hfits : b.Fits children)
    (bit : Bool) :
    (binary b children).Receives given poll ((votes.split b.bit).get bit) ∧
      ∀ x ∈ ((votes.split b.bit).get bit).list, Agree (b.bit + 1) x (b.preferences.get bit) := by
  refine ⟨⟨fun P => ?_, fun x hx => h.mem x (mem_list_split.mp hx).1⟩, fun x hx => ?_⟩
  · refine le_trans ?_ (h.countWhere_le P)
    rw [countWhere_split]
    exact countWhere_mono fun x _ hx => (Bool.and_eq_true_iff.mp hx).2
  obtain ⟨hx, hbit⟩ := mem_list_split.mp hx
  have hag : Agree b.bit x (b.preferences.get bit) := (h.mem x hx).2.trans (hfits.agree_get _ bit)
  exact hag.succ (by rw [hbit, hfits.bit_preferences])

/-- The votes a binary node passes on. -/
theorem Receives.branch (h : (binary b children).Receives given poll votes)
    (hfits : b.Fits children) (hw : (children bit).WellFormed) (hnil : (children bit).isNil = false) :
    (children bit).Receives given poll (((votes.split b.bit).get bit).filter (b.bit + 1)
      (children bit).decidedPrefix (b.preferences.get bit)) where
  countWhere_le := by
    intro P
    refine le_trans ?_ ((h.split hfits bit).1.countWhere_le P)
    rw [countWhere_filter]
    exact countWhere_mono fun x _ hx => (Bool.and_eq_true_iff.mp hx).2
  mem := by
    intro x hx
    obtain ⟨hx, heq⟩ := mem_list_filter.mp hx
    obtain ⟨hsplit, hag⟩ := h.split hfits bit
    refine ⟨(hsplit.mem x hx).1, ?_⟩
    rw [← hfits.preference_eq (hfits.bit_ne_of_isNil hnil)]
    exact hfits.agree_branch hw hnil ((hag x hx).mono (by omega)) (mem_list_split.mp hx).2 heq

/-- The votes a tree passes to its root. -/
theorem Receives.root (hw : n.WellFormed) (hnil : n.isNil = false)
    (h : ∀ id ∈ poll.list, id ∈ given) :
    n.Receives given poll (poll.filter 0 n.decidedPrefix n.preference) where
  countWhere_le := by
    intro P
    rw [countWhere_filter]
    exact countWhere_mono fun x _ hx => (Bool.and_eq_true_iff.mp hx).2
  mem := by
    intro x hx
    obtain ⟨hx, heq⟩ := mem_list_filter.mp hx
    have hle := le_of_lt (hw.decidedPrefix_lt hnil)
    exact ⟨h x hx, ((equalSubset_zero_iff hle _ _).mp heq).symm⟩

/-- Bit `i` of the IDs that start like `id` is decided as `id` has it, or its owner has a
    streak of its threshold in its favor. -/
def Decides (params : Parameters) (ops : List Tree.Op) (n : Node) (id : ID) (i : Nat) : Prop :=
  n.owner id i = .decided (id.bit i) ∨
  (n.owner id i = .unary ∧ params.betaVirtuous ≤ Tree.streak params.alpha ops (i + 1) id) ∨
  (n.owner id i = .binary ∧ params.betaRogue ≤ Tree.streak params.alpha ops (i + 1) id)

theorem Decides.owner_ne (h : Decides params ops n id i) : n.owner id i ≠ .absent := by
  rcases h with h | ⟨h, -⟩ | ⟨h, -⟩ <;> rw [h] <;> simp

theorem Decides.of_owner_eq {n' : Node} (h : Decides params ops n id i)
    (heq : n'.owner id i = n.owner id i) : Decides params ops n' id i := by
  unfold Decides
  rw [heq]
  exact h

/-- A bit of the decided prefix is decided as the preference has it. -/
theorem Decides.of_lt (hw : n.WellFormed) (hi : i < n.decidedPrefix)
    (hag : Agree (i + 1) id n.preference) : Decides params ops n id i :=
  .inl (by rw [owner_of_lt_decidedPrefix hw hi (hag.mono (le_succ i)), hag i (lt_succ_self i)])

/-- A poll finalizes an undecided unary instance when it reaches the threshold. -/
private theorem finalized_recordSuccessfulPoll_ge {sb : UnarySnowball} {beta : Int}
    (hbeta : sb.snowflake.beta = beta) (hfin : sb.finalized = false)
    (h : sb.recordSuccessfulPoll.finalized = true) : beta ≤ sb.snowflake.confidence + 1 := by
  have hf : sb.snowflake.finalized = false := hfin
  simp only [UnarySnowball.recordSuccessfulPoll, UnarySnowball.finalized,
    UnarySnowflake.recordSuccessfulPoll, hf, Bool.false_or, decide_eq_true_eq, hbeta] at h
  omega

/-- What a poll of a sub-tree does to its counters and decisions. -/
structure Backs (params : Parameters) (ops : List Tree.Op) (given : List ID) (n n' : Node) :
    Prop where
  supported : n'.Supported params.alpha ops given
  decides : ∀ id i, n'.owner id i = .decided (id.bit i) → Decides params ops n id i

theorem backs_resetConfidence (h : n.Supported params.alpha ops given) :
    Backs params ops' given n n.resetConfidence :=
  ⟨supported_resetConfidence h, fun id i hown => .inl (by rwa [owner_resetConfidence] at hown)⟩

/-- A leaf: its last bits are decided together. -/
private theorem backs_leaf (hbeta : u.snowball.snowflake.beta = params.betaVirtuous)
    (hs : (unary u nil).Supported params.alpha ops given)
    (hr : (unary u nil).Receives given poll votes) (hlen : params.alpha ≤ votes.len) :
    Backs params (ops ++ [.recordPoll poll]) given (unary u nil)
      (unary { u with snowball := u.snowball.recordSuccessfulPoll } nil) := by
  cases hfin : u.snowball.finalized with
  | true =>
    have hsf : u.snowball.snowflake.finalized = true := hfin
    have hfin' : u.snowball.recordSuccessfulPoll.finalized = true := by
      simp [UnarySnowball.recordSuccessfulPoll, UnarySnowball.finalized,
        UnarySnowflake.recordSuccessfulPoll, hsf]
    refine ⟨⟨fun hf => Bool.noConfusion (hfin'.symm.trans hf), trivial⟩, fun id i hown => .inl ?_⟩
    simp only [owner, hfin'] at hown
    simp only [owner, hfin]
    exact hown
  | false =>
    have hstreak := hr.streak_eq ops hlen (hr.agree_unary hs hfin)
    have hconf : u.snowball.snowflake.confidence + 1 ≤
        streak params.alpha (ops ++ [.recordPoll poll]) u.commonPrefix u.preference := by
      rw [hstreak]
      exact succ_le_succ (hs.1 hfin).1
    refine ⟨⟨fun _ => ⟨hconf, (hs.1 hfin).2⟩, trivial⟩, fun id i hown => ?_⟩
    obtain ⟨hag, ⟨hdec, hbit⟩ | ⟨hge, hi, hfin', hbit⟩ | ⟨-, -, hchild⟩⟩ :=
      owner_unary_eq_decided hown
    · exact .inl (by rw [owner, if_pos hag, if_pos hdec, hbit])
    · simp only at hag hge hi hbit
      rw [min_eq_left (by omega)] at hag
      have hanti := streak_anti params.alpha (ops ++ [.recordPoll poll])
        (show i + 1 ≤ u.commonPrefix from hi) (hag.symm.succ hbit)
      have hbv := finalized_recordSuccessfulPoll_ge hbeta hfin hfin'
      exact .inr (.inl ⟨owner_unary_of_lt hag hge hi hfin, by omega⟩)
    · cases hchild

/-- An inner unary node: it stays above its child, or gives way to it. -/
private theorem backs_unary {child newChild : Node} (hw : (unary u child).WellFormed)
    (hc : (unary u child).Confident params) (hs : (unary u child).Supported params.alpha ops given)
    (hr : (unary u child).Receives given poll votes) (hlen : params.alpha ≤ votes.len)
    (hnil : child.isNil = false) (hpolled : Polled params child newChild)
    (hchild : Backs params (ops ++ [.recordPoll poll]) given child newChild) :
    (u.snowball.recordSuccessfulPoll.finalized = true →
      Backs params (ops ++ [.recordPoll poll]) given (unary u child) newChild) ∧
    (u.snowball.recordSuccessfulPoll.finalized = false →
      Backs params (ops ++ [.recordPoll poll]) given (unary u child)
        (unary { u with
          snowball := u.snowball.recordSuccessfulPoll
          preference := newChild.preference } newChild)) := by
  have hfits := hw.1
  obtain ⟨hbeta, hconf, -⟩ := hc
  obtain ⟨hfin, -⟩ := hconf hnil
  have hstreak := hr.streak_eq ops hlen (hr.agree_unary hs hfin)
  have hle := (hs.1 hfin).1
  have hdlt := hfits.decidedPrefix_lt
  -- the child only keeps IDs that agree with the node
  have hpref : Agree u.commonPrefix newChild.preference u.preference := by
    rw [← hfits.decidedPrefix_child hnil]
    exact hfits.agree _ (hpolled.stores _ (stores_preference (hpolled.isNil_eq.trans hnil)))
  have hdle : u.commonPrefix ≤ newChild.decidedPrefix := by
    rw [← hfits.decidedPrefix_child hnil]
    exact hpolled.decidedPrefix_le
  have hbelow : ∀ id i, u.commonPrefix ≤ i → newChild.owner id i = .decided (id.bit i) →
      Decides params (ops ++ [.recordPoll poll]) (unary u child) id i := by
    intro id i hi hown
    have hdec := hchild.decides id i hown
    exact hdec.of_owner_eq (owner_unary_of_ge hfits hw.2 hi hdec.owner_ne)
  refine ⟨fun hfin' => ⟨hchild.supported, fun id i hown => ?_⟩, fun hfin' => ⟨⟨fun _ => ?_,
    hchild.supported⟩, fun id i hown => ?_⟩⟩
  · by_cases hi : i < u.commonPrefix
    · have hag := (agree_of_owner_decided hpolled.wellFormed (by omega) hown).trans (hpref.mono hi)
      by_cases hge : i < u.decidedPrefix
      · exact .of_lt hw hge hag
      have hanti := streak_anti params.alpha (ops ++ [.recordPoll poll])
        (show i + 1 ≤ u.commonPrefix from hi) hag.symm
      have hbv := finalized_recordSuccessfulPoll_ge hbeta hfin hfin'
      exact .inr (.inl ⟨owner_unary_of_lt (hag.mono (by omega)) (by omega) hi hfin, by omega⟩)
    · exact hbelow id i (by omega) hown
  · have hanti := streak_anti params.alpha (ops ++ [.recordPoll poll])
      (le_refl u.commonPrefix) hpref.symm
    refine ⟨le_trans (show u.snowball.snowflake.confidence + 1 ≤ _ by omega) hanti,
      fun x hx hxag => ?_⟩
    have hx' := (hs.1 hfin).2 x hx (hxag.trans (hpref.mono (le_of_lt hdlt)))
    exact hx'.trans hpref.symm
  · obtain ⟨hag, ⟨hdec, hbit⟩ | ⟨-, -, hf, -⟩ | ⟨-, hi, hchild⟩⟩ := owner_unary_eq_decided hown
    · simp only at hag hdec hbit
      rw [min_eq_left (by omega)] at hag
      exact .of_lt hw hdec ((hag.succ hbit.symm).trans (hpref.mono (by omega)))
    · exact Bool.noConfusion (hf.symm.trans hfin')
    · exact hbelow id i hi hchild

/-- A poll of an undecided binary node counts for the branch it goes to, and finalizes
    the node when it reaches the threshold. -/
private theorem binary_recordSuccessfulPoll (hfits : b.Fits children)
    (hbeta : b.snowball.snowflake.beta = params.betaRogue)
    (hs : (binary b children).Supported params.alpha ops given)
    (hr : (binary b children).Receives given poll votes)
    (hlen : params.alpha ≤ ((votes.split b.bit).get bit).len) (hfin : b.snowball.finalized = false) :
    let flake := (b.snowball.recordSuccessfulPoll bit).snowflake
    flake.slush.preference = bit ∧
      flake.confidence ≤ streak params.alpha (ops ++ [.recordPoll poll]) (b.bit + 1)
        (b.preferences.get bit) ∧
      (flake.finalized = true → params.betaRogue ≤ flake.confidence) := by
  obtain ⟨hsplit, hag⟩ := hr.split hfits bit
  have hstreak := hsplit.streak_eq ops hlen hag
  have hconf := hs.1 hfin
  have hf : b.snowball.snowflake.finalized = false := hfin
  simp only [BinarySnowball.recordSuccessfulPoll, BinarySnowflake.recordSuccessfulPoll, hf,
    Bool.false_eq_true, if_false, BinarySlush.recordSuccessfulPoll, hbeta, decide_eq_true_eq, hstreak,
    true_and]
  refine ⟨?_, fun h => h⟩
  split
  · rename_i hbit
    rw [hbit] at hconf
    exact succ_le_succ hconf
  · omega

/-- A finalized binary instance ignores polls. -/
theorem snowflake_recordSuccessfulPoll_of_finalized {sb : BinarySnowball} (bit : Bool)
    (h : sb.finalized = true) : (sb.recordSuccessfulPoll bit).snowflake = sb.snowflake := by
  have hf : sb.snowflake.finalized = true := h
  simp only [BinarySnowball.recordSuccessfulPoll, BinarySnowflake.recordSuccessfulPoll, hf, if_true]

theorem pref_of_finalized {sb : BinarySnowball} (h : sb.finalized = true) :
    sb.pref = sb.snowflake.slush.preference := by
  rw [BinarySnowball.pref, if_pos h]

section

variable (hw : (binary b children).WellFormed)
  (hbeta : b.snowball.snowflake.beta = params.betaRogue)
  (hs : (binary b children).Supported params.alpha ops given)
  (hr : (binary b children).Receives given poll votes)
  (hlen : params.alpha ≤ ((votes.split b.bit).get bit).len)

include hw hbeta hs hr hlen

/-- A binary node on the last bit. -/
private theorem backs_last (h255 : b.bit = 255) :
    Backs params (ops ++ [.recordPoll poll]) given (binary b children)
      (binary { b with snowball := b.snowball.recordSuccessfulPoll bit } children) := by
  have hfits := hw.1
  have hchildren : ∀ i, children i = nil := fun i => eq_nil_of_isNil (hfits.isNil_iff.mpr h255 i)
  cases hfin : b.snowball.finalized with
  | true =>
    have hsf := snowflake_recordSuccessfulPoll_of_finalized bit hfin
    have hfin' : (b.snowball.recordSuccessfulPoll bit).finalized = true := by
      rw [BinarySnowball.finalized, hsf]
      exact hfin
    have hpref : (b.snowball.recordSuccessfulPoll bit).pref = b.snowball.pref := by
      rw [pref_of_finalized hfin', pref_of_finalized hfin, hsf]
    refine ⟨⟨fun hf => Bool.noConfusion (hfin'.symm.trans hf), fun i => ?_⟩, fun id i hown => .inl ?_⟩
    · rw [hchildren]
      trivial
    simp only [owner, hfin', hpref] at hown
    simp only [owner, hfin]
    exact hown
  | false =>
    obtain ⟨hslush, hle, hge⟩ := binary_recordSuccessfulPoll hfits hbeta hs hr hlen hfin
    refine ⟨⟨fun _ => ?_, fun i => ?_⟩, fun id i hown => ?_⟩
    · simp only [hslush]
      exact hle
    · rw [hchildren]
      trivial
    obtain ⟨hag, ⟨hi, hbit⟩ | ⟨hi, hfin', hpref⟩ | ⟨-, hchild⟩⟩ := owner_binary_eq_decided hown
    · rw [min_eq_left (le_of_lt hi)] at hag
      exact .of_lt hw hi ((hag.succ hbit.symm).trans ((hfits.agree_get _ _).mono hi))
    · simp only at hi hfin' hpref hag
      subst hi
      rw [min_self] at hag
      have hag' : Agree (b.bit + 1) (b.preferences.get bit) id := by
        rw [pref_of_finalized hfin', hslush] at hag hpref
        exact hag.symm.succ (by rw [hfits.bit_preferences, hpref])
      have hanti := streak_anti params.alpha (ops ++ [.recordPoll poll]) (le_refl (b.bit + 1)) hag'
      have hbr := hge hfin'
      exact .inr (.inr ⟨owner_binary_self (hag.trans (hfits.agree_get _ _)) hfin, by omega⟩)
    rw [hchildren] at hchild
    cases hchild

/-- An inner binary node: it stays above its branches, or gives way to the voted one. -/
private theorem backs_binary {newChild : Node} (hnil : (children bit).isNil = false)
    (hpolled : Polled params (children bit) newChild)
    (hchild : Backs params (ops ++ [.recordPoll poll]) given (children bit) newChild) :
    ((b.snowball.recordSuccessfulPoll bit).finalized = true →
      Backs params (ops ++ [.recordPoll poll]) given (binary b children) newChild) ∧
    ((b.snowball.recordSuccessfulPoll bit).finalized = false →
      Backs params (ops ++ [.recordPoll poll]) given (binary b children)
        (binary { b with
          snowball := b.snowball.recordSuccessfulPoll bit
          preferences := b.preferences.set bit newChild.preference }
          (branches bit newChild (children !bit).resetConfidence))) := by
  have hfits := hw.1
  have hne := hfits.bit_ne_of_isNil hnil
  have hfin := hfits.finalized_eq_false hne
  obtain ⟨hslush, hle, hge⟩ := binary_recordSuccessfulPoll hfits hbeta hs hr hlen hfin
  have hlt := hfits.bit_lt_decidedPrefix hne bit
  have hdle := hpolled.decidedPrefix_le
  -- the child only keeps IDs of its branch
  have hpref : Agree (b.bit + 1) newChild.preference (b.preferences.get bit) :=
    (hfits.agree bit _ (hpolled.stores _ (stores_preference (hpolled.isNil_eq.trans hnil)))).mono hlt
  have hbelow : ∀ id i, b.bit < i → newChild.owner id i = .decided (id.bit i) →
      Decides params (ops ++ [.recordPoll poll]) (binary b children) id i := by
    intro id i hi hown
    have hdec := hchild.decides id i hown
    exact hdec.of_owner_eq (owner_binary_of_gt hfits hw.2 hi hdec.owner_ne).2
  refine ⟨fun hfin' => ⟨hchild.supported, fun id i hown => ?_⟩, fun hfin' => ⟨⟨fun _ => ?_, ?_⟩,
    fun id i hown => ?_⟩⟩
  · by_cases hi : b.bit < i
    · exact hbelow id i hi hown
    have hag := (agree_of_owner_decided hpolled.wellFormed (by omega) hown).trans
      (hpref.mono (by omega))
    have hagp := (hag.mono (le_succ i)).trans ((hfits.agree_get bit b.snowball.pref).mono
      (by omega))
    by_cases hi' : i = b.bit
    · subst hi'
      have hanti := streak_anti params.alpha (ops ++ [.recordPoll poll])
        (le_refl (b.bit + 1)) hag.symm
      have hbr := hge hfin'
      exact .inr (.inr ⟨owner_binary_self hagp hfin, by omega⟩)
    have hi'' : i < b.bit := by omega
    exact .of_lt hw hi'' (hag.trans ((hfits.agree_get bit b.snowball.pref).mono hi''))
  · simp only [hslush, Pair.get_set_self]
    exact le_trans hle (streak_anti _ _ (le_refl _) hpref.symm)
  · exact forall_branches.mpr ⟨hchild.supported, supported_resetConfidence (hs.2 _)⟩
  · -- the new preferences agree with the old below the bit
    have hprefs : ∀ j, Agree b.bit ((b.preferences.set bit newChild.preference).get j)
        (b.preferences.get b.snowball.pref) := by
      intro j
      rw [Pair.get_set]
      split
      · exact (hpref.mono (le_succ _)).trans (hfits.agree_get _ _)
      · exact hfits.agree_get _ _
    obtain ⟨hag, ⟨hi, hbit⟩ | ⟨-, hf, -⟩ | ⟨hi, hown⟩⟩ := owner_binary_eq_decided hown
    · rw [min_eq_left (le_of_lt hi)] at hag
      exact .of_lt hw hi ((hag.succ hbit.symm).trans ((hprefs _).mono hi))
    · exact Bool.noConfusion (hf.symm.trans hfin')
    by_cases hbit : id.bit b.bit = bit
    · rw [hbit, branches_self] at hown
      exact hbelow id i hi hown
    rw [Bool.eq_not.mpr hbit, branches_not, owner_resetConfidence] at hown
    have hne' : (children !bit).owner id i ≠ .absent := by rw [hown]; simp
    refine .inl ?_
    rw [(owner_binary_of_gt hfits hw.2 hi hne').2, hown]

end

/-- A poll keeps the counters below the streaks, and decides a bit only when the streak of
    its owner reaches the threshold. -/
theorem backs_recordPollEager (hle : params.betaVirtuous ≤ params.betaRogue) (hw : n.WellFormed)
    (hc : n.Confident params) (hs : n.Supported params.alpha ops given)
    (hr : n.Receives given poll votes) :
    Backs params (ops ++ [.recordPoll poll]) given n (n.recordPollEager params votes).1 := by
  induction n generalizing votes with
  | nil => exact ⟨trivial, fun _ _ h => by cases h⟩
  | unary u child ih =>
    simp only [recordPollEager]
    split
    · exact backs_resetConfidence hs
    have hlen : params.alpha ≤ votes.len := by omega
    split
    · rename_i hnil
      obtain rfl := eq_nil_of_isNil hnil
      exact backs_leaf hc.1 hs hr hlen
    rename_i hnil
    have hnil : child.isNil = false := by simpa using hnil
    have hpolled := (polled_recordPollEager hle hw.2 hc.2.2 votes).1
    have hchild := ih hw.2 hc.2.2 hs.2 (hr.child hw.1 hs (hc.2.1 hnil).1 hnil)
    obtain ⟨hreplace, hstay⟩ := backs_unary hw hc hs hr hlen hnil hpolled hchild
    split
    · exact hreplace ‹_›
    rename_i hfin
    exact hstay (Bool.eq_false_iff.mpr hfin)
  | binary b children ih =>
    simp only [recordPollEager]
    generalize decide (params.alpha ≤ (((votes.split b.bit).get true).len : Int)) = bit
    split
    · exact backs_resetConfidence hs
    have hlen : params.alpha ≤ ((votes.split b.bit).get bit).len := by omega
    split
    · rename_i hnil
      have h255 := hw.1.bit_eq_of_isNil hnil
      rw [update_reset_of_last hw.1 h255]
      exact backs_last hw hc.1 hs hr hlen h255
    rename_i hnil
    have hnil : (children bit).isNil = false := by simpa using hnil
    have hpolled := (polled_recordPollEager hle (hw.2 bit) (hc.2 bit)
      (((votes.split b.bit).get bit).filter (b.bit + 1) (children bit).decidedPrefix
        (b.preferences.get bit))).1
    have hchild := ih bit (hw.2 bit) (hc.2 bit) (hs.2 bit) (hr.branch hw.1 (hw.2 bit) hnil)
    obtain ⟨hreplace, hstay⟩ := backs_binary hw hc.1 hs hr hlen hnil hpolled hchild
    split
    · exact hreplace ‹_›
    rename_i hfin
    exact hstay (Bool.eq_false_iff.mpr hfin)

end Node

end SavannahNode
