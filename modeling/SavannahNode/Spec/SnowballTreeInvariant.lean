import SavannahNode.ForStd.Run
import SavannahNode.Spec.SnowballTreeReset
import SavannahNode.Spec.BagVotes

/-!
# The representation invariant of the snowball tree

`Node.WellFormed` is the shape of a tree: which bits each node votes on, which children
it has, and how the IDs stored in it relate to the path that leads to it. A node is only
replaced by its child when it finalizes, so the invariant needs that the child of a
unary node never finalizes first. That rests on `Node.Confident`: on the flushed tree the
confidence of the child of a unary node is at most the confidence of the node, and
`betaVirtuous ≤ betaRogue`.

## Key results

- `Node.added_add`, `Node.polled_recordPollEager`: one step keeps the invariant
- `Tree.wellFormed_run`: every reachable tree is well formed
-/

namespace SavannahNode

open Nat UnaryNode SavannahNode.Tree Pair

namespace Node

/-- The ID is stored as a preference somewhere in the sub-tree. -/
def Stores : Node → ID → Prop
  | nil, _ => False
  | unary u child, id => id = u.preference ∨ child.Stores id
  | binary b children, id => (∃ i, id = b.preferences.get i) ∨ ∃ i, (children i).Stores id

/-- The confidence of the node's own snowball instance. -/
def confidence : Node → Nat
  | nil => 0
  | unary u _ => u.snowball.snowflake.confidence
  | binary b _ => b.snowball.snowflake.confidence

end Node

/-- How a unary node fits its child. -/
@[mk_iff]
structure UnaryNode.Fits (u : UnaryNode) (child : Node) : Prop where
  decidedPrefix_lt : u.decidedPrefix < u.commonPrefix
  commonPrefix_le : u.commonPrefix ≤ 256
  isNil_iff : child.isNil = true ↔ u.commonPrefix = 256
  child_binary : child.isNil = false → ∃ b children, child = .binary b children ∧
    b.bit = u.commonPrefix ∧ b.snowball.finalized = false
  preference_eq : child.isNil = false → u.preference = child.preference
  agree : ∀ id, child.Stores id → Agree child.decidedPrefix id u.preference

/-- How a binary node fits its children. -/
@[mk_iff]
structure BinaryNode.Fits (b : BinaryNode) (children : Bool → Node) : Prop where
  bit_lt : b.bit < 256
  isNil_iff : (∀ i, (children i).isNil = true) ↔ b.bit = 255
  isNil_eq_false : b.bit ≠ 255 → ∀ i, (children i).isNil = false
  finalized_eq_false : b.bit ≠ 255 → b.snowball.finalized = false
  bit_lt_decidedPrefix : b.bit ≠ 255 → ∀ i, b.bit < (children i).decidedPrefix
  bit_preferences : ∀ i, (b.preferences.get i).bit b.bit = i
  agree_preferences : Agree b.bit (b.preferences.get false) (b.preferences.get true)
  preference_eq : b.bit ≠ 255 → ∀ i, b.preferences.get i = (children i).preference
  agree : ∀ i id, (children i).Stores id → Agree (children i).decidedPrefix id (b.preferences.get i)

namespace Node

/-- The shape of a sub-tree. -/
def WellFormed : Node → Prop
  | nil => True
  | unary u child => u.Fits child ∧ child.WellFormed
  | binary b children => b.Fits children ∧ ∀ i, (children i).WellFormed

/-- The thresholds of the instances, and the confidence of the child of a unary node. -/
def Confident (params : Parameters) : Node → Prop
  | nil => True
  | unary u child =>
    u.snowball.snowflake.beta = params.betaVirtuous ∧
    (child.isNil = false → u.snowball.finalized = false ∧
      child.confidence ≤ u.snowball.snowflake.confidence) ∧ child.Confident params
  | binary b children =>
    b.snowball.snowflake.beta = params.betaRogue ∧ ∀ i, (children i).Confident params

/-! ## Stored IDs -/

variable {n : Node}

theorem stores_preference (h : n.isNil = false) : n.Stores n.preference := by
  cases n with
  | nil => cases h
  | unary u child => exact .inl rfl
  | binary b children => exact .inl ⟨_, rfl⟩

theorem isNil_of_stores {id : ID} (h : n.Stores id) : n.isNil = false := by
  cases n with
  | nil => exact h.elim
  | unary u child => rfl
  | binary b children => rfl

theorem eq_nil_of_isNil (h : n.isNil = true) : n = nil := by
  cases n with
  | nil => rfl
  | unary u child => cases h
  | binary b children => cases h

@[simp] theorem stores_flush (n : Node) (r : Bool) (id : ID) :
    (n.flush r).Stores id ↔ n.Stores id := by
  induction n generalizing r with
  | nil => exact Iff.rfl
  | unary u child ih => simp only [flush, Stores, ih]
  | binary b children ih => simp only [flush, Stores, ih]

@[simp] theorem stores_resetConfidence (n : Node) (id : ID) :
    n.resetConfidence.Stores id ↔ n.Stores id := by
  rw [← stores_flush _ false, flush_resetConfidence, stores_flush]

@[simp] theorem isNil_resetConfidence (n : Node) : n.resetConfidence.isNil = n.isNil := by
  cases n <;> rfl

@[simp] theorem decidedPrefix_resetConfidence (n : Node) :
    n.resetConfidence.decidedPrefix = n.decidedPrefix := by
  cases n <;> rfl

@[simp] theorem preference_resetConfidence (n : Node) :
    n.resetConfidence.preference = n.preference := by
  cases n <;> rfl

@[simp] theorem finalized_resetConfidence (n : Node) :
    n.resetConfidence.finalized = n.finalized := by
  cases n <;> rfl

@[simp] theorem confidence_resetConfidence (n : Node) : n.resetConfidence.confidence = 0 := by
  cases n <;> rfl

end Node

/-! ## Fitting -/

variable {u : UnaryNode} {child : Node}

/-- A leaf votes on all bits that are left. -/
theorem UnaryNode.fits_nil (hlt : u.decidedPrefix < u.commonPrefix)
    (heq : u.commonPrefix = 256) : u.Fits .nil where
  decidedPrefix_lt := hlt
  commonPrefix_le := le_of_eq heq
  isNil_iff := ⟨fun _ => heq, fun _ => rfl⟩
  child_binary h := by cases h
  preference_eq h := by cases h
  agree _ h := h.elim

/-- The child decides everything the node votes on. -/
theorem UnaryNode.Fits.decidedPrefix_child (h : u.Fits child)
    (hnil : child.isNil = false) : child.decidedPrefix = u.commonPrefix := by
  obtain ⟨b, children, rfl, hbit, -⟩ := h.child_binary hnil
  exact hbit

theorem UnaryNode.Fits.lt_decidedPrefix_child (h : u.Fits child)
    (hnil : child.isNil = false) : u.decidedPrefix < child.decidedPrefix := by
  rw [h.decidedPrefix_child hnil]
  exact h.decidedPrefix_lt

variable {b : BinaryNode} {children : Bool → Node} {i : Bool}

/-- The two preferences of a binary node agree below its bit. -/
theorem BinaryNode.Fits.agree_get (h : b.Fits children) (i j : Bool) :
    Agree b.bit (b.preferences.get i) (b.preferences.get j) := by
  cases i <;> cases j
  · exact Agree.refl _ _
  · exact h.agree_preferences
  · exact h.agree_preferences.symm
  · exact Agree.refl _ _

theorem BinaryNode.Fits.bit_ne_of_isNil (h : b.Fits children)
    (hnil : (children i).isNil = false) : b.bit ≠ 255 := by
  intro h255
  rw [h.isNil_iff.mpr h255 i] at hnil
  cases hnil

theorem BinaryNode.Fits.bit_eq_of_isNil (h : b.Fits children)
    (hnil : (children i).isNil = true) : b.bit = 255 := by
  by_contra hne
  exact Bool.noConfusion (hnil.symm.trans (h.isNil_eq_false hne i))

/-- Only the last bit is decided in a binary node. -/
theorem BinaryNode.Fits.bit_eq_of_finalized (h : b.Fits children)
    (hfin : b.snowball.finalized = true) : b.bit = 255 := by
  by_contra hne
  exact Bool.noConfusion (hfin.symm.trans (h.finalized_eq_false hne))

namespace Node

variable {n : Node} {children : Bool → Node}

/-- Whether a node is an undecided binary one does not depend on pending resets. -/
theorem exists_binary_flush {r : Bool} {k : Nat} :
    (∃ b children, n.flush r = .binary b children ∧ b.bit = k ∧ b.snowball.finalized = false) ↔
      ∃ b children, n = .binary b children ∧ b.bit = k ∧ b.snowball.finalized = false := by
  cases n <;> cases r <;> simp [flush]

/-- Pending resets do not change the shape. -/
theorem wellFormed_flush {r : Bool} : (n.flush r).WellFormed ↔ n.WellFormed := by
  induction n generalizing r with
  | nil => exact Iff.rfl
  | unary u child ih =>
    simp only [flush, WellFormed, ih, fits_iff, isNil_flush, decidedPrefix_flush,
      preference_flush, stores_flush, exists_binary_flush]
  | binary b children ih =>
    simp only [flush, WellFormed, ih, BinaryNode.fits_iff, isNil_flush, decidedPrefix_flush,
      preference_flush, stores_flush]
    cases r <;> rfl

/-- A reset does not change the shape. -/
theorem wellFormed_resetConfidence (h : n.WellFormed) : n.resetConfidence.WellFormed := by
  rw [← wellFormed_flush (r := false), flush_resetConfidence]
  exact wellFormed_flush.mpr h

theorem confident_resetConfidence {params : Parameters} (h : n.Confident params) :
    n.resetConfidence.Confident params := by
  induction n with
  | nil => trivial
  | unary u child ih =>
    obtain ⟨hbeta, hconf, hchild⟩ := h
    refine ⟨hbeta, fun hnil => ?_, ih hchild⟩
    rw [isNil_resetConfidence] at hnil
    exact ⟨(hconf hnil).1, by simp⟩
  | binary b children ih =>
    obtain ⟨hbeta, hchildren⟩ := h
    exact ⟨hbeta, fun i => ih i (hchildren i)⟩

/-- The IDs stored in a well formed sub-tree agree on its decided prefix. -/
theorem WellFormed.agree (h : n.WellFormed) {id : ID} (hid : n.Stores id) :
    Agree n.decidedPrefix id n.preference := by
  cases n with
  | nil => exact hid.elim
  | unary u child =>
    obtain ⟨hfits, -⟩ := h
    rcases hid with rfl | hid
    · exact Agree.refl _ _
    have hlt := hfits.lt_decidedPrefix_child (isNil_of_stores hid)
    exact (hfits.agree id hid).mono (le_of_lt hlt)
  | binary b children =>
    obtain ⟨hfits, -⟩ := h
    have hprefs := hfits.agree_get
    rcases hid with ⟨i, rfl⟩ | ⟨i, hid⟩
    · exact hprefs i _
    have hne := hfits.bit_ne_of_isNil (isNil_of_stores hid)
    have hlt := hfits.bit_lt_decidedPrefix hne i
    exact ((hfits.agree i id hid).mono (le_of_lt hlt)).trans (hprefs i _)

/-- A node only decides bits of the ID. -/
theorem WellFormed.decidedPrefix_lt (h : n.WellFormed) (hnil : n.isNil = false) :
    n.decidedPrefix < 256 := by
  cases n with
  | nil => cases hnil
  | unary u child => exact lt_of_lt_of_le h.1.decidedPrefix_lt h.1.commonPrefix_le
  | binary b children => exact h.1.bit_lt

end Node

variable {bit : Bool}

/-- An ID that agrees with a binary node below its bit, takes the branch and passes the
    branch's filter agrees with everything decided for the child. -/
theorem BinaryNode.Fits.agree_branch {id : ID} (h : b.Fits children)
    (hw : (children bit).WellFormed) (hnil : (children bit).isNil = false)
    (hag : Agree b.bit id (b.preferences.get bit)) (hbit : id.bit b.bit = bit)
    (heq : equalSubset (b.bit + 1) (children bit).decidedPrefix (b.preferences.get bit) id = true) :
    Agree (children bit).decidedPrefix id (b.preferences.get bit) := by
  have hat : Agree (b.bit + 1) id (b.preferences.get bit) :=
    hag.succ (by rw [hbit, h.bit_preferences bit])
  have hle := le_of_lt (hw.decidedPrefix_lt hnil)
  exact (hat.symm.append ((equalSubset_iff hle _ _).mp heq)).symm

namespace Node

/-! ## Polls -/

/-- A successful poll of an undecided binary instance raises its confidence by at most one. -/
private theorem confidence_recordSuccessfulPoll_le (sb : BinarySnowball) (bit : Bool)
    (h : sb.finalized = false) :
    (sb.recordSuccessfulPoll bit).snowflake.confidence ≤ sb.snowflake.confidence + 1 ∧
      (sb.recordSuccessfulPoll bit).finalized =
        decide (sb.snowflake.beta ≤ (sb.recordSuccessfulPoll bit).snowflake.confidence) := by
  have hf : sb.snowflake.finalized = false := h
  simp only [BinarySnowball.recordSuccessfulPoll, BinarySnowball.finalized,
    BinarySnowflake.recordSuccessfulPoll, hf, Bool.false_eq_true, if_false, and_true]
  split <;> omega

@[simp] private theorem beta_recordSuccessfulPoll (sb : BinarySnowball) (bit : Bool) :
    (sb.recordSuccessfulPoll bit).snowflake.beta = sb.snowflake.beta := by
  simp only [BinarySnowball.recordSuccessfulPoll, BinarySnowflake.recordSuccessfulPoll]
  split <;> rfl

end Node

/-- What a binary node on `bit` needs of its branch `i`, with the preference of the branch. -/
structure Branch (bit : Nat) (pref : ID) (i : Bool) (n : Node) : Prop where
  isNil_iff : n.isNil = true ↔ bit = 255
  lt_decidedPrefix : n.isNil = false → bit < n.decidedPrefix
  bit_pref : pref.bit bit = i
  pref_eq : n.isNil = false → pref = n.preference
  agree : ∀ id, n.Stores id → Agree n.decidedPrefix id pref

theorem BinaryNode.Fits.branch (h : b.Fits children) (i : Bool) :
    Branch b.bit (b.preferences.get i) i (children i) where
  isNil_iff := ⟨h.bit_eq_of_isNil, fun h255 => h.isNil_iff.mpr h255 i⟩
  lt_decidedPrefix hnil := h.bit_lt_decidedPrefix (h.bit_ne_of_isNil hnil) i
  bit_pref := h.bit_preferences i
  pref_eq hnil := h.preference_eq (h.bit_ne_of_isNil hnil) i
  agree := h.agree i

/-- A binary node fits its children if the two branches are what it needs. -/
theorem BinaryNode.Fits.of_branches {node other : Node} (hlt : b.bit < 256)
    (hfin : b.bit ≠ 255 → b.snowball.finalized = false)
    (hag : Agree b.bit (b.preferences.get bit) (b.preferences.get !bit))
    (hnode : Branch b.bit (b.preferences.get bit) bit node)
    (hother : Branch b.bit (b.preferences.get !bit) (!bit) other) :
    b.Fits (branches bit node other) := by
  have hall : ∀ i, Branch b.bit (b.preferences.get i) i (branches bit node other i) := by
    intro i
    by_cases hi : i = bit
    · subst hi
      rw [branches_self]
      exact hnode
    obtain rfl := Bool.eq_not.mpr hi
    rw [branches_not]
    exact hother
  have hnil : b.bit ≠ 255 → ∀ i, (branches bit node other i).isNil = false :=
    fun hne i => Bool.eq_false_iff.mpr (mt (hall i).isNil_iff.mp hne)
  exact
    { bit_lt := hlt
      isNil_iff := by simp only [fun i => (hall i).isNil_iff, forall_const]
      isNil_eq_false := hnil
      finalized_eq_false := hfin
      bit_lt_decidedPrefix := fun hne i => (hall i).lt_decidedPrefix (hnil hne i)
      bit_preferences := fun i => (hall i).bit_pref
      agree_preferences := by
        cases bit
        · exact hag
        · exact hag.symm
      preference_eq := fun hne i => (hall i).pref_eq (hnil hne i)
      agree := fun i => (hall i).agree }

/-- A later version of a branch. -/
theorem Branch.replace {k : Nat} {x : ID} {n n' : Node} (h : Branch k x i n)
    (hnil : n.isNil = false) (hnil' : n'.isNil = false) (hw : n'.WellFormed)
    (hdle : n.decidedPrefix ≤ n'.decidedPrefix) (hpref : Agree (k + 1) n'.preference x) :
    Branch k n'.preference i n' where
  isNil_iff := by rw [hnil', ← hnil]; exact h.isNil_iff
  lt_decidedPrefix _ := lt_of_lt_of_le (h.lt_decidedPrefix hnil) hdle
  bit_pref := (hpref k (lt_succ_self k)).trans h.bit_pref
  pref_eq _ := rfl
  agree _ hid := hw.agree hid

theorem Branch.reset {k : Nat} {x : ID} {n : Node} (h : Branch k x i n) :
    Branch k x i n.resetConfidence :=
  ⟨by simpa using h.isNil_iff, by simpa using h.lt_decidedPrefix, h.bit_pref,
    by simpa using h.pref_eq, by simpa using h.agree⟩

namespace Node

theorem update_eq_branches (children : Bool → Node) (bit : Bool) (n : Node) :
    Function.update children bit n = branches bit n (children !bit) := by
  funext i
  by_cases hi : i = bit
  · subst hi
    simp
  obtain rfl := Bool.eq_not.mpr hi
  simp

/-- On the last bit there is nothing to reset. -/
theorem update_reset_of_last {b : BinaryNode} (h : b.Fits children)
    (h255 : b.bit = 255) (i : Bool) :
    Function.update children i (children i).resetConfidence = children := by
  rw [eq_nil_of_isNil (h.isNil_iff.mpr h255 i)]
  exact (Function.update_eq_self_iff ..).mpr (eq_nil_of_isNil (h.isNil_iff.mpr h255 i)).symm

variable {params : Parameters} {n : Node} {index : Nat}

/-- What one eager poll does to a well formed sub-tree. -/
structure Polled (params : Parameters) (n n' : Node) : Prop where
  wellFormed : n'.WellFormed
  confident : n'.Confident params
  isNil_eq : n'.isNil = n.isNil
  decidedPrefix_le : n.decidedPrefix ≤ n'.decidedPrefix
  stores : ∀ id, n'.Stores id → n.Stores id

theorem Polled.reset (hw : n.WellFormed) (hc : n.Confident params) :
    Polled params n n.resetConfidence :=
  ⟨wellFormed_resetConfidence hw, confident_resetConfidence hc, by simp, by simp,
    fun id hid => by simpa using hid⟩

/-- An undecided binary node gains at most one confidence and is replaced only when it
    finalizes. -/
def Survives (params : Parameters) : Node → Node → Prop
  | binary b _, n' => b.snowball.finalized = false →
    (∃ b' children', n' = .binary b' children' ∧ b'.bit = b.bit ∧ b'.snowball.finalized = false ∧
      b'.snowball.snowflake.confidence ≤ b.snowball.snowflake.confidence + 1) ∨
    params.betaRogue ≤ b.snowball.snowflake.confidence + 1
  | _, _ => True

/-- A poll of a unary node with a child: the child takes its place, or it did not finalize
    either, as its confidence is still below `betaVirtuous`. -/
private theorem polled_unary {child newChild : Node}
    (hle : params.betaVirtuous ≤ params.betaRogue) (hw : (unary u child).WellFormed)
    (hc : (unary u child).Confident params) (hnil : child.isNil = false)
    (hpolled : Polled params child newChild) (hsurvives : Survives params child newChild) :
    Polled params (unary u child) newChild ∧ (u.snowball.recordSuccessfulPoll.finalized = false →
        Polled params (unary u child) (unary { u with
          snowball := u.snowball.recordSuccessfulPoll
          preference := newChild.preference } newChild)) := by
  obtain ⟨hfits, -⟩ := hw
  obtain ⟨hbeta, hconf, -⟩ := hc
  obtain ⟨b, children, rfl, hbit, hfin⟩ := hfits.child_binary hnil
  obtain ⟨hufin, hle'⟩ := hconf hnil
  have hdlt := hfits.decidedPrefix_lt
  have hdle := hpolled.decidedPrefix_le
  simp only [decidedPrefix, confidence] at hdle hle'
  refine ⟨⟨hpolled.wellFormed, hpolled.confident, hpolled.isNil_eq, ?_,
    fun id hid => .inr (hpolled.stores id hid)⟩, fun hunfin => ?_⟩
  · simp only [decidedPrefix]
    omega
  have hlt : (u.snowball.snowflake.confidence + 1 : Int) < params.betaVirtuous := by
    have hf : u.snowball.snowflake.finalized = false := hufin
    simp only [UnarySnowball.recordSuccessfulPoll, UnarySnowball.finalized,
      UnarySnowflake.recordSuccessfulPoll, hf, Bool.false_or, decide_eq_false_iff_not, hbeta] at hunfin
    omega
  rcases hsurvives hfin with ⟨b', children', rfl, hbit', hfin', hle''⟩ | hge
  · refine ⟨⟨?_, hpolled.wellFormed⟩, ⟨hbeta, fun _ => ⟨hunfin, ?_⟩, hpolled.confident⟩, rfl,
      le_refl _, ?_⟩
    · exact { hfits with
        child_binary := fun _ => ⟨b', children', rfl, by rw [hbit', hbit], hfin'⟩
        preference_eq := fun _ => rfl
        agree := fun id hid => hpolled.wellFormed.agree hid }
    · simp only [confidence, UnarySnowball.recordSuccessfulPoll, UnarySnowflake.recordSuccessfulPoll]
      omega
    · rintro id (rfl | hid)
      · exact .inr (hpolled.stores _ (stores_preference rfl))
      · exact .inr (hpolled.stores _ hid)
  · omega

/-- An undecided binary instance stays below `betaRogue` or finalizes. -/
private theorem survives_binary {b b' : BinaryNode} {children children' : Bool → Node}
    (hbeta : b.snowball.snowflake.beta = params.betaRogue)
    (hsb : b'.snowball = b.snowball.recordSuccessfulPoll bit) (hb : b'.bit = b.bit) :
    Survives params (binary b children) (binary b' children') := by
  intro hfin
  obtain ⟨hle, hdec⟩ := confidence_recordSuccessfulPoll_le b.snowball bit hfin
  by_cases hge : params.betaRogue ≤ (b.snowball.recordSuccessfulPoll bit).snowflake.confidence
  · exact .inr (by omega)
  refine .inl ⟨b', children', rfl, hb, ?_, hsb ▸ hle⟩
  rw [hsb, hdec, hbeta]
  exact decide_eq_false hge

/-- A poll of a binary node above the last bit: the voted child takes its place, or the other
    child is reset. -/
private theorem polled_binary {b : BinaryNode} {newChild : Node}
    (hw : (binary b children).WellFormed) (hc : (binary b children).Confident params)
    (hne : b.bit ≠ 255) (hpolled : Polled params (children bit) newChild) :
    Polled params (binary b children) newChild ∧
      ((b.snowball.recordSuccessfulPoll bit).finalized = false →
        Polled params (binary b children) (binary { b with
          snowball := b.snowball.recordSuccessfulPoll bit
          preferences := b.preferences.set bit newChild.preference }
          (branches bit newChild (children !bit).resetConfidence))) := by
  obtain ⟨hfits, hwchildren⟩ := hw
  obtain ⟨hbeta, hcchildren⟩ := hc
  have hlt := hfits.bit_lt_decidedPrefix hne bit
  have hdle := hpolled.decidedPrefix_le
  have hnil0 := hfits.isNil_eq_false hne bit
  have hnil : newChild.isNil = false := hpolled.isNil_eq.trans hnil0
  -- the new preference of the branch is one of its stored IDs
  have hpref : Agree (b.bit + 1) newChild.preference (b.preferences.get bit) :=
    (hfits.agree bit _ (hpolled.stores _ (stores_preference hnil))).mono hlt
  refine ⟨⟨hpolled.wellFormed, hpolled.confident, hnil, le_of_lt (lt_of_lt_of_le hlt hdle),
    fun id hid => .inr ⟨bit, hpolled.stores id hid⟩⟩, fun hfin => ?_⟩
  refine ⟨⟨.of_branches hfits.bit_lt (fun _ => hfin) ?_ ?_ ?_, ?_⟩, ⟨by simp [hbeta], ?_⟩, rfl,
    le_refl _, ?_⟩
  · rw [get_set_self, get_set_not]
    exact (hpref.mono (le_succ _)).trans (hfits.agree_get bit (!bit))
  · rw [get_set_self]
    exact (hfits.branch bit).replace hnil0 hnil hpolled.wellFormed hdle hpref
  · rw [get_set_not]
    exact (hfits.branch !bit).reset
  · exact forall_branches.mpr ⟨hpolled.wellFormed, wellFormed_resetConfidence (hwchildren _)⟩
  · exact forall_branches.mpr ⟨hpolled.confident, confident_resetConfidence (hcchildren _)⟩
  · rintro id (⟨i, rfl⟩ | ⟨i, hid⟩)
    · rw [get_set]
      split
      · exact .inr ⟨bit, hpolled.stores _ (stores_preference hnil)⟩
      · exact .inl ⟨i, rfl⟩
    · unfold branches at hid
      split at hid
      · exact .inr ⟨_, hpolled.stores id hid⟩
      · exact .inr ⟨_, (stores_resetConfidence _ _).mp hid⟩

/-- Polling a sub-tree keeps the shape. -/
theorem polled_recordPollEager (hle : params.betaVirtuous ≤ params.betaRogue) (hw : n.WellFormed)
    (hc : n.Confident params) (votes : Bag) :
    Polled params n (n.recordPollEager params votes).1 ∧
      Survives params n (n.recordPollEager params votes).1 := by
  induction n generalizing votes with
  | nil => exact ⟨⟨trivial, trivial, rfl, le_refl _, fun id h => h⟩, trivial⟩
  | unary u child ih =>
    refine ⟨?_, trivial⟩
    simp only [recordPollEager]
    split
    · exact .reset hw hc
    split
    · -- a leaf only counts
      rename_i hnil
      obtain rfl := eq_nil_of_isNil hnil
      exact ⟨⟨{ hw.1 with }, trivial⟩, ⟨hc.1, (fun h => by cases h), trivial⟩, rfl, le_refl _,
        fun id hid => hid⟩
    rename_i hnil
    obtain ⟨hpolled, hsurvives⟩ := ih hw.2 hc.2.2 votes
    obtain ⟨hreplace, hstay⟩ := polled_unary hle hw hc (by simpa using hnil) hpolled hsurvives
    split
    · exact hreplace
    rename_i hfin
    exact hstay (by simpa using hfin)
  | binary b children ih =>
    simp only [recordPollEager]
    generalize decide (params.alpha ≤ (((votes.split b.bit).get true).len : Int)) = bit
    split
    · exact ⟨.reset hw hc, fun hfin => .inl ⟨_, _, rfl, rfl, hfin, zero_le _⟩⟩
    split
    · -- the last bit: there is nothing below
      rename_i hnil
      have h255 := hw.1.bit_eq_of_isNil hnil
      rw [update_reset_of_last hw.1 h255]
      exact ⟨⟨⟨{ hw.1 with finalized_eq_false := absurd h255 }, hw.2⟩, ⟨by simp [hc.1], hc.2⟩, rfl,
        le_refl _, fun id hid => hid⟩, survives_binary hc.1 rfl rfl⟩
    rename_i hnil
    have hne : b.bit ≠ 255 := fun h255 => hnil (hw.1.isNil_iff.mpr h255 bit)
    obtain ⟨hreplace, hstay⟩ := polled_binary hw hc hne (ih bit (hw.2 bit) (hc.2 bit)
      (((votes.split b.bit).get bit).filter (b.bit + 1) (children bit).decidedPrefix
        (b.preferences.get bit))).1
    split
    · rename_i hfin
      refine ⟨hreplace, fun hfin0 => .inr ?_⟩
      obtain ⟨hle', hdec⟩ := confidence_recordSuccessfulPoll_le b.snowball bit hfin0
      rw [hdec, decide_eq_true_eq, hc.1] at hfin
      omega
    rename_i hfin
    exact ⟨hstay (by simpa using hfin), survives_binary hc.1 rfl rfl⟩

/-! ## Additions -/

/-- The binary node of a split of an undecided node prefers what the node preferred. -/
theorem preference_toBinary (hfin : u.snowball.finalized = false)
    (params : Parameters) (newChoice : ID) (index : Nat) (children : Bool → Node) :
    (binary (u.toBinary params newChoice index) children).preference = u.preference := by
  simp only [preference, toBinary, BinarySnowball.pref, BinarySnowball.finalized,
    UnarySnowball.extend, hfin, Bool.false_eq_true, if_false, get_set_self]

/-- Adding a choice never changes the preference. -/
theorem preference_add (params : Parameters) (n : Node) (id : ID) :
    (n.add params id).preference = n.preference := by
  cases n with
  | nil => rfl
  | unary u child =>
    simp only [add]
    split
    · rfl
    rename_i hfin
    have hfin : u.snowball.finalized = false := by simpa using hfin
    split
    · rfl
    unfold split
    dsimp only
    split
    · exact preference_toBinary hfin ..
    split
    · exact preference_toBinary hfin ..
    split
    · rfl
    · rfl
  | binary b children =>
    simp only [add]
    split <;> rfl

theorem isNil_add (params : Parameters) (n : Node) (id : ID) :
    (n.add params id).isNil = n.isNil := by
  cases n with
  | nil => rfl
  | unary u child =>
    simp only [add]
    split
    · rfl
    split
    · rfl
    unfold split
    dsimp only
    split
    · rfl
    split
    · rfl
    split <;> rfl
  | binary b children =>
    simp only [add]
    split <;> rfl

/-- What adding a choice does to a well formed sub-tree. -/
structure Added (params : Parameters) (n : Node) (id : ID) (n' : Node) : Prop where
  wellFormed : n'.WellFormed
  confident : n'.Confident params
  decidedPrefix_eq : n'.decidedPrefix = n.decidedPrefix
  stores : ∀ x, n'.Stores x → n.Stores x ∨ x = id

private theorem wellFormed_newChild (params : Parameters) (newChoice : ID)
    (h : index < 255) : (newChild params newChoice index).WellFormed :=
  ⟨fits_nil (by simp only [numBits]; omega) rfl, trivial⟩

private theorem stores_newChild {params : Parameters} {newChoice x : ID}
    (h : (newChild params newChoice index).Stores x) : x = newChoice := by
  rcases h with h | h
  · exact h
  · exact h.elim

end Node

namespace Node

variable {params : Parameters} {u : UnaryNode} {id : ID} {index : Nat}

/-- The IDs stored in the binary node of a split, given those of its branches. -/
private theorem stores_toBinary {child node other : Node} {x : ID}
    (hnode : node.Stores x → (unary u child).Stores x) (hother : other.Stores x → x = id)
    (h : (binary (u.toBinary params id index)
      (branches (u.preference.bit index) node other)).Stores x) :
    (unary u child).Stores x ∨ x = id := by
  rcases h with ⟨i, rfl⟩ | ⟨i, h⟩
  · simp only [toBinary, get_set, get_both]
    split
    · exact .inl (.inl rfl)
    · exact .inr rfl
  unfold branches at h
  split at h
  · exact .inl (hnode h)
  · exact .inr (hother h)

/-- What a split makes: a binary node over what is left of the old node and a new branch, at
    the top or below a unary node for the bits before `index`. -/
theorem split_eq (params : Parameters) (id : ID) (child : Node) (hge : u.decidedPrefix ≤ index)
    (hlt : index < u.commonPrefix) : ∃ node other,
    ((index + 1 = u.commonPrefix ∧ node = child ∧
        other = if child.isNil then nil else newChild params id index) ∨
      (index + 1 < u.commonPrefix ∧ node = unary { u with decidedPrefix := index + 1 } child ∧
        other = newChild params id index)) ∧
    ((u.decidedPrefix = index ∧ u.split child params id index =
        binary (u.toBinary params id index) (branches (u.preference.bit index) node other)) ∨
      (u.decidedPrefix < index ∧ ∃ r, u.split child params id index =
        unary { u with commonPrefix := index, shouldReset := r }
          (binary (u.toBinary params id index)
            (branches (u.preference.bit index) node other)))) := by
  unfold split
  by_cases hlast : index + 1 = u.commonPrefix
  · refine ⟨_, _, .inl ⟨hlast, rfl, rfl⟩, ?_⟩
    by_cases hroot : u.decidedPrefix = index
    · exact .inl ⟨hroot, if_pos (by omega)⟩
    rw [if_neg (by omega), if_neg (by omega), if_pos (by omega),
      show u.commonPrefix - 1 = index by omega]
    exact .inr ⟨by omega, _, rfl⟩
  refine ⟨_, _, .inr ⟨by omega, rfl, rfl⟩, ?_⟩
  rw [if_neg (by omega)]
  by_cases hroot : index = u.decidedPrefix
  · rw [if_pos hroot, ← hroot]
    exact .inl ⟨rfl, rfl⟩
  rw [if_neg hroot, if_neg (by omega)]
  exact .inr ⟨by omega, _, rfl⟩

/-- Splitting a well formed undecided unary node. -/
theorem added_split (hw : (unary u child).WellFormed) (hc : (unary u child).Confident params)
    (hfin : u.snowball.finalized = false) (hag : Agree u.decidedPrefix id u.preference)
    (hdiff : firstDifferenceSubset u.decidedPrefix u.commonPrefix u.preference id = some index) :
    Added params (unary u child) id (u.split child params id index) := by
  obtain ⟨hfits, hwchild⟩ := hw
  obtain ⟨hbeta, hconf, hcchild⟩ := hc
  obtain ⟨hge, hlt, hbit, hagOn⟩ := firstDifferenceSubset_eq_some hfits.commonPrefix_le hdiff
  have hle := hfits.commonPrefix_le
  have hagree : Agree index u.preference id := hag.symm.append hagOn
  have hcnew : (newChild params id index).Confident params := ⟨rfl, (fun h => by cases h), trivial⟩
  have hnew : id.bit index = !u.preference.bit index := Bool.eq_not.mpr hbit.symm
  have hbranchNew : index ≠ 255 →
      Branch index id (!u.preference.bit index) (newChild params id index) := fun hne =>
    { isNil_iff := ⟨(fun h => by cases h), fun h => absurd h hne⟩
      lt_decidedPrefix := fun _ => lt_succ_self _
      bit_pref := hnew
      pref_eq := fun _ => rfl
      agree := fun x hx => stores_newChild hx ▸ Agree.refl _ _ }
  obtain ⟨node, other, hbranch, hsplit⟩ := split_eq params id child hge hlt
  have hbelow : (Branch index u.preference (u.preference.bit index) node ∧
        Branch index id (!u.preference.bit index) other) ∧
      (node.WellFormed ∧ other.WellFormed) ∧ (node.Confident params ∧ other.Confident params) ∧
      ∀ x, (node.Stores x → (unary u child).Stores x) ∧ (other.Stores x → x = id) := by
    rcases hbranch with ⟨hidx, rfl, rfl⟩ | ⟨hidx, rfl, rfl⟩
    · -- the split is on the last bit of the node
      cases hn : node.isNil with
      | true =>
        have hcp := hfits.isNil_iff.mp hn
        obtain rfl := eq_nil_of_isNil hn
        exact ⟨⟨⟨⟨fun _ => by omega, fun _ => rfl⟩, (fun h => by cases h), rfl, (fun h => by cases h),
          fun _ h => h.elim⟩, ⟨⟨fun _ => by omega, fun _ => rfl⟩, (fun h => by cases h), hnew,
          (fun h => by cases h), fun _ h => h.elim⟩⟩, ⟨trivial, trivial⟩, ⟨trivial, trivial⟩,
          fun _ => ⟨False.elim, False.elim⟩⟩
      | false =>
        have hcp := mt hfits.isNil_iff.mpr (by simp [hn])
        obtain ⟨b, children, rfl, hbcp, -⟩ := hfits.child_binary hn
        exact ⟨⟨⟨⟨(fun h => by cases h), fun h => by omega⟩, (fun _ => by simp only [decidedPrefix]; omega),
          rfl, hfits.preference_eq, hfits.agree⟩, hbranchNew (by omega)⟩,
          ⟨hwchild, wellFormed_newChild params id (by omega)⟩, ⟨hcchild, hcnew⟩,
          fun _ => ⟨.inr, stores_newChild⟩⟩
    · -- the old node goes on below the split
      have hrest : (unary { u with decidedPrefix := index + 1 } child).WellFormed :=
        ⟨{ hfits with decidedPrefix_lt := hidx }, hwchild⟩
      exact ⟨⟨⟨⟨(fun h => by cases h), fun h => by omega⟩, (fun _ => lt_succ_self _), rfl,
        (fun _ => rfl), fun _ hx => hrest.agree hx⟩, hbranchNew (by omega)⟩,
        ⟨hrest, wellFormed_newChild params id (by omega)⟩, ⟨⟨hbeta, hconf, hcchild⟩, hcnew⟩,
        fun _ => ⟨fun h => h, stores_newChild⟩⟩
  obtain ⟨⟨hnode, hother⟩, hwell, hconf', hst⟩ := hbelow
  have h256 : index < 256 := by omega
  have hw' : (binary (u.toBinary params id index)
      (branches (u.preference.bit index) node other)).WellFormed := by
    refine ⟨.of_branches h256 (fun _ => hfin) ?_ ?_ ?_, forall_branches.mpr hwell⟩
    · simp only [toBinary, get_set_not, get_set_self, get_both]
      exact hagree
    · simp only [toBinary, get_set_self]
      exact hnode
    · simp only [toBinary, get_set_not, get_both]
      exact hother
  have hc' : (binary (u.toBinary params id index)
      (branches (u.preference.bit index) node other)).Confident params :=
    ⟨rfl, forall_branches.mpr hconf'⟩
  rcases hsplit with ⟨hidx, heq⟩ | ⟨hidx, r, heq⟩ <;> rw [heq]
  · exact ⟨hw', hc', hidx.symm, fun x => stores_toBinary (hst x).1 (hst x).2⟩
  -- a unary node stays above the split
  have hpref := preference_toBinary hfin params id index
    (branches (u.preference.bit index) node other)
  refine ⟨⟨?_, hw'⟩, ⟨hbeta, fun _ => ⟨hfin, le_refl _⟩, hc'⟩, rfl, fun x hx =>
    hx.elim (fun h => .inl (.inl h)) (stores_toBinary (hst x).1 (hst x).2)⟩
  exact
    { decidedPrefix_lt := hidx
      commonPrefix_le := le_of_lt h256
      isNil_iff := ⟨(fun h => by cases h), fun h => absurd h (Nat.ne_of_lt h256)⟩
      child_binary := fun _ => ⟨_, _, rfl, rfl, hfin⟩
      preference_eq := fun _ => hpref.symm
      agree := fun x hx => hpref ▸ hw'.agree hx }

/-- Adding a choice that agrees with the decided prefix keeps the shape. -/
theorem added_add {n : Node} (hw : n.WellFormed) (hc : n.Confident params)
    (hag : Agree n.decidedPrefix id n.preference) : Added params n id (n.add params id) := by
  induction n with
  | nil => exact ⟨trivial, trivial, rfl, fun _ h => h.elim⟩
  | unary u child ih =>
    simp only [add]
    split
    · exact ⟨hw, hc, rfl, fun _ h => .inl h⟩
    rename_i hfin
    have hfin : u.snowball.finalized = false := by simpa using hfin
    split
    · rename_i hdiff
      obtain ⟨hfits, hwchild⟩ := hw
      obtain ⟨hbeta, hconf, hcchild⟩ := hc
      have hagOn := firstDifferenceSubset_eq_none hfits.commonPrefix_le hdiff
      have hagree : Agree u.commonPrefix id u.preference := (hag.symm.append hagOn).symm
      cases hnil : child.isNil with
      | true =>
        obtain rfl := eq_nil_of_isNil hnil
        exact ⟨⟨hfits, trivial⟩, ⟨hbeta, hconf, trivial⟩, rfl, fun _ h => .inl h⟩
      | false =>
        obtain ⟨b, children, rfl, hbit, hbfin⟩ := hfits.child_binary hnil
        have hpref := hfits.preference_eq hnil
        obtain ⟨hw', hc', hd', hst'⟩ := ih hwchild hcchild (by
          rw [← hpref]
          simp only [decidedPrefix, hbit]
          exact hagree)
        obtain ⟨children', heq⟩ : ∃ children', (binary b children).add params id =
            .binary b children' := by
          simp only [add]
          split <;> exact ⟨_, rfl⟩
        rw [heq] at hw' hc' hd' hst' ⊢
        refine ⟨⟨?_, hw'⟩, ⟨hbeta, hconf, hc'⟩, rfl, ?_⟩
        · exact
            { hfits with
              child_binary := fun _ => ⟨b, children', rfl, hbit, hbfin⟩
              preference_eq := fun _ => hpref
              agree := fun x hx => hpref ▸ hw'.agree hx }
        rintro x (hx | hx)
        · exact .inl (.inl hx)
        · exact (hst' x hx).imp .inr (fun h => h)
    · exact added_split hw hc hfin hag ‹_›
  | binary b children ih =>
    simp only [add]
    split
    · rename_i hcond
      obtain ⟨hfits, hwchildren⟩ := hw
      obtain ⟨hbeta, hcchildren⟩ := hc
      generalize hbit : id.bit b.bit = bit at hcond ⊢
      simp only [Bool.and_eq_true, Bool.not_eq_eq_eq_not, Bool.not_true] at hcond
      obtain ⟨hnil, heq⟩ := hcond
      have hne := hfits.bit_ne_of_isNil hnil
      -- the choice agrees with everything decided above the child
      have hagree : Agree (children bit).decidedPrefix id (children bit).preference := by
        rw [← hfits.preference_eq hne bit]
        exact hfits.agree_branch (hwchildren bit) hnil (hag.trans (hfits.agree_get _ bit)) hbit heq
      obtain ⟨hw', hc', hd', hst'⟩ := ih bit (hwchildren bit) (hcchildren bit) hagree
      have hpref := preference_add params (children bit) id
      have hnil' := isNil_add params (children bit) id
      generalize (children bit).add params id = newChild at *
      rw [update_eq_branches]
      refine ⟨⟨.of_branches hfits.bit_lt hfits.finalized_eq_false (hfits.agree_get _ _) ?_
        (hfits.branch _), forall_branches.mpr ⟨hw', hwchildren _⟩⟩,
        ⟨hbeta, forall_branches.mpr ⟨hc', hcchildren _⟩⟩, rfl, ?_⟩
      · have hpref := hpref.trans (hfits.preference_eq hne bit).symm
        have hnew := (hfits.branch bit).replace hnil (hnil'.trans hnil) hw' (le_of_eq hd'.symm)
          (hpref ▸ Agree.refl _ _)
        rw [hpref] at hnew
        exact hnew
      · rintro x (hx | ⟨i, hx⟩)
        · exact .inl (.inl hx)
        unfold branches at hx
        split at hx
        · exact (hst' x hx).imp (fun h => .inr ⟨_, h⟩) fun h => h
        · exact .inl (.inr ⟨_, hx⟩)
    · exact ⟨hw, hc, rfl, fun _ h => .inl h⟩

end Node

/-! ## Runs -/

/-- The ID an operation gives to the tree, if any. -/
def Tree.Op.choice? : Tree.Op → Option ID
  | .add choice => some choice
  | _ => none

/-- The IDs given to `Initialize` and `Add`. -/
def Tree.given (choice : ID) (ops : List Tree.Op) : List ID := choice :: ops.filterMap Tree.Op.choice?

theorem Tree.mem_given_append {choice id : ID} {ops : List Tree.Op} {op : Tree.Op} :
    id ∈ given choice (ops ++ [op]) ↔ id ∈ given choice ops ∨ op.choice? = some id := by
  simp only [given, List.filterMap_append, List.mem_cons, List.mem_append, List.mem_filterMap,
    List.not_mem_nil, or_false, exists_eq_left, or_assoc]

namespace EagerTree

/-- The invariant of the eager tree, with the IDs it was given. -/
structure Invariant (params : Parameters) (given : List ID) (t : EagerTree) : Prop where
  params_eq : t.params = params
  isNil_eq : t.node.isNil = false
  wellFormed : t.node.WellFormed
  confident : t.node.Confident params
  mem_given : ∀ id, t.node.Stores id → id ∈ given

theorem invariant_init (params : Parameters) (choice : ID) :
    Invariant params (given choice []) (init params choice) where
  params_eq := rfl
  isNil_eq := rfl
  wellFormed := ⟨fits_nil (show 0 < numBits by decide) rfl, trivial⟩
  confident := ⟨rfl, (fun h => by cases h), trivial⟩
  mem_given := by
    rintro id (rfl | h)
    · exact List.mem_cons_self
    · exact h.elim

/-- One operation keeps the invariant. -/
theorem Invariant.step {params : Parameters} (hle : params.betaVirtuous ≤ params.betaRogue)
    {choice : ID} {ops : List Tree.Op} {t : EagerTree} (h : Invariant params (given choice ops) t)
    (op : Tree.Op) : Invariant params (given choice (ops ++ [op])) (t.step op).1 := by
  obtain ⟨rfl, hnil, hw, hc, hst⟩ := h
  have hkeep : ∀ id, t.node.Stores id → id ∈ given choice (ops ++ [op]) :=
    fun id hid => mem_given_append.mpr (.inl (hst id hid))
  cases op with
  | add newChoice =>
    simp only [EagerTree.step, add]
    split
    · rename_i heq
      have hlt := le_of_lt (hw.decidedPrefix_lt hnil)
      have hag : Agree t.node.decidedPrefix newChoice t.node.preference :=
        ((equalSubset_zero_iff hlt _ _).mp heq).symm
      have hadd := Node.added_add hw hc hag
      refine ⟨rfl, ?_, hadd.wellFormed, hadd.confident, fun id hid => ?_⟩
      · rw [Node.isNil_add, hnil]
      rcases hadd.stores id hid with hid | rfl
      · exact hkeep id hid
      · exact mem_given_append.mpr (.inr rfl)
    · exact ⟨rfl, hnil, hw, hc, hkeep⟩
  | recordPoll votes =>
    have hpoll := (Node.polled_recordPollEager hle hw hc
      (votes.filter 0 t.node.decidedPrefix t.preference)).1
    exact ⟨rfl, hpoll.isNil_eq.trans hnil, hpoll.wellFormed, hpoll.confident,
      fun id hid => hkeep id (hpoll.stores id hid)⟩
  | recordUnsuccessfulPoll =>
    exact ⟨rfl, (Node.isNil_resetConfidence _).trans hnil, Node.wellFormed_resetConfidence hw,
      Node.confident_resetConfidence hc,
      fun id hid => hkeep id ((Node.stores_resetConfidence _ _).mp hid)⟩

/-- Every reachable eager tree has the invariant. -/
theorem invariant_run {params : Parameters} (hle : params.betaVirtuous ≤ params.betaRogue)
    (choice : ID) (ops : List Tree.Op) :
    Invariant params (given choice ops) ((init params choice).run ops) :=
  List.foldl_history (P := fun ops t => Invariant params (given choice ops) t)
    (invariant_init params choice) (fun _ _ op h => h.step hle op) ops

end EagerTree

/-- Every reachable tree is well formed, and stores only IDs it was given, all of which
    agree with the preference on what the root has decided. -/
theorem Tree.wellFormed_run (params : Parameters) (hparams : params.verify = none) (choice : ID)
    (ops : List Tree.Op) :
    let t := (init params choice).run ops
    t.node.isNil = false ∧ t.node.WellFormed ∧
      (∀ id, t.node.Stores id → Agree t.decidedPrefix id t.preference ∧ id ∈ given choice ops) ∧
      t.preference ∈ given choice ops := by
  intro t
  have hle := (Parameters.valid_of_verify hparams).betaVirtuous_le
  have hinv := EagerTree.invariant_run hle choice ops
  rw [← eager_run_init] at hinv
  have hnil : t.node.isNil = false := (Node.isNil_flush _ _).symm.trans hinv.isNil_eq
  have hw : t.node.WellFormed := Node.wellFormed_flush.mp hinv.wellFormed
  have hst : ∀ id, t.node.Stores id → id ∈ given choice ops :=
    fun id hid => hinv.mem_given id ((Node.stores_flush _ _ _).mpr hid)
  exact ⟨hnil, hw, fun id hid => ⟨hw.agree hid, hst id hid⟩, hst _ (Node.stores_preference hnil)⟩

theorem Tree.wellFormed_run_minimal : Parameters.minimal.verify = none ∧
      let t := (init .minimal ID.empty).run [.add ⟨1⟩, .recordUnsuccessfulPoll, .add ⟨2⟩]
      t.node.isNil = false ∧ t.node.WellFormed ∧ t.preference ∈ [ID.empty, ⟨1⟩, ⟨2⟩] := by
  have h := wellFormed_run .minimal (by decide) ID.empty
    [.add ⟨1⟩, .recordUnsuccessfulPoll, .add ⟨2⟩]
  exact ⟨by decide, h.1, h.2.1, h.2.2.2⟩

end SavannahNode
