import SavannahNode.Native.Bag

/-!
# Snowball instances

The parameters and the slush, snowflake and snowball instances of
`snow/consensus/snowball`. Go's embedded structs become fields, `int` counters that
only grow or return to `0` become `Nat`, and a binary choice is a `Bool` with `true`
for `1`. The parameters stay integers: they are configuration input and only
`verify` bounds them.
-/

namespace SavannahNode

/-! ## Parameters -/

/-- The parameters of a snowball instance. `maxItemProcessingTime` is in nanoseconds. -/
structure Parameters where
  k : Int
  alpha : Int
  betaVirtuous : Int
  betaRogue : Int
  concurrentRepolls : Int
  optimalProcessing : Int
  maxOutstandingItems : Int
  maxItemProcessingTime : Int
  mixedQueryNumPushVdr : Int
  mixedQueryNumPushNonVdr : Int
deriving DecidableEq, Repr

/-- The banner of the swapped-betas error. -/
def errMsg : String :=
  "__________                    .___\n" ++
  "\\______   \\____________     __| _/__.__.\n" ++
  " |    |  _/\\_  __ \\__  \\   / __ <   |  |\n" ++
  " |    |   \\ |  | \\// __ \\_/ /_/ |\\___  |\n" ++
  " |______  / |__|  (____  /\\____ |/ ____|\n" ++
  "        \\/             \\/      \\/\\/\n" ++
  "\n" ++
  "  🏆    🏆    🏆    🏆    🏆    🏆    🏆\n" ++
  "  ________ ________      ________________\n" ++
  " /  _____/ \\_____  \\    /  _  \\__    ___/\n" ++
  "/   \\  ___  /   |   \\  /  /_\\  \\|    |\n" ++
  "\\    \\_\\  \\/    |    \\/    |    \\    |\n" ++
  " \\______  /\\_______  /\\____|__  /____|\n" ++
  "        \\/         \\/         \\/\n"

/-- `Parameters.Verify`: `none` when the parameters describe a valid initialization,
    else the message of the error. -/
def Parameters.verify (p : Parameters) : Option String :=
  -- Go's `/` truncates toward zero
  if p.alpha ≤ p.k.tdiv 2 then
    some s!"k = {p.k}, alpha = {p.alpha}: fails the condition that: k/2 < alpha"
  else if p.k < p.alpha then
    some s!"k = {p.k}, alpha = {p.alpha}: fails the condition that: alpha <= k"
  else if p.betaVirtuous ≤ 0 then
    some s!"betaVirtuous = {p.betaVirtuous}: fails the condition that: 0 < betaVirtuous"
  else if p.betaRogue = 3 ∧ p.betaVirtuous = 28 then
    some (s!"betaVirtuous = {p.betaVirtuous}, betaRogue = {p.betaRogue}: " ++
      s!"fails the condition that: betaVirtuous <= betaRogue\n{errMsg}")
  else if p.betaRogue < p.betaVirtuous then
    some (s!"betaVirtuous = {p.betaVirtuous}, betaRogue = {p.betaRogue}: " ++
      "fails the condition that: betaVirtuous <= betaRogue")
  else if p.concurrentRepolls ≤ 0 then
    some (s!"concurrentRepolls = {p.concurrentRepolls}: " ++
      "fails the condition that: 0 < concurrentRepolls")
  else if p.concurrentRepolls > p.betaRogue then
    some (s!"concurrentRepolls = {p.concurrentRepolls}, betaRogue = {p.betaRogue}: " ++
      "fails the condition that: concurrentRepolls <= betaRogue")
  else if p.optimalProcessing ≤ 0 then
    some (s!"optimalProcessing = {p.optimalProcessing}: " ++
      "fails the condition that: 0 < optimalProcessing")
  else if p.maxOutstandingItems ≤ 0 then
    some (s!"maxOutstandingItems = {p.maxOutstandingItems}: " ++
      "fails the condition that: 0 < maxOutstandingItems")
  else if p.maxItemProcessingTime ≤ 0 then
    some (s!"maxItemProcessingTime = {p.maxItemProcessingTime}: " ++
      "fails the condition that: 0 < maxItemProcessingTime")
  else if p.mixedQueryNumPushVdr > p.k then
    some s!"mixedQueryNumPushVdr ({p.mixedQueryNumPushVdr}) > K ({p.k})"
  else if p.mixedQueryNumPushNonVdr > p.k then
    some s!"mixedQueryNumPushNonVdr ({p.mixedQueryNumPushNonVdr}) > K ({p.k})"
  else none

/-- The smallest parameters `verify` accepts. -/
def Parameters.minimal : Parameters :=
  { k := 1, alpha := 1, betaVirtuous := 1, betaRogue := 1, concurrentRepolls := 1
    optimalProcessing := 1, maxOutstandingItems := 1, maxItemProcessingTime := 1
    mixedQueryNumPushVdr := 0, mixedQueryNumPushNonVdr := 0 }

example : Parameters.minimal.verify = none := by decide

/-- The bounds `verify` establishes on the parameters that decide a poll. -/
structure Parameters.Valid (p : Parameters) : Prop where
  k_lt_two_alpha : p.k < 2 * p.alpha
  alpha_le_k : p.alpha ≤ p.k
  betaVirtuous_pos : 0 < p.betaVirtuous
  betaVirtuous_le : p.betaVirtuous ≤ p.betaRogue

/-- Parameters accepted by `verify` are valid. -/
theorem Parameters.valid_of_verify {p : Parameters} (h : p.verify = none) : p.Valid := by
  have h1 : ¬ p.alpha ≤ p.k.tdiv 2 := fun hc => by
    rw [verify, if_pos hc] at h
    cases h
  have h2 : ¬ p.k < p.alpha := fun hc => by
    rw [verify, if_neg h1, if_pos hc] at h
    cases h
  have h3 : ¬ p.betaVirtuous ≤ 0 := fun hc => by
    rw [verify, if_neg h1, if_neg h2, if_pos hc] at h
    cases h
  have h4 : ¬ (p.betaRogue = 3 ∧ p.betaVirtuous = 28) := fun hc => by
    rw [verify, if_neg h1, if_neg h2, if_neg h3, if_pos hc] at h
    cases h
  have h5 : ¬ p.betaRogue < p.betaVirtuous := fun hc => by
    rw [verify, if_neg h1, if_neg h2, if_neg h3, if_neg h4, if_pos hc] at h
    cases h
  have hdiv := Int.mul_tdiv_add_tmod p.k 2
  have hmod := Int.tmod_lt_of_pos p.k (by omega : (0 : Int) < 2)
  exact ⟨by omega, by omega, by omega, by omega⟩

theorem Parameters.Valid.alpha_pos {p : Parameters} (h : p.Valid) : 0 < p.alpha := by
  have := h.k_lt_two_alpha
  have := h.alpha_le_k
  omega

/-! ## Unary instances -/

/-- `unarySnowflake`. -/
structure UnarySnowflake where
  beta : Int
  confidence : Nat
  finalized : Bool
deriving DecidableEq, Repr

namespace UnarySnowflake

/-- `Initialize` on the zero value. -/
def init (beta : Int) : UnarySnowflake := { beta, confidence := 0, finalized := false }

/-- `RecordSuccessfulPoll`. -/
def recordSuccessfulPoll (sf : UnarySnowflake) : UnarySnowflake :=
  let confidence := sf.confidence + 1
  { sf with confidence, finalized := sf.finalized || decide (sf.beta ≤ confidence) }

/-- `RecordUnsuccessfulPoll`. -/
def recordUnsuccessfulPoll (sf : UnarySnowflake) : UnarySnowflake := { sf with confidence := 0 }

end UnarySnowflake

/-- `binarySlush`: `preference` is the choice that last had a successful poll. -/
structure BinarySlush where
  preference : Bool
deriving DecidableEq, Repr

/-- `RecordSuccessfulPoll`. -/
def BinarySlush.recordSuccessfulPoll (_ : BinarySlush) (choice : Bool) : BinarySlush := ⟨choice⟩

/-- `binarySnowflake`. -/
structure BinarySnowflake where
  slush : BinarySlush
  confidence : Nat
  beta : Int
  finalized : Bool
deriving DecidableEq, Repr

namespace BinarySnowflake

/-- `RecordSuccessfulPoll`. -/
def recordSuccessfulPoll (sf : BinarySnowflake) (choice : Bool) : BinarySnowflake :=
  if sf.finalized then sf -- this instance is already decided
  else
    let confidence := if sf.slush.preference = choice then sf.confidence + 1 else 1
    { sf with
      confidence
      finalized := decide (sf.beta ≤ confidence)
      slush := sf.slush.recordSuccessfulPoll choice }

/-- `RecordUnsuccessfulPoll`. -/
def recordUnsuccessfulPoll (sf : BinarySnowflake) : BinarySnowflake := { sf with confidence := 0 }

end BinarySnowflake

/-- `binarySnowball`: `preference` is the choice with the largest number of
    successful polls. -/
structure BinarySnowball where
  snowflake : BinarySnowflake
  preference : Bool
  numSuccessfulPolls : Pair Nat
deriving DecidableEq, Repr

namespace BinarySnowball

/-- `Finalized`. -/
def finalized (sb : BinarySnowball) : Bool := sb.snowflake.finalized

/-- `Preference`: a finalized snowflake decides. -/
def pref (sb : BinarySnowball) : Bool :=
  if sb.finalized then sb.snowflake.slush.preference else sb.preference

/-- `RecordSuccessfulPoll`. -/
def recordSuccessfulPoll (sb : BinarySnowball) (choice : Bool) : BinarySnowball :=
  let numSuccessfulPolls :=
    sb.numSuccessfulPolls.set choice (sb.numSuccessfulPolls.get choice + 1)
  { numSuccessfulPolls
    preference :=
      if numSuccessfulPolls.get choice > numSuccessfulPolls.get (!choice) then choice
      else sb.preference
    snowflake := sb.snowflake.recordSuccessfulPoll choice }

/-- `RecordUnsuccessfulPoll`. -/
def recordUnsuccessfulPoll (sb : BinarySnowball) : BinarySnowball :=
  { sb with snowflake := sb.snowflake.recordUnsuccessfulPoll }

end BinarySnowball

/-- `unarySnowball`. -/
structure UnarySnowball where
  snowflake : UnarySnowflake
  numSuccessfulPolls : Nat
deriving DecidableEq, Repr

namespace UnarySnowball

/-- `Initialize` on the zero value. -/
def init (beta : Int) : UnarySnowball :=
  { snowflake := UnarySnowflake.init beta, numSuccessfulPolls := 0 }

/-- `Finalized`. -/
def finalized (sb : UnarySnowball) : Bool := sb.snowflake.finalized

/-- `RecordSuccessfulPoll`. -/
def recordSuccessfulPoll (sb : UnarySnowball) : UnarySnowball :=
  { numSuccessfulPolls := sb.numSuccessfulPolls + 1
    snowflake := sb.snowflake.recordSuccessfulPoll }

/-- `RecordUnsuccessfulPoll`. -/
def recordUnsuccessfulPoll (sb : UnarySnowball) : UnarySnowball :=
  { sb with snowflake := sb.snowflake.recordUnsuccessfulPoll }

/-- `Extend`: a binary instance with the agreement so far transferred to `choice`. -/
def extend (sb : UnarySnowball) (beta : Int) (choice : Bool) : BinarySnowball :=
  { snowflake :=
      { slush := ⟨choice⟩
        confidence := sb.snowflake.confidence
        beta
        finalized := sb.finalized }
    preference := choice
    numSuccessfulPolls := (Pair.both 0).set choice sb.numSuccessfulPolls }

/-- `Clone`. -/
def clone (sb : UnarySnowball) : UnarySnowball := sb

end UnarySnowball

/-! ## n-ary instances -/

/-- `nnarySlush`. -/
structure NnarySlush where
  preference : ID
deriving DecidableEq, Repr

/-- `RecordSuccessfulPoll`. -/
def NnarySlush.recordSuccessfulPoll (_ : NnarySlush) (choice : ID) : NnarySlush := ⟨choice⟩

/-- `nnarySnowflake`. -/
structure NnarySnowflake where
  slush : NnarySlush
  betaVirtuous : Int
  betaRogue : Int
  confidence : Nat
  rogue : Bool
  finalized : Bool
deriving DecidableEq, Repr

namespace NnarySnowflake

/-- `Initialize` on the zero value. -/
def init (betaVirtuous betaRogue : Int) (choice : ID) : NnarySnowflake :=
  { slush := ⟨choice⟩, betaVirtuous, betaRogue, confidence := 0, rogue := false,
    finalized := false }

/-- `Add`: an ID other than the slush preference makes the instance rogue. -/
def add (sf : NnarySnowflake) (choice : ID) : NnarySnowflake :=
  { sf with rogue := sf.rogue || choice != sf.slush.preference }

/-- `RecordSuccessfulPoll`. -/
def recordSuccessfulPoll (sf : NnarySnowflake) (choice : ID) : NnarySnowflake :=
  if sf.finalized then sf
  else
    let confidence := if sf.slush.preference = choice then sf.confidence + 1 else 1
    { sf with
      confidence
      finalized := (!sf.rogue && decide (sf.betaVirtuous ≤ confidence)) ||
        decide (sf.betaRogue ≤ confidence)
      slush := sf.slush.recordSuccessfulPoll choice }

/-- `RecordUnsuccessfulPoll`. -/
def recordUnsuccessfulPoll (sf : NnarySnowflake) : NnarySnowflake := { sf with confidence := 0 }

end NnarySnowflake

/-- `nnarySnowball`. The map `numSuccessfulPolls` reads `0` at a missing key. -/
structure NnarySnowball where
  snowflake : NnarySnowflake
  preference : ID
  maxSuccessfulPolls : Nat
  numSuccessfulPolls : ID → Nat

namespace NnarySnowball

/-- `Initialize`. -/
def init (betaVirtuous betaRogue : Int) (choice : ID) : NnarySnowball :=
  { snowflake := NnarySnowflake.init betaVirtuous betaRogue choice
    preference := choice
    maxSuccessfulPolls := 0
    numSuccessfulPolls := fun _ => 0 }

/-- `Add`, promoted from the snowflake. -/
def add (sb : NnarySnowball) (choice : ID) : NnarySnowball :=
  { sb with snowflake := sb.snowflake.add choice }

/-- `Finalized`. -/
def finalized (sb : NnarySnowball) : Bool := sb.snowflake.finalized

/-- `Preference`: a finalized snowflake decides. -/
def pref (sb : NnarySnowball) : ID :=
  if sb.finalized then sb.snowflake.slush.preference else sb.preference

/-- `RecordSuccessfulPoll`. -/
def recordSuccessfulPoll (sb : NnarySnowball) (choice : ID) : NnarySnowball :=
  let numSuccessfulPolls := sb.numSuccessfulPolls choice + 1
  { numSuccessfulPolls := fun id => if id = choice then numSuccessfulPolls
      else sb.numSuccessfulPolls id
    preference := if numSuccessfulPolls > sb.maxSuccessfulPolls then choice else sb.preference
    maxSuccessfulPolls :=
      if numSuccessfulPolls > sb.maxSuccessfulPolls then numSuccessfulPolls
      else sb.maxSuccessfulPolls
    snowflake := sb.snowflake.recordSuccessfulPoll choice }

/-- `RecordUnsuccessfulPoll`. -/
def recordUnsuccessfulPoll (sb : NnarySnowball) : NnarySnowball :=
  { sb with snowflake := sb.snowflake.recordUnsuccessfulPoll }

end NnarySnowball

/-- `Flat`: a single n-ary snowball over all choices. -/
structure Flat where
  snowball : NnarySnowball
  params : Parameters

namespace Flat

/-- `Flat.Initialize`. -/
def init (params : Parameters) (choice : ID) : Flat :=
  { snowball := NnarySnowball.init params.betaVirtuous params.betaRogue choice, params }

/-- `Add`, promoted from the snowball. -/
def add (f : Flat) (choice : ID) : Flat := { f with snowball := f.snowball.add choice }

/-- `Preference`, promoted from the snowball. -/
def preference (f : Flat) : ID := f.snowball.pref

/-- `Finalized`, promoted from the snowball. -/
def finalized (f : Flat) : Bool := f.snowball.finalized

/-- `RecordUnsuccessfulPoll`, promoted from the snowball. -/
def recordUnsuccessfulPoll (f : Flat) : Flat :=
  { f with snowball := f.snowball.recordUnsuccessfulPoll }

/-- `Flat.RecordPoll`: the mode of the votes is the result of the poll. -/
def recordPoll (f : Flat) (votes : Bag) : Flat × Bool :=
  if f.params.alpha ≤ votes.modeFreq then
    ({ f with snowball := f.snowball.recordSuccessfulPoll votes.mode }, true)
  else
    ({ f with snowball := f.snowball.recordUnsuccessfulPoll }, false)

end Flat

end SavannahNode
