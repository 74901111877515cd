import Mathlib.Algebra.Order.Floor.Semifield
import Mathlib.Data.Rat.Floor
import SavannahNode.Native.TxExecutor

/-!
# Staking rewards

`calculator.Calculate` is the floor of the rational number that its comment in the source
describes, and its properties are those of that number.
-/

namespace SavannahNode.PlatformVM.RewardConfig

open Nat

/-- The rates are proportions, and the other values are those of the source's types. -/
structure Proper (c : RewardConfig) : Prop where
  rates : c.minConsumptionRate ≤ c.maxConsumptionRate
  proportion : c.maxConsumptionRate ≤ percentDenominator
  period : 0 < c.mintingPeriod
  duration : c.mintingPeriod ≤ Time.maxDuration
  cap : c.supplyCap ≤ maxUint64

/-- The stakings that a reward is calculated for. -/
structure Staking (c : RewardConfig) (d : Duration) (a s : Nat) : Prop where
  nonneg : 0 ≤ d
  within : d ≤ c.mintingPeriod
  supply : 0 < s
  capped : s ≤ c.supplyCap
  staked : a ≤ s

/-- `MintingRate * PortionOfStakingDuration`. -/
def yield (c : RewardConfig) (d : Duration) : ℚ :=
  (c.minConsumptionRate + (c.maxConsumptionRate - c.minConsumptionRate) * (d / c.mintingPeriod))
    / percentDenominator * (d / c.mintingPeriod)

/-- `RemainingSupply * PortionOfExistingSupply * MintingRate * PortionOfStakingDuration`. -/
def exactReward (c : RewardConfig) (d : Duration) (a s : Nat) : ℚ :=
  (c.supplyCap - s) * (a / s) * c.yield d

variable {c : RewardConfig} {d d' : Duration} {a b s s' : Nat}

theorem Staking.of_le (h : c.Staking d a s) (hba : b ≤ a) : c.Staking d b s :=
  { h with staked := hba.trans h.staked }

theorem Staking.remaining (h : c.Staking d a s) : (0 : ℚ) ≤ c.supplyCap - s :=
  sub_nonneg.mpr (cast_le.mpr h.capped)

variable (hc : c.Proper)

include hc

theorem yield_mono (hd : 0 ≤ d) (hdd : d ≤ d') : c.yield d ≤ c.yield d' := by
  have hpos : (0 : ℚ) < c.mintingPeriod := Int.cast_pos.mpr hc.period
  have hsub : (0 : ℚ) ≤ c.maxConsumptionRate - c.minConsumptionRate :=
    sub_nonneg.mpr (cast_le.mpr hc.rates)
  have hd : (0 : ℚ) ≤ d := Int.cast_nonneg hd
  have hdd : (d : ℚ) ≤ d' := Int.cast_le.mpr hdd
  have hd' := hd.trans hdd
  unfold yield
  gcongr

theorem yield_nonneg (hd : 0 ≤ d) : 0 ≤ c.yield d :=
  calc 0 = c.yield 0 := by simp [yield]
    _ ≤ _ := yield_mono hc le_rfl hd

section

variable (h : c.Staking d a s)

include h

theorem yield_le_one : c.yield d ≤ 1 :=
  calc c.yield d ≤ c.yield c.mintingPeriod := yield_mono hc h.nonneg h.within
    _ = c.maxConsumptionRate / percentDenominator := by
        have hpos : (c.mintingPeriod : ℚ) ≠ 0 := Int.cast_ne_zero.mpr hc.period.ne'
        simp [yield, div_self hpos]
    _ ≤ 1 := div_le_one_of_le₀ (cast_le.mpr hc.proportion) (cast_nonneg _)

theorem exactReward_nonneg : 0 ≤ c.exactReward d a s :=
  mul_nonneg (mul_nonneg h.remaining (by positivity)) (yield_nonneg hc h.nonneg)

theorem exactReward_mono (hdd : d ≤ d') (hab : a ≤ b) :
    c.exactReward d a s ≤ c.exactReward d' b s := by
  have hremaining := h.remaining
  have hyield := yield_nonneg hc h.nonneg
  unfold exactReward
  gcongr
  exact yield_mono hc h.nonneg hdd

theorem exactReward_anti (hss : s ≤ s') : c.exactReward d a s' ≤ c.exactReward d a s := by
  have hremaining := h.remaining
  have hyield := yield_nonneg hc h.nonneg
  have hsupply : (0 : ℚ) < s := cast_pos.mpr h.supply
  unfold exactReward
  gcongr

theorem floor_exactReward_le : ⌊c.exactReward d a s⌋₊ ≤ c.supplyCap - s := by
  have hstake : (a / s : ℚ) ≤ 1 := div_le_one_of_le₀ (cast_le.mpr h.staked) (cast_nonneg _)
  have hshare := mul_le_of_le_one_right h.remaining hstake
  apply floor_le_of_le
  rw [cast_sub h.capped]
  exact (mul_le_of_le_one_right (mul_nonneg h.remaining (by positivity)) (yield_le_one hc h)).trans
    hshare

/-- The three divisions are one, and `Uint64` truncates nothing. -/
theorem calculate_eq_floor : c.calculate d a s = ⌊c.exactReward d a s⌋₊ := by
  have hfloor := floor_exactReward_le hc h
  have hcapped := h.capped
  have hrates := hc.rates
  have hcap : c.supplyCap < 2 ^ 64 := lt_succ_of_le hc.cap
  have hmax : c.maxConsumptionRate < 2 ^ 64 := lt_of_le_of_lt hc.proportion (by decide)
  obtain ⟨p, hp⟩ := Int.eq_ofNat_of_zero_le hc.period.le
  obtain ⟨n, rfl⟩ := Int.eq_ofNat_of_zero_le h.nonneg
  have hperiod : 0 < (p : Int) ∧ (p : Int) < 2 ^ 64 := by
    rw [← hp]
    exact ⟨hc.period, lt_of_le_of_lt hc.duration (by decide)⟩
  have hwithin : (n : Int) ≤ p := by
    rw [← hp]
    exact h.within
  have hpos : (p : ℚ) ≠ 0 := cast_ne_zero.mpr (by omega)
  -- the exact reward as one fraction of the numbers that the source divides
  have hexact : c.exactReward n a s =
      ((c.supplyCap - s) * ((c.maxConsumptionRate - c.minConsumptionRate) * n
        + c.minConsumptionRate * p) * a * n : Nat) /
        ((p * percentDenominator * s * p : Nat) : ℚ) := by
    unfold exactReward yield
    simp only [hp, percentDenominator, cast_mul, cast_add, cast_sub hrates,
      cast_sub h.capped, Int.cast_natCast, cast_ofNat]
    field_simp
    ring
  rw [hexact, floor_div_eq_div] at hfloor ⊢
  have hd : ((n : Int) % 2 ^ 64).toNat = n := by omega
  have hp64 : ((p : Int) % 2 ^ 64).toNat = p := by omega
  have hrate : (c.maxConsumptionRate + 2 ^ 64 - c.minConsumptionRate) % 2 ^ 64 =
      c.maxConsumptionRate - c.minConsumptionRate := by omega
  have hremaining : (c.supplyCap + 2 ^ 64 - s) % 2 ^ 64 = c.supplyCap - s := by omega
  unfold calculate
  simp only [hp, hd, hp64, hrate, hremaining, Nat.div_div_eq_div_mul]
  apply Nat.mod_eq_of_lt
  omega

end

/-- `Calculate` is the floor of the exact reward and at most the remaining supply; a longer or
    larger staking is not rewarded less, one from a larger supply is not rewarded more, and
    two parts of a stake, staked one after the other, are not rewarded more than the whole. -/
theorem calculate_exact : (∀ d a s, c.Staking d a s →
      c.calculate d a s = ⌊c.exactReward d a s⌋₊ ∧ c.calculate d a s ≤ c.supplyCap - s) ∧
    (∀ d d' a s, c.Staking d a s → c.Staking d' a s → d ≤ d' →
      c.calculate d a s ≤ c.calculate d' a s) ∧
    (∀ d a b s, c.Staking d b s → a ≤ b → c.calculate d a s ≤ c.calculate d b s) ∧
    (∀ d a s s', c.Staking d a s → c.Staking d a s' → s ≤ s' →
      c.calculate d a s' ≤ c.calculate d a s) ∧
    ∀ d a b s, c.Staking d (a + b) s →
      c.calculate d a s + c.calculate d b (s + c.calculate d a s) ≤ c.calculate d (a + b) s := by
  refine ⟨?_, ?_, ?_, ?_, ?_⟩
  · intro d a s h
    rw [calculate_eq_floor hc h]
    exact ⟨rfl, floor_exactReward_le hc h⟩
  · intro d d' a s h h' hdd
    rw [calculate_eq_floor hc h, calculate_eq_floor hc h']
    exact floor_mono (exactReward_mono hc h hdd le_rfl)
  · intro d a b s h hab
    rw [calculate_eq_floor hc h, calculate_eq_floor hc (h.of_le hab)]
    exact floor_mono (exactReward_mono hc (h.of_le hab) le_rfl hab)
  · intro d a s s' h h' hss
    rw [calculate_eq_floor hc h, calculate_eq_floor hc h']
    exact floor_mono (exactReward_anti hc h hss)
  intro d a b s h
  have ha := h.of_le (le_add_right a b)
  have hb := h.of_le (le_add_left b a)
  have hle := floor_exactReward_le hc ha
  have hb' : c.Staking d b (s + ⌊c.exactReward d a s⌋₊) :=
    have := h.capped
    { h with
      supply := Nat.add_pos_left h.supply _, capped := by omega
      staked := hb.staked.trans (le_add_right _ _) }
  rw [calculate_eq_floor hc ha, calculate_eq_floor hc hb', calculate_eq_floor hc h]
  have hfst := floor_le (exactReward_nonneg hc ha)
  -- the second part is rewarded at most as if the supply had not grown in between
  have hsnd := (floor_le (exactReward_nonneg hc hb')).trans
    (exactReward_anti hc hb (le_add_right _ _))
  have hsum : c.exactReward d (a + b) s = c.exactReward d a s + c.exactReward d b s := by
    unfold exactReward
    rw [cast_add]
    ring
  apply le_floor
  rw [cast_add, hsum]
  exact add_le_add hfst hsnd

omit hc in
/-- The rates, period and cap of the main network. -/
theorem calculate_exact_mainnet :
    let c : RewardConfig := ⟨120000, 100000, 31536000000000000, 720000000000000000⟩
    c.Staking 1209600000000000 2000000000000 360000000000000000 ∧
      c.calculate 1209600000000000 2000000000000 360000000000000000 ≤
        720000000000000000 - 360000000000000000 := by
  intro c
  have h : c.Staking 1209600000000000 2000000000000 360000000000000000 := by constructor <;> decide
  exact ⟨h, ((calculate_exact (c := c) (by constructor <;> decide)).1 _ _ _ h).2⟩

end SavannahNode.PlatformVM.RewardConfig
