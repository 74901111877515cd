import SavannahNode.Native.Ids
import Mathlib.Tactic.Common

/-!
# Bit-level meaning of the ID helpers

`equalSubset` and `firstDifferenceSubset` compare bytes under masks. This file
states what they compute on bits: agreement on a range of bit indices, and the
least index of disagreement. The snowball tree's proofs only use these statements.
-/

namespace SavannahNode

open List

/-- The two IDs have the same bits at the indices in `[start, stop)`. -/
def AgreeOn (start stop : Nat) (id1 id2 : ID) : Prop :=
  ∀ i, start ≤ i → i < stop → id1.bit i = id2.bit i

/-- The two IDs have the same first `n` bits. -/
def Agree (n : Nat) (id1 id2 : ID) : Prop := ∀ i, i < n → id1.bit i = id2.bit i

namespace ID

/-- `bit` reads the bits of the word, least significant first. -/
theorem bit_eq_getLsbD (id : ID) (i : Nat) : id.bit i = id.toBits.getLsbD i := by
  have hone : ∀ b : BitVec 8, (b &&& 1 == 1) = b.getLsbD 0 := by decide
  simp only [bit, byte, bitsPerByte, hone, BitVec.getLsbD_ushiftRight,
    BitVec.getLsbD_extractLsb', Nat.add_zero, Nat.mod_lt i (by omega : 0 < 8), decide_true,
    Bool.true_and]
  rw [Nat.div_add_mod]

/-- Two IDs with the same bits are the same ID. -/
theorem ext_bit {id1 id2 : ID} (h : ∀ i, i < 256 → id1.bit i = id2.bit i) : id1 = id2 := by
  cases id1; cases id2
  congr 1
  apply BitVec.eq_of_getLsbD_eq
  intro i hi
  simpa [bit_eq_getLsbD] using h i hi

theorem byte_getLsbD (id : ID) (k j : Nat) (hj : j < 8) :
    (id.byte k).getLsbD j = id.bit (8 * k + j) := by
  simp [byte, bitsPerByte, bit_eq_getLsbD, hj]

end ID

/-! ## Agreement on bit ranges -/

theorem Agree.refl (n : Nat) (id : ID) : Agree n id id := fun _ _ => rfl

variable {n start stop : Nat} {id1 id2 : ID}

theorem Agree.symm (h : Agree n id1 id2) : Agree n id2 id1 := fun i hi => (h i hi).symm

theorem Agree.trans {id3 : ID} (h : Agree n id1 id2) (h' : Agree n id2 id3) :
    Agree n id1 id3 := fun i hi => (h i hi).trans (h' i hi)

theorem Agree.mono {m : Nat} (h : Agree n id1 id2) (hmn : m ≤ n) :
    Agree m id1 id2 := fun i hi => h i (by omega)

theorem agreeOn_zero_iff : AgreeOn 0 n id1 id2 ↔ Agree n id1 id2 :=
  ⟨fun h i hi => h i (by omega) hi, fun h i _ hi => h i hi⟩

/-- Agreement extends over an adjacent range. -/
theorem Agree.append {m : Nat} (h : Agree m id1 id2) (h' : AgreeOn m n id1 id2) :
    Agree n id1 id2 := by
  intro i hi
  by_cases him : i < m
  · exact h i him
  · exact h' i (by omega) hi

/-- Agreement on `n` bits extends by one more equal bit. -/
theorem Agree.succ (h : Agree n id1 id2) (hb : id1.bit n = id2.bit n) : Agree (n + 1) id1 id2 := by
  intro i hi
  rcases Nat.lt_succ_iff_lt_or_eq.mp hi with hlt | rfl
  · exact h i hlt
  · exact hb

/-! ## Masked bytes -/

private theorem startMask_getLsbD : ∀ n, n < 8 → ∀ j, j < 8 →
    (startMask n).getLsbD j = decide (n ≤ j) := by decide

private theorem stopMask_getLsbD : ∀ n, n < 8 → ∀ j, j < 8 →
    (stopMask n).getLsbD j = decide (j ≤ n) := by decide

/-- Two masked bytes are equal when they agree on the bits of the mask. -/
private theorem masked_eq_iff (m : BitVec 64) (b1 b2 : BitVec 8) :
    m &&& intOfByte b1 = m &&& intOfByte b2 ↔
      ∀ j, j < 8 → m.getLsbD j = true → b1.getLsbD j = b2.getLsbD j := by
  constructor
  · intro h j hj hm
    have hbit := congrArg (·.getLsbD j) h
    simpa only [intOfByte, BitVec.getLsbD_and, BitVec.getLsbD_setWidth, hm, show j < 64 by omega,
      decide_true, Bool.true_and] using hbit
  intro h
  apply BitVec.eq_of_getLsbD_eq
  intro j hj
  simp only [intOfByte, BitVec.getLsbD_and, BitVec.getLsbD_setWidth, hj, decide_true, Bool.true_and]
  by_cases hj8 : j < 8
  · cases hm : m.getLsbD j with
    | false => rfl
    | true => rw [h j hj8 hm]
  · rw [BitVec.getLsbD_of_ge b1 _ (by omega), BitVec.getLsbD_of_ge b2 _ (by omega)]

/-- `masked_eq_iff` for two bytes of IDs, in terms of the bits of the IDs. -/
private theorem masked_byte_eq_iff (m : BitVec 64) (id1 id2 : ID) (k : Nat) :
    m &&& intOfByte (id1.byte k) = m &&& intOfByte (id2.byte k) ↔
      ∀ j, j < 8 → m.getLsbD j = true → id1.bit (8 * k + j) = id2.bit (8 * k + j) := by
  rw [masked_eq_iff]
  constructor
  · intro h j hj hm
    simpa [ID.byte_getLsbD _ _ _ hj] using h j hj hm
  · intro h j hj hm
    simpa [ID.byte_getLsbD _ _ _ hj] using h j hj hm

private theorem byte_eq_iff (id1 id2 : ID) (k : Nat) :
    id1.byte k = id2.byte k ↔ ∀ j, j < 8 → id1.bit (8 * k + j) = id2.bit (8 * k + j) := by
  constructor
  · intro h j hj
    rw [← ID.byte_getLsbD _ _ _ hj, ← ID.byte_getLsbD _ _ _ hj, h]
  intro h
  apply BitVec.eq_of_getLsbD_eq
  intro j hj
  rw [ID.byte_getLsbD _ _ _ hj, ID.byte_getLsbD _ _ _ hj, h j hj]

/-! ## `equalSubset` -/

/-- `equalSubset` decides agreement on `[start, stop)`. -/
theorem equalSubset_iff (hstop : stop ≤ 256) (id1 id2 : ID) :
    equalSubset start stop id1 id2 = true ↔ AgreeOn start stop id1 id2 := by
  unfold equalSubset
  delta bitsPerByte numBits
  split
  · simp only [true_iff]
    intro i hi hi'
    omega
  rename_i h
  obtain ⟨hs, hlt⟩ := not_or.mp h
  rw [if_neg (by omega)]
  dsimp only
  have hstart := startMask_getLsbD (start % 8) (by omega)
  have hstopm := stopMask_getLsbD ((stop - 1) % 8) (by omega)
  split
  · -- an interior byte differs
    rename_i hint
    obtain ⟨hidx, hne⟩ := hint
    simp only [Bool.false_eq_true, false_iff]
    intro hag
    apply hne
    simp only [all_eq_true, mem_range'_1, beq_iff_eq]
    intro k hk
    rw [byte_eq_iff]
    intro j hj
    exact hag _ (by omega) (by omega)
  rename_i hint
  simp only [all_eq_true, mem_range'_1, beq_iff_eq] at hint
  split
  · rw [beq_iff_eq, masked_byte_eq_iff]
    constructor
    · intro hm i hi hi'
      have hbyte : i / 8 = start / 8 := by omega
      have := hm (i % 8) (by omega) (by
        rw [BitVec.getLsbD_and, hstart _ (by omega), hstopm _ (by omega)]
        simp only [Bool.and_eq_true, decide_eq_true_eq]
        omega)
      rwa [← hbyte, Nat.div_add_mod] at this
    intro hag j hj hm
    rw [BitVec.getLsbD_and, hstart _ hj, hstopm _ hj] at hm
    simp only [Bool.and_eq_true, decide_eq_true_eq] at hm
    exact hag _ (by omega) (by omega)
  · rw [Bool.and_eq_true, beq_iff_eq, beq_iff_eq, masked_byte_eq_iff, masked_byte_eq_iff]
    constructor
    · rintro ⟨hm1, hm2⟩ i hi hi'
      -- the byte of `i` is the first, an interior one or the last
      by_cases hfirst : i / 8 = start / 8
      · have := hm1 (i % 8) (by omega) (by
          rw [hstart _ (by omega)]
          simp only [decide_eq_true_eq]
          omega)
        rwa [← hfirst, Nat.div_add_mod] at this
      by_cases hlast : i / 8 = (stop - 1) / 8
      · have := hm2 (i % 8) (by omega) (by
          rw [hstopm _ (by omega)]
          simp only [decide_eq_true_eq]
          omega)
        rwa [← hlast, Nat.div_add_mod] at this
      have hall : id1.byte (i / 8) = id2.byte (i / 8) := by
        by_contra hc
        exact hint ⟨by omega, fun hall => hc (hall _ (by omega))⟩
      have := (byte_eq_iff id1 id2 (i / 8)).mp hall (i % 8) (by omega)
      rwa [Nat.div_add_mod] at this
    · intro hag
      constructor
      · intro j hj hm
        rw [hstart _ hj, decide_eq_true_eq] at hm
        exact hag _ (by omega) (by omega)
      intro j hj hm
      rw [hstopm _ hj, decide_eq_true_eq] at hm
      exact hag _ (by omega) (by omega)

/-- `equalSubset` from bit `0` decides agreement on a prefix. -/
theorem equalSubset_zero_iff (hn : n ≤ 256) (id1 id2 : ID) :
    equalSubset 0 n id1 id2 = true ↔ Agree n id1 id2 := by
  rw [equalSubset_iff hn, agreeOn_zero_iff]

/-! ## `firstDifferenceSubset` -/

private theorem trailingZeros8_eq_iff (b : BitVec 8) (hb : b ≠ 0) (j : Nat) :
    trailingZeros8 b = j ↔ j < 8 ∧ b.getLsbD j = true ∧ ∀ j', j' < j → b.getLsbD j' = false := by
  have hsome : ∃ k, (range 8).find? b.getLsbD = some k := by
    rw [← Option.isSome_iff_exists, find?_isSome]
    by_contra hc
    apply hb
    apply BitVec.eq_of_getLsbD_eq
    intro i hi
    cases hbit : b.getLsbD i with
    | false => simp
    | true => exact absurd ⟨i, mem_range.mpr hi, hbit⟩ hc
  obtain ⟨k, hk⟩ := hsome
  have hk' := find?_range_eq_some.mp hk
  simp only [trailingZeros8, hk, Option.getD_some]
  constructor
  · rintro rfl
    exact ⟨mem_range.mp hk'.2.1, hk'.1, fun j' hj' => by simpa using hk'.2.2 j' hj'⟩
  rintro ⟨hj, hbj, hmin⟩
  rcases Nat.lt_trichotomy k j with hlt | heq | hgt
  · have := hmin k hlt
    rw [hk'.1] at this
    exact absurd this (by simp)
  · exact heq
  have := hk'.2.2 j hgt
  rw [hbj] at this
  exact absurd this (by simp)

/-- One masked byte of the scan: no difference under the mask, or the least one. -/
private theorem firstDifferenceByte_spec (m : BitVec 64) (id1 id2 : ID) (k : Nat) :
    match firstDifferenceByte k (m &&& intOfByte (id1.byte k)) (m &&& intOfByte (id2.byte k)) with
    | none => ∀ j, j < 8 → m.getLsbD j = true → id1.bit (8 * k + j) = id2.bit (8 * k + j)
    | some i => i / 8 = k ∧ m.getLsbD (i % 8) = true ∧ id1.bit i ≠ id2.bit i ∧
        ∀ j, j < i % 8 → m.getLsbD j = true → id1.bit (8 * k + j) = id2.bit (8 * k + j) := by
  unfold firstDifferenceByte
  split
  · rename_i h
    split at h
    · rename_i heq
      exact (masked_byte_eq_iff m id1 id2 k).mp heq
    · cases h
  rename_i i h
  split at h
  · cases h
  rename_i hne
  rw [masked_byte_eq_iff] at hne
  obtain rfl := Option.some.inj h
  have hbit : ∀ j, j < 8 →
      ((m &&& intOfByte (id1.byte k) ^^^ m &&& intOfByte (id2.byte k)).setWidth 8).getLsbD j =
        (m.getLsbD j && (id1.bit (8 * k + j) ^^ id2.bit (8 * k + j))) := by
    intro j hj
    simp only [BitVec.getLsbD_setWidth, hj, decide_true, Bool.true_and, BitVec.getLsbD_xor,
      BitVec.getLsbD_and, intOfByte, show j < 64 by omega, ID.byte_getLsbD _ _ _ hj]
    cases m.getLsbD j <;> simp
  generalize hd : (m &&& intOfByte (id1.byte k) ^^^ m &&& intOfByte (id2.byte k)).setWidth 8 = d
    at hbit
  have hd0 : d ≠ 0 := by
    rintro rfl
    apply hne
    intro j hj hm
    have := hbit j hj
    simpa [hm] using this
  obtain ⟨hlt, hset, hmin⟩ := (trailingZeros8_eq_iff d hd0 _).mp rfl
  generalize trailingZeros8 d = j at hlt hset hmin
  rw [hbit j hlt, Bool.and_eq_true] at hset
  have hk : j + k * 8 = 8 * k + j := by omega
  simp only [bitsPerByte, hk]
  refine ⟨by omega, by rw [show (8 * k + j) % 8 = j by omega]; exact hset.1,
    by simpa using hset.2, ?_⟩
  intro j' hj' hm'
  rw [show (8 * k + j) % 8 = j by omega] at hj'
  have := hmin j' hj'
  rw [hbit j' (by omega), hm'] at this
  simpa using this

/-- An unmasked byte is a byte under the full mask. -/
private theorem firstDifferenceByte_unmasked (id1 id2 : ID) (k : Nat) :
    firstDifferenceByte k (intOfByte (id1.byte k)) (intOfByte (id2.byte k)) =
      firstDifferenceByte k (startMask 0 &&& intOfByte (id1.byte k))
        (startMask 0 &&& intOfByte (id2.byte k)) := by
  have h : ∀ x : BitVec 64, startMask 0 &&& x = x := fun x => BitVec.allOnes_and (x := x)
  rw [h, h]

/-- What a scan of `[start, stop)` reports. -/
def IsFirstDifference (start stop : Nat) (id1 id2 : ID) : Option Nat → Prop
  | none => AgreeOn start stop id1 id2
  | some i => start ≤ i ∧ i < stop ∧ id1.bit i ≠ id2.bit i ∧ AgreeOn start i id1 id2

/-- Scanning two adjacent ranges one after the other scans their union. -/
private theorem IsFirstDifference.or {a b c : Nat} {r r' : Option Nat} (hab : a ≤ b) (hbc : b ≤ c)
    (h : IsFirstDifference a b id1 id2 r) (h' : IsFirstDifference b c id1 id2 r') :
    IsFirstDifference a c id1 id2 (r.or r') := by
  cases r with
  | some i =>
    obtain ⟨h1, h2, h3, h4⟩ := h
    exact ⟨h1, by omega, h3, h4⟩
  | none =>
    have glue : ∀ i, AgreeOn b i id1 id2 → AgreeOn a i id1 id2 := by
      intro i hag k hk hk'
      by_cases hkb : k < b
      · exact h k hk hkb
      · exact hag k (by omega) hk'
    cases r' with
    | none => exact glue c h'
    | some i =>
      obtain ⟨h1, h2, h3, h4⟩ := h'
      exact ⟨by omega, h2, h3, glue i h4⟩

/-- A masked byte scans the bits `[8 * k + lo, 8 * k + hi)` its mask keeps. -/
private theorem isFirstDifference_byte (m : BitVec 64) (id1 id2 : ID) (k lo hi : Nat) (hhi : hi ≤ 8)
    (hm : ∀ j, j < 8 → (m.getLsbD j = true ↔ lo ≤ j ∧ j < hi)) :
    IsFirstDifference (8 * k + lo) (8 * k + hi) id1 id2
      (firstDifferenceByte k (m &&& intOfByte (id1.byte k)) (m &&& intOfByte (id2.byte k))) := by
  have hspec := firstDifferenceByte_spec m id1 id2 k
  split at hspec
  · rename_i heq
    rw [heq]
    intro i hi1 hi2
    have := hspec (i - 8 * k) (by omega) ((hm _ (by omega)).mpr (by omega))
    rwa [show 8 * k + (i - 8 * k) = i by omega] at this
  rename_i i heq
  rw [heq]
  obtain ⟨hk, hmi, hne, hmin⟩ := hspec
  obtain ⟨hlo, hhi'⟩ := (hm _ (by omega)).mp hmi
  refine ⟨by omega, by omega, hne, ?_⟩
  intro i' hi1 hi2
  have := hmin (i' - 8 * k) (by omega) ((hm _ (by omega)).mpr (by omega))
  rwa [show 8 * k + (i' - 8 * k) = i' by omega] at this

/-- The loop over the interior bytes scans all of their bits. -/
private theorem isFirstDifference_interior (id1 id2 : ID) (k n : Nat) :
    IsFirstDifference (8 * k) (8 * (k + n)) id1 id2
      ((range' k n).findSome? fun i =>
        firstDifferenceByte i (intOfByte (id1.byte i)) (intOfByte (id2.byte i))) := by
  induction n generalizing k with
  | zero =>
    intro i hi hi'
    omega
  | succ n ih =>
    rw [range'_succ, findSome?_cons, firstDifferenceByte_unmasked]
    have hbyte := isFirstDifference_byte (startMask 0) id1 id2 k 0 8 (by omega) (by
      intro j hj
      rw [startMask_getLsbD 0 (by omega) j hj, decide_eq_true_eq]
      omega)
    have hrest := ih (k + 1)
    have := IsFirstDifference.or (by omega) (by omega) hbyte
      (show IsFirstDifference (8 * k + 8) _ id1 id2 _ from hrest)
    rw [show 8 * (k + 1 + n) = 8 * (k + (n + 1)) by omega] at this
    revert this
    cases firstDifferenceByte k (startMask 0 &&& intOfByte (id1.byte k))
      (startMask 0 &&& intOfByte (id2.byte k)) with
    | none => exact id
    | some i => exact id

/-- `firstDifferenceSubset` reports the least index in `[start, stop)` where the IDs
    differ. -/
theorem firstDifferenceSubset_spec (start : Nat) (hstop : stop ≤ 256) (id1 id2 : ID) :
    IsFirstDifference start stop id1 id2 (firstDifferenceSubset start stop id1 id2) := by
  unfold firstDifferenceSubset
  delta bitsPerByte numBits
  split
  · intro i hi hi'
    omega
  rename_i h
  simp only [not_or] at h
  obtain ⟨hs, hlt, -⟩ := h
  have hstart := startMask_getLsbD (start % 8) (by omega)
  have hstopm := stopMask_getLsbD ((stop - 1) % 8) (by omega)
  by_cases heq : start / 8 = (stop - 1) / 8
  · rw [if_pos heq]
    have := isFirstDifference_byte (startMask (start % 8) &&& stopMask ((stop - 1) % 8)) id1 id2
      (start / 8) (start % 8) ((stop - 1) % 8 + 1) (by omega) (by
        intro j hj
        rw [BitVec.getLsbD_and, hstart _ hj, hstopm _ hj, Bool.and_eq_true, decide_eq_true_eq,
          decide_eq_true_eq]
        omega)
    rwa [show 8 * (start / 8) + start % 8 = start by omega,
      show 8 * (start / 8) + ((stop - 1) % 8 + 1) = stop by omega] at this
  rw [if_neg heq]
  have hfirst := isFirstDifference_byte (startMask (start % 8)) id1 id2 (start / 8) (start % 8) 8
    (by omega) (by
      intro j hj
      rw [hstart _ hj, decide_eq_true_eq]
      omega)
  have hlast := isFirstDifference_byte (stopMask ((stop - 1) % 8)) id1 id2 ((stop - 1) / 8) 0
    ((stop - 1) % 8 + 1) (by omega) (by
      intro j hj
      rw [hstopm _ hj, decide_eq_true_eq]
      omega)
  have hint := isFirstDifference_interior id1 id2 (start / 8 + 1) ((stop - 1) / 8 - (start / 8 + 1))
  rw [show 8 * (start / 8) + start % 8 = start by omega] at hfirst
  rw [show 8 * ((stop - 1) / 8) + ((stop - 1) % 8 + 1) = stop by omega] at hlast
  refine IsFirstDifference.or (by omega) (by omega) hfirst ?_
  refine IsFirstDifference.or (by omega) (by omega)
    (show IsFirstDifference (8 * (start / 8) + 8) _ id1 id2 _ from hint) ?_
  rwa [show 8 * (start / 8 + 1 + ((stop - 1) / 8 - (start / 8 + 1))) =
    8 * ((stop - 1) / 8) + 0 by omega]

theorem firstDifferenceSubset_eq_none (hstop : stop ≤ 256)
    (h : firstDifferenceSubset start stop id1 id2 = none) : AgreeOn start stop id1 id2 := by
  simpa [h, IsFirstDifference] using firstDifferenceSubset_spec start hstop id1 id2

theorem firstDifferenceSubset_eq_some {i : Nat} (hstop : stop ≤ 256)
    (h : firstDifferenceSubset start stop id1 id2 = some i) :
    start ≤ i ∧ i < stop ∧ id1.bit i ≠ id2.bit i ∧ AgreeOn start i id1 id2 := by
  simpa [h, IsFirstDifference] using firstDifferenceSubset_spec start hstop id1 id2

/-- `EqualSubset` and `FirstDifferenceSubset` compare the IDs bit by bit. -/
theorem subsets_bitwise (start : Nat) (hstop : stop ≤ 256) (id1 id2 : ID) :
    (equalSubset start stop id1 id2 = true ↔ ∀ i, start ≤ i → i < stop → id1.bit i = id2.bit i) ∧
    (∀ i, firstDifferenceSubset start stop id1 id2 = some i ↔ start ≤ i ∧ i < stop ∧
      id1.bit i ≠ id2.bit i ∧ ∀ j, start ≤ j → j < i → id1.bit j = id2.bit j) ∧
    (firstDifferenceSubset start stop id1 id2 = none ↔
      ¬∃ i, start ≤ i ∧ i < stop ∧ id1.bit i ≠ id2.bit i) := by
  have hagree : (¬∃ i, start ≤ i ∧ i < stop ∧ id1.bit i ≠ id2.bit i) ↔
      AgreeOn start stop id1 id2 := by
    simp [AgreeOn]
  refine ⟨equalSubset_iff hstop id1 id2, fun i => ⟨firstDifferenceSubset_eq_some hstop, ?_⟩, ?_⟩
  · rintro ⟨hi, hlt, hne, hbefore⟩
    cases hd : firstDifferenceSubset start stop id1 id2 with
    | none => exact absurd (firstDifferenceSubset_eq_none hstop hd i hi hlt) hne
    | some j =>
      obtain ⟨hj, -, hne', hbefore'⟩ := firstDifferenceSubset_eq_some hstop hd
      rcases Nat.lt_trichotomy i j with h | h | h
      · exact absurd (hbefore' i hi h) hne
      · rw [h]
      · exact absurd (hbefore j hj h) hne'
  · rw [hagree]
    refine ⟨firstDifferenceSubset_eq_none hstop, fun h => ?_⟩
    cases hd : firstDifferenceSubset start stop id1 id2 with
    | none => rfl
    | some i =>
      obtain ⟨hi, hlt, hne, -⟩ := firstDifferenceSubset_eq_some hstop hd
      exact absurd (h i hi hlt) hne

/-- The first difference of two IDs, in their second byte. -/
theorem subsets_bitwise_nine : firstDifferenceSubset 3 256 ⟨0x200⟩ ⟨1⟩ = some 9 :=
  ((subsets_bitwise 3 (Nat.le_refl 256) ⟨0x200⟩ ⟨1⟩).2.1 9).mpr (by decide +kernel)

end SavannahNode
