import Mathlib.Data.List.Nodup
import Mathlib.Algebra.BigOperators.Group.List.Basic
import Mathlib.Algebra.GroupWithZero.Nat

/-!
# Counted lists

A counter kept as an association list from keys to counts, in insertion order:
`bump` adds to the count of one key, `countWhere` adds up the counts of the keys
that satisfy a predicate.
-/

namespace List

variable {α : Type u}

section

variable (P : α → Bool) (p : α × Nat) (l : List (α × Nat))

/-- The total of the counts whose key satisfies `P`. -/
def countWhere : Nat := ((l.filter (P ·.1)).map (·.2)).sum

@[simp] theorem countWhere_nil : countWhere P ([] : List (α × Nat)) = 0 := rfl

theorem countWhere_cons : countWhere P (p :: l) = (if P p.1 then p.2 else 0) + countWhere P l := by
  unfold countWhere
  by_cases h : P p.1 = true
  · simp [h]
  · simp [h]

theorem countWhere_append (l l' : List (α × Nat)) :
    countWhere P (l ++ l') = countWhere P l + countWhere P l' := by
  simp [countWhere]

theorem countWhere_filter (P Q : α → Bool) (l : List (α × Nat)) :
    countWhere P (l.filter (Q ·.1)) = countWhere (fun k => Q k && P k) l := by
  simp only [countWhere, filter_filter]
  congr 2
  apply filter_congr
  intro p _
  exact Bool.and_comm _ _

theorem countWhere_true : countWhere (fun _ => true) l = (l.map (·.2)).sum := by
  simp [countWhere]

end

variable {P Q : α → Bool} {l : List (α × Nat)} {k : α} {n : Nat}

/-- A weaker predicate on the listed keys counts at least as much. -/
theorem countWhere_le (h : ∀ k ∈ l.map Prod.fst, P k = true → Q k = true) :
    countWhere P l ≤ countWhere Q l := by
  induction l with
  | nil => simp
  | cons p l ih =>
    rw [countWhere_cons, countWhere_cons]
    have hp := h p.1 (by simp)
    have hl := ih fun k hk => h k (by simp [hk])
    by_cases hP : P p.1 = true
    · rw [if_pos hP, if_pos (hp hP)]
      omega
    rw [if_neg hP]
    omega

/-- Counting under two disjoint predicates counts at most everything. -/
theorem countWhere_add_le (h : ∀ k ∈ l.map Prod.fst, P k = true → Q k = false) :
    countWhere P l + countWhere Q l ≤ (l.map (·.2)).sum := by
  induction l with
  | nil => simp
  | cons p l ih =>
    rw [countWhere_cons, countWhere_cons, map_cons, sum_cons]
    have hp := h p.1 (by simp)
    have hl := ih fun k hk => h k (by simp [hk])
    by_cases hP : P p.1 = true
    · rw [if_pos hP, hp hP]
      simp only [Bool.false_eq_true, if_false]
      omega
    rw [if_neg hP]
    split <;> omega

/-- The counts under two disjoint predicates add up. -/
theorem countWhere_or (h : ∀ k ∈ l.map Prod.fst, P k = true → Q k = false) :
    countWhere (fun k => P k || Q k) l = countWhere P l + countWhere Q l := by
  induction l with
  | nil => rfl
  | cons p l ih =>
    rw [countWhere_cons, countWhere_cons, countWhere_cons, ih fun k hk => h k (by simp [hk])]
    by_cases hP : P p.1 = true
    · rw [h p.1 (by simp) hP, hP]
      simp
      omega
    rw [Bool.eq_false_iff.mpr hP]
    simp
    omega

variable [DecidableEq α]

/-- Add `n` to the count of `k`, appending the key when it is new. -/
def bump (k : α) (n : Nat) : List (α × Nat) → List (α × Nat)
  | [] => [(k, n)]
  | p :: l => if p.1 = k then (k, p.2 + n) :: l else p :: bump k n l

@[simp] theorem bump_nil (k : α) (n : Nat) : bump k n [] = [(k, n)] := rfl

theorem bump_cons (k : α) (n : Nat) (p : α × Nat) (l : List (α × Nat)) :
    bump k n (p :: l) = if p.1 = k then (k, p.2 + n) :: l else p :: bump k n l := rfl

/-- The count recorded for `k`, `0` when there is none. -/
def countOf (l : List (α × Nat)) (k : α) : Nat := ((l.find? (·.1 = k)).map (·.2)).getD 0

@[simp] theorem countOf_nil (k : α) : countOf ([] : List (α × Nat)) k = 0 := rfl

theorem countOf_cons (p : α × Nat) (l : List (α × Nat)) (k : α) :
    countOf (p :: l) k = if p.1 = k then p.2 else countOf l k := by
  unfold countOf
  by_cases h : p.1 = k <;> simp [h]

theorem countOf_eq_zero_of_notMem (h : k ∉ l.map Prod.fst) : countOf l k = 0 := by
  induction l with
  | nil => rfl
  | cons p l ih =>
    simp only [map_cons, mem_cons, not_or] at h
    rw [countOf_cons, if_neg (Ne.symm h.1), ih h.2]

/-- With distinct keys, a listed pair is the recorded count. -/
theorem countOf_eq_of_mem (hn : (l.map Prod.fst).Nodup) (h : (k, n) ∈ l) : countOf l k = n := by
  induction l with
  | nil => cases h
  | cons p l ih =>
    simp only [map_cons, nodup_cons] at hn
    rw [countOf_cons]
    rcases mem_cons.mp h with rfl | hmem
    · simp
    rw [if_neg, ih hn.2 hmem]
    rintro rfl
    exact hn.1 (mem_map.mpr ⟨_, hmem, rfl⟩)

theorem mem_of_countOf_pos (h : 0 < countOf l k) : (k, countOf l k) ∈ l := by
  induction l with
  | nil => exact absurd h (by simp)
  | cons p l ih =>
    rw [countOf_cons] at h ⊢
    by_cases hk : p.1 = k
    · subst hk
      simp
    rw [if_neg hk] at h ⊢
    exact mem_cons_of_mem _ (ih h)

/-! ## `bump` -/

theorem mem_map_fst_bump {x : α} : x ∈ (bump k n l).map Prod.fst ↔ x = k ∨ x ∈ l.map Prod.fst := by
  induction l with
  | nil => simp
  | cons p l ih =>
    rw [bump_cons]
    split
    · rename_i h
      subst h
      simp
    simp only [map_cons, mem_cons, ih]
    tauto

/-- A new key is appended. -/
theorem bump_of_notMem (h : k ∉ l.map Prod.fst) : bump k n l = l ++ [(k, n)] := by
  induction l with
  | nil => rfl
  | cons p l ih =>
    simp only [map_cons, mem_cons, not_or] at h
    rw [bump_cons, if_neg (Ne.symm h.1), ih h.2, cons_append]

theorem nodup_bump (h : (l.map Prod.fst).Nodup) : ((bump k n l).map Prod.fst).Nodup := by
  induction l with
  | nil => simp
  | cons p l ih =>
    simp only [map_cons, nodup_cons] at h
    rw [bump_cons]
    split
    · rename_i hk
      subst hk
      simpa using h
    rename_i hk
    simp only [map_cons, nodup_cons, mem_map_fst_bump, not_or]
    exact ⟨⟨hk, h.1⟩, ih h.2⟩

theorem countOf_bump (x : α) :
    countOf (bump k n l) x = if x = k then countOf l k + n else countOf l x := by
  induction l with
  | nil =>
    simp only [bump_nil, countOf_cons, countOf_nil, Nat.zero_add]
    by_cases hx : x = k
    · simp [hx]
    · simp [hx, Ne.symm hx]
  | cons p l ih =>
    rw [bump_cons]
    by_cases hp : p.1 = k
    · rw [if_pos hp, countOf_cons, countOf_cons, countOf_cons]
      by_cases hx : x = k
      · simp [hx, hp]
      have hpx : p.1 ≠ x := fun h => hx (h.symm.trans hp)
      simp [hx, Ne.symm hx, hpx]
    rw [if_neg hp, countOf_cons, ih, countOf_cons, countOf_cons]
    by_cases hx : x = k
    · simp [hx, hp]
    · simp [hx]

theorem pos_of_mem_bump (hn : 0 < n) (h : ∀ p ∈ l, 0 < p.2) : ∀ p ∈ bump k n l, 0 < p.2 := by
  induction l with
  | nil => simpa using hn
  | cons q l ih =>
    rw [bump_cons]
    have hq := h q mem_cons_self
    have hl : ∀ p ∈ l, 0 < p.2 := fun p hp => h p (mem_cons_of_mem _ hp)
    intro p hp
    split at hp
    · rcases mem_cons.mp hp with rfl | hp
      · exact Nat.add_pos_left hq n
      · exact hl p hp
    rcases mem_cons.mp hp with rfl | hp
    · exact hq
    · exact ih hl p hp

theorem countWhere_bump (P : α → Bool) :
    countWhere P (bump k n l) = countWhere P l + if P k then n else 0 := by
  induction l with
  | nil => simp [countWhere_cons]
  | cons p l ih =>
    rw [bump_cons]
    split
    · rename_i h
      subst h
      rw [countWhere_cons, countWhere_cons]
      split <;> omega
    rw [countWhere_cons, countWhere_cons, ih]
    omega

/-- The count of one key is the total over that key. -/
theorem countWhere_eq_countOf (hn : (l.map Prod.fst).Nodup) (k : α) :
    countWhere (fun x => x = k) l = countOf l k := by
  induction l with
  | nil => rfl
  | cons p l ih =>
    simp only [map_cons, nodup_cons] at hn
    rw [countWhere_cons, countOf_cons, ih hn.2]
    by_cases hk : p.1 = k
    · subst hk
      simp [countOf_eq_zero_of_notMem hn.1]
    · simp [hk]

/-- One more key under a predicate adds its count. -/
theorem countWhere_or_key (hn : (l.map Prod.fst).Nodup) (hk : P k = false) :
    countWhere (fun x => P x || decide (x = k)) l = countWhere P l + countOf l k := by
  rw [← countWhere_eq_countOf hn]
  refine countWhere_or fun x _ hx => ?_
  rw [decide_eq_false_iff_not]
  rintro rfl
  rw [hk] at hx
  cases hx

/-- The counts of different keys are part of the total over a predicate that has them. -/
theorem countWhere_countOf_le {l' : List (α × Nat)} (hn : (l.map Prod.fst).Nodup)
    (hn' : (l'.map Prod.fst).Nodup) :
    countWhere P (l'.map fun p => (p.1, countOf l p.1)) ≤ countWhere P l := by
  induction l' generalizing P with
  | nil => exact Nat.zero_le _
  | cons p l' ih =>
    simp only [map_cons, nodup_cons] at hn'
    -- the first key is not among the others, so they can be counted without it
    have hrest : countWhere P (l'.map fun p => (p.1, countOf l p.1)) ≤
        countWhere (fun x => P x && decide (x ≠ p.1)) (l'.map fun p => (p.1, countOf l p.1)) := by
      refine countWhere_le fun k hk hP => ?_
      rw [map_map] at hk
      rw [Bool.and_eq_true, decide_eq_true_eq]
      exact ⟨hP, fun heq => hn'.1 (heq ▸ hk)⟩
    have hle := Nat.le_trans hrest (ih hn'.2)
    rw [map_cons, countWhere_cons]
    have hor := countWhere_or_key (P := fun x => P x && decide (x ≠ p.1)) (k := p.1) hn (by simp)
    by_cases hP : P p.1 = true
    · have hsplit : countWhere (fun x => P x && decide (x ≠ p.1) || decide (x = p.1)) l ≤
          countWhere P l := by
        refine countWhere_le fun k _ hk => ?_
        rcases Bool.or_eq_true_iff.mp hk with hk | hk
        · exact (Bool.and_eq_true_iff.mp hk).1
        · exact of_decide_eq_true hk ▸ hP
      rw [if_pos hP]
      omega
    have hsplit : countWhere (fun x => P x && decide (x ≠ p.1)) l ≤ countWhere P l :=
      countWhere_le fun k _ hk => (Bool.and_eq_true_iff.mp hk).1
    rw [if_neg hP]
    omega

end List
