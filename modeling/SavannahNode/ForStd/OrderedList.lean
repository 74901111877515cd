import Mathlib.Data.List.Sort

/-!
# Ordered lists

A search tree, seen through the operations that only use its order, is a list sorted by a
key. `replaceOrInsert` and `delete` are the tree's operations on that list, `merge` is a
merge of two sorted lists through a heap, and a sorted list is determined by its members.

## Key results

* `OrderedList.lexicographic_iff` — comparisons key by key.
* `OrderedList.eq_of_mem_iff` — sorted lists with the same members are equal.
* `OrderedList.mem_replaceOrInsert`, `OrderedList.mem_delete` — the members after an update.
* `OrderedList.merge_perm`, `OrderedList.sorted_merge` — a merge is the sorted union.
-/

namespace OrderedList

open List

universe u v

/-- A comparison by a first key, and where it is equal by what is left. -/
theorem lexicographic_iff {κ : Type u} [LinearOrder κ] {a b : κ} {rest : Bool} :
    (if a < b then true else if b < a then false else rest) = true ↔ a < b ∨ a = b ∧ rest = true := by
  rcases lt_trichotomy a b with h | h | h
  · simp [h]
  · simp [h]
  · simp [h, h.not_gt, h.ne']

variable {α : Type u} (r : α → α → Prop) [DecidableRel r] {l : List α}

/-- Insert `x`, in place of an element that is neither before nor after it. -/
def replaceOrInsert (x : α) : List α → List α
  | [] => [x]
  | y :: ys =>
    if r x y then x :: y :: ys
    else if r y x then y :: replaceOrInsert x ys
    else x :: ys

/-- Remove the element that is neither before nor after `x`. -/
def delete (x : α) : List α → List α
  | [] => []
  | y :: ys =>
    if r x y then y :: ys
    else if r y x then y :: delete x ys
    else ys

/-- Merge through a heap of two iterators, the first of them at the root. -/
def mergeFuel : ℕ → List α → List α → List α
  | 0, _, _ => []
  | _ + 1, [], ys => ys
  | _ + 1, x :: xs, [] => x :: xs
  | n + 1, x :: xs, y :: ys =>
    if r y x then y :: mergeFuel n ys (x :: xs) else x :: mergeFuel n xs (y :: ys)

/-- Merge two lists. -/
def merge (xs ys : List α) : List α := mergeFuel r (xs.length + ys.length) xs ys

variable {r} {xs ys : List α}

theorem mergeFuel_perm {n : ℕ} (hn : xs.length + ys.length ≤ n) :
    (mergeFuel r n xs ys).Perm (xs ++ ys) := by
  induction n generalizing xs ys with
  | zero =>
    have hxs : xs = [] := length_eq_zero_iff.mp (by omega)
    have hys : ys = [] := length_eq_zero_iff.mp (by omega)
    subst hxs hys
    exact .nil
  | succ n ih =>
    cases xs with
    | nil => exact .refl _
    | cons x xs =>
      cases ys with
      | nil => rw [mergeFuel, append_nil]
      | cons y ys =>
        rw [length_cons, length_cons] at hn
        rw [mergeFuel]
        split
        · have h : (mergeFuel r n ys (x :: xs)).Perm (ys ++ x :: xs) :=
            ih (by rw [length_cons]; omega)
          exact (h.cons y).trans (perm_append_comm : (y :: ys ++ x :: xs).Perm _)
        · exact (ih (by rw [length_cons]; omega)).cons x

theorem merge_perm (xs ys : List α) : (merge r xs ys).Perm (xs ++ ys) := mergeFuel_perm le_rfl

theorem mem_merge {z : α} : z ∈ merge r xs ys ↔ z ∈ xs ∨ z ∈ ys :=
  (merge_perm xs ys).mem_iff.trans mem_append

/-! ## Lists sorted by a key -/

section Key

variable {κ : Type v} [LinearOrder κ] {key : α → κ} (hkey : ∀ a b, r a b ↔ key a < key b) {x y : α}
include hkey

omit [DecidableRel r] in
/-- Sorted lists are determined by their members. -/
theorem eq_of_mem_iff {l l' : List α} (h : l.Pairwise r) (h' : l'.Pairwise r)
    (hmem : ∀ x, x ∈ l ↔ x ∈ l') : l = l' := by
  have hirrefl : ∀ a, ¬ r a a := fun a ha => lt_irrefl _ ((hkey a a).mp ha)
  have hnodup : ∀ {l : List α}, l.Pairwise r → l.Nodup := by
    intro l h
    refine h.imp ?_
    rintro a b hab rfl
    exact hirrefl a hab
  have hperm := (perm_ext_iff_of_nodup (hnodup h) (hnodup h')).mpr hmem
  refine List.Perm.eq_of_pairwise ?_ h h' hperm
  exact fun a b _ _ hab hba => absurd ((hkey b a).mp hba) (lt_asymm ((hkey a b).mp hab))

omit [DecidableRel r] in
/-- What comes before the head of a sorted list comes before all of it. -/
theorem rel_of_head (h : (y :: l).Pairwise r) (hxy : r x y) : ∀ z ∈ y :: l, r x z := by
  intro z hz
  rcases mem_cons.mp hz with rfl | hz
  · exact hxy
  exact (hkey _ _).mpr (((hkey _ _).mp hxy).trans ((hkey _ _).mp (rel_of_pairwise_cons h hz)))

omit [DecidableRel r] in
theorem key_ne (h : r x y) : key y ≠ key x := ((hkey _ _).mp h).ne'

omit [DecidableRel r] in
theorem key_eq (hxy : ¬ r x y) (hyx : ¬ r y x) : key y = key x := by
  rw [hkey] at hxy hyx
  exact le_antisymm (not_lt.mp hxy) (not_lt.mp hyx)

omit [DecidableRel r] in
theorem key_injOn (h : l.Pairwise r) (hx : x ∈ l) (hy : y ∈ l) (heq : key x = key y) : x = y := by
  induction l with
  | nil => cases hx
  | cons z l ih =>
    rw [pairwise_cons] at h
    rcases mem_cons.mp hx with hz | hx
    · rcases mem_cons.mp hy with hz' | hy
      · rw [hz, hz']
      · exact absurd heq (hz ▸ ((hkey _ _).mp (h.1 y hy)).ne)
    rcases mem_cons.mp hy with hz | hy
    · exact absurd heq (hz ▸ ((hkey _ _).mp (h.1 x hx)).ne')
    · exact ih h.2 hx hy

theorem mem_replaceOrInsert (h : l.Pairwise r) {x z : α} :
    z ∈ replaceOrInsert r x l ↔ z = x ∨ z ∈ l ∧ key z ≠ key x := by
  induction l with
  | nil => simp [replaceOrInsert]
  | cons y l ih =>
    rw [replaceOrInsert]
    split
    · rename_i hxy
      -- everything from y on is after x
      rw [mem_cons]
      exact or_congr_right ⟨fun hz => ⟨hz, key_ne hkey (rel_of_head hkey h hxy z hz)⟩, And.left⟩
    rw [pairwise_cons] at h
    split
    · rename_i hyx
      rw [mem_cons, mem_cons, ih h.2]
      constructor
      · rintro (rfl | rfl | ⟨hz, hne⟩)
        · exact .inr ⟨.inl rfl, (key_ne hkey hyx).symm⟩
        · exact .inl rfl
        · exact .inr ⟨.inr hz, hne⟩
      rintro (rfl | ⟨rfl | hz, hne⟩)
      · exact .inr (.inl rfl)
      · exact .inl rfl
      · exact .inr (.inr ⟨hz, hne⟩)
    rename_i hxy hyx
    have heq := key_eq hkey hxy hyx
    rw [mem_cons, mem_cons]
    constructor
    · rintro (rfl | hz)
      · exact .inl rfl
      · exact .inr ⟨.inr hz, heq ▸ key_ne hkey (h.1 z hz)⟩
    rintro (rfl | ⟨rfl | hz, hne⟩)
    · exact .inl rfl
    · exact absurd heq hne
    · exact .inr hz

theorem sorted_replaceOrInsert (h : l.Pairwise r) (x : α) : (replaceOrInsert r x l).Pairwise r := by
  induction l with
  | nil => exact pairwise_singleton r x
  | cons y l ih =>
    rw [replaceOrInsert]
    split
    · rename_i hxy
      exact pairwise_cons.mpr ⟨rel_of_head hkey h hxy, h⟩
    rw [pairwise_cons] at h
    split
    · rename_i hyx
      refine pairwise_cons.mpr ⟨fun z hz => ?_, ih h.2⟩
      rcases (mem_replaceOrInsert hkey h.2).mp hz with rfl | ⟨hz, -⟩
      · exact hyx
      · exact h.1 z hz
    rename_i hxy hyx
    have heq := key_eq hkey hxy hyx
    exact pairwise_cons.mpr ⟨fun z hz => (hkey _ _).mpr (heq ▸ (hkey _ _).mp (h.1 z hz)), h.2⟩

theorem mem_delete (h : l.Pairwise r) {x z : α} : z ∈ delete r x l ↔ z ∈ l ∧ key z ≠ key x := by
  induction l with
  | nil => simp [delete]
  | cons y l ih =>
    rw [delete]
    split
    · rename_i hxy
      exact ⟨fun hz => ⟨hz, key_ne hkey (rel_of_head hkey h hxy z hz)⟩, And.left⟩
    rw [pairwise_cons] at h
    split
    · rename_i hyx
      rw [mem_cons, mem_cons, ih h.2]
      constructor
      · rintro (rfl | ⟨hz, hne⟩)
        · exact ⟨.inl rfl, (key_ne hkey hyx).symm⟩
        · exact ⟨.inr hz, hne⟩
      rintro ⟨rfl | hz, hne⟩
      · exact .inl rfl
      · exact .inr ⟨hz, hne⟩
    rename_i hxy hyx
    have heq := key_eq hkey hxy hyx
    rw [mem_cons]
    constructor
    · exact fun hz => ⟨.inr hz, heq ▸ key_ne hkey (h.1 z hz)⟩
    rintro ⟨rfl | hz, hne⟩
    · exact absurd heq hne
    · exact hz

omit hkey in
theorem delete_sublist (x : α) (l : List α) : (delete r x l).Sublist l := by
  induction l with
  | nil => exact .refl _
  | cons y l ih =>
    rw [delete]
    split
    · exact .refl _
    split
    · exact ih.cons_cons y
    · exact sublist_cons_self y l

theorem sorted_merge (hxs : xs.Pairwise r) (hys : ys.Pairwise r)
    (hne : ∀ x ∈ xs, ∀ y ∈ ys, key x ≠ key y) : (merge r xs ys).Pairwise r := by
  suffices hfuel : ∀ (n : ℕ) (xs ys : List α), xs.length + ys.length ≤ n → xs.Pairwise r →
      ys.Pairwise r → (∀ x ∈ xs, ∀ y ∈ ys, key x ≠ key y) → (mergeFuel r n xs ys).Pairwise r from
    hfuel _ xs ys le_rfl hxs hys hne
  intro n
  induction n with
  | zero => exact fun _ _ _ _ _ _ => .nil
  | succ n ih =>
    intro xs ys hn hxs hys hne
    cases xs with
    | nil => exact hys
    | cons x xs =>
      cases ys with
      | nil => exact hxs
      | cons y ys =>
        rw [length_cons, length_cons] at hn
        have hxs' := pairwise_cons.mp hxs
        have hys' := pairwise_cons.mp hys
        rw [mergeFuel]
        split
        · rename_i hyx
          have hlen : ys.length + (x :: xs).length ≤ n := by rw [length_cons]; omega
          refine pairwise_cons.mpr ⟨fun z hz => ?_, ih ys (x :: xs) hlen hys'.2 hxs
            fun b hb a ha => (hne a ha b (mem_cons_of_mem y hb)).symm⟩
          rcases mem_append.mp ((mergeFuel_perm hlen).mem_iff.mp hz) with hz | hz
          · exact hys'.1 z hz
          · exact rel_of_head hkey hxs hyx z hz
        rename_i hyx
        have hxy : r x y := by
          rw [hkey] at hyx ⊢
          exact lt_of_le_of_ne (not_lt.mp hyx) (hne x mem_cons_self y mem_cons_self)
        have hlen : xs.length + (y :: ys).length ≤ n := by rw [length_cons]; omega
        refine pairwise_cons.mpr ⟨fun z hz => ?_, ih xs (y :: ys) hlen hxs'.2 hys
          fun a ha => hne a (mem_cons_of_mem x ha)⟩
        rcases mem_append.mp ((mergeFuel_perm hlen).mem_iff.mp hz) with hz | hz
        · exact hxs'.1 z hz
        · exact rel_of_head hkey hys hxy z hz

end Key

/-- Taking elements while a condition holds finds all of them if the condition is inherited by
    earlier elements. -/
theorem mem_takeWhile {p : α → Bool} (h : l.Pairwise fun a b => p b → p a) {x : α} :
    x ∈ l.takeWhile p ↔ x ∈ l ∧ p x := by
  induction l with
  | nil => simp
  | cons a l ih =>
    rw [pairwise_cons] at h
    by_cases ha : p a = true
    · rw [takeWhile_cons_of_pos ha, mem_cons, mem_cons, ih h.2]
      constructor
      · rintro (rfl | hx)
        · exact ⟨.inl rfl, ha⟩
        · exact ⟨.inr hx.1, hx.2⟩
      rintro ⟨rfl | hx, hp⟩
      · exact .inl rfl
      · exact .inr ⟨hx, hp⟩
    rw [takeWhile_cons_of_neg ha]
    refine ⟨fun hx => absurd hx not_mem_nil, ?_⟩
    rintro ⟨hx, hp⟩
    rcases mem_cons.mp hx with rfl | hx
    · exact absurd hp ha
    · exact absurd (h.1 x hx hp) ha

end OrderedList
