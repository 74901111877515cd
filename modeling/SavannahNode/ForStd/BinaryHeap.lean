import Mathlib.Data.List.Perm.Basic

/-!
# Binary heaps in arrays

The heap of Go's `container/heap`: an array in which `up` and `down` restore the order after
one element has changed. The lemmas say which elements an operation keeps and which it
removes, for every order.
-/

namespace BinaryHeap

open Array

universe u

variable {α : Type u} (less : α → α → Bool)

/-- Compare the elements at two indices. -/
def before (a : Array α) (i j : Nat) : Bool :=
  match a[i]?, a[j]? with
  | some x, some y => less x y
  | _, _ => false

/-- `up`: move the element at index `j` towards the root, at most `fuel` times. -/
def up : Nat → Array α → Nat → Array α
  | 0, a, _ => a
  | fuel + 1, a, j =>
    if (j - 1) / 2 = j ∨ ¬before less a j ((j - 1) / 2) then a
    else up fuel (a.swapIfInBounds ((j - 1) / 2) j) ((j - 1) / 2)

/-- The child that `down` compares with: the smaller one below index `n`. -/
def child (a : Array α) (i n : Nat) : Nat :=
  if 2 * i + 2 < n ∧ before less a (2 * i + 2) (2 * i + 1) then 2 * i + 2 else 2 * i + 1

/-- `down`: move the element at index `i` away from the root among the first `n`, at most
    `fuel` times. The result has the index it ends at. -/
def down : Nat → Array α → Nat → Nat → Array α × Nat
  | 0, a, i, _ => (a, i)
  | fuel + 1, a, i, n =>
    if 2 * i + 1 ≥ n ∨ ¬before less a (child less a i n) i then (a, i)
    else down fuel (a.swapIfInBounds i (child less a i n)) (child less a i n) n

/-- `heap.Push`. -/
def push (a : Array α) (x : α) : Array α := up less (a.size + 1) (a.push x) a.size

/-- The last element, and the rest. -/
def popLast (a : Array α) : Option (α × Array α) := a.back?.map fun x => (x, a.pop)

/-- `heap.Pop`, `none` for an empty heap. -/
def pop (a : Array α) : Option (α × Array α) :=
  popLast (down less a.size (a.swapIfInBounds 0 (a.size - 1)) 0 (a.size - 1)).1

/-- `heap.Remove`. -/
def remove (a : Array α) (i : Nat) : Option (α × Array α) :=
  let n := a.size - 1
  if n = i then popLast a
  else
    let d := down less a.size (a.swapIfInBounds i n) i n
    popLast (if d.2 > i then d.1 else up less a.size d.1 i)

section Lemmas

variable {less} {a : Array α}

theorem swapIfInBounds_perm (a : Array α) (i j : Nat) : (a.swapIfInBounds i j).toList.Perm a.toList := by
  rw [swapIfInBounds]
  split
  · split
    · exact (swap_perm ..).toList
    · exact List.Perm.refl _
  · exact List.Perm.refl _

theorem getElem?_swapIfInBounds_of_ne {i j k : Nat} (hi : k ≠ i) (hj : k ≠ j) :
    (a.swapIfInBounds i j)[k]? = a[k]? := by
  rw [swapIfInBounds]
  split
  · split
    · grind
    · rfl
  · rfl

/-- Moving an element up permutes the array and leaves what is after it. -/
theorem up_spec (less : α → α → Bool) (fuel : Nat) (a : Array α) (j : Nat) :
    (up less fuel a j).toList.Perm a.toList ∧ ∀ k, j < k → (up less fuel a j)[k]? = a[k]? := by
  induction fuel generalizing a j with
  | zero => exact ⟨List.Perm.refl _, fun _ _ => rfl⟩
  | succ fuel ih =>
    rw [up]
    split
    · exact ⟨List.Perm.refl _, fun _ _ => rfl⟩
    obtain ⟨hperm, hkeep⟩ := ih (a.swapIfInBounds ((j - 1) / 2) j) ((j - 1) / 2)
    refine ⟨hperm.trans (swapIfInBounds_perm ..), fun k hk => ?_⟩
    rw [hkeep k (by omega), getElem?_swapIfInBounds_of_ne (by omega) (by omega)]

theorem child_lt (a : Array α) {i n : Nat} (h : 2 * i + 1 < n) : child less a i n < n := by
  rw [child]
  split
  · rename_i h'
    exact h'.1
  · exact h

/-- Moving an element down permutes the array and leaves what is from index `n` on. -/
theorem down_spec (less : α → α → Bool) (fuel : Nat) (a : Array α) (i n : Nat) :
    (down less fuel a i n).1.toList.Perm a.toList ∧
      ∀ k, n ≤ k → (down less fuel a i n).1[k]? = a[k]? := by
  induction fuel generalizing a i with
  | zero => exact ⟨List.Perm.refl _, fun _ _ => rfl⟩
  | succ fuel ih =>
    rw [down]
    split
    · exact ⟨List.Perm.refl _, fun _ _ => rfl⟩
    have hchild : child less a i n < n := child_lt a (by omega)
    obtain ⟨hperm, hkeep⟩ := ih (a.swapIfInBounds i (child less a i n)) (child less a i n)
    refine ⟨hperm.trans (swapIfInBounds_perm ..), fun k hk => ?_⟩
    rw [hkeep k hk, getElem?_swapIfInBounds_of_ne (by omega) (by omega)]

theorem push_perm (a : Array α) (x : α) : (push less a x).toList.Perm (x :: a.toList) := by
  refine (up_spec less _ _ _).1.trans ?_
  rw [toList_push]
  exact List.perm_append_singleton x a.toList

theorem getElem?_swapIfInBounds_right {i j : Nat} (hi : i < a.size) (hj : j < a.size) :
    (a.swapIfInBounds i j)[j]? = a[i]? := by
  grind

theorem popLast_spec {x : α} (h : a[a.size - 1]? = some x) :
    ∃ a', popLast a = some (x, a') ∧ a.toList.Perm (x :: a'.toList) := by
  have hback : a.back? = some x := by
    exact h
  refine ⟨a.pop, by rw [popLast, hback]; rfl, ?_⟩
  have hlist : a.toList = a.pop.toList ++ [x] := by
    refine (List.dropLast_append_getLast? x ?_).symm
    rw [getLast?_toList]
    exact hback
  rw [hlist]
  exact List.perm_append_singleton x a.pop.toList

theorem size_eq_of_perm {b : Array α} (h : b.toList.Perm a.toList) : b.size = a.size := by
  rw [← length_toList, ← length_toList, h.length_eq]

/-- The first element is taken. -/
theorem pop_of_head (less : α → α → Bool) {x : α} (h : a[0]? = some x) :
    ∃ a', pop less a = some (x, a') ∧ a.toList.Perm (x :: a'.toList) := by
  have hpos : 0 < a.size := by
    rw [getElem?_eq_some_iff] at h
    exact h.1
  obtain ⟨hperm, hkeep⟩ := down_spec less a.size (a.swapIfInBounds 0 (a.size - 1)) 0 (a.size - 1)
  have hperm := hperm.trans (swapIfInBounds_perm a 0 (a.size - 1))
  obtain ⟨a', ha', hrest⟩ := popLast_spec (x := x)
    (a := (down less a.size (a.swapIfInBounds 0 (a.size - 1)) 0 (a.size - 1)).1) (by
      rw [size_eq_of_perm hperm, hkeep _ (Nat.le_refl _),
        getElem?_swapIfInBounds_right hpos (Nat.sub_lt hpos Nat.one_pos), h])
  exact ⟨a', ha', hperm.symm.trans hrest⟩

theorem pop_eq_some {x : α} {a' : Array α} (h : pop less a = some (x, a')) :
    a[0]? = some x ∧ a.toList.Perm (x :: a'.toList) := by
  cases hfirst : a[0]? with
  | none =>
    have hsize : a.size = 0 := Nat.eq_zero_of_le_zero (getElem?_eq_none_iff.mp hfirst)
    obtain rfl : a = #[] := eq_empty_of_size_eq_zero hsize
    cases h
  | some y =>
    obtain ⟨b, hb, hperm⟩ := pop_of_head less hfirst
    rw [hb] at h
    cases h
    exact ⟨rfl, hperm⟩

/-- The element at an index is taken. -/
theorem remove_of_getElem? (less : α → α → Bool) {i : Nat} {x : α} (h : a[i]? = some x) :
    ∃ a', remove less a i = some (x, a') ∧ a.toList.Perm (x :: a'.toList) := by
  have hi : i < a.size := by
    rw [getElem?_eq_some_iff] at h
    exact h.1
  rw [remove]
  dsimp only
  split
  · rename_i hlast
    exact popLast_spec (by rw [hlast]; exact h)
  have hn : a.size - 1 < a.size := by omega
  have hswap := getElem?_swapIfInBounds_right hi hn
  obtain ⟨hdown, hkeep⟩ := down_spec less a.size (a.swapIfInBounds i (a.size - 1)) i (a.size - 1)
  have hdown := hdown.trans (swapIfInBounds_perm a i (a.size - 1))
  have hkeep := (hkeep (a.size - 1) (Nat.le_refl _)).trans (hswap.trans h)
  generalize down less a.size (a.swapIfInBounds i (a.size - 1)) i (a.size - 1) = d at hdown hkeep
  split
  · obtain ⟨a', ha', hrest⟩ := popLast_spec (by rw [size_eq_of_perm hdown]; exact hkeep)
    exact ⟨a', ha', hdown.symm.trans hrest⟩
  obtain ⟨hup, hafter⟩ := up_spec less a.size d.1 i
  have hup := hup.trans hdown
  obtain ⟨a', ha', hrest⟩ := popLast_spec (a := up less a.size d.1 i) (x := x) (by
    rw [size_eq_of_perm hup, hafter _ (by omega)]
    exact hkeep)
  exact ⟨a', ha', hup.symm.trans hrest⟩

end Lemmas

end BinaryHeap
