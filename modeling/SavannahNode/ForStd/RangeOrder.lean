import Mathlib.Data.Finset.Basic
import Mathlib.Data.List.Sort

/-!
# Range orders

A loop over an unordered set visits its elements in an order that the language leaves
open. `RangeOrder α` is one way to resolve this: a list of the elements for every set.
-/

namespace SavannahNode

open List

universe u

/-- A choice, for every set, of the order in which a range visits its elements. -/
structure RangeOrder (α : Type u) where
  list : Finset α → List α
  nodup_list : ∀ s, (list s).Nodup
  mem_list : ∀ s a, a ∈ list s ↔ a ∈ s

namespace RangeOrder

variable {α : Type u}

section

variable (order : RangeOrder α)

@[simp] theorem list_empty : order.list ∅ = [] :=
  eq_nil_iff_forall_not_mem.mpr fun a h => Finset.notMem_empty a ((order.mem_list ∅ a).mp h)

@[simp] theorem list_singleton (a : α) : order.list {a} = [a] := by
  refine perm_singleton.mp ((perm_ext_iff_of_nodup (order.nodup_list _)
    (nodup_singleton _)).mpr fun x => ?_)
  rw [order.mem_list, Finset.mem_singleton, mem_singleton]

theorem list_eq_nil_iff {s : Finset α} : order.list s = [] ↔ s = ∅ := by
  constructor
  · intro h
    refine Finset.eq_empty_of_forall_notMem fun a ha => ?_
    have := (order.mem_list s a).mpr ha
    rw [h] at this
    cases this
  · rintro rfl
    exact order.list_empty

@[simp] theorem toFinset_list [DecidableEq α] (s : Finset α) : (order.list s).toFinset = s := by
  ext a
  rw [mem_toFinset, order.mem_list]

end

/-- Visit the elements by ascending key. -/
def ascending (key : α → ℕ) (hkey : Function.Injective key) : RangeOrder α :=
  have htotal : Std.Total fun a b => key a ≤ key b := ⟨fun a b => Nat.le_total _ _⟩
  have htrans : IsTrans α fun a b => key a ≤ key b := ⟨fun _ _ _ => Nat.le_trans⟩
  have hantisymm : Std.Antisymm fun a b => key a ≤ key b :=
    ⟨fun _ _ h h' => hkey (Nat.le_antisymm h h')⟩
  { list := fun s => Quotient.liftOn s.val (insertionSort fun a b => key a ≤ key b)
      fun l l' h => List.Perm.eq_of_pairwise' (pairwise_insertionSort _ _)
        (pairwise_insertionSort _ _)
        ((perm_insertionSort _ _).trans (h.trans (perm_insertionSort _ _).symm))
    nodup_list := by
      rintro ⟨⟨l⟩, h⟩
      exact (perm_insertionSort _ l).nodup_iff.mpr h
    mem_list := by
      rintro ⟨⟨l⟩, h⟩ a
      exact (perm_insertionSort _ l).mem_iff }

end RangeOrder

end SavannahNode
