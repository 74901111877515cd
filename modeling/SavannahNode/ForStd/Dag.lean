import Mathlib.Algebra.Order.BigOperators.Group.Finset
import Mathlib.Data.Finset.Max

/-!
# Directed graphs given by parents

A graph given by the list of parents of each vertex; a parent may be listed more than once.
`inDegree` counts the links into a vertex from the vertices of a set, and a set without
cycles has a vertex that no link of the set leads to.
-/

namespace SavannahNode.Dag

universe u

variable {α : Type u} {parents : α → List α} {S : Finset α}

/-- `v` can be reached from `w` through parents. -/
def Ancestor (parents : α → List α) (w v : α) : Prop :=
  Relation.ReflTransGen (fun a b => b ∈ parents a) w v

theorem Ancestor.refl (v : α) : Ancestor parents v v := Relation.ReflTransGen.refl

theorem Ancestor.tail {w v p : α} (h : Ancestor parents w v) (hp : p ∈ parents v) :
    Ancestor parents w p :=
  Relation.ReflTransGen.tail h hp

theorem Ancestor.trans {w v p : α} (h : Ancestor parents w v) (h' : Ancestor parents v p) :
    Ancestor parents w p :=
  Relation.ReflTransGen.trans h h'

/-- A set that contains the parents of its vertices contains their ancestors. -/
theorem Ancestor.mem_of_closed (hS : ∀ u ∈ S, ∀ p ∈ parents u, p ∈ S) {w v : α}
    (h : Ancestor parents w v) (hw : w ∈ S) : v ∈ S := by
  induction h with
  | refl => exact hw
  | tail _ hp ih => exact hS _ ih _ hp

variable [DecidableEq α]

/-- The number of links from vertices of `S` to `v`. -/
def inDegree (parents : α → List α) (S : Finset α) (v : α) : ℕ := ∑ u ∈ S, (parents u).count v

theorem inDegree_insert {u : α} (hu : u ∉ S) (v : α) :
    inDegree parents (insert u S) v = (parents u).count v + inDegree parents S v :=
  Finset.sum_insert hu

theorem inDegree_eq_zero_iff {v : α} : inDegree parents S v = 0 ↔ ∀ u ∈ S, v ∉ parents u := by
  rw [inDegree, Finset.sum_eq_zero_iff]
  exact forall₂_congr fun u _ => List.count_eq_zero

/-- Where parents are lower than their children, a set of vertices that isn't empty has one
    that no link of the set leads to. -/
theorem exists_inDegree_eq_zero (hS : S.Nonempty) {height : α → ℕ}
    (hh : ∀ u ∈ S, ∀ p ∈ parents u, height p < height u) : ∃ v ∈ S, inDegree parents S v = 0 := by
  obtain ⟨v, hv, hmax⟩ := S.exists_max_image height hS
  refine ⟨v, hv, inDegree_eq_zero_iff.mpr fun u hu hp => ?_⟩
  have hlt := hh u hu v hp
  have hle := hmax u hu
  omega

end SavannahNode.Dag
