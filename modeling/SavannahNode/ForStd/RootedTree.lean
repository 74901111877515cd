import Mathlib.Data.Finset.Card

/-!
# Finite rooted trees given by parents

A finite set of nodes with a root, in which every other node has a parent. `path a` lists
the nodes from `a` up to, and without, the root; it is empty for the root and for
anything outside the tree, so `c ∈ path a` says that `c` is a node other than the root
and an ancestor of `a`, or `a` itself.

## Key results

- `RootedTree.mem_path_total`: the ancestors of a node are comparable
- `RootedTree.child_unique`: a node has at most one child on each path
- `RootedTree.path_addLeaf`, `RootedTree.path_subtree`: paths in a grown or pruned tree
- `RootedTree.cone_expand`: replacing a node by its children takes just the node away
-/

namespace SavannahNode

open Finset List

universe u

/-- A finite tree with a root and parent pointers. -/
structure RootedTree (α : Type u) [DecidableEq α] where
  nodes : Finset α
  root : α
  parent : α → α
  root_mem : root ∈ nodes
  parent_mem : ∀ a ∈ nodes, a ≠ root → parent a ∈ nodes
  acyclic : ∃ rank : α → ℕ, ∀ a ∈ nodes, a ≠ root → rank (parent a) < rank a

namespace RootedTree

variable {α : Type u} [DecidableEq α] (T : RootedTree α)

/-- At most `fuel` steps of the way from a node to the root. -/
def pathAux : ℕ → α → List α
  | 0, _ => []
  | fuel + 1, a => if a ∈ T.nodes ∧ a ≠ T.root then a :: pathAux fuel (T.parent a) else []

/-- The nodes from `a` up to, and without, the root. -/
def path (a : α) : List α := T.pathAux T.nodes.card a

/-- Going from the root to the leaves. -/
theorem induction {P : α → Prop} (hroot : P T.root)
    (hstep : ∀ a ∈ T.nodes, a ≠ T.root → P (T.parent a) → P a) : ∀ a ∈ T.nodes, P a := by
  obtain ⟨rank, hrank⟩ := T.acyclic
  suffices h : ∀ n, ∀ a ∈ T.nodes, rank a = n → P a from fun a ha => h _ a ha rfl
  intro n
  induction n using Nat.strongRecOn with
  | ind n ih =>
    intro a ha hn
    by_cases hr : a = T.root
    · exact hr ▸ hroot
    · exact hstep a ha hr (ih _ (hn ▸ hrank a ha hr) _ (T.parent_mem a ha hr) rfl)

/-! ## The length of a path -/

variable {a c p : α}

private theorem mem_pathAux {fuel : ℕ} (h : c ∈ T.pathAux fuel a) : c ∈ T.nodes ∧ c ≠ T.root := by
  induction fuel generalizing a with
  | zero => cases h
  | succ fuel ih =>
    rw [pathAux] at h
    split at h
    · rename_i ha
      rcases mem_cons.mp h with rfl | h
      · exact ha
      · exact ih h
    · cases h

private theorem nodup_pathAux (fuel : ℕ) (a : α) : (T.pathAux fuel a).Nodup := by
  obtain ⟨rank, hrank⟩ := T.acyclic
  -- ranks fall along the path
  have hfall : ∀ (fuel : ℕ) (a : α), ∀ c ∈ T.pathAux fuel a, rank c ≤ rank a := by
    intro fuel
    induction fuel with
    | zero => exact fun a c h => by cases h
    | succ fuel ih =>
      intro a c h
      rw [pathAux] at h
      split at h
      · rename_i ha
        rcases mem_cons.mp h with rfl | h
        · exact Nat.le_refl _
        · exact Nat.le_of_lt (Nat.lt_of_le_of_lt (ih _ c h) (hrank a ha.1 ha.2))
      · cases h
  induction fuel generalizing a with
  | zero => exact nodup_nil
  | succ fuel ih =>
    rw [pathAux]
    split
    · rename_i ha
      refine nodup_cons.mpr ⟨fun h => ?_, ih _⟩
      exact absurd (hfall fuel _ a h) (Nat.not_le.mpr (hrank a ha.1 ha.2))
    · exact nodup_nil

/-- A path misses the root, so the number of nodes is fuel enough. -/
private theorem length_pathAux_lt (fuel : ℕ) (a : α) :
    (T.pathAux fuel a).length < T.nodes.card := by
  have hsub : (T.pathAux fuel a).toFinset ⊆ T.nodes.erase T.root := by
    intro c hc
    obtain ⟨hmem, hne⟩ := T.mem_pathAux (mem_toFinset.mp hc)
    exact mem_erase.mpr ⟨hne, hmem⟩
  have hle := card_le_card hsub
  rw [toFinset_card_of_nodup (T.nodup_pathAux fuel a), card_erase_of_mem T.root_mem] at hle
  have := card_pos.mpr ⟨T.root, T.root_mem⟩
  omega

private theorem pathAux_succ {fuel : ℕ} (h : (T.pathAux fuel a).length < fuel) :
    T.pathAux (fuel + 1) a = T.pathAux fuel a := by
  induction fuel generalizing a with
  | zero => cases h
  | succ fuel ih =>
    by_cases ha : a ∈ T.nodes ∧ a ≠ T.root
    · have hstep : ∀ n, T.pathAux (n + 1) a = a :: T.pathAux n (T.parent a) := fun n => if_pos ha
      rw [hstep, length_cons] at h
      rw [hstep, hstep, ih (by omega)]
    have hstep : ∀ n, T.pathAux (n + 1) a = [] := fun n => if_neg ha
    rw [hstep, hstep]

/-- The equation of `path` at a node other than the root. -/
theorem path_cons (ha : a ∈ T.nodes) (hr : a ≠ T.root) : T.path a = a :: T.path (T.parent a) := by
  rw [path, ← T.pathAux_succ (T.length_pathAux_lt _ a), pathAux, if_pos ⟨ha, hr⟩]
  rfl

theorem path_eq_nil (h : ¬ (a ∈ T.nodes ∧ a ≠ T.root)) : T.path a = [] := by
  rw [path]
  cases T.nodes.card with
  | zero => rfl
  | succ n => rw [pathAux, if_neg h]

@[simp] theorem path_root : T.path T.root = [] := T.path_eq_nil fun h => h.2 rfl

theorem length_path_lt (a : α) : (T.path a).length < T.nodes.card := T.length_pathAux_lt _ a

theorem nodup_path (a : α) : (T.path a).Nodup := T.nodup_pathAux _ a

/-! ## Ancestors -/

variable {T}

theorem mem_of_mem_path (h : c ∈ T.path a) : c ∈ T.nodes ∧ c ≠ T.root := T.mem_pathAux h

/-- Only nodes other than the root have a path. -/
theorem of_mem_path (h : c ∈ T.path a) : a ∈ T.nodes ∧ a ≠ T.root := by
  by_contra hn
  rw [T.path_eq_nil hn] at h
  cases h

theorem mem_path_iff :
    c ∈ T.path a ↔ (a ∈ T.nodes ∧ a ≠ T.root) ∧ (c = a ∨ c ∈ T.path (T.parent a)) := by
  constructor
  · intro h
    have ha := of_mem_path h
    rw [T.path_cons ha.1 ha.2] at h
    exact ⟨ha, mem_cons.mp h⟩
  rintro ⟨ha, h⟩
  rw [T.path_cons ha.1 ha.2]
  exact mem_cons.mpr h

theorem self_mem_path (ha : a ∈ T.nodes) (hr : a ≠ T.root) : a ∈ T.path a :=
  mem_path_iff.mpr ⟨⟨ha, hr⟩, .inl rfl⟩

/-- An ancestor's path is the rest of the path. -/
theorem path_suffix (h : c ∈ T.path a) : T.path c <:+ T.path a := by
  have ha := of_mem_path h
  revert c
  refine T.induction (P := fun a => ∀ {c}, c ∈ T.path a → T.path c <:+ T.path a) ?_ ?_ a ha.1
  · intro c h
    rw [path_root] at h
    cases h
  intro a ha hr ih c h
  rcases (mem_path_iff.mp h).2 with rfl | h
  · exact suffix_rfl
  rw [T.path_cons ha hr]
  exact (ih h).trans (suffix_cons _ _)

theorem mem_path_trans {b : α} (h : c ∈ T.path b) (h' : b ∈ T.path a) : c ∈ T.path a :=
  (path_suffix h').subset h

/-- The ancestors of a node are comparable. -/
theorem mem_path_total {d : α} (hc : c ∈ T.path a) (hd : d ∈ T.path a) :
    c ∈ T.path d ∨ d ∈ T.path c := by
  have hcm := mem_of_mem_path hc
  have hdm := mem_of_mem_path hd
  rcases suffix_or_suffix_of_suffix (path_suffix hc) (path_suffix hd) with h | h
  · exact .inl (h.subset (self_mem_path hcm.1 hcm.2))
  · exact .inr (h.subset (self_mem_path hdm.1 hdm.2))

/-- A node is not an ancestor of its parent. -/
theorem notMem_path_parent (ha : a ∈ T.nodes) (hr : a ≠ T.root) : a ∉ T.path (T.parent a) := by
  have h := T.nodup_path a
  rw [T.path_cons ha hr] at h
  exact (nodup_cons.mp h).1

/-- A proper ancestor of `a` is an ancestor of its parent. -/
theorem mem_path_parent (h : c ∈ T.path a) (hne : c ≠ a) : c ∈ T.path (T.parent a) :=
  (mem_path_iff.mp h).2.resolve_left hne

/-! ## Descendants -/

/-- `a` is a proper descendant of `p`: a child of `p` is on its path. -/
def Below (T : RootedTree α) (p a : α) : Prop := ∃ c ∈ T.path a, T.parent c = p

instance (p a : α) : Decidable (T.Below p a) :=
  inferInstanceAs (Decidable (∃ c ∈ T.path a, T.parent c = p))

/-- A node has at most one child on each path. -/
theorem child_unique {d : α} (hc : c ∈ T.path a) (hd : d ∈ T.path a) (hcp : T.parent c = p)
    (hdp : T.parent d = p) : c = d := by
  rcases mem_path_total hc hd with h | h
  · by_contra hne
    have := mem_path_parent h hne
    rw [hdp, ← hcp] at this
    have hm := mem_of_mem_path hc
    exact notMem_path_parent hm.1 hm.2 this
  by_contra hne
  have := mem_path_parent h (Ne.symm hne)
  rw [hcp, ← hdp] at this
  have hm := mem_of_mem_path hd
  exact notMem_path_parent hm.1 hm.2 this

/-- Everything but the root is below the root. -/
theorem below_root_iff : T.Below T.root a ↔ a ∈ T.nodes ∧ a ≠ T.root := by
  constructor
  · rintro ⟨c, hc, -⟩
    exact of_mem_path hc
  rintro ⟨ha, hr⟩
  revert hr
  refine T.induction (P := fun a => a ≠ T.root → T.Below T.root a) (fun h => absurd rfl h) ?_ a ha
  intro a ha hr ih _
  by_cases hp : T.parent a = T.root
  · exact ⟨a, self_mem_path ha hr, hp⟩
  obtain ⟨c, hc, hcp⟩ := ih hp
  exact ⟨c, mem_path_iff.mpr ⟨⟨ha, hr⟩, .inr hc⟩, hcp⟩

/-- Below another node are its proper descendants. -/
theorem below_iff (hp : p ≠ T.root) : T.Below p a ↔ p ∈ T.path a ∧ p ≠ a := by
  constructor
  · rintro ⟨c, hc, rfl⟩
    have hm := mem_of_mem_path hc
    have hpc : T.parent c ∈ T.path c := by
      rw [T.path_cons hm.1 hm.2]
      exact mem_cons_of_mem _ (self_mem_path (T.parent_mem c hm.1 hm.2) hp)
    refine ⟨mem_path_trans hpc hc, ?_⟩
    rintro rfl
    exact notMem_path_parent hm.1 hm.2 hc
  rintro ⟨h, hne⟩
  have ha := of_mem_path h
  revert h hne
  refine T.induction (P := fun a => p ∈ T.path a → p ≠ a → T.Below p a) ?_ ?_ a ha.1
  · intro h
    rw [path_root] at h
    cases h
  intro a ha hr ih h hne
  by_cases hpa : T.parent a = p
  · exact ⟨a, self_mem_path ha hr, hpa⟩
  obtain ⟨c, hc, hcp⟩ := ih (mem_path_parent h hne) (Ne.symm hpa)
  exact ⟨c, mem_path_iff.mpr ⟨⟨ha, hr⟩, .inr hc⟩, hcp⟩

/-- `a` is a child of `p`. -/
def IsChild (T : RootedTree α) (p a : α) : Prop := a ∈ T.nodes ∧ a ≠ T.root ∧ T.parent a = p

instance (p a : α) : Decidable (T.IsChild p a) :=
  inferInstanceAs (Decidable (a ∈ T.nodes ∧ a ≠ T.root ∧ T.parent a = p))

/-- The children of a node. -/
def children (T : RootedTree α) (p : α) : Finset α :=
  T.nodes.filter fun a => a ≠ T.root ∧ T.parent a = p

theorem mem_children : a ∈ T.children p ↔ T.IsChild p a := mem_filter

/-- A child of `p` is below `p`. -/
theorem below_parent (ha : a ∈ T.nodes) (hr : a ≠ T.root) : T.Below (T.parent a) a :=
  ⟨a, self_mem_path ha hr, rfl⟩

theorem Below.mem (h : T.Below p a) : a ∈ T.nodes ∧ a ≠ T.root :=
  h.elim fun _ hc => of_mem_path hc.1

theorem Below.mem_left (h : T.Below p a) : p ∈ T.nodes := by
  obtain ⟨c, hc, rfl⟩ := h
  have hm := mem_of_mem_path hc
  exact T.parent_mem c hm.1 hm.2

/-- What is below a node of the path of `b` has `b`'s node on its path. -/
theorem Below.trans_path {b : α} (h : T.Below p b) (h' : b ∈ T.path a) : T.Below p a := by
  obtain ⟨c, hc, hcp⟩ := h
  exact ⟨c, mem_path_trans hc h', hcp⟩

/-- A proper descendant that is no child is a proper descendant's descendant. -/
theorem below_parent_of_below (h : T.Below p a) (hne : T.parent a ≠ p) :
    T.Below p (T.parent a) := by
  obtain ⟨c, hc, hcp⟩ := h
  refine ⟨c, mem_path_parent hc ?_, hcp⟩
  rintro rfl
  exact hne hcp

/-! ## Growing and pruning -/

/-- The tree with just a root. -/
def single (r : α) : RootedTree α where
  nodes := {r}
  root := r
  parent := fun a => a
  root_mem := Finset.mem_singleton_self r
  parent_mem := fun _ ha _ => ha
  acyclic := ⟨fun _ => 0, fun _ ha hr => absurd (Finset.mem_singleton.mp ha) hr⟩

/-- The tree with a new leaf `a` under `p`. -/
def addLeaf (T : RootedTree α) (a p : α) (ha : a ∉ T.nodes) (hp : p ∈ T.nodes) : RootedTree α where
  nodes := insert a T.nodes
  root := T.root
  parent := Function.update T.parent a p
  root_mem := Finset.mem_insert_of_mem T.root_mem
  parent_mem := by
    intro b hb hr
    by_cases hba : b = a
    · subst hba
      rw [Function.update_self]
      exact Finset.mem_insert_of_mem hp
    rw [Function.update_of_ne hba]
    exact Finset.mem_insert_of_mem (T.parent_mem b (Finset.mem_of_mem_insert_of_ne hb hba) hr)
  acyclic := by
    obtain ⟨rank, hrank⟩ := T.acyclic
    refine ⟨Function.update rank a (rank p + 1), fun b hb hr => ?_⟩
    by_cases hba : b = a
    · subst hba
      have hpb : p ≠ b := fun h => ha (h ▸ hp)
      rw [Function.update_self, Function.update_self, Function.update_of_ne hpb]
      exact Nat.lt_succ_self _
    have hb := Finset.mem_of_mem_insert_of_ne hb hba
    have hpa : T.parent b ≠ a := fun h => ha (h ▸ T.parent_mem b hb hr)
    rw [Function.update_of_ne hba, Function.update_of_ne hpa, Function.update_of_ne hba]
    exact hrank b hb hr

section addLeaf

variable {a p : α} (ha : a ∉ T.nodes) (hp : p ∈ T.nodes)

@[simp] theorem nodes_addLeaf : (T.addLeaf a p ha hp).nodes = insert a T.nodes := rfl

@[simp] theorem root_addLeaf : (T.addLeaf a p ha hp).root = T.root := rfl

theorem parent_addLeaf_self : (T.addLeaf a p ha hp).parent a = p := Function.update_self ..

variable {b : α}

theorem parent_addLeaf_of_mem (hb : b ∈ T.nodes) : (T.addLeaf a p ha hp).parent b = T.parent b :=
  Function.update_of_ne (fun h : b = a => ha (h ▸ hb)) ..

/-- A new leaf changes no path of the old tree. -/
theorem path_addLeaf (hb : b ∈ T.nodes) : (T.addLeaf a p ha hp).path b = T.path b := by
  refine T.induction (P := fun b => (T.addLeaf a p ha hp).path b = T.path b) ?_ ?_ b hb
  · rw [path_root]
    exact (T.addLeaf a p ha hp).path_root
  intro b hb hr ih
  rw [T.path_cons hb hr, (T.addLeaf a p ha hp).path_cons (mem_insert_of_mem hb) hr,
    parent_addLeaf_of_mem ha hp hb, ih]

theorem path_addLeaf_self : (T.addLeaf a p ha hp).path a = a :: T.path p := by
  have hr : a ≠ T.root := fun heq => ha (heq ▸ T.root_mem)
  rw [(T.addLeaf a p ha hp).path_cons (mem_insert_self _ _) hr, parent_addLeaf_self,
    path_addLeaf ha hp hp]

theorem isChild_addLeaf_self {q : α} : (T.addLeaf a p ha hp).IsChild q a ↔ p = q := by
  have hr : a ≠ T.root := fun h => ha (h ▸ T.root_mem)
  rw [IsChild, parent_addLeaf_self]
  exact ⟨fun h => h.2.2, fun h => ⟨mem_insert_self _ _, hr, h⟩⟩

theorem isChild_addLeaf_of_ne {q : α} (hb : b ≠ a) :
    (T.addLeaf a p ha hp).IsChild q b ↔ T.IsChild q b := by
  have hparent : (T.addLeaf a p ha hp).parent b = T.parent b := Function.update_of_ne hb ..
  rw [IsChild, IsChild, hparent, nodes_addLeaf, root_addLeaf, mem_insert, or_iff_right hb]

/-- The new leaf has no children. -/
theorem not_isChild_addLeaf : ¬ (T.addLeaf a p ha hp).IsChild a b := by
  intro h
  by_cases hb : b = a
  · subst hb
    exact ha ((isChild_addLeaf_self ha hp).mp h ▸ hp)
  obtain ⟨hbm, hbr, hbp⟩ := (isChild_addLeaf_of_ne ha hp hb).mp h
  exact ha (hbp ▸ T.parent_mem b hbm hbr)

end addLeaf

/-- The sub-tree of a node `c` other than the root. -/
def subtree (T : RootedTree α) (c : α) (hc : c ∈ T.nodes) (hr : c ≠ T.root) : RootedTree α where
  nodes := T.nodes.filter fun a => c ∈ T.path a
  root := c
  parent := T.parent
  root_mem := Finset.mem_filter.mpr ⟨hc, self_mem_path hc hr⟩
  parent_mem := by
    intro a ha hne
    obtain ⟨hmem, h⟩ := Finset.mem_filter.mp ha
    exact Finset.mem_filter.mpr ⟨T.parent_mem a hmem (of_mem_path h).2, mem_path_parent h (Ne.symm hne)⟩
  acyclic := by
    obtain ⟨rank, hrank⟩ := T.acyclic
    refine ⟨rank, fun a ha _ => ?_⟩
    obtain ⟨hmem, h⟩ := Finset.mem_filter.mp ha
    exact hrank a hmem (of_mem_path h).2

section subtree

variable {c : α} (hc : c ∈ T.nodes) (hr : c ≠ T.root)

variable {a : α}

@[simp] theorem mem_subtree : a ∈ (T.subtree c hc hr).nodes ↔ c ∈ T.path a := by
  refine ⟨fun h => (mem_filter.mp h).2, fun h => mem_filter.mpr ⟨?_, h⟩⟩
  exact (of_mem_path h).1

/-- In the sub-tree a path ends earlier. -/
theorem path_subtree (ha : c ∈ T.path a) : T.path a = (T.subtree c hc hr).path a ++ T.path c := by
  refine (T.subtree c hc hr).induction
    (P := fun a => T.path a = (T.subtree c hc hr).path a ++ T.path c) ?_ ?_ a
    ((mem_subtree hc hr).mpr ha)
  · rw [path_root, nil_append]
    rfl
  · intro a ha hne ih
    have hm := of_mem_path ((mem_subtree hc hr).mp ha)
    rw [T.path_cons hm.1 hm.2, (T.subtree c hc hr).path_cons ha hne, cons_append, ← ih]
    rfl

/-- The sub-tree is closed under children. -/
theorem mem_path_of_parent (ha : a ∈ T.nodes) (har : a ≠ T.root) (h : c ∈ T.path (T.parent a)) :
    c ∈ T.path a :=
  mem_path_iff.mpr ⟨⟨ha, har⟩, .inr h⟩

/-- The path in the sub-tree of a child of the root: one node shorter. -/
theorem mem_path_subtree (hroot : T.parent c = T.root) {b : α} (ha : c ∈ T.path a) :
    b ∈ (T.subtree c hc hr).path a ↔ b ∈ T.path a ∧ b ≠ c := by
  have hpath := path_subtree hc hr ha
  rw [T.path_cons hc hr, hroot, path_root] at hpath
  have hnot : b ∈ (T.subtree c hc hr).path a → b ≠ c := fun h => (mem_of_mem_path h).2
  rw [hpath, List.mem_append, List.mem_singleton]
  tauto

theorem length_path_subtree (hroot : T.parent c = T.root) (ha : c ∈ T.path a) :
    (T.path a).length = ((T.subtree c hc hr).path a).length + 1 := by
  have hpath := path_subtree hc hr ha
  rw [T.path_cons hc hr, hroot, path_root] at hpath
  rw [hpath, length_append]
  rfl

/-- In the sub-tree nodes keep their children. -/
theorem isChild_subtree {q : α} (hq : c ∈ T.path q) :
    (T.subtree c hc hr).IsChild q a ↔ T.IsChild q a := by
  constructor
  · rintro ⟨ha, -, hp⟩
    have := of_mem_path ((mem_subtree hc hr).mp ha)
    exact ⟨this.1, this.2, hp⟩
  rintro ⟨ha, har, rfl⟩
  refine ⟨(mem_subtree hc hr).mpr (mem_path_of_parent ha har hq), ?_, rfl⟩
  rintro rfl
  exact notMem_path_parent ha har hq

end subtree

/-! ## Forests -/

/-- The nodes of the sub-trees of some nodes. -/
def cone (T : RootedTree α) (l : List α) : Finset α := T.nodes.filter fun a => ∃ s ∈ l, s ∈ T.path a

theorem mem_cone {l : List α} : a ∈ T.cone l ↔ ∃ s ∈ l, s ∈ T.path a := by
  refine ⟨fun h => (mem_filter.mp h).2, fun h => mem_filter.mpr ⟨?_, h⟩⟩
  obtain ⟨s, -, hs⟩ := h
  exact (of_mem_path hs).1

@[simp] theorem cone_nil : T.cone [] = ∅ := by
  ext a
  simp [mem_cone]

/-- No node of the list is in the sub-tree of another one. -/
def Antichain (T : RootedTree α) (l : List α) : Prop :=
  l.Pairwise fun s s' => s ∉ T.path s' ∧ s' ∉ T.path s

/-- The children of a node, each listed once, form an antichain. -/
theorem antichain_children {cs : List α} (hn : cs.Nodup) (hcs : ∀ c ∈ cs, T.IsChild p c) :
    T.Antichain cs := by
  have hne : ∀ c ∈ cs, ∀ d ∈ cs, c ≠ d → c ∉ T.path d := by
    intro c hc d hd hcd h
    have hdm := (hcs d hd)
    exact hcd (child_unique h (self_mem_path hdm.1 hdm.2.1) (hcs c hc).2.2 hdm.2.2)
  exact hn.imp_of_mem fun hc hd hcd => ⟨hne _ hc _ hd hcd, hne _ hd _ hc (Ne.symm hcd)⟩

/-- The sub-trees of the siblings of `c`, a child of the root: everything that is neither
    the root nor in the sub-tree of `c`. -/
theorem mem_cone_siblings {l : List α} (hc : T.IsChild T.root c)
    (hl : ∀ s, s ∈ l ↔ T.IsChild T.root s ∧ s ≠ c) :
    a ∈ T.cone l ↔ a ∈ T.nodes ∧ a ≠ T.root ∧ c ∉ T.path a := by
  rw [mem_cone]
  constructor
  · rintro ⟨s, hs, hsa⟩
    obtain ⟨hchild, hne⟩ := (hl s).mp hs
    refine ⟨(of_mem_path hsa).1, (of_mem_path hsa).2, fun hca => hne ?_⟩
    exact child_unique hsa hca hchild.2.2 hc.2.2
  rintro ⟨ha, har, hca⟩
  obtain ⟨s, hsa, hsp⟩ := below_root_iff.mpr ⟨ha, har⟩
  have hsm := mem_of_mem_path hsa
  refine ⟨s, (hl s).mpr ⟨⟨hsm.1, hsm.2, hsp⟩, ?_⟩, hsa⟩
  rintro rfl
  exact hca hsa

section expand

variable {s : α} {cs rest : List α} (hcs : ∀ c, c ∈ cs ↔ T.IsChild s c)
  (hs : T.Antichain (s :: rest)) (hsm : s ∈ T.nodes) (hsr : s ≠ T.root)
include hcs hs hsm hsr

/-- Replacing a node by its children takes just the node away. -/
theorem cone_expand : T.cone (cs ++ rest) = (T.cone (s :: rest)).erase s := by
  have hrest := (pairwise_cons.mp hs).1
  ext a
  rw [mem_erase, mem_cone, mem_cone]
  constructor
  · rintro ⟨c, hc, hca⟩
    rcases mem_append.mp hc with hc | hc
    · obtain ⟨hcm, hcr, hcp⟩ := (hcs c).mp hc
      have hbelow : T.Below s a := ⟨c, hca, hcp⟩
      obtain ⟨hsa, hne⟩ := (below_iff hsr).mp hbelow
      exact ⟨Ne.symm hne, s, mem_cons_self, hsa⟩
    refine ⟨?_, c, mem_cons_of_mem _ hc, hca⟩
    rintro rfl
    exact (hrest c hc).2 hca
  · rintro ⟨hne, c, hc, hca⟩
    rcases mem_cons.mp hc with rfl | hc
    · obtain ⟨d, hd, hdp⟩ := (below_iff hsr).mpr ⟨hca, Ne.symm hne⟩
      have hdm := mem_of_mem_path hd
      exact ⟨d, mem_append_left _ ((hcs d).mpr ⟨hdm.1, hdm.2, hdp⟩), hd⟩
    · exact ⟨c, mem_append_right _ hc, hca⟩

theorem antichain_expand (hn : cs.Nodup) : T.Antichain (cs ++ rest) := by
  obtain ⟨hrest, hanti⟩ := pairwise_cons.mp hs
  refine pairwise_append.mpr ⟨antichain_children hn fun c hc => (hcs c).mp hc, hanti, ?_⟩
  intro c hc d hd
  obtain ⟨hcm, hcr, rfl⟩ := (hcs c).mp hc
  have hpc : T.parent c ∈ T.path c := by
    rw [T.path_cons hcm hcr]
    exact mem_cons_of_mem _ (self_mem_path hsm hsr)
  refine ⟨fun h => (hrest d hd).1 (mem_path_trans hpc h), fun h => ?_⟩
  -- an ancestor of the child is the child or an ancestor of the node
  rcases (mem_path_iff.mp h).2 with rfl | h
  · exact (hrest d hd).1 hpc
  · exact (hrest d hd).2 h

end expand

end RootedTree

end SavannahNode
