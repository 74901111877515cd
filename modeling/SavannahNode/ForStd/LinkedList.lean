import Mathlib.Data.List.Basic

/-!
# Doubly linked lists in a map

A doubly linked list that is stored under the keys of its elements: every key has a cell with
its value and the keys before and after it. `cells` gives the cells that represent a list;
the lemmas say how they change with the list, in terms of the cells themselves.
-/

namespace LinkedList

open List

universe u v

/-- A cell: a value, and the keys after and before it. -/
structure Cell (κ : Type u) (α : Type v) where
  value : α
  next : Option κ
  prev : Option κ
deriving DecidableEq

variable {κ : Type u} {α : Type v}

/-- The first key of a list. -/
def first (l : List (κ × α)) : Option κ := l.head?.map Prod.fst

@[simp] theorem first_nil : first ([] : List (κ × α)) = none := rfl

@[simp] theorem first_cons (e : κ × α) (l : List (κ × α)) : first (e :: l) = some e.1 := rfl

theorem first_mem {l : List (κ × α)} {k : κ} (h : first l = some k) : k ∈ l.map Prod.fst := by
  cases l with
  | nil => simp at h
  | cons e l =>
    rw [first_cons, Option.some.injEq] at h
    simp [h]

variable [DecidableEq κ]

/-- The cells of a list that comes after the key `prev`. -/
def cells : Option κ → List (κ × α) → κ → Option (Cell κ α)
  | _, [], _ => none
  | prev, (k, v) :: l, key =>
    if key = k then some { value := v, next := first l, prev } else cells (some k) l key

variable {p p' : Option κ} {l : List (κ × α)} {k key : κ} {v : α} {c c' : Cell κ α}

@[simp] theorem cells_nil : cells p ([] : List (κ × α)) key = none := rfl

theorem cells_cons_self : cells p ((k, v) :: l) k = some { value := v, next := first l, prev := p } :=
  if_pos rfl

theorem cells_cons_of_ne (h : key ≠ k) : cells p ((k, v) :: l) key = cells (some k) l key := if_neg h

theorem cells_cons_eq_some {k0 : κ} : cells p ((k0, v) :: l) k = some c ↔
    k = k0 ∧ c = { value := v, next := first l, prev := p } ∨ k ≠ k0 ∧ cells (some k0) l k = some c := by
  by_cases h : k = k0
  · subst h
    simp [cells_cons_self, eq_comm]
  · simp [cells_cons_of_ne h, h]

/-- Exactly the keys of the list have a cell. -/
theorem cells_eq_none : cells p l key = none ↔ key ∉ l.map Prod.fst := by
  induction l generalizing p with
  | nil => simp
  | cons e l ih =>
    obtain ⟨k, v⟩ := e
    by_cases h : key = k
    · subst h
      simp [cells_cons_self]
    rw [cells_cons_of_ne h, ih]
    simp [h]

theorem mem_of_cells (h : cells p l key = some c) : key ∈ l.map Prod.fst := by
  by_contra hnot
  rw [cells_eq_none.mpr hnot] at h
  cases h

theorem exists_cells (h : key ∈ l.map Prod.fst) : ∃ c, cells p l key = some c := by
  cases hc : cells p l key with
  | none => exact absurd h (cells_eq_none.mp hc)
  | some c => exact ⟨c, rfl⟩

/-- The key before the list is stored in the first cell only. -/
theorem cells_relink : cells p' l key =
    if first l = some key then (cells p l key).map (fun c => { c with prev := p' }) else cells p l key := by
  cases l with
  | nil => simp
  | cons e l =>
    obtain ⟨k, v⟩ := e
    by_cases h : key = k
    · subst h
      simp [cells_cons_self]
    · rw [if_neg (by simpa using Ne.symm h), cells_cons_of_ne h, cells_cons_of_ne h]

/-- The cells in the middle of a list. -/
theorem cells_append_cons {pre post : List (κ × α)}
    (h : ((pre ++ (k, v) :: post).map Prod.fst).Nodup) :
    ∃ prev, cells p (pre ++ (k, v) :: post) k = some { value := v, next := first post, prev } := by
  induction pre generalizing p with
  | nil => exact ⟨p, cells_cons_self⟩
  | cons e pre ih =>
    obtain ⟨k', v'⟩ := e
    rw [cons_append, map_cons, nodup_cons] at h
    have hne : k ≠ k' := by
      rintro rfl
      exact h.1 (by simp)
    rw [cons_append, cells_cons_of_ne hne]
    exact ih h.2

/-! ## Links -/

theorem next_mem (hc : cells p l k = some c) {k' : κ} (h : c.next = some k') :
    k' ∈ l.map Prod.fst := by
  induction l generalizing p with
  | nil => simp at hc
  | cons e l ih =>
    rcases cells_cons_eq_some.mp hc with ⟨rfl, rfl⟩ | ⟨hk, hc⟩
    · exact mem_cons_of_mem _ (first_mem h)
    · exact mem_cons_of_mem _ (ih hc)

/-- Only the first cell comes after the key before the list. -/
theorem prev_cases (hc : cells p l k = some c) :
    first l = some k ∧ c.prev = p ∨ first l ≠ some k ∧ ∃ k' ∈ l.map Prod.fst, c.prev = some k' := by
  induction l generalizing p with
  | nil => simp at hc
  | cons e l ih =>
    rcases cells_cons_eq_some.mp hc with ⟨rfl, rfl⟩ | ⟨hk, hc⟩
    · exact .inl ⟨rfl, rfl⟩
    have hfirst : first (e :: l) ≠ some k := by simpa using Ne.symm hk
    rcases ih hc with ⟨-, hprev⟩ | ⟨-, k', hk', hprev⟩
    · exact .inr ⟨hfirst, e.1, by simp, hprev⟩
    · exact .inr ⟨hfirst, k', mem_cons_of_mem _ hk', hprev⟩

/-- A cell stands between the keys before it and the keys after it. -/
theorem exists_split (hc : cells p l k = some c) :
    ∃ pre post, l = pre ++ (k, c.value) :: post ∧ c.next = first post ∧
      (c.prev = p ∨ ∃ k' ∈ pre.map Prod.fst, c.prev = some k') := by
  induction l generalizing p with
  | nil => simp at hc
  | cons e l ih =>
    rcases cells_cons_eq_some.mp hc with ⟨rfl, rfl⟩ | ⟨hk, hc⟩
    · exact ⟨[], l, rfl, rfl, .inl rfl⟩
    obtain ⟨pre, post, hl, hnext, hprev⟩ := ih hc
    refine ⟨e :: pre, post, by rw [hl, cons_append], hnext, .inr ?_⟩
    rcases hprev with hprev | ⟨k', hk', hprev⟩
    · exact ⟨e.1, by simp, hprev⟩
    · exact ⟨k', mem_cons_of_mem _ hk', hprev⟩

/-- A cell and its two neighbours have different keys. -/
theorem links_ne (hnodup : (l.map Prod.fst).Nodup) (hp : ∀ k' ∈ p, k' ∉ l.map Prod.fst)
    (hc : cells p l k = some c) :
    c.next ≠ some k ∧ c.prev ≠ some k ∧ ∀ k', c.next = some k' → c.prev ≠ some k' := by
  obtain ⟨pre, post, hl, hnext, hprev⟩ := exists_split hc
  rw [hl, map_append, map_cons] at hnodup hp
  obtain ⟨-, hpost, hdisjoint⟩ := nodup_append.mp hnodup
  have hnextMem : ∀ k', c.next = some k' → k' ∈ post.map Prod.fst := by
    intro k' hk'
    rw [hnext] at hk'
    exact first_mem hk'
  -- what comes before the cell is not in the rest of the list
  have hbefore : ∀ k', c.prev = some k' → k' ∉ k :: post.map Prod.fst := by
    intro k' hk' hmem
    rcases hprev with hprev | ⟨k'', hk'', hprev⟩
    · exact hp k' (hprev ▸ hk') (mem_append_right _ hmem)
    rw [hprev] at hk'
    cases hk'
    exact hdisjoint k' hk'' k' hmem rfl
  refine ⟨fun h => ?_, fun h => hbefore k h mem_cons_self, fun k' h h' => ?_⟩
  · exact (nodup_cons.mp hpost).1 (hnextMem k h)
  · exact hbefore k' h' (mem_cons_of_mem _ (hnextMem k' h))

/-- The cell after a cell comes after it. -/
theorem prev_of_next (hnodup : (l.map Prod.fst).Nodup) (hc : cells p l k = some c) {k' : κ}
    (h : c.next = some k') : ∃ c', cells p l k' = some c' ∧ c'.prev = some k := by
  induction l generalizing p with
  | nil => simp at hc
  | cons e l ih =>
    rw [map_cons, nodup_cons] at hnodup
    have hne : k' ∈ l.map Prod.fst → k' ≠ e.1 := by
      rintro hmem rfl
      exact hnodup.1 hmem
    rcases cells_cons_eq_some.mp hc with ⟨rfl, rfl⟩ | ⟨hk, hc⟩
    · have hmem := first_mem h
      obtain ⟨c', hc'⟩ := exists_cells (p := some e.1) hmem
      rw [cells_cons_of_ne (hne hmem)]
      rcases prev_cases hc' with ⟨-, hprev⟩ | ⟨hnot, -⟩
      · exact ⟨c', hc', hprev⟩
      · exact absurd h hnot
    rw [cells_cons_of_ne (hne (next_mem hc h))]
    exact ih hnodup.2 hc

/-- The cell before a cell comes before it. -/
theorem next_of_prev (hnodup : (l.map Prod.fst).Nodup) (hc : cells p l k = some c) {k' : κ}
    (h : c.prev = some k') (hk' : k' ∈ l.map Prod.fst) (hp : ∀ k'' ∈ p, k'' ∉ l.map Prod.fst) :
    ∃ c', cells p l k' = some c' ∧ c'.next = some k := by
  induction l generalizing p with
  | nil => simp at hc
  | cons e l ih =>
    rw [map_cons, nodup_cons] at hnodup
    rcases cells_cons_eq_some.mp hc with ⟨rfl, rfl⟩ | ⟨hk, hc⟩
    · exact absurd hk' (hp k' h)
    rcases prev_cases hc with ⟨hfirst, hprev⟩ | ⟨-, k'', hmem, hprev⟩
    · rw [hprev] at h
      cases h
      exact ⟨_, cells_cons_self, hfirst⟩
    rw [hprev] at h
    cases h
    have hne : k' ≠ e.1 := by
      rintro rfl
      exact hnodup.1 hmem
    rw [cells_cons_of_ne hne]
    refine ih hnodup.2 hc hmem ?_
    rintro k'' hk''
    cases hk''
    exact hnodup.1

/-! ## Updates -/

/-- Overwrite the value of a key. -/
def overwrite (k : κ) (v : α) (l : List (κ × α)) : List (κ × α) :=
  l.map fun e => if e.1 = k then (k, v) else e

theorem map_fst_overwrite : (overwrite k v l).map Prod.fst = l.map Prod.fst := by
  rw [overwrite, map_map]
  apply map_congr_left
  intro e _
  by_cases h : e.1 = k
  · simp [h]
  · simp [h]

theorem first_overwrite : first (overwrite k v l) = first l := by
  cases l with
  | nil => rfl
  | cons e l =>
    by_cases h : e.1 = k
    · simp [overwrite, h]
    · simp [overwrite, h]

/-- Overwriting a value changes one cell. -/
theorem cells_overwrite : cells p (overwrite k v l) key =
    if key = k then (cells p l key).map (fun c => { c with value := v }) else cells p l key := by
  induction l generalizing p with
  | nil => simp [overwrite]
  | cons e l ih =>
    obtain ⟨k', v'⟩ := e
    have hcons : overwrite k v ((k', v') :: l) =
        (k', if k' = k then v else v') :: overwrite k v l := by
      by_cases h : k' = k
      · simp [overwrite, h]
      · simp [overwrite, h]
    rw [hcons]
    by_cases h : key = k'
    · subst h
      rw [cells_cons_self, cells_cons_self, first_overwrite]
      by_cases hk : key = k
      · simp [hk]
      · simp [hk]
    rw [cells_cons_of_ne h, cells_cons_of_ne h]
    exact ih

/-- Remove a key. -/
def remove (k : κ) (l : List (κ × α)) : List (κ × α) := l.filter fun e => e.1 ≠ k

theorem remove_of_notMem (h : k ∉ l.map Prod.fst) : remove k l = l := by
  rw [remove, filter_eq_self]
  intro e he
  rw [decide_eq_true_eq]
  rintro rfl
  exact h (mem_map_of_mem he)

theorem remove_cons_self (h : k ∉ l.map Prod.fst) : remove k ((k, v) :: l) = l := by
  have hcons : remove k ((k, v) :: l) = remove k l := by simp [remove]
  rw [hcons, remove_of_notMem h]

theorem remove_cons_of_ne {k' : κ} (h : k' ≠ k) :
    remove k ((k', v) :: l) = (k', v) :: remove k l := by
  simp [remove, h]

theorem nodup_remove (h : (l.map Prod.fst).Nodup) : ((remove k l).map Prod.fst).Nodup :=
  h.sublist (filter_sublist.map _)

/-- The first key after a removal. -/
theorem first_remove (hnodup : (l.map Prod.fst).Nodup) (hc : cells p l k = some c) :
    first (remove k l) = if first l = some k then c.next else first l := by
  cases l with
  | nil => simp at hc
  | cons e l =>
    obtain ⟨k', v'⟩ := e
    rw [map_cons, nodup_cons] at hnodup
    by_cases h : k' = k
    · subst h
      rw [cells_cons_self] at hc
      cases hc
      rw [remove_cons_self hnodup.1, first_cons, if_pos rfl]
    · rw [remove_cons_of_ne h, first_cons, first_cons, if_neg (by simpa using h)]

/-- Removing a key links the cells before and after it. -/
theorem cells_remove (hnodup : (l.map Prod.fst).Nodup) (hp : ∀ k' ∈ p, k' ∉ l.map Prod.fst)
    (hc : cells p l k = some c) (hkey : key ≠ k) :
    cells p (remove k l) key = (cells p l key).map fun c' =>
      if c.prev = some key then { c' with next := c.next }
      else if c.next = some key then { c' with prev := c.prev } else c' := by
  induction l generalizing p with
  | nil => simp at hc
  | cons e l ih =>
    obtain ⟨k', v'⟩ := e
    rw [map_cons, nodup_cons] at hnodup
    by_cases h : k' = k
    · -- the first element is removed
      subst h
      rw [cells_cons_self] at hc
      cases hc
      rw [remove_cons_self hnodup.1, cells_cons_of_ne hkey, cells_relink (p := some k')]
      have hmap : ∀ c', cells (some k') l key = some c' → ¬p = some key := by
        rintro c' hc' rfl
        exact hp key rfl (mem_cons_of_mem _ (mem_of_cells hc'))
      cases hcell : cells (some k') l key with
      | none => simp
      | some c' =>
        by_cases hfirst : first l = some key
        · simp [hfirst, hmap c' hcell]
        · simp [hfirst, hmap c' hcell]
    · rw [remove_cons_of_ne h]
      rw [cells_cons_of_ne (Ne.symm h)] at hc
      have hp' : ∀ k'' ∈ some k', k'' ∉ l.map Prod.fst := by
        rintro k'' hk''
        cases hk''
        exact hnodup.1
      by_cases hkey' : key = k'
      · -- the first element may be the one before the removed one
        subst hkey'
        rw [cells_cons_self, cells_cons_self, first_remove hnodup.2 hc]
        have hnext : c.next ≠ some key := fun hnext => hnodup.1 (next_mem hc hnext)
        rcases prev_cases hc with ⟨hfirst, hprev⟩ | ⟨hfirst, k'', hmem, hprev⟩
        · simp [hfirst, hprev]
        have hne : k'' ≠ key := by
          rintro rfl
          exact hnodup.1 hmem
        simp [hfirst, hprev, hne, hnext]
      rw [cells_cons_of_ne hkey', cells_cons_of_ne hkey']
      exact ih hnodup.2 hp' hc

/-! ## Suffixes -/

/-- The list from a key on, if it has the key. -/
def suffixFrom (k : κ) (l : List (κ × α)) : List (κ × α) :=
  if k ∈ l.map Prod.fst then l.dropWhile fun e => e.1 ≠ k else l

theorem suffixFrom_suffix (k : κ) (l : List (κ × α)) : suffixFrom k l <:+ l := by
  rw [suffixFrom]
  split
  · exact dropWhile_suffix _
  · exact suffix_refl l

/-- From a key it has reached, an iteration goes on as it did. -/
theorem suffixFrom_append_cons {pre post : List (κ × α)}
    (hnodup : ((pre ++ (k, v) :: post).map Prod.fst).Nodup) :
    suffixFrom k (pre ++ (k, v) :: post) = (k, v) :: post := by
  have hpre : ∀ e ∈ pre, decide (e.1 ≠ k) = true := by
    intro e he
    rw [map_append, nodup_append] at hnodup
    simpa using hnodup.2.2 e.1 (mem_map_of_mem he) k mem_cons_self
  rw [suffixFrom, if_pos (by simp), dropWhile_append_of_pos hpre]
  simp

/-- The suffix starts with the key. -/
theorem exists_suffixFrom (h : k ∈ l.map Prod.fst) :
    ∃ pre v post, l = pre ++ (k, v) :: post ∧ suffixFrom k l = (k, v) :: post := by
  rw [suffixFrom, if_pos h]
  induction l with
  | nil => simp at h
  | cons e l ih =>
    obtain ⟨k', v⟩ := e
    by_cases hk : k' = k
    · subst hk
      exact ⟨[], v, l, rfl, by simp⟩
    rw [map_cons, mem_cons] at h
    obtain ⟨pre, v', post, hl, hdrop⟩ := ih (h.resolve_left fun heq => hk heq.symm)
    refine ⟨(k', v) :: pre, v', post, by rw [hl, cons_append], ?_⟩
    rw [dropWhile_cons_of_pos (by simpa using hk), hdrop]

end LinkedList
