import SavannahNode.Native.HashRing

/-!
# Consistent hashing

A hash ring holds the virtual nodes of its members and nothing else, whatever additions and
removals led to them, so a key's owner is a function of the member set.

## Key results

* `RingConfig.get_iff` — `Get` finds the member a key belongs to.
* `RingConfig.get_consistent` — only the keys that must move do.
-/

namespace SavannahNode.Consistent

open List

variable {α : Type} [Hashable α] (h : RingConfig) {ring : BTree α} {M S : Set α} {key n : α}

namespace RingConfig

/-- How far clockwise of the first position after the key's hash another hash is. -/
def clockwise (key : α) (x : UInt64) : UInt64 := x - h.hasher (Hashable.consistentHashKey key) - 1

/-- No virtual node of one node is where a virtual node of another is. -/
def Distinct (S : Set α) : Prop :=
  ∀ m ∈ S, ∀ n ∈ S, ∀ x ∈ h.virtualNodeHashes m, x ∈ h.virtualNodeHashes n → m = n

/-- The ring of the members `M`. -/
def Holds (ring : BTree α) (M : Set α) : Prop :=
  ∀ item, item ∈ ring.1 ↔ item.value ∈ M ∧ item.hash ∈ h.virtualNodeHashes item.value

/-- The member `n` has the first virtual node strictly clockwise of the key's hash. -/
def Owns (M : Set α) (key n : α) : Prop :=
  n ∈ M ∧ ∃ x ∈ h.virtualNodeHashes n, ∀ m ∈ M, ∀ y ∈ h.virtualNodeHashes m,
    h.clockwise key x ≤ h.clockwise key y

variable {h}

theorem Distinct.mono (hd : h.Distinct S) (hM : M ⊆ S) : h.Distinct M :=
  fun m hm n hn => hd m (hM hm) n (hM hn)

theorem Owns.mono (ho : h.Owns S key n) (hM : M ⊆ S) (hn : n ∈ M) : h.Owns M key n := by
  obtain ⟨-, x, hx, hle⟩ := ho
  exact ⟨hn, x, hx, fun m hm => hle m (hM hm)⟩

/-! ## Additions and removals -/

theorem holds_add (hr : h.Holds ring M) (hd : h.Distinct (insert n M)) :
    h.Holds (h.add ring n) (insert n M) := by
  have hfold : ∀ (hs : List UInt64) (ring : BTree α) (z : RingItem α),
      z ∈ (hs.foldl (fun ring hash => ring.replaceOrInsert ⟨hash, n⟩) ring).1 ↔
        z.value = n ∧ z.hash ∈ hs ∨ z ∈ ring.1 ∧ z.hash ∉ hs := by
    intro hs
    induction hs with
    | nil => simp
    | cons x hs ih =>
      intro ring z
      rw [foldl_cons, ih, BTree.replaceOrInsert, OrderedList.mem_replaceOrInsert
        RingItem.less_iff ring.2, Ne, UInt64.toNat_inj]
      cases z
      grind
  intro z
  rw [add, hfold, hr, Set.mem_insert_iff]
  have hn := Set.mem_insert n M
  constructor
  · rintro (⟨hz, hx⟩ | ⟨⟨hz, hx⟩, -⟩)
    · exact ⟨.inl hz, hz ▸ hx⟩
    · exact ⟨.inr hz, hx⟩
  rintro ⟨rfl | hz, hx⟩
  · exact .inl ⟨rfl, hx⟩
  · by_cases hxn : z.hash ∈ h.virtualNodeHashes n
    · exact .inl ⟨hd _ (Set.mem_insert_of_mem n hz) n hn _ hx hxn, hxn⟩
    · exact .inr ⟨⟨hz, hx⟩, hxn⟩

theorem exists_virtualNode (n : α) : ∃ x, x ∈ h.virtualNodeHashes n := by
  refine exists_mem_of_ne_nil _ ?_
  simpa [virtualNodeHashes] using h.virtualNodes_pos.ne'

theorem holds_remove (hr : h.Holds ring M) (hd : h.Distinct (insert n M)) :
    h.Holds (h.remove ring n).1 (M \ {n}) ∧ ((h.remove ring n).2 = true ↔ n ∈ M) := by
  have hfold : ∀ (hs : List UInt64) (r : BTree α × Bool),
      let r' := hs.foldl (fun r hash =>
        let d := r.1.delete hash
        (d.1, r.2 || d.2)) r
      (∀ z, z ∈ r'.1.1 ↔ z ∈ r.1.1 ∧ z.hash ∉ hs) ∧
        (r'.2 = true ↔ r.2 = true ∨ ∃ z ∈ r.1.1, z.hash ∈ hs) := by
    intro hs
    induction hs with
    | nil => simp
    | cons x hs ih =>
      intro r
      obtain ⟨hmem, hremoved⟩ := ih ((r.1.delete x).1, r.2 || (r.1.delete x).2)
      refine ⟨fun z => (hmem z).trans ?_, hremoved.trans ?_⟩
      · simp [BTree.delete, and_assoc]
      · simp only [BTree.delete]
        grind
  obtain ⟨hmem, hremoved⟩ := hfold (h.virtualNodeHashes n) (ring, false)
  have hn := Set.mem_insert n M
  -- an item at a hash of n is an item of n
  have hat : ∀ z ∈ ring.1, z.hash ∈ h.virtualNodeHashes n → z.value = n := by
    intro z hz hx
    obtain ⟨hM, hxz⟩ := (hr z).mp hz
    exact hd _ (Set.mem_insert_of_mem n hM) n hn _ hxz hx
  refine ⟨fun z => (hmem z).trans ?_, hremoved.trans ?_⟩
  · rw [hr, Set.mem_sdiff, Set.mem_singleton_iff, and_assoc, and_assoc]
    refine and_congr_right fun hM => ?_
    constructor
    · rintro ⟨hx, hxn⟩
      exact ⟨fun he => hxn (he ▸ hx), hx⟩
    · rintro ⟨hne, hx⟩
      exact ⟨hx, fun hxn => hne (hat z ((hr z).mpr ⟨hM, hx⟩) hxn)⟩
  constructor
  · rintro (hf | ⟨z, hz, hx⟩)
    · cases hf
    · exact hat z hz hx ▸ ((hr z).mp hz).1
  intro hM
  obtain ⟨x, hx⟩ := exists_virtualNode (h := h) n
  exact .inr ⟨⟨x, n⟩, (hr _).mpr ⟨hM, hx⟩, hx⟩

/-! ## Owners -/

omit [Hashable α] in
/-- Skipping the items before `hash` loses none of those after it. -/
theorem first_after (hash : UInt64) (items : List (RingItem α)) :
    (items.dropWhile (·.hash < hash)).find? (hash < ·.hash) = items.find? (hash < ·.hash) := by
  induction items with
  | nil => rfl
  | cons y items ih =>
    rw [dropWhile_cons]
    split
    · rename_i hy
      rw [ih, find?_cons_of_neg]
      grind
    · rfl

/-- The item `Get` finds is the first one clockwise of the key. -/
theorem get_first (ring : BTree α) (key : α) :
    h.get ring key = .error errEmptyRing ∧ ring.1 = [] ∨
      ∃ item ∈ ring.1, h.get ring key = .ok item.value ∧
        ∀ y ∈ ring.1, h.clockwise key item.hash ≤ h.clockwise key y.hash := by
  have hs := ring.2
  rw [get, first_after]
  simp only [clockwise]
  generalize h.hasher (Hashable.consistentHashKey key) = hash
  generalize ring.1 = items at hs
  cases items with
  | nil => exact .inl ⟨rfl, rfl⟩
  | cons min items =>
    refine .inr ?_
    cases hfind : (min :: items).find? (hash < ·.hash) with
    | some item =>
      obtain ⟨hitem, as, bs, hsplit, has⟩ := find?_eq_some_iff_append.mp hfind
      have hlt : hash < item.hash := of_decide_eq_true hitem
      rw [hsplit, pairwise_append, pairwise_cons] at hs
      refine ⟨item, mem_of_find?_eq_some hfind, rfl, fun y hy => ?_⟩
      have hyle : y.hash ≤ hash ∨ item.hash ≤ y.hash := by
        rw [hsplit, mem_append, mem_cons] at hy
        rcases hy with hy | rfl | hy
        · exact .inl (by simpa using has y hy)
        · exact .inr (UInt64.le_refl _)
        · exact .inr (UInt64.le_of_lt (hs.2.1.1 y hy))
      grind
    | none =>
      refine ⟨min, mem_cons_self, rfl, fun y hy => ?_⟩
      have hmin : min.hash ≤ y.hash := by
        rcases mem_cons.mp hy with rfl | hy
        · exact UInt64.le_refl _
        · exact UInt64.le_of_lt (rel_of_pairwise_cons hs hy)
      have hyle : y.hash ≤ hash := by simpa using find?_eq_none.mp hfind y hy
      grind

theorem get_iff (hr : h.Holds ring M) (hd : h.Distinct M) (key : α) :
    (h.get ring key = .error errEmptyRing ↔ M = ∅) ∧
      ∀ n, h.get ring key = .ok n ↔ h.Owns M key n := by
  rcases get_first (h := h) ring key with ⟨hget, hnil⟩ | ⟨item, hmem, hget, hfirst⟩
  · have hM : M = ∅ := by
      refine Set.eq_empty_of_forall_notMem fun n hn => ?_
      obtain ⟨x, hx⟩ := exists_virtualNode (h := h) n
      have := (hr ⟨x, n⟩).mpr ⟨hn, hx⟩
      simp [hnil] at this
    refine ⟨iff_of_true hget hM, fun n => iff_of_false (by simp [hget]) ?_⟩
    rintro ⟨hn, -⟩
    simp [hM] at hn
  have hitem := (hr item).mp hmem
  have hfirst' : ∀ m ∈ M, ∀ y ∈ h.virtualNodeHashes m,
      h.clockwise key item.hash ≤ h.clockwise key y :=
    fun m hm y hy => hfirst ⟨y, m⟩ ((hr _).mpr ⟨hm, hy⟩)
  refine ⟨iff_of_false (by simp [hget]) (Set.nonempty_iff_ne_empty.mp ⟨_, hitem.1⟩), fun n => ?_⟩
  rw [hget, Except.ok.injEq]
  constructor
  · rintro rfl
    exact ⟨hitem.1, item.hash, hitem.2, hfirst'⟩
  rintro ⟨hn, x, hx, hle⟩
  have heq := UInt64.le_antisymm (hfirst' n hn x hx) (hle _ hitem.1 _ hitem.2)
  have hxi : item.hash = x := by simpa [clockwise] using heq
  exact hd _ hitem.1 n hn _ hitem.2 (hxi ▸ hx)

/-! ## Runs -/

variable (h)

/-- A call that changes the ring. -/
inductive Op (α : Type) where
  | add (n : α)
  | remove (n : α)

def Op.node : Op α → α
  | .add n | .remove n => n

def apply (ring : BTree α) : Op α → BTree α
  | .add n => h.add ring n
  | .remove n => (h.remove ring n).1

/-- The members after a call. -/
def Op.members (M : Set α) : Op α → Set α
  | .add n => insert n M
  | .remove n => M \ {n}

variable {h}

theorem holds_foldl (hd : h.Distinct S) {ops : List (Op α)} (hops : ∀ op ∈ ops, op.node ∈ S)
    (hr : h.Holds ring M) (hM : M ⊆ S) :
    h.Holds (ops.foldl h.apply ring) (ops.foldl Op.members M) ∧ ops.foldl Op.members M ⊆ S := by
  induction ops generalizing ring M with
  | nil => exact ⟨hr, hM⟩
  | cons op ops ih =>
    rw [forall_mem_cons] at hops
    have hsub : insert op.node M ⊆ S := Set.insert_subset hops.1 hM
    have hd' := hd.mono hsub
    cases op with
    | add n => exact ih hops.2 (holds_add hr hd') hsub
    | remove n => exact ih hops.2 (holds_remove hr hd').1 (Set.sdiff_subset.trans hM)

/-- The owner of every key is the owner under the member set, the ring is a function of that
    set, and a change of members moves only the keys of the node added or removed. -/
theorem get_consistent (hd : h.Distinct S) (ops : List (Op α)) (hops : ∀ op ∈ ops, op.node ∈ S)
    (key : α) :
    let ring := ops.foldl h.apply ⟨[], .nil⟩
    let M := ops.foldl Op.members ∅
    (h.get ring key = .error errEmptyRing ↔ M = ∅) ∧
      (∀ n, h.get ring key = .ok n ↔ h.Owns M key n) ∧
      (∀ ops' : List (Op α), (∀ op ∈ ops', op.node ∈ S) → ops'.foldl Op.members ∅ = M →
        ops'.foldl h.apply ⟨[], .nil⟩ = ring) ∧
      ∀ n ∈ S,
        (h.get (h.add ring n) key ≠ h.get ring key → h.get (h.add ring n) key = .ok n) ∧
        (h.get (h.remove ring n).1 key ≠ h.get ring key → h.get ring key = .ok n) ∧
        ((h.remove ring n).2 = true ↔ n ∈ M) := by
  intro ring M
  have hempty : h.Holds (⟨[], .nil⟩ : BTree α) ∅ := by simp [Holds]
  have hrun {ops : List (Op α)} (hops : ∀ op ∈ ops, op.node ∈ S) :=
    holds_foldl hd hops hempty (Set.empty_subset S)
  obtain ⟨hr, hsub⟩ : h.Holds ring M ∧ M ⊆ S := hrun hops
  have hget := get_iff hr (hd.mono hsub) key
  refine ⟨hget.1, hget.2, ?_, fun n hn => ?_⟩
  · intro ops' hops' hM
    have hr' := hM ▸ (hrun hops').1
    exact Subtype.ext (OrderedList.eq_of_mem_iff RingItem.less_iff (Subtype.property _)
      (Subtype.property _) fun x => (hr' x).trans (hr x).symm)
  have hd' := hd.mono (Set.insert_subset hn hsub)
  have hadd := get_iff (holds_add hr hd') hd' key
  have hremove := get_iff (holds_remove hr hd').1 (hd.mono (Set.sdiff_subset.trans hsub)) key
  refine ⟨fun hne => ?_, fun hne => ?_, (holds_remove hr hd').2⟩
  · rcases get_first (h := h) (h.add ring n) key with ⟨herr, -⟩ | ⟨item, -, hok, -⟩
    · exact absurd (hadd.1.mp herr) (Set.insert_nonempty n M).ne_empty
    by_contra hn'
    have hown := (hadd.2 _).mp hok
    have hM := Set.mem_of_mem_insert_of_ne hown.1 fun he => hn' (he ▸ hok)
    exact hne (hok.trans ((hget.2 _).mpr (hown.mono (Set.subset_insert n M) hM)).symm)
  rcases get_first (h := h) ring key with ⟨herr, -⟩ | ⟨item, -, hok, -⟩
  · have hM : M \ {n} = ∅ := by rw [hget.1.mp herr, Set.empty_sdiff]
    exact absurd ((hremove.1.mpr hM).trans herr.symm) hne
  by_contra hn'
  have hown := (hget.2 _).mp hok
  have hM : item.value ∈ M \ {n} := ⟨hown.1, fun he => hn' (he ▸ hok)⟩
  exact hne (((hremove.2 _).mpr (hown.mono Set.sdiff_subset hM)).trans hok.symm)

instance : Hashable UInt8 := ⟨fun b => [b]⟩

/-- Two nodes of two virtual nodes each, and a key between them. -/
theorem get_consistent_two :
    let h : RingConfig := ⟨2, by decide, fun key => key.foldl (· + ·.toUInt64) 0⟩
    h.Owns ([Op.add 10, .add 20].foldl Op.members ∅) (15 : UInt8) 20 := by
  intro h
  have hd : h.Distinct ({10, 20} : Set UInt8) := by
    have h10 : h.virtualNodeHashes (10 : UInt8) = [10, 11] := by decide
    have h20 : h.virtualNodeHashes (20 : UInt8) = [20, 21] := by decide
    rintro m (rfl | rfl) n (rfl | rfl) x hx hx' <;> grind
  have hget := get_consistent hd [.add 10, .add 20] (by simp [Op.node]) 15
  exact (hget.2.1 20).mp rfl

end RingConfig

end SavannahNode.Consistent
