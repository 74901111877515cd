import SavannahNode.Native.SharedMemoryState

/-!
# Paging through shared memory

The pages that `getKeys` returns read one list of (trait, key) entries. A full page ends at the
entry it returns as `lastTrait` and `lastKey`, and the next page starts there. With a limit of at
least two, a full page has gone past its first entry, so paging ends.

The entries of a trait are those from the empty start key on. They are not all of them if the
trait lists the empty key, and does not list it first.
-/

namespace SavannahNode.SharedMemory

open List

variable {l keys K : List Bytes} {limit n : Nat} {lastKey trait key : Bytes}
  {E read rest : List (Bytes × Bytes)}

/-! ## One page -/

/-- A page of limit `n` has the keys of the entries read so far. -/
structure Reading (E : List (Bytes × Bytes)) (n : Nat) (keys : List Bytes) (limit : Nat)
    (read rest : List (Bytes × Bytes)) : Prop where
  split : E = read ++ rest
  nodup : keys.Nodup
  length : keys.length + limit = n
  mem_keys : ∀ k, k ∈ keys ↔ k ∈ read.map Prod.snd

namespace Reading

theorem seen (h : Reading E n keys limit read ((trait, key) :: rest)) (hkey : key ∈ keys) :
    Reading E n keys limit (read ++ [(trait, key)]) rest := by
  refine { h with split := by simp [h.split], mem_keys := fun k => ?_ }
  rw [map_append, mem_append, ← h.mem_keys]
  refine ⟨.inl, fun hk => hk.elim id fun hk => ?_⟩
  rwa [mem_singleton.1 hk]

theorem new (h : Reading E n keys limit read ((trait, key) :: rest)) (hkey : key ∉ keys)
    (hlimit : limit ≠ 0) :
    Reading E n (keys ++ [key]) (limit - 1) (read ++ [(trait, key)]) rest where
  split := by simp [h.split]
  nodup := nodup_append.2 ⟨h.nodup, by simp, by simpa using forall_mem_ne'.2 hkey⟩
  length := by
    have := h.length
    simp
    omega
  mem_keys k := by simp [h.mem_keys]

/-- The keys of a trait are all read, unless the limit is reached. -/
theorem appendKeys (h : Reading E n keys limit read (l.map (trait, ·) ++ rest))
    (hlimit : limit ≠ 0) {r : List Bytes × Nat × Bytes} (hr : appendKeys keys limit lastKey l = r) :
    (r.2.1 ≠ 0 ∧ Reading E n r.1 r.2.1 (read ++ l.map (trait, ·)) rest) ∨
    (r.2.1 = 0 ∧ ∃ read' rest', Reading E n r.1 0 (read' ++ [(trait, r.2.2)]) rest') := by
  induction l generalizing keys limit lastKey read with
  | nil =>
    subst hr
    exact .inl ⟨hlimit, (append_nil read).symm ▸ h⟩
  | cons key l ih =>
    rw [SharedMemory.appendKeys, if_neg hlimit] at hr
    split at hr
    · simpa using ih (h.seen (contains_iff_mem.1 ‹_›)) hlimit hr
    have hnew := h.new (mt contains_iff_mem.2 ‹_›) hlimit
    by_cases h0 : limit - 1 = 0
    · rw [h0] at hnew hr
      have hr : (keys ++ [key], 0, key) = r := by cases l <;> exact hr
      subst hr
      exact .inr ⟨rfl, _, _, hnew⟩
    · simpa using ih hnew h0 hr

end Reading

namespace Index

variable {index : Index} {traits : List Bytes} {st sk t k : Bytes} {page page' : Page}

/-- The entries that `getKeys` goes through. -/
def entries (index : Index) (startTrait startKey : Bytes) : List Bytes → List (Bytes × Bytes)
  | [] => []
  | trait :: traits =>
    if trait < startTrait then index.entries startTrait startKey traits
    else
      let startKey := if startTrait < trait then [] else startKey
      (index.iterator trait startKey).map (trait, ·) ++ index.entries startTrait startKey traits

theorem getKeysLoop_reading (hlimit : limit ≠ 0)
    (h : Reading E n page.keys limit read (index.entries st sk traits))
    (hpage : index.getKeysLoop st sk limit page traits = page') :
    (∃ limit', limit' ≠ 0 ∧ Reading E n page'.keys limit' E []) ∨
    ∃ read' rest', Reading E n page'.keys 0 (read' ++ [(page'.lastTrait, page'.lastKey)]) rest' := by
  induction traits generalizing sk limit page read with
  | nil =>
    subst hpage
    have hE := h.split
    rw [entries, append_nil] at hE
    exact .inl ⟨limit, hlimit, hE ▸ h⟩
  | cons trait traits ih =>
    rw [getKeysLoop] at hpage
    rw [entries] at h
    split at hpage
    · rw [if_pos ‹_›] at h
      exact ih hlimit h hpage
    rw [if_neg ‹_›] at h
    dsimp only at h hpage
    rcases h.appendKeys hlimit rfl with ⟨h0, h⟩ | ⟨h0, h⟩
    · rw [appendTraitKeys, if_neg h0] at hpage
      exact ih h0 h hpage
    rw [appendTraitKeys, if_pos h0] at hpage
    subst hpage
    exact .inr h

/-! ## Repeated traits -/

theorem subset_appendKeys (h : (appendKeys keys limit lastKey l).2.1 ≠ 0) :
    keys ⊆ (appendKeys keys limit lastKey l).1 ∧ l ⊆ (appendKeys keys limit lastKey l).1 := by
  induction l generalizing keys limit lastKey with
  | nil => simp [appendKeys]
  | cons key l ih =>
    unfold appendKeys at h ⊢
    split at h
    · contradiction
    rw [if_neg ‹_›]
    split at h
    · rw [if_pos ‹_›, cons_subset]
      exact ⟨(ih h).1, (ih h).1 (contains_iff_mem.1 ‹_›), (ih h).2⟩
    rw [if_neg ‹_›, cons_subset]
    have hkeys := append_subset.1 (ih h).1
    exact ⟨hkeys.1, hkeys.2 mem_cons_self, (ih h).2⟩

/-- A list that was read to its end gives nothing new when it is read again. -/
theorem appendKeys_again {m : Nat} (h : (appendKeys keys limit lastKey l).2.1 ≠ 0) (hK : l ⊆ K)
    (hm : m ≠ 0) : appendKeys K m lastKey l = (K, m, (appendKeys keys limit lastKey l).2.2) := by
  induction l generalizing keys limit lastKey with
  | nil => rfl
  | cons key l ih =>
    rw [cons_subset] at hK
    unfold appendKeys at h ⊢
    rw [if_neg hm, if_pos (contains_iff_mem.2 hK.1)]
    split at h
    · contradiction
    rw [if_neg ‹_›]
    split at h
    · rw [if_pos ‹_›, ih h hK.2]
    · rw [if_neg ‹_›, ih h hK.2]

theorem getKeysLoop_twice : index.getKeysLoop st sk limit page (t :: t :: traits) =
    index.getKeysLoop st sk limit page (t :: traits) := by
  have hsk : (if st < t then [] else if st < t then [] else sk) = if st < t then [] else sk := by
    split <;> rfl
  simp only [getKeysLoop, hsk]
  generalize (if st < t then [] else sk) = sk'
  split
  · rfl
  split
  · rfl
  rename_i h0
  unfold appendTraitKeys at h0 ⊢
  rw [appendKeys_again h0 (subset_appendKeys h0).2 h0, if_neg h0]

theorem getKeysLoop_dedup (hs : traits.Pairwise (· ≤ ·)) : index.getKeysLoop st sk limit page traits =
    index.getKeysLoop st sk limit page traits.dedup := by
  induction traits generalizing sk limit page with
  | nil => rfl
  | cons t traits ih =>
    by_cases ht : t ∈ traits
    · rw [dedup_cons_of_mem ht, ← ih hs.of_cons]
      cases traits with
      | nil => cases ht
      | cons x traits =>
        rw [pairwise_cons, pairwise_cons] at hs
        obtain rfl : t = x := by
          refine List.le_antisymm (hs.1 x List.mem_cons_self) ?_
          rcases mem_cons.1 ht with rfl | ht
          · exact List.le_refl _
          · exact hs.2.1 t ht
        exact getKeysLoop_twice
    rw [dedup_cons_of_notMem ht, getKeysLoop, getKeysLoop]
    simp only [ih hs.of_cons]

/-! ## The entries of the next page -/

theorem entries_cons : index.entries [] [] (t :: traits) =
    (index.iterator t []).map (t, ·) ++ index.entries [] [] traits := by
  simp [entries]

theorem mem_entries : (t, k) ∈ index.entries [] [] traits ↔ t ∈ traits ∧ k ∈ index.iterator t [] := by
  induction traits with
  | nil => simp [entries]
  | cons x traits ih =>
    rw [entries_cons, mem_append, ih, mem_cons, or_and_right, mem_map]
    refine or_congr_left ⟨?_, ?_⟩
    · rintro ⟨k, hk, heq⟩
      cases heq
      exact ⟨rfl, hk⟩
    · rintro ⟨rfl, hk⟩
      exact ⟨k, hk, rfl⟩

theorem entries_of_lt (h : ∀ t ∈ traits, st < t) :
    index.entries st sk traits = index.entries [] [] traits := by
  induction traits generalizing sk with
  | nil => rfl
  | cons t traits ih =>
    rw [forall_mem_cons] at h
    rw [entries_cons, entries, if_neg (List.lt_asymm h.1), if_pos h.1]
    dsimp only
    rw [ih h.2]

theorem iterator_again {pre rest : List Bytes} (h : index.iterator t sk = pre ++ k :: rest) :
    index.iterator t k = k :: rest := by
  obtain ⟨skipped, hl⟩ := LinkedList.suffixFrom_suffix sk (index.list t)
  obtain ⟨pre', rest', hsplit, rfl, hrest⟩ := map_eq_append_iff.1 h
  obtain ⟨e, rest'', rfl, rfl, rfl⟩ := map_eq_cons_iff.1 hrest
  have hnodup := index.nodup t
  rw [← hl, hsplit, ← append_assoc] at hnodup
  rw [iterator, ← hl, hsplit, ← append_assoc, LinkedList.suffixFrom_append_cons hnodup]
  rfl

/-- Started at one of its entries, the iteration goes on from there. -/
theorem entries_again (hs : traits.Pairwise (· < ·))
    (h : index.entries [] [] traits = read ++ (t, k) :: rest) :
    index.entries t k traits = (t, k) :: rest := by
  induction traits generalizing read with
  | nil => simp [entries] at h
  | cons x traits ih =>
    rw [pairwise_cons] at hs
    have hlater : ∀ read', index.entries [] [] traits = read' ++ (t, k) :: rest →
        index.entries t k (x :: traits) = (t, k) :: rest := by
      intro read' h'
      have ht : (t, k) ∈ index.entries [] [] traits := by simp [h']
      rw [entries, if_pos (hs.1 t (mem_entries.1 ht).1), ih hs.2 h']
    rw [entries_cons, append_eq_append_iff] at h
    -- the entry is one of a later trait, or one of the first
    rcases h with ⟨read', -, h⟩ | ⟨c, hx, h⟩
    · exact hlater read' h
    cases c with
    | nil => exact hlater [] h.symm
    | cons e c =>
      cases h
      obtain ⟨pre, rest', hsplit, -, hrest⟩ := map_eq_append_iff.1 hx
      obtain ⟨k', rest'', rfl, hk, rfl⟩ := map_eq_cons_iff.1 hrest
      cases hk
      rw [entries, if_neg (List.lt_irrefl _), if_neg (List.lt_irrefl _)]
      dsimp only
      rw [iterator_again hsplit, entries_of_lt hs.1]
      rfl

/-! ## Paging -/

/-- The pages of at most `calls` calls of `getKeys`, each starting where the one before ended,
    up to the first page of fewer than `limit` keys. -/
def pages (index : Index) (traits : List Bytes) (limit : Nat) :
    Nat → Bytes → Bytes → Option (List (List Bytes))
  | 0, _, _ => none
  | calls + 1, startTrait, startKey =>
    let page := index.getKeys traits startTrait startKey limit
    if page.keys.length < limit then some [page.keys]
    else (index.pages traits limit calls page.lastTrait page.lastKey).map (page.keys :: ·)

/-- From any entry on, the pages have the keys of the entries, with a call at most for each. -/
theorem pages_spec {calls : Nat} {L : List Bytes} (hlimit : 2 ≤ limit) (hs : L.Pairwise (· < ·))
    (hL : ∀ st sk, index.getKeys traits st sk limit = index.getKeysLoop st sk limit ⟨[], st, sk⟩ L)
    (hread : index.entries [] [] L = read ++ E) (hE : index.entries st sk L = E)
    (hcalls : E.length < calls) :
    ∃ pages, index.pages traits limit calls st sk = some pages ∧
      (∀ p ∈ pages, p.Nodup ∧ p.length ≤ limit) ∧ ∀ k, k ∈ pages.flatten ↔ k ∈ E.map Prod.snd := by
  induction calls generalizing st sk E read with
  | zero => omega
  | succ calls ih =>
    have hpage := hL st sk
    rw [pages]
    generalize index.getKeys traits st sk limit = page at hpage ⊢
    have hstart : Reading E limit [] limit [] (index.entries st sk L) :=
      ⟨hE.symm, nodup_nil, Nat.zero_add _, by simp⟩
    rcases getKeysLoop_reading (by omega) hstart hpage.symm with ⟨limit', h0, h⟩ | ⟨read', rest, h⟩
    · have := h.length
      rw [if_pos (by omega)]
      refine ⟨[page.keys], rfl, ?_, by simpa using h.mem_keys⟩
      simpa using ⟨h.nodup, by omega⟩
    have hlength : page.keys.length = limit := h.length
    rw [if_neg (by omega)]
    have hE' : E = read' ++ (page.lastTrait, page.lastKey) :: rest := by simpa using h.split
    -- two keys need two entries
    have hpos : 0 < read'.length := by
      refine length_pos_iff.2 ?_
      rintro rfl
      have hsub : page.keys ⊆ [page.lastKey] := fun k hk => (h.mem_keys k).1 hk
      have := hlength ▸ (h.nodup.subperm hsub).length_le
      simp at this
      omega
    have hnext : index.entries [] [] L =
        (read ++ read') ++ (page.lastTrait, page.lastKey) :: rest := by
      rw [hread, hE', append_assoc]
    obtain ⟨pages, hpages, hall, hmem⟩ := ih hnext (entries_again hs hnext) (by
      rw [hE', length_append] at hcalls
      omega)
    refine ⟨page.keys :: pages, by rw [hpages]; rfl, ?_, fun k => ?_⟩
    · exact forall_mem_cons.2 ⟨⟨h.nodup, hlength.le⟩, hall⟩
    rw [flatten_cons, mem_append, h.mem_keys, hmem, hE']
    simp
    tauto

/-- Paging always ends, with pages without repetitions and within the limit. It is complete iff
    every key of a requested trait is reached from the empty start key. -/
theorem pages_complete_iff (index : Index) (traits : List Bytes) (hlimit : 2 ≤ limit) :
    ∃ n, ∀ calls ≥ n, ∃ pages, index.pages traits limit calls [] [] = some pages ∧
      (∀ p ∈ pages, p.Nodup ∧ p.length ≤ limit) ∧
      ((∀ k, k ∈ pages.flatten ↔ ∃ t ∈ traits, k ∈ (index.list t).map Prod.fst) ↔
        ∀ t ∈ traits, ∀ k ∈ (index.list t).map Prod.fst, ∃ t' ∈ traits, k ∈ index.iterator t' []) := by
  have hsorted := pairwise_insertionSort (· ≤ ·) traits
  have hs := (hsorted.sublist (dedup_sublist _)).and (nodup_dedup _)
  refine ⟨(index.entries [] [] (traits.insertionSort (· ≤ ·)).dedup).length + 1,
    fun calls hcalls => ?_⟩
  obtain ⟨pages, hpages, hall, hmem⟩ := pages_spec hlimit (hs.imp Std.lt_iff_le_and_ne.2)
    (fun st sk => getKeysLoop_dedup hsorted) (nil_append _).symm rfl hcalls
  refine ⟨pages, hpages, hall, ?_⟩
  have hkeys : ∀ k, k ∈ pages.flatten ↔ ∃ t ∈ traits, k ∈ index.iterator t [] := by
    intro k
    rw [hmem]
    simp [mem_entries]
  simp only [hkeys]
  constructor
  · exact fun h t ht k hk => (h k).2 ⟨t, ht, hk⟩
  rintro h k
  constructor
  · rintro ⟨t, ht, hk⟩
    exact ⟨t, ht, map_subset _ (LinkedList.suffixFrom_suffix _ _).subset hk⟩
  · rintro ⟨t, ht, hk⟩
    exact h t ht k hk

/-- A trait of two keys: the empty one, and one that was put after it. -/
def emptyLast : Index where
  list _ := [([97], []), ([], [])]
  nodup _ := by decide

theorem pages_emptyLast :
    emptyLast.pages [[1]] 2 1 [] [] = some [[[]]] ∧ [97] ∈ (emptyLast.list [1]).map Prod.fst := by
  decide +kernel

theorem pages_complete_iff_emptyLast : ∃ n, ∀ calls ≥ n, ∃ pages,
    emptyLast.pages [[1]] 2 calls [] [] = some pages ∧ (∀ p ∈ pages, p.Nodup ∧ p.length ≤ 2) ∧
      ((∀ k, k ∈ pages.flatten ↔ ∃ t ∈ [[1]], k ∈ (emptyLast.list t).map Prod.fst) ↔
        ∀ t ∈ [[1]], ∀ k ∈ (emptyLast.list t).map Prod.fst,
          ∃ t' ∈ [[1]], k ∈ emptyLast.iterator t' []) :=
  pages_complete_iff emptyLast [[1]] (by decide)

end Index

end SavannahNode.SharedMemory
