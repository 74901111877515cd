import SavannahNode.Spec.LinkedDBMap

/-!
# Reads and iterators of linkeddb

Every read of a `linkedDB` is a read of the list it stores, and an iterator goes through that
list. Together with the two operations that change the list this gives every run: what can be
read after it is what the list says to which the operations that returned were applied.

## Key results

* `LinkedDB.next_wp` — one step of an iterator, with any reads between two steps.
* `LinkedDB.run_ordered` — every run of puts, deletes and reads.
-/

namespace SavannahNode.LinkedDB

open LinkedList Proc

variable {c : NodeCodec} {l l' rest : List (Bytes × Bytes)} {ldb ldb' : LinkedDB} {key value : Bytes}
  {it : Iterator}

/-! ## Reads -/

/-- The value of a key. -/
def valueAt (l : List (Bytes × Bytes)) (key : Bytes) : Option Bytes :=
  (l.find? (·.1 = key)).map Prod.snd

theorem value_nodeAt (l : List (Bytes × Bytes)) (key : Bytes) :
    (nodeAt l key).map LinkedNode.value = valueAt l key := by
  suffices h : ∀ p, ((cells p l key).map ofCell).map LinkedNode.value = valueAt l key from h none
  induction l with
  | nil => exact fun _ => rfl
  | cons e l ih =>
    intro p
    obtain ⟨k, v⟩ := e
    by_cases h : key = k
    · subst h
      simp [cells_cons_self, valueAt, ofCell]
    rw [cells_cons_of_ne h, ih]
    simp [valueAt, Ne.symm h]

section

variable (h : ldb.Holds c l)

include h

theorem get_wp : (get c key).wp (fun r ldb' => r = found (valueAt l key) ∧ ldb'.Holds c l) ldb := by
  rw [get, wp_bind]
  refine getNode_wp h fun ldb' hl _ => ?_
  rw [← value_nodeAt]
  cases nodeAt l key with
  | none => exact ⟨rfl, hl⟩
  | some n => exact ⟨rfl, hl⟩

theorem has_eq (key : Bytes) : ldb.has key = decide (key ∈ l.map Prod.fst) := by
  rw [has, Bool.eq_iff_iff, decide_eq_true_eq]
  exact (h.stored.node key).2

theorem isEmpty_wp : isEmpty.wp (fun r ldb' => r = .ok l.isEmpty ∧ ldb'.Holds c l) ldb := by
  rw [isEmpty, wp_bind, wp_attempt]
  refine getHeadKey_wp h fun ldb' hl _ => ?_
  cases l with
  | nil => exact ⟨rfl, hl⟩
  | cons e l => exact ⟨rfl, hl⟩

theorem headKey_wp :
    getHeadKey.wp (fun r ldb' => r = found (l.head?.map Prod.fst) ∧ ldb'.Holds c l) ldb :=
  getHeadKey_wp h fun _ hl _ => ⟨rfl, hl⟩

theorem head_wp : (head c).wp (fun r ldb' => r = found l.head? ∧ ldb'.Holds c l) ldb := by
  rw [head, wp_bind]
  refine getHeadKey_wp h fun ldb' hl _ => ?_
  cases l with
  | nil => exact ⟨rfl, hl⟩
  | cons e l =>
    obtain ⟨k, v⟩ := e
    rw [first_cons, found, between_ok, wp_bind]
    refine getNode_wp hl fun ldb' hl _ => ?_
    rw [nodeAt_cons_self]
    exact ⟨rfl, hl⟩

end

/-! ## Iterators -/

/-- An iterator that has `rest` before it. -/
inductive Before (l : List (Bytes × Bytes)) : List (Bytes × Bytes) → Iterator → Prop
  | fresh {it : Iterator} (hexhausted : it.exhausted = false) (hinit : it.initialized = false)
    (herr : it.err = none) : Before l l it
  | inside {it : Iterator} {pre rest : List (Bytes × Bytes)} {k v : Bytes}
    (hexhausted : it.exhausted = false) (hinit : it.initialized = true) (herr : it.err = none)
    (hnext : it.nextKey = k) (hl : l = pre ++ (k, v) :: rest) : Before l ((k, v) :: rest) it
  | done {it : Iterator} (hexhausted : it.exhausted = true) (herr : it.err = none) : Before l [] it

/-- What `Next` returns and where it leaves the iterator. -/
inductive Yields (l : List (Bytes × Bytes)) :
    List (Bytes × Bytes) → Except LinkedErr (Bool × Iterator) → Prop
  | nil {it : Iterator} (hkey : it.key = none) (hvalue : it.value = none) (hit : Before l [] it) :
    Yields l [] (.ok (false, it))
  | cons {it : Iterator} {k v : Bytes} {rest : List (Bytes × Bytes)} (hkey : it.key = some k)
    (hvalue : it.value = some v) (hit : Before l rest it) :
    Yields l ((k, v) :: rest) (.ok (true, it))

theorem Before.err_eq_none (h : Before l rest it) : it.err = none := by
  cases h with
  | fresh _ _ herr => exact herr
  | inside _ _ herr => exact herr
  | done _ herr => exact herr

theorem advance_wp {pre : List (Bytes × Bytes)} {k v : Bytes} (h : ldb.Holds c l)
    (hinit : it.initialized = true) (herr : it.err = none) (hnext : it.nextKey = k)
    (hl : l = pre ++ (k, v) :: rest) :
    (it.advance c).wp (fun r ldb' => Yields l ((k, v) :: rest) r ∧ ldb'.Holds c l) ldb := by
  rw [Iterator.advance, wp_bind, wp_attempt, hnext]
  refine getNode_wp h fun ldb' hldb _ => ?_
  have hnodup := h.stored.nodup
  rw [hl] at hnodup
  obtain ⟨prev, hcell⟩ := cells_append_cons (p := none) hnodup
  rw [← hl] at hcell
  rw [nodeAt, hcell]
  refine ⟨.cons rfl rfl ?_, hldb⟩
  -- the node says whether there is a next key
  cases rest with
  | nil => exact .done rfl herr
  | cons e rest =>
    have hsplit : l = (pre ++ [(k, v)]) ++ e :: rest := by
      rw [hl, List.append_assoc]
      rfl
    exact .inside rfl hinit herr rfl hsplit

/-- `Next` yields the next entry of the list, whatever the caches contain. -/
theorem next_wp (h : ldb.Holds c l) (hit : Before l rest it) :
    (it.next c).wp (fun r ldb' => Yields l rest r ∧ ldb'.Holds c l) ldb := by
  rw [Iterator.next]
  cases hit with
  | done hexhausted herr =>
    rw [if_pos hexhausted]
    exact ⟨.nil rfl rfl (.done hexhausted herr), h⟩
  | inside hexhausted hinit herr hnext hl =>
    rw [if_neg (by simp [hexhausted]), if_pos hinit]
    exact advance_wp h hinit herr hnext hl
  | fresh hexhausted hinit herr =>
    rw [if_neg (by simp [hexhausted]), if_neg (by simp [hinit]), wp_bind, wp_attempt]
    refine getHeadKey_wp h fun ldb' hldb _ => ?_
    cases l with
    | nil => exact ⟨.nil rfl rfl (.done rfl herr), hldb⟩
    | cons e l =>
      obtain ⟨k, v⟩ := e
      exact advance_wp hldb rfl herr rfl (List.nil_append _).symm

/-- The entries that `Next` goes through, with at most `fuel` calls. -/
def collect (c : NodeCodec) : Nat → Iterator → LinkedM (List (Bytes × Bytes) × Iterator)
  | 0, it => pure ([], it)
  | fuel + 1, it => do
    let r ← it.next c
    if r.1 then do
      let later ← collect c fuel r.2
      pure ((r.2.key.getD [], r.2.value.getD []) :: later.1, later.2)
    else pure ([], r.2)

/-- An iterator goes through the list to its end, without an error. -/
theorem collect_wp {fuel : Nat} (h : ldb.Holds c l) (hit : Before l rest it)
    (hfuel : rest.length < fuel) :
    (collect c fuel it).wp
      (fun r ldb' => (∃ it', r = .ok (rest, it') ∧ it'.err = none) ∧ ldb'.Holds c l) ldb := by
  induction fuel generalizing rest it ldb with
  | zero => omega
  | succ fuel ih =>
    have hnext := next_wp h hit
    clear hit
    rw [collect, wp_bind]
    refine wp_mono ?_ hnext
    rintro r ldb' ⟨hyields, hldb⟩
    cases hyields with
    | @nil it _ _ hit => exact ⟨⟨it, rfl, hit.err_eq_none⟩, hldb⟩
    | @cons it k v rest hkey hvalue hit =>
      have hlen : rest.length < fuel := by
        rw [List.length_cons] at hfuel
        omega
      rw [between_ok, if_pos rfl, wp_bind]
      refine wp_mono ?_ (ih hldb hit hlen)
      rintro r ldb' ⟨⟨it', rfl, herr⟩, hldb⟩
      refine ⟨⟨it', ?_, herr⟩, hldb⟩
      rw [hkey, hvalue]
      rfl

theorem newIteratorWithStart_before (h : ldb.Holds c l) (start : Bytes) :
    Before l (suffixFrom start l) (ldb.newIteratorWithStart start) := by
  rw [newIteratorWithStart, has_eq h]
  by_cases hstart : start ∈ l.map Prod.fst
  · obtain ⟨pre, v, post, hl, hsuffix⟩ := exists_suffixFrom hstart
    rw [if_pos (decide_eq_true hstart), hsuffix]
    exact .inside rfl rfl rfl rfl hl
  rw [suffixFrom, if_neg hstart, if_neg (by simpa using hstart)]
  exact .fresh rfl rfl rfl

/-! ## Runs -/

/-- The calls of a `linkedDB`. -/
inductive Op where
  | put (w : Write) (key value : Bytes)
  | delete (w : Write) (key : Bytes)
  | get (key : Bytes)
  | isEmpty
  | headKey
  | head
  /-- One call of `Next` of any iterator. -/
  | next (it : Iterator)

/-- What a call does, without what it returns. -/
def Op.perform (c : NodeCodec) : Op → LinkedM Unit
  | .put w key value => LinkedDB.put c w key value
  | .delete w key => LinkedDB.delete c w key
  | .get key => do let _ ← LinkedDB.get c key; pure ()
  | .isEmpty => do let _ ← LinkedDB.isEmpty; pure ()
  | .headKey => do let _ ← getHeadKey; pure ()
  | .head => do let _ ← LinkedDB.head c; pure ()
  | .next it => do let _ ← it.next c; pure ()

/-- What a call that returns does to the list. -/
def Op.onList (l : List (Bytes × Bytes)) : Op → List (Bytes × Bytes)
  | .put _ key value => putList key value l
  | .delete _ key => remove key l
  | _ => l

/-- One call, and what it does to the list if it returns no error. -/
def step (c : NodeCodec) (s : List (Bytes × Bytes) × LinkedDB) (op : Op) :
    List (Bytes × Bytes) × LinkedDB :=
  (if ((op.perform c).exec s.2).1.isOk then op.onList s.1 else s.1, ((op.perform c).exec s.2).2)

/-- A run from a database that stores the list. -/
def run (c : NodeCodec) (l : List (Bytes × Bytes)) (db : KeyValues) (cacheSize : Int)
    (ops : List Op) : List (Bytes × Bytes) × LinkedDB :=
  ops.foldl (step c) (l, new db cacheSize)

theorem holds_new {db : KeyValues} (h : Stored c l db) (cacheSize : Int) :
    (new db cacheSize).Holds c l := by
  refine ⟨h, fun hsynced => ?_, fun e he => ?_⟩
  · cases hsynced
  · exact absurd he List.not_mem_nil

theorem Outcome.holds {w : Write} {r : Except LinkedErr Unit} (h : Outcome c w l l' r ldb) :
    ldb.Holds c (if r.isOk then l' else l) := by
  cases h with
  | ok h => exact h
  | marshal h _ => exact h
  | write h _ => exact h

/-- A read leaves the list. -/
theorem holds_discard {α : Type} {x : LinkedM α} (h : x.wp (fun _ ldb' => ldb'.Holds c l) ldb) :
    (do let _ ← x; pure () : LinkedM Unit).wp
      (fun r ldb' => ldb'.Holds c (if r.isOk then l else l)) ldb := by
  rw [wp_bind]
  refine wp_mono ?_ h
  intro r ldb' h'
  cases r with
  | ok a => exact h'
  | error e => exact h'

/-- Reads of an iterator, at whatever key it stands. -/
theorem next_holds (h : ldb.Holds c l) : (it.next c).wp (fun _ ldb' => ldb'.Holds c l) ldb := by
  have hadvance : ∀ (it : Iterator) (ldb : LinkedDB), ldb.Holds c l →
      (it.advance c).wp (fun _ ldb' => ldb'.Holds c l) ldb := by
    intro it ldb h
    rw [Iterator.advance, wp_bind, wp_attempt]
    refine getNode_wp h fun ldb' hl _ => ?_
    cases nodeAt l it.nextKey with
    | none => exact hl
    | some n => exact hl
  rw [Iterator.next]
  split
  · exact h
  split
  · exact hadvance it ldb h
  rw [wp_bind, wp_attempt]
  refine getHeadKey_wp h fun ldb' hl _ => ?_
  cases first l with
  | none => exact hl
  | some k => exact hadvance _ ldb' hl

section Run

variable (hc : ∀ n nodeBytes, c.marshal n = some nodeBytes → c.unmarshal nodeBytes = some n)

include hc

theorem perform_wp (op : Op) (h : ldb.Holds c l) :
    (op.perform c).wp (fun r ldb' => ldb'.Holds c (if r.isOk then op.onList l else l)) ldb := by
  cases op with
  | put w key value => exact wp_mono (fun _ _ => Outcome.holds) (put_wp hc h)
  | delete w key => exact wp_mono (fun _ _ => Outcome.holds) (delete_wp hc h)
  | get key => exact holds_discard (wp_mono (fun _ _ hr => hr.2) (get_wp h))
  | isEmpty => exact holds_discard (wp_mono (fun _ _ hr => hr.2) (isEmpty_wp h))
  | headKey => exact holds_discard (wp_mono (fun _ _ hr => hr.2) (headKey_wp h))
  | head => exact holds_discard (wp_mono (fun _ _ hr => hr.2) (head_wp h))
  | next it => exact holds_discard (next_holds h)

/-- After every run the `linkedDB` stores the list of the run. -/
theorem run_holds {db : KeyValues} (h : Stored c l db) (cacheSize : Int) (ops : List Op) :
    (run c l db cacheSize ops).2.Holds c (run c l db cacheSize ops).1 := by
  refine List.foldl_history (P := fun _ (s : List (Bytes × Bytes) × LinkedDB) => s.2.Holds c s.1) ?_ (fun _ s op hs => ?_) ops
  · exact holds_new h cacheSize
  · exact perform_wp hc op hs

end Run

/-- The node that is stored under a key. -/
def storedNode (c : NodeCodec) (ldb : LinkedDB) (key : Bytes) : Option LinkedNode :=
  (ldb.db.lookup (nodeKey key)).bind c.unmarshal

/-- What can be read of a `linkedDB` that stores the list. -/
structure Ordered (c : NodeCodec) (l : List (Bytes × Bytes)) (ldb : LinkedDB) : Prop where
  nodup : (l.map Prod.fst).Nodup
  /-- The nodes are those of the keys of the list. -/
  nodes : ∀ key, (storedNode c ldb key).map LinkedNode.value = valueAt l key
  /-- The links are mutually inverse. -/
  next : ∀ key n, storedNode c ldb key = some n → n.hasNext = true →
    ∃ n', storedNode c ldb n.next = some n' ∧ n'.hasPrevious = true ∧ n'.previous = key
  previous : ∀ key n, storedNode c ldb key = some n → n.hasPrevious = true →
    ∃ n', storedNode c ldb n.previous = some n' ∧ n'.hasNext = true ∧ n'.next = key
  /-- Exactly the head has no previous node. -/
  first : ∀ key n, storedNode c ldb key = some n →
    (n.hasPrevious = false ↔ ldb.db.lookup headKeyKey = some key)
  cachedHead : ldb.headKeyIsSynced = true →
    (if ldb.headKeyExists then some ldb.headKey else none) = ldb.db.lookup headKeyKey
  cachedNodes : ∀ e ∈ ldb.nodeCache.entries, e.2 = storedNode c ldb e.1
  get : ∀ key, ((get c key).exec ldb).1 = found (valueAt l key)
  has : ∀ key, ldb.has key = decide (key ∈ l.map Prod.fst)
  isEmpty : (isEmpty.exec ldb).1 = .ok l.isEmpty
  headKey : (getHeadKey.exec ldb).1 = found (l.head?.map Prod.fst)
  head : ((head c).exec ldb).1 = found l.head?
  /-- An iterator ends after it went through the list. -/
  iterator : ∀ fuel, l.length < fuel →
    ∃ it, ((collect c fuel .new).exec ldb).1 = .ok (l, it) ∧ it.err = none
  iteratorWithStart : ∀ start fuel, l.length < fuel →
    ∃ it, ((collect c fuel (ldb.newIteratorWithStart start)).exec ldb).1 =
      .ok (suffixFrom start l, it) ∧ it.err = none

theorem storedNode_eq (h : ldb.Holds c l) (key : Bytes) :
    storedNode c ldb key = (cells none l key).map ofCell := (h.stored.node key).1

/-- The cell of a stored node. -/
theorem cell_of_storedNode {n : LinkedNode} (h : ldb.Holds c l) (hn : storedNode c ldb key = some n) :
    ∃ cell, cells none l key = some cell ∧ ofCell cell = n := by
  rw [storedNode_eq h] at hn
  exact Option.map_eq_some_iff.mp hn

theorem storedNode_of_cells {cell : Cell Bytes Bytes} (h : ldb.Holds c l)
    (hcell : cells none l key = some cell) : storedNode c ldb key = some (ofCell cell) := by
  rw [storedNode_eq h, hcell]
  rfl

theorem Holds.ordered (h : ldb.Holds c l) : Ordered c l ldb where
  nodup := h.stored.nodup
  nodes key := by
    rw [← value_nodeAt, nodeAt, storedNode_eq h]
  next key n hn hnext := by
    obtain ⟨cell, hcell, rfl⟩ := cell_of_storedNode h hn
    obtain ⟨k', hk'⟩ := Option.isSome_iff_exists.mp hnext
    obtain ⟨cell', hcell', hprev⟩ := prev_of_next h.stored.nodup hcell hk'
    refine ⟨ofCell cell', ?_, ?_⟩
    · have hkey : (ofCell cell).next = k' := by
        rw [ofCell, hk']
        rfl
      rw [hkey]
      exact storedNode_of_cells h hcell'
    · rw [ofCell, hprev]
      exact ⟨rfl, rfl⟩
  previous key n hn hprevious := by
    obtain ⟨cell, hcell, rfl⟩ := cell_of_storedNode h hn
    obtain ⟨k', hk'⟩ := Option.isSome_iff_exists.mp hprevious
    obtain ⟨-, hmem⟩ := first_remove_of_prev h.stored.nodup hcell hk'
    obtain ⟨cell', hcell', hnext⟩ := next_of_prev h.stored.nodup hcell hk' hmem
      (fun k hk => by cases hk)
    refine ⟨ofCell cell', ?_, ?_⟩
    · have hkey : (ofCell cell).previous = k' := by
        rw [ofCell, hk']
        rfl
      rw [hkey]
      exact storedNode_of_cells h hcell'
    · rw [ofCell, hnext]
      exact ⟨rfl, rfl⟩
  first key n hn := by
    obtain ⟨cell, hcell, rfl⟩ := cell_of_storedNode h hn
    rw [h.stored.head]
    rcases prev_cases hcell with ⟨hfirst, hprev⟩ | ⟨hfirst, k', -, hprev⟩
    · exact iff_of_true (by rw [ofCell, hprev]; rfl) hfirst
    · exact iff_of_false (by rw [ofCell, hprev]; simp) hfirst
  cachedHead hsynced := (h.headCache hsynced).symm.trans h.stored.head.symm
  cachedNodes e he := (h.nodeCache e he).trans (storedNode_eq h e.1).symm
  get key := (get_wp h).1
  has := has_eq h
  isEmpty := (isEmpty_wp h).1
  headKey := (headKey_wp h).1
  head := (head_wp h).1
  iterator fuel hfuel := (collect_wp h (.fresh rfl rfl rfl) hfuel).1
  iteratorWithStart start fuel hfuel := (collect_wp h (newIteratorWithStart_before h start)
    (Nat.lt_of_le_of_lt (suffixFrom_suffix start l).length_le hfuel)).1

/-- linkeddb is an ordered map: after every run of calls, through a cache of any size and with
    writes that fail, what is read is the list to which the puts and deletes that returned were
    applied. Only a failed write or a node that the codec refuses makes one of them fail. -/
theorem run_ordered (c : NodeCodec)
    (hc : ∀ n nodeBytes, c.marshal n = some nodeBytes → c.unmarshal nodeBytes = some n)
    (l : List (Bytes × Bytes)) (db : KeyValues) (h : Stored c l db) (cacheSize : Int)
    (ops : List Op) :
    let s := run c l db cacheSize ops
    Ordered c s.1 s.2 ∧
    ∀ w key value e,
      ((put c w key value).exec s.2).1 = .error e ∨ ((delete c w key).exec s.2).1 = .error e →
      w.succeeds = false ∨ ∃ n, c.marshal n = none := by
  intro s
  have hs : s.2.Holds c s.1 := run_holds hc h cacheSize ops
  refine ⟨hs.ordered, fun w key value e he => ?_⟩
  have houtcome : ∀ {l' r ldb'}, Outcome c w s.1 l' r ldb' → r = .error e →
      w.succeeds = false ∨ ∃ n, c.marshal n = none := by
    intro l' r ldb' ho hr
    cases ho with
    | ok _ => cases hr
    | marshal _ hn => exact .inr ⟨_, hn⟩
    | write _ hw => exact .inl hw
  have hdelete : (delete c w key).wp (Outcome c w s.1 (remove key s.1)) s.2 := delete_wp hc hs
  rcases he with he | he
  · exact houtcome (put_wp hc hs) he
  · exact houtcome hdelete he

/-! ## A small run -/

namespace Sample

/-- Bytes, each after a mark, and an end mark. -/
def field (b : Bytes) : Bytes := b.flatMap (fun x => [1, x]) ++ [0]

def readField : Bytes → Option (Bytes × Bytes)
  | 0 :: rest => some ([], rest)
  | 1 :: x :: rest => (readField rest).map fun r => (x :: r.1, r.2)
  | _ => none

theorem readField_field (b rest : Bytes) : readField (field b ++ rest) = some (b, rest) := by
  induction b with
  | nil => rfl
  | cons x b ih =>
    show (readField (field b ++ rest)).map _ = _
    rw [ih]
    rfl

/-- A codec of nodes. -/
def codec : NodeCodec where
  marshal n := some (n.hasNext.toUInt8 :: n.hasPrevious.toUInt8 ::
    (field n.value ++ (field n.next ++ field n.previous)))
  unmarshal
    | hasNext :: hasPrevious :: b => do
      let (value, b) ← readField b
      let (next, b) ← readField b
      let (previous, _) ← readField b
      some { value, hasNext := hasNext == 1, next, hasPrevious := hasPrevious == 1, previous }
    | _ => none

theorem codec_roundTrip (n : LinkedNode) (nodeBytes : Bytes) (h : codec.marshal n = some nodeBytes) :
    codec.unmarshal nodeBytes = some n := by
  obtain ⟨value, hasNext, next, hasPrevious, previous⟩ := n
  obtain rfl := Option.some.inj h
  have hlast := readField_field previous []
  rw [List.append_nil] at hlast
  simp only [codec, readField_field, hlast, Option.bind_eq_bind, Option.bind_some]
  cases hasNext <;> cases hasPrevious <;> rfl

/-- The position of a byte string in an enumeration of all of them. -/
def position : Bytes → Nat
  | [] => 0
  | x :: b => x.toNat + 1 + 257 * position b

theorem position_injective : Function.Injective position := by
  intro b b' h
  induction b generalizing b' with
  | nil =>
    cases b' with
    | nil => rfl
    | cons x b' =>
      simp only [position] at h
      omega
  | cons x b ih =>
    cases b' with
    | nil =>
      simp only [position] at h
      omega
    | cons x' b' =>
      simp only [position] at h
      have hx := x.toNat_lt
      have hx' := x'.toNat_lt
      have hxx' : x.toNat = x'.toNat := by omega
      rw [UInt8.toNat_inj.mp hxx', ih (by omega : position b = position b')]

def written : Write := ⟨true, .ascending position position_injective⟩

/-- Two keys are put, one is overwritten, and a delete is not written. -/
def ops : List Op :=
  [.put written [1] [10], .put written [2] [20], .get [3], .put written [1] [11],
    .delete { written with succeeds := false } [2]]

theorem stored_empty : Stored codec [] ∅ := by
  refine ⟨List.nodup_nil, rfl, fun key => ⟨rfl, ?_⟩⟩
  simp

end Sample

/-- The newer key is first, and the overwritten one kept its place. -/
theorem run_ordered_sample : (run Sample.codec [] ∅ 1 Sample.ops).1 = [([2], [20]), ([1], [11])] ∧
    Ordered Sample.codec (run Sample.codec [] ∅ 1 Sample.ops).1
      (run Sample.codec [] ∅ 1 Sample.ops).2 :=
  ⟨by decide +kernel,
    (run_ordered Sample.codec Sample.codec_roundTrip [] ∅ Sample.stored_empty 1 Sample.ops).1⟩

end SavannahNode.LinkedDB
