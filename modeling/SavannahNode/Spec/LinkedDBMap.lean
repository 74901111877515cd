import SavannahNode.ForStd.LinkedList
import SavannahNode.ForStd.Run
import SavannahNode.Native.LinkedDB

/-!
# linkeddb is an ordered map

What a `linkedDB` stores is a list of keys with values, newest first. The nodes are the cells
of a doubly linked list; `Put` overwrites a value in place or adds a key at the front,
`Delete` removes a key. The caches agree with what is stored, and an operation that returns an
error changes nothing that can be read.

## Key results

* `LinkedDB.Holds` — the list a `linkedDB` stores.
* `LinkedDB.put_wp`, `LinkedDB.delete_wp` — the two operations.
-/

namespace SavannahNode

open Finmap Function List Option Proc

/-! ## The cache -/

namespace LRU

variable {κ α : Type} [DecidableEq κ] {op : BatchOp}

/-- Every entry has the property. -/
def All (c : LRU κ α) (P : κ → α → Prop) : Prop := ∀ e ∈ c.entries, P e.1 e.2

variable {c : LRU κ α} {P Q : κ → α → Prop} {key : κ}

omit [DecidableEq κ] in
theorem All.resize (h : c.All P) : c.resize.All P := fun e he => h e (mem_of_mem_drop he)

theorem All.others (h : c.All P) : ∀ e ∈ c.others key, e.1 ≠ key ∧ P e.1 e.2 := by
  intro e he
  rw [LRU.others, mem_filter, decide_eq_true_eq] at he
  exact ⟨he.2, h e he.1⟩

/-- What was put last about a key is what is in the cache. -/
theorem All.put {value : α} (h : c.All P) (hnew : Q key value)
    (hothers : ∀ k v, k ≠ key → P k v → Q k v) : (c.put key value).All Q := by
  have hresize := h.resize
  rw [LRU.put]
  generalize c.resize = c at hresize
  have hsnoc : ∀ l : List (κ × α), (∀ e ∈ l, e.1 ≠ key ∧ P e.1 e.2) →
      ∀ e ∈ l ++ [(key, value)], Q e.1 e.2 := by
    intro l hl e he
    rcases mem_append.mp he with he | he
    · exact hothers e.1 e.2 (hl e he).1 (hl e he).2
    rw [mem_singleton.mp he]
    exact hnew
  split
  · exact hsnoc _ hresize.others
  rename_i habsent
  have hall : ∀ e ∈ c.entries, e.1 ≠ key ∧ P e.1 e.2 := by
    intro e he
    refine ⟨fun heq => habsent ?_, hresize e he⟩
    exact any_eq_true.mpr ⟨e, he, decide_eq_true heq⟩
  split
  · exact hsnoc _ fun e he => hall e (mem_of_mem_drop he)
  · exact hsnoc _ hall

/-- What the cache returns is in it, and a read adds nothing. -/
theorem All.get (h : c.All P) (key : κ) : (∀ v ∈ (c.get key).1, P key v) ∧ (c.get key).2.All P := by
  have hresize := h.resize
  rw [LRU.get]
  generalize c.resize = c at hresize
  split
  · rename_i e he
    have hkey : e.1 = key := by simpa using find?_some he
    have hmem := hresize e (mem_of_find?_eq_some he)
    refine ⟨fun v hv => ?_, fun e' he' => ?_⟩
    · cases hv
      rw [← hkey]
      exact hmem
    rcases mem_append.mp he' with he' | he'
    · exact (hresize.others e' he').2
    rw [mem_singleton.mp he']
    exact hmem
  refine ⟨fun v hv => ?_, hresize⟩
  cases hv

end LRU

namespace LinkedDB

open LinkedList

/-! ## What is stored -/

/-- The node of a cell. -/
def ofCell (c : Cell Bytes Bytes) : LinkedNode :=
  { value := c.value
    hasNext := c.next.isSome
    next := c.next.getD []
    hasPrevious := c.prev.isSome
    previous := c.prev.getD [] }

/-- The node of a key in a list. -/
def nodeAt (l : List (Bytes × Bytes)) (key : Bytes) : Option LinkedNode := (cells none l key).map ofCell

variable (c : NodeCodec)

/-- The database stores the list. -/
structure Stored (l : List (Bytes × Bytes)) (db : KeyValues) : Prop where
  nodup : (l.map Prod.fst).Nodup
  head : db.lookup headKeyKey = first l
  node : ∀ key, (db.lookup (nodeKey key)).bind c.unmarshal = nodeAt l key ∧
    ((db.lookup (nodeKey key)).isSome = true ↔ key ∈ l.map Prod.fst)

/-- A `linkedDB` stores the list, and its caches agree with it. -/
structure Holds (l : List (Bytes × Bytes)) (ldb : LinkedDB) : Prop where
  stored : Stored c l ldb.db
  headCache : ldb.headKeyIsSynced = true →
    first l = if ldb.headKeyExists then some ldb.headKey else none
  nodeCache : ldb.nodeCache.All fun key n => n = nodeAt l key

/-- The same operation is in progress. -/
structure SameBatch (ldb ldb' : LinkedDB) : Prop where
  db : ldb'.db = ldb.db
  batch : ldb'.batch = ldb.batch
  headKeyIsUpdated : ldb'.headKeyIsUpdated = ldb.headKeyIsUpdated
  updatedHeadKeyExists : ldb'.updatedHeadKeyExists = ldb.updatedHeadKeyExists
  updatedHeadKey : ldb'.updatedHeadKey = ldb.updatedHeadKey
  updatedNodes : ldb'.updatedNodes = ldb.updatedNodes

variable {c} {l l' : List (Bytes × Bytes)} {ldb ldb' : LinkedDB} {key value : Bytes}

/-! ## Reads -/

theorem SameBatch.refl (ldb : LinkedDB) : SameBatch ldb ldb := ⟨rfl, rfl, rfl, rfl, rfl, rfl⟩

/-- What a read returns of something that may be missing. -/
def found {α : Type} : Option α → Except LinkedErr α
  | some a => .ok a
  | none => .error .notFound

/-- `getHeadKey` returns the first key. -/
theorem getHeadKey_wp {Q : Except LinkedErr Bytes → LinkedDB → Prop} (h : ldb.Holds c l)
    (hQ : ∀ ldb', ldb'.Holds c l → SameBatch ldb ldb' → Q (found (first l)) ldb') :
    getHeadKey.wp Q ldb := by
  rw [wp, exec, getHeadKey]
  split
  · rename_i hsynced
    have hfirst : found (first l) =
        if ldb.headKeyExists then .ok ldb.headKey else .error .notFound := by
      rw [h.headCache hsynced]
      split
      · rfl
      · rfl
    rw [← hfirst]
    exact hQ ldb h (.refl ldb)
  have hhead := h.stored.head
  split
  · rename_i headKey hlookup
    rw [hlookup] at hhead
    rw [← hhead] at hQ
    exact hQ _ ⟨h.stored, fun _ => hhead.symm, h.nodeCache⟩ ⟨rfl, rfl, rfl, rfl, rfl, rfl⟩
  rename_i hlookup
  rw [hlookup] at hhead
  rw [← hhead] at hQ
  exact hQ _ ⟨h.stored, fun _ => hhead.symm, h.nodeCache⟩ ⟨rfl, rfl, rfl, rfl, rfl, rfl⟩

/-- `getNode` returns the node of a key. -/
theorem getNode_wp {Q : Except LinkedErr LinkedNode → LinkedDB → Prop} (h : ldb.Holds c l)
    (hQ : ∀ ldb', ldb'.Holds c l → SameBatch ldb ldb' → Q (found (nodeAt l key)) ldb') :
    (getNode c key).wp Q ldb := by
  obtain ⟨hget, hcache⟩ := h.nodeCache.get key
  rw [wp, exec, getNode]
  split
  · rename_i n nodeCache heq
    rw [heq] at hget hcache
    rw [← hget (some n) rfl] at hQ
    exact hQ _ ⟨h.stored, h.headCache, hcache⟩ ⟨rfl, rfl, rfl, rfl, rfl, rfl⟩
  · rename_i nodeCache heq
    rw [heq] at hget hcache
    rw [← hget none rfl] at hQ
    exact hQ _ ⟨h.stored, h.headCache, hcache⟩ ⟨rfl, rfl, rfl, rfl, rfl, rfl⟩
  rename_i nodeCache heq
  rw [heq] at hcache
  -- the node is read from the database
  obtain ⟨hnode, hsome⟩ := h.stored.node key
  split
  · rename_i hlookup
    rw [hlookup] at hnode
    have hput := LRU.All.put hcache (Q := fun key n => n = nodeAt l key) hnode fun _ _ _ hP => hP
    rw [← hnode] at hQ
    exact hQ _ ⟨h.stored, h.headCache, hput⟩ ⟨rfl, rfl, rfl, rfl, rfl, rfl⟩
  rename_i nodeBytes hlookup
  rw [hlookup, bind_some] at hnode
  split
  · rename_i n hn
    rw [hn] at hnode
    have hput := LRU.All.put hcache (Q := fun key n => n = nodeAt l key) hnode fun _ _ _ hP => hP
    rw [← hnode] at hQ
    exact hQ _ ⟨h.stored, h.headCache, hput⟩ ⟨rfl, rfl, rfl, rfl, rfl, rfl⟩
  rename_i hn
  -- a stored node is a node of the list
  rw [hn] at hnode
  rw [hlookup] at hsome
  have hmem := hsome.mp rfl
  rw [nodeAt, eq_comm, map_eq_none_iff] at hnode
  exact absurd hmem (cells_eq_none.mp hnode)

/-! ## The batch -/

/-- What the operation in progress leaves as the first key. -/
def pendingHead (l : List (Bytes × Bytes)) (ldb : LinkedDB) : Option Bytes :=
  if ldb.headKeyIsUpdated then if ldb.updatedHeadKeyExists then some ldb.updatedHeadKey else none
  else first l

/-- What the operation in progress leaves as the node of a key. -/
def pendingNode (l : List (Bytes × Bytes)) (ldb : LinkedDB) (key : Bytes) : Option LinkedNode :=
  (ldb.updatedNodes.lookup key).getD (nodeAt l key)

variable (c) in
/-- What is written for a node. -/
def Written : Option LinkedNode → Option Bytes → Prop
  | none, written => written = none
  | some n, written => ∃ nodeBytes, written = some nodeBytes ∧ c.marshal n = some nodeBytes

variable (c) in
/-- The batch contains what the operation in progress has changed. -/
structure Batched (ldb : LinkedDB) : Prop where
  head : (ldb.db.write ldb.batch).lookup headKeyKey =
    if ldb.headKeyIsUpdated then if ldb.updatedHeadKeyExists then some ldb.updatedHeadKey else none
    else ldb.db.lookup headKeyKey
  kept : ∀ key, ldb.updatedNodes.lookup key = none →
    (ldb.db.write ldb.batch).lookup (nodeKey key) = ldb.db.lookup (nodeKey key)
  deleted : ∀ key, ldb.updatedNodes.lookup key = some none →
    (ldb.db.write ldb.batch).lookup (nodeKey key) = none
  put : ∀ key n, ldb.updatedNodes.lookup key = some (some n) →
    ∃ nodeBytes, (ldb.db.write ldb.batch).lookup (nodeKey key) = some nodeBytes ∧
      c.marshal n = some nodeBytes

theorem nodeKey_ne_headKeyKey (key : Bytes) : nodeKey key ≠ headKeyKey := by
  intro h
  exact absurd (cons.inj h).1 (by decide)

theorem write_snoc (db : KeyValues) (ops : List BatchOp) (op : BatchOp) :
    db.write (ops ++ [op]) = op.apply (db.write ops) := by
  rw [KeyValues.write, foldl_append]
  rfl

theorem Batched.same (h : ldb.Batched c) (hs : SameBatch ldb ldb') : ldb'.Batched c := by
  obtain ⟨hdb, hbatch, hupdated, hexists, hhead, hnodes⟩ := hs
  refine ⟨?_, ?_, ?_, ?_⟩
  · rw [hdb, hbatch, hupdated, hexists, hhead]
    exact h.head
  · rw [hdb, hbatch, hnodes]
    exact h.kept
  · rw [hdb, hbatch, hnodes]
    exact h.deleted
  · rw [hdb, hbatch, hnodes]
    exact h.put

/-- An update of the head key that is in the batch. -/
theorem Batched.updateHead (h : ldb.Batched c) {present : Bool} {headKey : Bytes}
    (hop : ∀ db k, k ≠ headKeyKey → (op.apply db).lookup k = db.lookup k)
    (hhead : ∀ db, (op.apply db).lookup headKeyKey = if present then some headKey else none) :
    Batched c { ldb with
      headKeyIsUpdated := true
      updatedHeadKeyExists := present
      updatedHeadKey := headKey
      batch := ldb.batch ++ [op] } := by
  have hnode : ∀ k, (ldb.db.write (ldb.batch ++ [op])).lookup (nodeKey k) =
      (ldb.db.write ldb.batch).lookup (nodeKey k) := by
    intro k
    rw [write_snoc, hop _ _ (nodeKey_ne_headKeyKey k)]
  refine ⟨?_, fun k hk => ?_, fun k hk => ?_, fun k n hk => ?_⟩
  · show (ldb.db.write (ldb.batch ++ [op])).lookup headKeyKey = if present then some headKey else none
    rw [write_snoc, hhead]
  · exact (hnode k).trans (h.kept k hk)
  · exact (hnode k).trans (h.deleted k hk)
  · obtain ⟨nodeBytes, hlookup, hmarshal⟩ := h.put k n hk
    exact ⟨nodeBytes, (hnode k).trans hlookup, hmarshal⟩

/-- An update of one node that is in the batch. -/
theorem Batched.update (h : ldb.Batched c) {key : Bytes} {n : Option LinkedNode}
    (hop : ∀ db k, k ≠ nodeKey key → (op.apply db).lookup k = db.lookup k)
    (hn : ∀ db, Written c n ((op.apply db).lookup (nodeKey key))) :
    Batched c { ldb with
      updatedNodes := ldb.updatedNodes.insert key n, batch := ldb.batch ++ [op] } := by
  have hother : ∀ k, k ≠ nodeKey key →
      (ldb.db.write (ldb.batch ++ [op])).lookup k = (ldb.db.write ldb.batch).lookup k := by
    intro k hk
    rw [write_snoc, hop _ _ hk]
  have hne : ∀ {k}, k ≠ key → nodeKey k ≠ nodeKey key := fun hk heq => hk (cons.inj heq).2
  refine ⟨?_, fun k hk => ?_, fun k hk => ?_, fun k n' hk => ?_⟩
  · exact (hother _ (nodeKey_ne_headKeyKey key).symm).trans h.head
  · rw [lookup_insert_ite] at hk
    split at hk
    · cases hk
    · exact (hother _ (hne ‹_›)).trans (h.kept k hk)
  · rw [lookup_insert_ite] at hk
    split at hk
    · rename_i heq
      subst heq
      cases hk
      rw [write_snoc]
      exact hn _
    · exact (hother _ (hne ‹_›)).trans (h.deleted k hk)
  rw [lookup_insert_ite] at hk
  split at hk
  · rename_i heq
    subst heq
    cases hk
    obtain ⟨nodeBytes, hlookup, hmarshal⟩ := hn (ldb.db.write ldb.batch)
    refine ⟨nodeBytes, ?_, hmarshal⟩
    rw [write_snoc]
    exact hlookup
  obtain ⟨nodeBytes, hlookup, hmarshal⟩ := h.put k n' hk
  exact ⟨nodeBytes, (hother _ (hne ‹_›)).trans hlookup, hmarshal⟩

variable (c) in
/-- A `linkedDB` stores the list `l`, and the operation in progress leaves a head and nodes. -/
structure Pending (l : List (Bytes × Bytes)) (head : Option Bytes)
    (node : Bytes → Option LinkedNode) (ldb : LinkedDB) : Prop where
  holds : ldb.Holds c l
  batched : ldb.Batched c
  head : pendingHead l ldb = head
  node : ∀ key, pendingNode l ldb key = node key

variable {head : Option Bytes} {node : Bytes → Option LinkedNode}
  {Q : Except LinkedErr Unit → LinkedDB → Prop}

theorem Pending.same (h : ldb.Pending c l head node) (hl : ldb'.Holds c l)
    (hs : SameBatch ldb ldb') : ldb'.Pending c l head node := by
  refine ⟨hl, h.batched.same hs, ?_, fun key => ?_⟩
  · rw [pendingHead, hs.headKeyIsUpdated, hs.updatedHeadKeyExists, hs.updatedHeadKey]
    exact h.head
  · rw [pendingNode, hs.updatedNodes]
    exact h.node key

theorem resetBatch_wp (h : ldb.Holds c l)
    (hQ : ∀ ldb', ldb'.Pending c l (first l) (nodeAt l) → Q (.ok ()) ldb') :
    resetBatch.wp Q ldb := by
  apply hQ
  refine ⟨{ h with }, ⟨rfl, fun key _ => rfl, ?_, ?_⟩, rfl, fun key => rfl⟩
  · intro key hkey
    cases (lookup_empty key).symm.trans hkey
  · intro key n hkey
    cases (lookup_empty key).symm.trans hkey

section

variable (h : ldb.Pending c l head node) {n : LinkedNode}

include h

theorem putHeadKey_wp (hQ : ∀ ldb', ldb'.Pending c l (some key) node → Q (.ok ()) ldb') :
    (putHeadKey key).wp Q ldb := by
  apply hQ
  refine ⟨{ h.holds with }, ?_, rfl, h.node⟩
  exact h.batched.updateHead (fun _ _ hk => lookup_insert_of_ne _ hk) fun db =>
    lookup_insert db

theorem deleteHeadKey_wp
    (hQ : ∀ ldb', ldb'.Pending c l none node → Q (.ok ()) ldb') : deleteHeadKey.wp Q ldb := by
  apply hQ
  refine ⟨{ h.holds with }, ?_, rfl, h.node⟩
  exact h.batched.updateHead (fun _ _ hk => lookup_erase_ne hk) fun db =>
    lookup_erase _ db

/-- The nodes left after one more update. -/
theorem Pending.update {n : Option LinkedNode}
    (hop : ∀ db k, k ≠ nodeKey key → (op.apply db).lookup k = db.lookup k)
    (hn : ∀ db, Written c n ((op.apply db).lookup (nodeKey key))) :
    Pending c l head (update node key n) { ldb with
      updatedNodes := ldb.updatedNodes.insert key n, batch := ldb.batch ++ [op] } := by
  refine ⟨{ h.holds with }, h.batched.update hop hn, h.head, fun k => ?_⟩
  rw [pendingNode, lookup_insert_ite, update_apply]
  split
  · rfl
  · exact h.node k

theorem deleteNode_wp
    (hQ : ∀ ldb', ldb'.Pending c l head (update node key none) → Q (.ok ()) ldb') :
    (deleteNode key).wp Q ldb := by
  apply hQ
  exact h.update (fun _ _ hk => lookup_erase_ne hk) fun db => lookup_erase _ db

theorem putNode_wp (hQ : ∀ ldb', ldb'.Pending c l head (update node key (some n)) → Q (.ok ()) ldb')
    (herr : c.marshal n = none → ∀ ldb', ldb'.Holds c l → Q (.error .marshal) ldb') :
    (putNode c key n).wp Q ldb := by
  rw [wp, exec, putNode]
  cases hmarshal : c.marshal n with
  | none => exact herr hmarshal _ { h.holds with }
  | some nodeBytes =>
    apply hQ
    exact h.update (fun _ _ hk => lookup_insert_of_ne _ hk) fun db =>
      ⟨nodeBytes, lookup_insert db, hmarshal⟩

end

/-- The nodes in the cache after a write. -/
theorem nodeCache_writeBatch (w : Write) (h : ldb.Holds c l)
    (hnode : ∀ key, pendingNode l ldb key = nodeAt l' key) :
    ((w.order.list ldb.updatedNodes.keys).foldl
      (fun nodeCache key => nodeCache.put key ((ldb.updatedNodes.lookup key).getD none))
      ldb.nodeCache).All fun key n => n = nodeAt l' key := by
  -- what has been put is of the new list, the rest of the old one
  have hloop := foldl_history (s := ldb.nodeCache)
    (f := fun nodeCache key => nodeCache.put key ((ldb.updatedNodes.lookup key).getD none))
    (P := fun done nodeCache => (∀ key ∈ done, key ∈ ldb.updatedNodes.keys) →
      nodeCache.All fun key n => n = if key ∈ done then nodeAt l' key else nodeAt l key)
    (fun _ => by simpa using h.nodeCache) ?_ (w.order.list ldb.updatedNodes.keys)
  · intro e he
    have hentry := hloop (fun key hkey => (w.order.mem_list _ key).mp hkey) e he
    rw [hentry]
    split
    · rfl
    rename_i hkey
    rw [← hnode e.1, pendingNode]
    cases hlookup : ldb.updatedNodes.lookup e.1 with
    | none => rfl
    | some n =>
      exact absurd ((w.order.mem_list _ _).mpr ((mem_keys_iff _ _).mpr ⟨n, hlookup⟩)) hkey
  · intro done nodeCache key hdone hall
    have hdone' := hdone fun k hk => hall k (mem_append_left _ hk)
    obtain ⟨n, hn⟩ := (mem_keys_iff _ _).mp (hall key (by simp))
    refine LRU.All.put hdone' ?_ fun k v hk hv => ?_
    · rw [if_pos (by simp), ← hnode key, pendingNode, hn]
      rfl
    · rw [hv]
      simp [hk]

theorem mem_keys_iff_nodeAt : key ∈ l.map Prod.fst ↔ (nodeAt l key).isSome = true := by
  rw [nodeAt, isSome_map, ← not_iff_not, ← cells_eq_none (p := none)]
  simp

section

variable (hc : ∀ n nodeBytes, c.marshal n = some nodeBytes → c.unmarshal nodeBytes = some n)
  (h : ldb.Pending c l (first l') (nodeAt l')) (hnodup : (l'.map Prod.fst).Nodup)

include hc h hnodup

/-- What is stored after the batch is written. -/
theorem Pending.stored : Stored c l' (ldb.db.write ldb.batch) := by
  refine ⟨hnodup, ?_, fun key => ?_⟩
  · rw [h.batched.head, ← h.head, pendingHead, h.holds.stored.head]
  rw [mem_keys_iff_nodeAt, ← h.node key, pendingNode]
  cases hlookup : ldb.updatedNodes.lookup key with
  | none =>
    rw [h.batched.kept key hlookup]
    obtain ⟨hread, hsome⟩ := h.holds.stored.node key
    exact ⟨hread, hsome.trans mem_keys_iff_nodeAt⟩
  | some n =>
    cases n with
    | none =>
      rw [h.batched.deleted key hlookup]
      exact ⟨rfl, Iff.rfl⟩
    | some n =>
      obtain ⟨nodeBytes, hbytes, hmarshal⟩ := h.batched.put key n hlookup
      rw [hbytes]
      exact ⟨hc n nodeBytes hmarshal, Iff.rfl⟩

/-- `writeBatch` stores the list that the operation in progress leaves, or changes nothing. -/
theorem writeBatch_wp {w : Write} (hQ : ∀ ldb', ldb'.Holds c l' → Q (.ok ()) ldb')
    (herr : w.succeeds = false → ∀ ldb', ldb'.Holds c l → Q (.error .write) ldb') :
    (writeBatch w).wp Q ldb := by
  rw [wp, exec, writeBatch]
  cases hsucceeds : w.succeeds with
  | false => exact herr hsucceeds ldb h.holds
  | true =>
    have hstored := h.stored hc hnodup
    have hcache := nodeCache_writeBatch w h.holds h.node
    have hhead := h.head
    rw [pendingHead] at hhead
    cases hupdated : ldb.headKeyIsUpdated with
    | true =>
      rw [hupdated] at hhead
      exact hQ _ ⟨hstored, fun _ => hhead.symm, hcache⟩
    | false =>
      rw [hupdated] at hhead
      refine hQ _ ⟨hstored, fun hsynced => ?_, hcache⟩
      exact hhead.symm.trans (h.holds.headCache hsynced)

end

/-! ## Put and Delete -/

variable (c) in
/-- How an operation ends that leaves `l'`: an error changes nothing. -/
inductive Outcome (w : Write) (l l' : List (Bytes × Bytes)) :
    Except LinkedErr Unit → LinkedDB → Prop
  | ok {ldb : LinkedDB} (h : ldb.Holds c l') : Outcome w l l' (.ok ()) ldb
  | marshal {ldb : LinkedDB} (h : ldb.Holds c l) {n : LinkedNode} (hn : c.marshal n = none) :
    Outcome w l l' (.error .marshal) ldb
  | write {ldb : LinkedDB} (h : ldb.Holds c l) (hw : w.succeeds = false) :
    Outcome w l l' (.error .write) ldb

section Operations

variable {w : Write} {cell : Cell Bytes Bytes}

/-- One more node in the batch of an operation. -/
theorem Pending.putNode_wp {f : Unit → LinkedM Unit}
    (h : ldb.Pending c l head node)
    (hf : ∀ ldb', ldb'.Pending c l head (Function.update node key (some n)) →
      (f ()).wp (Outcome c w l l') ldb') :
    (putNode c key n >>= f : LinkedM Unit).wp (Outcome c w l l') ldb := by
  rw [wp_bind]
  exact LinkedDB.putNode_wp h hf fun hn _ hl => .marshal hl hn

/-- A node is read in an operation. -/
theorem Pending.getNode_wp {f : LinkedNode → LinkedM Unit} (h : ldb.Pending c l head node)
    (hn : nodeAt l key = some n) (hf : ∀ ldb', ldb'.Pending c l head node → (f n).wp Q ldb') :
    (getNode c key >>= f : LinkedM Unit).wp Q ldb := by
  rw [wp_bind]
  refine LinkedDB.getNode_wp h.holds fun ldb' hl hs => ?_
  rw [hn]
  exact hf ldb' (h.same hl hs)

theorem nodeAt_cons_self : nodeAt ((key, value) :: l) key =
    some (ofCell { value, next := first l, prev := none }) := by
  rw [nodeAt, cells_cons_self]
  rfl

theorem nodeAt_overwrite (hn : nodeAt l key = some n) (k : Bytes) :
    nodeAt (overwrite key value l) k = update (nodeAt l) key (some { n with value }) k := by
  rw [nodeAt, cells_overwrite, update_apply]
  split
  · rename_i hk
    subst hk
    obtain ⟨cell, hcell, rfl⟩ := map_eq_some_iff.mp hn
    rw [hcell]
    rfl
  · rfl

/-- A new first node: the old one, if there is one, points back to it. -/
theorem nodeAt_cons_of_first {headKey : Bytes} (habsent : key ∉ l.map Prod.fst)
    (hfirst : first l = some headKey) (hn : nodeAt l headKey = some n) (k : Bytes) :
    nodeAt ((key, value) :: l) k = update (update (nodeAt l) headKey
        (some { n with hasPrevious := true, previous := key })) key
        (some { value, hasNext := true, next := headKey, hasPrevious := false, previous := [] }) k := by
  rw [update_apply]
  split
  · rename_i hk
    subst hk
    rw [nodeAt_cons_self, hfirst]
    rfl
  rename_i hk
  rw [nodeAt, cells_cons_of_ne hk, cells_relink (p := none), hfirst, update_apply]
  obtain ⟨cell, hcell, rfl⟩ := map_eq_some_iff.mp hn
  by_cases hhead : k = headKey
  · subst hhead
    rw [if_pos rfl, if_pos rfl, hcell]
    rfl
  rw [if_neg hhead, if_neg fun heq => hhead (some.inj heq).symm]
  rfl

/-- The nodes after a removal: the neighbours of the node are linked to each other. -/
theorem nodeAt_remove (hnodup : (l.map Prod.fst).Nodup)
    (hcell : cells none l key = some cell) {k : Bytes} (hk : k ≠ key) :
    nodeAt (remove key l) k = (cells none l k).map fun cell' =>
      ofCell (if cell.prev = some k then { cell' with next := cell.next }
        else if cell.next = some k then { cell' with prev := cell.prev } else cell') := by
  rw [nodeAt, cells_remove hnodup (by simp) hcell hk, Option.map_map]
  rfl

theorem nodeAt_remove_self : nodeAt (remove key l) key = none := by
  rw [nodeAt, cells_eq_none.mpr]
  · rfl
  · simp [remove]

theorem nodeAt_of_cells (hcell : cells none l key = some cell) :
    nodeAt l key = some (ofCell cell) := by
  rw [nodeAt, hcell]
  rfl

theorem first_remove_of_prev {previous : Bytes} (hnodup : (l.map Prod.fst).Nodup)
    (hcell : cells none l key = some cell) (hprev : cell.prev = some previous) :
    first (remove key l) = first l ∧ previous ∈ l.map Prod.fst := by
  rcases prev_cases hcell with ⟨-, hnone⟩ | ⟨hne, k', hk', heq⟩
  · rw [hprev] at hnone
    cases hnone
  rw [hprev] at heq
  cases heq
  rw [first_remove hnodup hcell, if_neg hne]
  exact ⟨rfl, hk'⟩

variable (hc : ∀ n nodeBytes, c.marshal n = some nodeBytes → c.unmarshal nodeBytes = some n)

include hc

/-- The last step of every operation. -/
theorem Pending.writeBatch_wp (h : ldb.Pending c l head node) (hnodup : (l'.map Prod.fst).Nodup)
    (hhead : head = first l') (hnode : ∀ key, node key = nodeAt l' key) :
    (writeBatch w).wp (Outcome c w l l') ldb := by
  subst hhead
  obtain rfl : node = nodeAt l' := funext hnode
  exact LinkedDB.writeBatch_wp hc h hnodup (fun _ hl' => .ok hl') fun hw _ hl => .write hl hw

/-- `Put` of a new key makes it the first one. -/
theorem putHead_wp (h : ldb.Pending c l (first l) (nodeAt l)) (habsent : key ∉ l.map Prod.fst) :
    (putHead c w key value).wp (Outcome c w l ((key, value) :: l)) ldb := by
  have hnodup : (((key, value) :: l).map Prod.fst).Nodup :=
    nodup_cons.mpr ⟨habsent, h.holds.stored.nodup⟩
  rw [putHead, wp_bind, wp_attempt]
  refine getHeadKey_wp h.holds fun ldb hl hs => ?_
  have h := h.same hl hs
  cases hfirst : first l with
  | none =>
    -- the list is empty
    have hnil : l = [] := by
      cases l with
      | nil => rfl
      | cons e l => cases hfirst
    refine h.putNode_wp fun ldb h => ?_
    rw [wp_bind]
    refine putHeadKey_wp h fun ldb h => ?_
    refine h.writeBatch_wp hc hnodup rfl fun k => ?_
    subst hnil
    rw [Function.update_apply]
    split
    · rename_i hk
      subst hk
      rw [nodeAt_cons_self]
      rfl
    rename_i hk
    rw [nodeAt, nodeAt, cells_cons_of_ne hk]
    rfl
  | some headKey =>
    obtain ⟨n, hn⟩ := isSome_iff_exists.mp (mem_keys_iff_nodeAt.mp (first_mem hfirst))
    refine h.getNode_wp hn fun ldb h => ?_
    refine h.putNode_wp fun ldb h => ?_
    refine h.putNode_wp fun ldb h => ?_
    rw [wp_bind]
    refine putHeadKey_wp h fun ldb h => ?_
    exact h.writeBatch_wp hc hnodup rfl fun k => (nodeAt_cons_of_first habsent hfirst hn k).symm

/-- `Put` on the list. -/
def putList (key value : Bytes) (l : List (Bytes × Bytes)) : List (Bytes × Bytes) :=
  if key ∈ l.map Prod.fst then overwrite key value l else (key, value) :: l

/-- `Put` overwrites a value in place or adds a key at the front. -/
theorem put_wp (h : ldb.Holds c l) :
    (put c w key value).wp (Outcome c w l (putList key value l)) ldb := by
  rw [put, wp_bind]
  refine resetBatch_wp h fun ldb h => ?_
  rw [between_ok, wp_bind, wp_attempt]
  refine getNode_wp h.holds fun ldb hl hs => ?_
  have h := h.same hl hs
  rw [putList]
  cases hn : nodeAt l key with
  | none =>
    have habsent : key ∉ l.map Prod.fst := by
      rw [mem_keys_iff_nodeAt, hn]
      simp
    rw [if_neg habsent]
    exact putHead_wp hc h habsent
  | some n =>
    have hpresent : key ∈ l.map Prod.fst := by
      rw [mem_keys_iff_nodeAt, hn]
      rfl
    rw [if_pos hpresent]
    refine h.putNode_wp fun ldb h => ?_
    refine h.writeBatch_wp hc ?_ first_overwrite.symm fun k => (nodeAt_overwrite hn k).symm
    rw [map_fst_overwrite]
    exact h.holds.stored.nodup

section

variable (h : ldb.Pending c l (first l) (update (nodeAt l) key none))
  (hcell : cells none l key = some cell)

include h hcell

/-- `Delete` of a node that is not the first. -/
theorem unlink_wp {previous : Bytes} (hprev : cell.prev = some previous) :
    (unlink c w (ofCell cell)).wp (Outcome c w l (remove key l)) ldb := by
  have hnodup := h.holds.stored.nodup
  have hremoved := nodup_remove (k := key) hnodup
  obtain ⟨hfirst, hmem⟩ := first_remove_of_prev hnodup hcell hprev
  obtain ⟨hnext, hself, hdistinct⟩ := links_ne hnodup (by simp) hcell
  obtain ⟨prevCell, hprevCell⟩ := exists_cells (p := none) hmem
  have hkeyPrevious : key ≠ previous := by
    rintro rfl
    exact hself hprev
  have hprevious : (ofCell cell).previous = previous := by
    rw [ofCell, hprev]
    rfl
  rw [unlink, hprevious]
  refine h.getNode_wp (nodeAt_of_cells hprevCell) fun ldb h => ?_
  refine h.putNode_wp fun ldb h => ?_
  cases hcellNext : cell.next with
  | none =>
    rw [if_neg (by simp [ofCell, hcellNext])]
    refine h.writeBatch_wp hc hremoved hfirst.symm fun k => ?_
    by_cases hk : k = key
    · subst hk
      rw [update_of_ne hkeyPrevious, update_self, nodeAt_remove_self]
    rw [nodeAt_remove hnodup hcell hk, hprev, hcellNext]
    by_cases hkp : k = previous
    · subst hkp
      rw [Function.update_self, hprevCell]
      simp [ofCell, hcellNext]
    rw [update_of_ne hkp, update_of_ne hk, nodeAt]
    simp [Ne.symm hkp]
  | some next =>
    rw [if_pos (by simp [ofCell, hcellNext])]
    have hnextKey : (ofCell cell).next = next := by
      rw [ofCell, hcellNext]
      rfl
    obtain ⟨nextCell, hnextCell⟩ := exists_cells (p := none) (next_mem hcell hcellNext)
    have hkeyNext : key ≠ next := by
      rintro rfl
      exact hnext hcellNext
    have hne : next ≠ previous := by
      rintro rfl
      exact hdistinct next hcellNext hprev
    rw [hnextKey]
    refine h.getNode_wp (nodeAt_of_cells hnextCell) fun ldb h => ?_
    refine h.putNode_wp fun ldb h => ?_
    refine h.writeBatch_wp hc hremoved hfirst.symm fun k => ?_
    by_cases hk : k = key
    · subst hk
      rw [update_of_ne hkeyNext, update_of_ne hkeyPrevious, update_self, nodeAt_remove_self]
    rw [nodeAt_remove hnodup hcell hk, hprev, hcellNext]
    by_cases hkn : k = next
    · subst hkn
      rw [update_self, hnextCell]
      simp [ofCell, Ne.symm hne]
    rw [update_of_ne hkn]
    by_cases hkp : k = previous
    · subst hkp
      rw [update_self, hprevCell]
      simp [ofCell, hcellNext]
    rw [update_of_ne hkp, update_of_ne hk, nodeAt]
    simp [Ne.symm hkp, Ne.symm hkn]

/-- `Delete` of the first node. -/
theorem unlinkHead_wp (hprev : cell.prev = none) :
    (unlinkHead c w (ofCell cell)).wp (Outcome c w l (remove key l)) ldb := by
  have hnodup := h.holds.stored.nodup
  have hremoved := nodup_remove (k := key) hnodup
  obtain ⟨hnext, -, -⟩ := links_ne hnodup (by simp) hcell
  have hfirst : first (remove key l) = cell.next := by
    rw [first_remove hnodup hcell, if_pos]
    rcases prev_cases hcell with ⟨hfirst, -⟩ | ⟨-, k', -, heq⟩
    · exact hfirst
    rw [hprev] at heq
    cases heq
  rw [unlinkHead]
  cases hcellNext : cell.next with
  | none =>
    rw [if_pos (by simp [ofCell, hcellNext]), wp_bind]
    refine deleteHeadKey_wp h fun ldb h => ?_
    refine h.writeBatch_wp hc hremoved (by rw [hfirst, hcellNext]) fun k => ?_
    by_cases hk : k = key
    · subst hk
      rw [update_self, nodeAt_remove_self]
    rw [nodeAt_remove hnodup hcell hk, update_of_ne hk, hprev, hcellNext, nodeAt]
    simp
  | some next =>
    rw [if_neg (by simp [ofCell, hcellNext]), wp_bind]
    have hnextKey : (ofCell cell).next = next := by
      rw [ofCell, hcellNext]
      rfl
    obtain ⟨nextCell, hnextCell⟩ := exists_cells (p := none) (next_mem hcell hcellNext)
    have hkeyNext : key ≠ next := by
      rintro rfl
      exact hnext hcellNext
    rw [hnextKey]
    refine putHeadKey_wp h fun ldb h => ?_
    refine h.getNode_wp (nodeAt_of_cells hnextCell) fun ldb h => ?_
    refine h.putNode_wp fun ldb h => ?_
    refine h.writeBatch_wp hc hremoved (by rw [hfirst, hcellNext]) fun k => ?_
    by_cases hk : k = key
    · subst hk
      rw [update_of_ne hkeyNext, update_self, nodeAt_remove_self]
    rw [nodeAt_remove hnodup hcell hk, hprev, hcellNext]
    by_cases hkn : k = next
    · subst hkn
      rw [Function.update_self, hnextCell]
      simp [ofCell]
    rw [update_of_ne hkn, update_of_ne hk, nodeAt]
    simp [Ne.symm hkn]

end

/-- `Delete` removes a key. -/
theorem delete_wp (h : ldb.Holds c l) : (delete c w key).wp (Outcome c w l (remove key l)) ldb := by
  rw [delete, wp_bind, wp_attempt]
  refine getNode_wp h fun ldb h _ => ?_
  cases hcell : cells none l key with
  | none =>
    rw [nodeAt, hcell]
    refine .ok ?_
    rw [remove_of_notMem (cells_eq_none.mp hcell)]
    exact h
  | some cell =>
    rw [nodeAt_of_cells hcell]
    refine (wp_bind).mpr (resetBatch_wp h fun ldb h => ?_)
    refine (wp_bind).mpr (deleteNode_wp h fun ldb h => ?_)
    cases hprev : cell.prev with
    | none =>
      rw [if_neg (by simp [ofCell, hprev])]
      exact unlinkHead_wp hc h hcell hprev
    | some previous =>
      rw [if_pos (by simp [ofCell, hprev])]
      exact unlink_wp hc h hcell hprev

end Operations

end LinkedDB

end SavannahNode
