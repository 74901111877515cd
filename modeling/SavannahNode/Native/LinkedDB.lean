import SavannahNode.ForStd.Proc
import SavannahNode.ForStd.RangeOrder
import SavannahNode.Native.Database
import SavannahNode.Native.LruCache

/-!
# linkeddb

`database/linkeddb`: a key-value store on top of a database that can be iterated, newest key
first. The nodes of a doubly linked list are stored under the keys, and the key of the first
node under a key of its own. The head key and the nodes are cached; an operation collects its
changes in a batch and updates the caches after the batch is written.

The database answers every read, and a write succeeds or fails as a whole. The codec of nodes
is a parameter. Locks are left out.
-/

namespace SavannahNode

/-- The errors of a `linkedDB`. -/
inductive LinkedErr where
  /-- `database.ErrNotFound`. -/
  | notFound
  | marshal
  | unmarshal
  /-- The batch could not be written. -/
  | write
deriving DecidableEq, Repr

/-- `node`. -/
structure LinkedNode where
  value : Bytes
  hasNext : Bool
  next : Bytes
  hasPrevious : Bool
  previous : Bytes
deriving DecidableEq

/-- The codec of nodes. -/
structure NodeCodec where
  marshal : LinkedNode → Option Bytes
  unmarshal : Bytes → Option LinkedNode

/-- `linkedDB`. -/
structure LinkedDB where
  headKeyIsSynced : Bool
  headKeyExists : Bool
  headKeyIsUpdated : Bool
  updatedHeadKeyExists : Bool
  headKey : Bytes
  updatedHeadKey : Bytes
  nodeCache : LRU Bytes (Option LinkedNode)
  updatedNodes : Finmap fun _ : Bytes => Option LinkedNode
  db : KeyValues
  batch : List BatchOp

namespace LinkedDB

/-- The key under which the head key is stored. -/
def headKeyKey : Bytes := [1]

/-- `nodeKey`. -/
def nodeKey (key : Bytes) : Bytes := 0 :: key

/-- `New`. -/
def new (db : KeyValues) (cacheSize : Int) : LinkedDB :=
  { headKeyIsSynced := false
    headKeyExists := false
    headKeyIsUpdated := false
    updatedHeadKeyExists := false
    headKey := []
    updatedHeadKey := []
    nodeCache := { size := cacheSize, entries := [] }
    updatedNodes := ∅
    db
    batch := [] }

end LinkedDB

/-- An operation on a `linkedDB` that may fail. -/
abbrev LinkedM (α : Type) := Proc LinkedDB LinkedErr α

namespace LinkedDB

/-! ## Heads, nodes and batches -/

/-- `getHeadKey`. -/
def getHeadKey : LinkedM Bytes := fun ldb =>
  if ldb.headKeyIsSynced then
    (if ldb.headKeyExists then .ok ldb.headKey else .error .notFound, ldb)
  else
    match ldb.db.lookup headKeyKey with
    | some headKey =>
      (.ok headKey, { ldb with headKeyIsSynced := true, headKeyExists := true, headKey })
    | none => (.error .notFound, { ldb with headKeyIsSynced := true, headKeyExists := false })

/-- `putHeadKey`. -/
def putHeadKey (key : Bytes) : LinkedM Unit := .update fun ldb =>
  { ldb with
    headKeyIsUpdated := true
    updatedHeadKeyExists := true
    updatedHeadKey := key
    batch := ldb.batch ++ [.put headKeyKey key] }

/-- `deleteHeadKey`. -/
def deleteHeadKey : LinkedM Unit := .update fun ldb =>
  { ldb with
    headKeyIsUpdated := true
    updatedHeadKeyExists := false
    batch := ldb.batch ++ [.delete headKeyKey] }

variable (c : NodeCodec)

section

variable (w : Write) (key : Bytes)

/-- `getNode`. -/
def getNode : LinkedM LinkedNode := fun ldb =>
  match ldb.nodeCache.get key with
  | (some (some n), nodeCache) => (.ok n, { ldb with nodeCache })
  | (some none, nodeCache) => (.error .notFound, { ldb with nodeCache })
  | (none, nodeCache) =>
    match ldb.db.lookup (nodeKey key) with
    | none => (.error .notFound, { ldb with nodeCache := nodeCache.put key none })
    | some nodeBytes =>
      match c.unmarshal nodeBytes with
      | some n => (.ok n, { ldb with nodeCache := nodeCache.put key (some n) })
      | none => (.error .unmarshal, { ldb with nodeCache })

/-- `putNode`. -/
def putNode (n : LinkedNode) : LinkedM Unit := fun ldb =>
  let ldb := { ldb with updatedNodes := ldb.updatedNodes.insert key (some n) }
  match c.marshal n with
  | none => (.error .marshal, ldb)
  | some nodeBytes => (.ok (), { ldb with batch := ldb.batch ++ [.put (nodeKey key) nodeBytes] })

/-- `deleteNode`. -/
def deleteNode : LinkedM Unit := .update fun ldb =>
  { ldb with
    updatedNodes := ldb.updatedNodes.insert key none
    batch := ldb.batch ++ [.delete (nodeKey key)] }

/-- `resetBatch`. -/
def resetBatch : LinkedM Unit := .update fun ldb =>
  { ldb with headKeyIsUpdated := false, updatedNodes := ∅, batch := [] }

/-- The outside of a write: whether the batch is written, and the order in which the nodes go
    into the cache. -/
structure Write where
  succeeds : Bool
  order : RangeOrder Bytes

/-- `writeBatch`. -/
def writeBatch : LinkedM Unit := fun ldb =>
  if w.succeeds then
    let ldb := { ldb with db := ldb.db.write ldb.batch }
    let ldb :=
      if ldb.headKeyIsUpdated then
        { ldb with
          headKeyIsSynced := true
          headKeyExists := ldb.updatedHeadKeyExists
          headKey := ldb.updatedHeadKey }
      else ldb
    (.ok (), { ldb with
      nodeCache := (w.order.list ldb.updatedNodes.keys).foldl
        (fun nodeCache key => nodeCache.put key ((ldb.updatedNodes.lookup key).getD none))
        ldb.nodeCache })
  else (.error .write, ldb)

/-! ## Operations -/

/-- `Has`. -/
def has (ldb : LinkedDB) (key : Bytes) : Bool := (ldb.db.lookup (nodeKey key)).isSome

/-- `Get`. -/
def get : LinkedM Bytes := do
  let node ← getNode c key
  pure node.value

/-- `Put` of a key that is not in the list: it becomes the head. -/
def putHead (key value : Bytes) : LinkedM Unit := do
  let newHead : LinkedNode :=
    { value, hasNext := false, next := [], hasPrevious := false, previous := [] }
  match ← getHeadKey.attempt with
  | .ok headKey => do
    let oldHead ← getNode c headKey
    putNode c headKey { oldHead with hasPrevious := true, previous := key }
    putNode c key { newHead with hasNext := true, next := headKey }
    putHeadKey key
    writeBatch w
  | .error .notFound => do
    putNode c key newHead
    putHeadKey key
    writeBatch w
  | .error e => .fail e

/-- `Put`. -/
def put (key value : Bytes) : LinkedM Unit := do
  resetBatch
  match ← (getNode c key).attempt with
  | .ok existingNode => do
    putNode c key { existingNode with value }
    writeBatch w
  | .error .notFound => putHead c w key value
  | .error e => .fail e

/-- `Delete` of a node that is not the head: the previous node is linked to the next one. -/
def unlink (currentNode : LinkedNode) : LinkedM Unit := do
  let previousNode ← getNode c currentNode.previous
  putNode c currentNode.previous
    { previousNode with hasNext := currentNode.hasNext, next := currentNode.next }
  if currentNode.hasNext then do
    let nextNode ← getNode c currentNode.next
    putNode c currentNode.next
      { nextNode with hasPrevious := true, previous := currentNode.previous }
    writeBatch w
  else writeBatch w

/-- `Delete` of the head: the next node, if there is one, becomes the head. -/
def unlinkHead (currentNode : LinkedNode) : LinkedM Unit :=
  if ¬currentNode.hasNext then do
    deleteHeadKey
    writeBatch w
  else do
    putHeadKey currentNode.next
    let nextNode ← getNode c currentNode.next
    putNode c currentNode.next { nextNode with hasPrevious := false, previous := [] }
    writeBatch w

/-- `Delete`. -/
def delete : LinkedM Unit := do
  match ← (getNode c key).attempt with
  | .error .notFound => pure ()
  | .error e => .fail e
  | .ok currentNode => do
    resetBatch
    deleteNode key
    if currentNode.hasPrevious then unlink c w currentNode else unlinkHead c w currentNode

end

/-- `IsEmpty`. -/
def isEmpty : LinkedM Bool := do
  match ← getHeadKey.attempt with
  | .ok _ => pure false
  | .error .notFound => pure true
  | .error e => .fail e

/-- `Head`. -/
def head : LinkedM (Bytes × Bytes) := do
  let headKey ← getHeadKey
  let head ← getNode c headKey
  pure (headKey, head.value)

/-! ## Iterators -/

/-- `iterator`; a `nil` slice is `none`. -/
structure Iterator where
  initialized : Bool
  exhausted : Bool
  key : Option Bytes
  value : Option Bytes
  nextKey : Bytes
  err : Option LinkedErr

namespace Iterator

/-- `NewIterator`. -/
def new : Iterator :=
  { initialized := false, exhausted := false, key := none, value := none, nextKey := [], err := none }

/-- The iterator when `Next` returns `false` for an error, which `ErrNotFound` is not. -/
def stop (it : Iterator) (e : LinkedErr) : Iterator :=
  { it with
    exhausted := true
    key := none
    value := none
    err := if e = .notFound then it.err else some e }

/-- The second part of `Next`: move to `nextKey`. -/
def advance (it : Iterator) : LinkedM (Bool × Iterator) := do
  match ← (getNode c it.nextKey).attempt with
  | .error e => pure (false, it.stop e)
  | .ok nextNode =>
    pure (true,
      { it with
        key := some it.nextKey
        value := some nextNode.value
        nextKey := nextNode.next
        exhausted := !nextNode.hasNext })

/-- `Next`. -/
def next (it : Iterator) : LinkedM (Bool × Iterator) :=
  if it.exhausted then pure (false, { it with key := none, value := none })
  else if it.initialized then it.advance c
  else do
    let it := { it with initialized := true }
    match ← getHeadKey.attempt with
    | .error e => pure (false, it.stop e)
    | .ok headKey => Iterator.advance c { it with nextKey := headKey }

end Iterator

/-- `NewIteratorWithStart`. -/
def newIteratorWithStart (ldb : LinkedDB) (start : Bytes) : Iterator :=
  if ldb.has start then { Iterator.new with initialized := true, nextKey := start } else .new

end LinkedDB

end SavannahNode
