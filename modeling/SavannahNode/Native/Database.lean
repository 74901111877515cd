import SavannahNode.ForStd.Finmap

/-!
# Key-value databases

The interface `database.Database` as far as it is used: a map from byte strings to byte
strings, and batches that are written to it at once. Byte slices are values here; the callers
do not change a slice they have passed.
-/

namespace SavannahNode

/-- `[]byte`. -/
abbrev Bytes := List UInt8

/-- What a database stores. -/
abbrev KeyValues := Finmap fun _ : Bytes => Bytes

/-- `BatchOp`. -/
inductive BatchOp where
  | put (key value : Bytes)
  | delete (key : Bytes)
deriving DecidableEq

/-- One operation of a batch. -/
def BatchOp.apply (db : KeyValues) : BatchOp → KeyValues
  | .put key value => db.insert key value
  | .delete key => db.erase key

/-- `Batch.Write` that succeeds. -/
def KeyValues.write (db : KeyValues) (ops : List BatchOp) : KeyValues := ops.foldl BatchOp.apply db

end SavannahNode
