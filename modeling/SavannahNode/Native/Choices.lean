import SavannahNode.Native.Ids
import SavannahNode.ForStd.Finmap
import SavannahNode.ForStd.RangeOrder

/-!
# Decidable objects

Blocks and transactions are objects of the virtual machine that consensus accepts or
rejects (`snow/choices`). Consensus reads their `Status` and calls `Accept` and `Reject`,
so a `Decidables` keeps what `Status` reports per ID together with the calls so far, in
the order they were made. The callbacks are assumed to return no error.
-/

namespace SavannahNode

/-- A Go map keyed by ID. -/
abbrev IDMap (β : Type) := Finmap fun _ : ID => β

/-- Visit IDs as ascending numbers: one of the orders in which Go may range. -/
def RangeOrder.ids : RangeOrder ID :=
  .ascending (fun id => id.toBits.toNat) (by
    rintro ⟨a⟩ ⟨b⟩ h
    exact congrArg _ (BitVec.eq_of_toNat_eq h))

/-- `choices.Status`. -/
inductive Status where
  | unknown
  | processing
  | rejected
  | accepted
deriving DecidableEq, Repr

/-- `Status.Decided`. -/
def Status.decided : Status → Bool
  | .rejected | .accepted => true
  | _ => false

/-- A call consensus makes on a decidable object. -/
inductive Decision where
  | accept (id : ID)
  | reject (id : ID)
deriving DecidableEq, Repr

/-- The object a decision is about. -/
def Decision.id : Decision → ID
  | .accept id => id
  | .reject id => id

/-- The decidable objects as consensus sees them. -/
structure Decidables where
  status : ID → Status
  calls : List Decision

namespace Decidables

/-- `Accept` on the object with this ID. -/
def accept (d : Decidables) (id : ID) : Decidables :=
  { status := Function.update d.status id .accepted, calls := d.calls ++ [.accept id] }

/-- `Reject` on the object with this ID. -/
def reject (d : Decidables) (id : ID) : Decidables :=
  { status := Function.update d.status id .rejected, calls := d.calls ++ [.reject id] }

end Decidables

end SavannahNode
