import SavannahNode.Native.Choices
import SavannahNode.Native.NodeIDs

/-!
# What the engines share

`snow/engine/common`: the containers that were requested from other nodes, and the halter.
A request ID is a `uint32` in Go and a natural number here, so that it does not wrap around.
-/

namespace SavannahNode

/-- Visit nodes as ascending numbers: one of the orders in which Go may range. -/
def RangeOrder.nodeIDs : RangeOrder NodeID :=
  .ascending (fun id => id.toBits.toNat) (by
    rintro ⟨a⟩ ⟨b⟩ h
    exact congrArg _ (BitVec.eq_of_toNat_eq h))

/-- `common.Requests`: the outstanding requests, by node and request ID and by container. -/
structure Requests where
  reqsToID : Finmap fun _ : NodeID × Nat => ID
  idToReq : IDMap (NodeID × Nat)

namespace Requests

/-- No request is outstanding. -/
def empty : Requests := ⟨∅, ∅⟩

variable (r : Requests) (vdr : NodeID) (requestID : Nat) (containerID : ID)

/-- `Add`. -/
def add : Requests where
  reqsToID := r.reqsToID.insert (vdr, requestID) containerID
  idToReq := r.idToReq.insert containerID (vdr, requestID)

/-- `Remove`: the container that was requested, if the request is outstanding. -/
def remove : Option ID × Requests :=
  match r.reqsToID.lookup (vdr, requestID) with
  | none => (none, r)
  | some containerID =>
    (some containerID,
      { reqsToID := r.reqsToID.erase (vdr, requestID), idToReq := r.idToReq.erase containerID })

/-- `Contains`. -/
def contains : Bool := (r.idToReq.lookup containerID).isSome

end Requests

/-- `common.Halter`. Another goroutine may call `Halt` at any time: `readsLeft` says how many
    calls of `Halted` still come before it. -/
structure Halter where
  readsLeft : Option Nat
deriving DecidableEq

namespace Halter

/-- `Halted` returns true from now on. -/
def halted (h : Halter) : Bool := h.readsLeft = some 0

/-- What `Halted` returns when it is called for the `i`-th time. -/
def haltedAt (h : Halter) (i : Nat) : Bool := h.readsLeft.any (· ≤ i)

/-- The halter after `n` calls of `Halted`. -/
def skip (h : Halter) (n : Nat) : Halter := ⟨h.readsLeft.map (· - n)⟩

/-- `Halt` is called before the `n`-th call of `Halted` from now on. -/
def halt (h : Halter) (n : Nat) : Halter := ⟨some (min n (h.readsLeft.getD n))⟩

end Halter

end SavannahNode
