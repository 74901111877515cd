import SavannahNode.Native.Database
import SavannahNode.Native.Ids

/-!
# Serving ancestors

`block.GetAncestors` and `VM.GetAncestors` of the `proposervm`: the bytes of a block and of its
ancestors, as many as the limits on their number, their size and the time allow. The
`proposervm` walks through its own blocks and hands over to the inner virtual machine where the
fork may have been hit. The inner virtual machine runs behind `rpcchainvm`, whose messages hold
32-bit limits, and answers with `block.GetAncestors`.

Go's `int` is `Int` here, and a slice of any capacity can be allocated. A clock is what its
readings say since the start of a call.
-/

namespace SavannahNode.BatchedVM

/-- `wrappers.IntLen`. -/
def intLen : Int := 4

/-- How `GetBlock` fails. -/
inductive GetErr where
  /-- `database.ErrNotFound`. -/
  | notFound
  | other
deriving DecidableEq

/-- How `GetAncestors` fails. -/
inductive Failure where
  /-- `ErrRemoteVMNotImplemented`. -/
  | remoteVMNotImplemented
  | getBlock
  /-- A slice is made with a capacity below its length. -/
  | panic
deriving DecidableEq

/-- A block, as far as it is served. -/
structure Blk where
  bytes : Bytes
  parent : ID
deriving DecidableEq

/-- The limits of a request. -/
structure Limits where
  maxBlocksNum : Int
  maxBlocksSize : Int
  maxBlocksRetrivalTime : Int

/-- The loop of `block.GetAncestors`. -/
def fetchLoop (getBlock : ID → Except GetErr Blk) (clock : Nat → Int) (limits : Limits) :
    Nat → Nat → Blk → List Bytes → Int → List Bytes
  | 0, _, _, ancestorsBytes, _ => ancestorsBytes
  | fuel + 1, numFetched, blk, ancestorsBytes, ancestorsBytesLen =>
    if numFetched < limits.maxBlocksNum ∧ clock numFetched < limits.maxBlocksRetrivalTime then
      match getBlock blk.parent with
      | .error _ => ancestorsBytes
      | .ok blk =>
        let newLen := ancestorsBytesLen + blk.bytes.length + intLen
        if newLen ≤ limits.maxBlocksSize then
          fetchLoop getBlock clock limits fuel (numFetched + 1) blk (ancestorsBytes ++ [blk.bytes])
            newLen
        else ancestorsBytes
    else ancestorsBytes

/-- `block.GetAncestors` of a virtual machine that does not batch. -/
def getAncestorsLocal (getBlock : ID → Except GetErr Blk) (clock : Nat → Int) (blkID : ID)
    (limits : Limits) : Except Failure (List Bytes) :=
  match getBlock blkID with
  | .error .notFound => .ok []
  | .error .other => .error .getBlock
  | .ok blk =>
    -- `make([][]byte, 1, maxBlocksNum)`
    if limits.maxBlocksNum < 1 then .error .panic
    else .ok (fetchLoop getBlock clock limits limits.maxBlocksNum.toNat 1 blk [blk.bytes]
      (blk.bytes.length + intLen))

/-- Go's conversion `int32(n)`. -/
def toInt32 (n : Int) : Int := n.bmod (2 ^ 32)

/-- What the `proposervm` reads. -/
structure VM where
  /-- `bVM` is not `nil`. -/
  batched : Bool
  /-- `getStatelessBlk`: the verified blocks and the blocks of the state. -/
  getStatelessBlk : ID → Except GetErr Blk
  /-- `GetBlock` of the inner virtual machine. -/
  getInnerBlk : ID → Except GetErr Blk
  clock : Nat → Int
  /-- The time at the hand-over. -/
  handOver : Int
  innerClock : Nat → Int

/-- `bVM.GetAncestors`, through `rpcchainvm`. -/
def VM.innerGetAncestors (vm : VM) (blkID : ID) (limits : Limits) : Except Failure (List Bytes) :=
  getAncestorsLocal vm.getInnerBlk vm.innerClock blkID
    { maxBlocksNum := toInt32 limits.maxBlocksNum
      maxBlocksSize := toInt32 limits.maxBlocksSize
      maxBlocksRetrivalTime := limits.maxBlocksRetrivalTime }

/-- The end of `GetAncestors`, after the loop. -/
def VM.preFork (vm : VM) (blkID : ID) (limits : Limits) (res : List Bytes) (currentByteLength : Int) :
    Except Failure (List Bytes) :=
  match vm.innerGetAncestors blkID
      { maxBlocksNum := limits.maxBlocksNum - res.length
        maxBlocksSize := limits.maxBlocksSize - currentByteLength
        maxBlocksRetrivalTime := limits.maxBlocksRetrivalTime - vm.handOver } with
  | .error .panic => .error .panic
  | .error e => if res.length = 0 then .error e else .ok res
  | .ok innerBytes => .ok (res ++ innerBytes)

/-- The loop of `GetAncestors`; `limits.maxBlocksNum` counts down. -/
def VM.postForkLoop (vm : VM) : Nat → ID → Limits → List Bytes → Int → Except Failure (List Bytes)
  | 0, _, _, res, _ => .ok res
  | fuel + 1, blkID, limits, res, currentByteLength =>
    match vm.getStatelessBlk blkID with
    | .error _ => vm.preFork blkID limits res currentByteLength
    | .ok blk =>
      let currentByteLength := currentByteLength + (intLen + blk.bytes.length)
      if res.length > 0 ∧ (currentByteLength ≥ limits.maxBlocksSize ∨
          limits.maxBlocksRetrivalTime ≤ vm.clock res.length) then
        .ok res
      else
        let res := res ++ [blk.bytes]
        let maxBlocksNum := limits.maxBlocksNum - 1
        if maxBlocksNum ≤ 0 then .ok res
        else vm.postForkLoop fuel blk.parent { limits with maxBlocksNum } res currentByteLength

/-- `VM.GetAncestors`. The loop ends after `maxBlocksNum` blocks. -/
def VM.getAncestors (vm : VM) (blkID : ID) (limits : Limits) : Except Failure (List Bytes) :=
  if vm.batched then vm.postForkLoop (limits.maxBlocksNum.toNat + 1) blkID limits [] 0
  else .error .remoteVMNotImplemented

end SavannahNode.BatchedVM
