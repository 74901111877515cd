import SavannahNode.Native.Bag
import SavannahNode.Native.Choices
import Mathlib.Data.Fintype.Basic

/-!
# Unique bags

`ids.UniqueBag` maps IDs to the set of voters that named them. A set of voters is an
`ids.BitSet`, a `uint64` with a bit for each voter.
-/

namespace SavannahNode

/-- A set of numbers below 64, `ids.BitSet`. -/
abbrev BitSet := BitVec 64

namespace BitSet

/-- `BitSet.Add`. Go shifts `1` out of the word when `i` is 64 or more. -/
def add (bs : BitSet) (i : Nat) : BitSet := bs ||| (1#64 <<< i)

/-- `BitSet.Union`. -/
def union (bs s : BitSet) : BitSet := bs ||| s

/-- `BitSet.Difference`. -/
def difference (bs s : BitSet) : BitSet := bs &&& ~~~s

/-- The numbers in the set. -/
def members (bs : BitSet) : Finset (Fin 64) := Finset.univ.filter fun i => bs.getLsbD i

/-- `BitSet.Len`: the number of bits that are set. -/
def len (bs : BitSet) : Nat := bs.members.card

end BitSet

/-- `ids.UniqueBag`. -/
abbrev UniqueBag := IDMap BitSet

namespace UniqueBag

/-- `UniqueBag.GetSet`. -/
def getSet (b : UniqueBag) (id : ID) : BitSet := (b.lookup id).getD 0

/-- `UniqueBag.UnionSet`. -/
def unionSet (b : UniqueBag) (id : ID) (set : BitSet) : UniqueBag :=
  b.insert id ((b.getSet id).union set)

/-- `UniqueBag.Add`: the voter `setID` names each of the IDs. -/
def add (b : UniqueBag) (setID : Nat) (idSet : List ID) : UniqueBag :=
  idSet.foldl (fun b id => b.unionSet id (BitSet.add 0 setID)) b

/-- `UniqueBag.Difference`. -/
def difference (b diff : UniqueBag) : UniqueBag :=
  b.mapValues fun id previousSet =>
    match diff.lookup id with
    | none => previousSet
    | some previousSetDiff => previousSet.difference previousSetDiff

/-- `UniqueBag.List`: the IDs in the bag, in the order a range visits them. -/
def list (b : UniqueBag) (order : RangeOrder ID) : List ID := order.list b.keys

/-- `UniqueBag.Bag`: the number of voters of each ID. -/
def bag (b : UniqueBag) (order : RangeOrder ID) (alpha : Int) : Bag :=
  (b.list order).foldl (fun bag id => bag.addCount id (b.getSet id).len) (Bag.empty.setThreshold alpha)

end UniqueBag

end SavannahNode
