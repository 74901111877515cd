import Mathlib.Data.Nat.Init

/-!
# Identifiers and their bits

`ids.ID` is a `[32]byte`. Bit `i` of an ID is bit `i % 8` of byte `i / 8`, counted
from the least significant end, so the array is stored here as one little-endian
256-bit word and `ID.byte` reads the array element `id[k]`. `equalSubset` and
`firstDifferenceSubset` follow `ids/bits.go`: Go's `int` is a 64-bit word there,
which is where the sign-extended masks live.
-/

namespace SavannahNode

/-- The number of bits the patricia tree manages. -/
def numBits : Nat := 256

/-- The number of bits per byte. -/
def bitsPerByte : Nat := 8

/-- A 32-byte identifier, least significant byte first. -/
structure ID where
  toBits : BitVec 256
deriving DecidableEq, Repr

namespace ID

/-- The all-zero identifier, `ids.Empty`. -/
def empty : ID := ⟨0⟩

/-- The array element `id[k]`. -/
def byte (id : ID) (k : Nat) : BitVec 8 := id.toBits.extractLsb' (bitsPerByte * k) 8

/-- `ID.Bit`: the bit at index `i`, `true` for `1`. -/
def bit (id : ID) (i : Nat) : Bool :=
  let byteIndex := i / bitsPerByte
  let bitIndex := i % bitsPerByte
  let b := id.byte byteIndex >>> bitIndex
  b &&& 1 == 1

end ID

/-- The bits of a byte at or above `startBit`: `-1 << startBit`. -/
def startMask (startBit : Nat) : BitVec 64 := (-1 : BitVec 64) <<< startBit

/-- The bits of a byte up to and including `stopBit`: `(1 << (stopBit + 1)) - 1`. -/
def stopMask (stopBit : Nat) : BitVec 64 := ((1 : BitVec 64) <<< (stopBit + 1)) - 1

/-- Go's conversion `int(b)` of a byte. -/
def intOfByte (b : BitVec 8) : BitVec 64 := b.setWidth 64

/-- `bits.TrailingZeros8`: the number of trailing zero bits, `8` for a zero byte. -/
def trailingZeros8 (b : BitVec 8) : Nat := ((List.range 8).find? b.getLsbD).getD 8

/-- `ids.EqualSubset`: whether two IDs are equal from bit `start` to bit `stop`
    (non-inclusive). -/
def equalSubset (start stop : Nat) (id1 id2 : ID) : Bool :=
  -- Go decrements `stop` first; `stop = 0` is its `stop < 0`
  if stop = 0 ∨ start > stop - 1 then true
  else
    let stop := stop - 1
    if stop ≥ numBits then false
    else
      let startIndex := start / bitsPerByte
      let stopIndex := stop / bitsPerByte
      if startIndex + 1 < stopIndex ∧
          ¬ (List.range' (startIndex + 1) (stopIndex - (startIndex + 1))).all
            (fun i => id1.byte i == id2.byte i) then false
      else
        let startMask := startMask (start % bitsPerByte)
        let stopMask := stopMask (stop % bitsPerByte)
        if startIndex = stopIndex then
          let mask := startMask &&& stopMask
          mask &&& intOfByte (id1.byte startIndex) == mask &&& intOfByte (id2.byte startIndex)
        else
          (startMask &&& intOfByte (id1.byte startIndex) ==
            startMask &&& intOfByte (id2.byte startIndex)) &&
          (stopMask &&& intOfByte (id1.byte stopIndex) ==
            stopMask &&& intOfByte (id2.byte stopIndex))

/-- One byte of the scan of `firstDifferenceSubset`: the index of the lowest bit in
    which `b1` and `b2` differ, if they do. -/
def firstDifferenceByte (index : Nat) (b1 b2 : BitVec 64) : Option Nat :=
  if b1 = b2 then none
  else some (trailingZeros8 ((b1 ^^^ b2).setWidth 8) + index * bitsPerByte)

/-- `ids.FirstDifferenceSubset`: the index of the first difference between the IDs
    inside bit `start` to bit `stop` (non-inclusive), `none` when Go returns
    `found = false`. -/
def firstDifferenceSubset (start stop : Nat) (id1 id2 : ID) : Option Nat :=
  if stop = 0 ∨ start > stop - 1 ∨ stop - 1 ≥ numBits then none
  else
    let stop := stop - 1
    let startIndex := start / bitsPerByte
    let stopIndex := stop / bitsPerByte
    let startMask := startMask (start % bitsPerByte)
    let stopMask := stopMask (stop % bitsPerByte)
    if startIndex = stopIndex then
      let mask := startMask &&& stopMask
      firstDifferenceByte startIndex (mask &&& intOfByte (id1.byte startIndex))
        (mask &&& intOfByte (id2.byte startIndex))
    else
      -- the first byte, the interior bytes, then the last byte
      (firstDifferenceByte startIndex (startMask &&& intOfByte (id1.byte startIndex))
        (startMask &&& intOfByte (id2.byte startIndex))).or <|
      ((List.range' (startIndex + 1) (stopIndex - (startIndex + 1))).findSome? fun i =>
        firstDifferenceByte i (intOfByte (id1.byte i)) (intOfByte (id2.byte i))).or <|
      firstDifferenceByte stopIndex (stopMask &&& intOfByte (id1.byte stopIndex))
        (stopMask &&& intOfByte (id2.byte stopIndex))

end SavannahNode
