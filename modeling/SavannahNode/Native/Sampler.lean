import Mathlib.Data.Finmap
import SavannahNode.Native.SafeMath

/-!
# Samplers

`utils/sampler`. A sampler is given the results of its source of random numbers: the
argument `r` of `next` is what `rng.Int63n` returns.
-/

namespace SavannahNode.Sampler

/-! ## Sampling without replacement -/

/-- `defaultMap.get`. -/
def get (m : Finmap fun _ : Nat => Nat) (key defaultVal : Nat) : Nat :=
  (m.lookup key).getD defaultVal

/-- `uniformReplacer`. -/
structure UniformReplacer where
  length : Nat
  drawn : Finmap fun _ : Nat => Nat
  drawsCount : Nat

namespace UniformReplacer

/-- `Initialize`, `none` for `errOutOfRange`. -/
def init (length : Nat) : Option UniformReplacer :=
  if length > 2 ^ 63 - 1 then none else some { length, drawn := ∅, drawsCount := 0 }

/-- `Reset`. -/
def reset (s : UniformReplacer) : UniformReplacer := { s with drawn := ∅, drawsCount := 0 }

/-- `Next`, `none` for `errOutOfRange`. -/
def next (s : UniformReplacer) (r : Nat) : Option Nat × UniformReplacer :=
  if s.drawsCount ≥ s.length then (none, s)
  else
    let draw := r + s.drawsCount
    (some (get s.drawn draw draw),
      { s with
        drawn := s.drawn.insert draw (get s.drawn s.drawsCount s.drawsCount)
        drawsCount := s.drawsCount + 1 })

/-- The loop of `Sample`, a result of the random numbers for each value. -/
def sampleLoop (s : UniformReplacer) : List Nat → Option (List Nat) × UniformReplacer
  | [] => (some [], s)
  | r :: rs =>
    let (ret, s) := s.next r
    match ret with
    | none => (none, s)
    | some ret =>
      let (results, s) := s.sampleLoop rs
      (results.map (ret :: ·), s)

/-- `Sample`. -/
def sample (s : UniformReplacer) (rs : List Nat) : Option (List Nat) × UniformReplacer :=
  s.reset.sampleLoop rs

/-- A call of a sampler that is initialized. -/
inductive Op where
  | sample (rs : List Nat)
  | next (r : Nat)
  | reset

/-- The sampler after a call. -/
def step (s : UniformReplacer) : Op → UniformReplacer
  | .sample rs => (s.sample rs).2
  | .next r => (s.next r).2
  | .reset => s.reset

end UniformReplacer

/-! ## Weighted sampling -/

/-- The errors of `Sample`: `errOutOfRange`, and an index out of the bounds of an array. -/
inductive SampleErr where
  | outOfRange
  | panic
deriving DecidableEq

/-- `sort.Sort`, by any order: elements that compare equal end up anywhere. -/
structure Sorting (α : Type) where
  sort : List α → List α
  perm : ∀ l, (sort l).Perm l

/-- The weights with their indices. -/
def indexed (weights : List UInt64) : List (Nat × Nat) :=
  weights.mapIdx fun i weight => (weight.toNat, i)

/-- `weightedHeap`: an array for the weights and the indices of its elements, and one for their
    cumulative weights. -/
structure WeightedHeap where
  heap : List (Nat × Nat)
  cumulativeWeight : Nat → Nat

namespace WeightedHeap

/-- The second loop of `Initialize`, `none` for an overflow. -/
def addUp : Nat → (Nat → Nat) → Option (Nat → Nat)
  | 0, cumulativeWeight => some cumulativeWeight
  | i + 1, cumulativeWeight => do
    let newWeight ← add64 (cumulativeWeight (i / 2)) (cumulativeWeight (i + 1))
    addUp i (Function.update cumulativeWeight (i / 2) newWeight)

/-- `Initialize`. -/
def init (sorting : Sorting (Nat × Nat)) (weights : List UInt64) : Option WeightedHeap := do
  let heap := sorting.sort (indexed weights)
  let cumulativeWeight ← addUp (heap.length - 1) fun i => (heap.getD i (0, 0)).1
  some ⟨heap, cumulativeWeight⟩

/-- The loop of `Sample`, with at most `fuel` rounds. -/
def sampleLoop (s : WeightedHeap) : Nat → Nat → Nat → Except SampleErr Nat
  | 0, _, _ => .error .panic
  | fuel + 1, index, value =>
    match s.heap[index]? with
    | none => .error .panic
    | some (currentWeight, i) =>
      if value < currentWeight then .ok i
      else
        let value := value - currentWeight
        let index := index * 2 + 1
        if s.heap.length ≤ index then .error .panic
        else
          let leftWeight := s.cumulativeWeight index
          if leftWeight ≤ value then s.sampleLoop fuel (index + 1) (value - leftWeight)
          else s.sampleLoop fuel index value

/-- `Sample`. -/
def sample (s : WeightedHeap) (value : Nat) : Except SampleErr Nat :=
  if s.heap.length = 0 ∨ s.cumulativeWeight 0 ≤ value then .error .outOfRange
  else s.sampleLoop s.heap.length 0 value

end WeightedHeap

/-- `weightedLinear`: the cumulative weights and the indices of its elements. -/
structure WeightedLinear where
  arr : List (Nat × Nat)

namespace WeightedLinear

/-- The second loop of `Initialize`, after elements with the weight `sum`. -/
def addUp : Nat → List (Nat × Nat) → Option (List (Nat × Nat))
  | _, [] => some []
  | sum, (weight, index) :: arr => do
    let newWeight ← add64 sum weight
    let arr ← addUp newWeight arr
    some ((newWeight, index) :: arr)

/-- `Initialize`. -/
def init (sorting : Sorting (Nat × Nat)) (weights : List UInt64) : Option WeightedLinear := do
  let arr ← addUp 0 (sorting.sort (indexed weights))
  some ⟨arr⟩

/-- The loop of `Sample`. -/
def sampleLoop (value : Nat) : List (Nat × Nat) → Except SampleErr Nat
  | [] => .error .panic
  | elem :: arr => if value < elem.1 then .ok elem.2 else sampleLoop value arr

/-- `Sample`. -/
def sample (s : WeightedLinear) (value : Nat) : Except SampleErr Nat :=
  if s.arr.length = 0 ∨ (s.arr.getLastD (0, 0)).1 ≤ value then .error .outOfRange
  else sampleLoop value s.arr

end WeightedLinear

/-- `weightedUniform`: an index for each value. -/
structure WeightedUniform where
  indices : List Nat

namespace WeightedUniform

/-- `Initialize`, with the largest total weight. -/
def init (maxWeight : Nat) (weights : List UInt64) : Option WeightedUniform := do
  let totalWeight ← weights.foldlM (fun totalWeight weight => add64 totalWeight weight.toNat) 0
  if totalWeight > maxWeight ∨ totalWeight > 2 ^ 31 - 1 then none
  else some ⟨(indexed weights).flatMap fun e => List.replicate e.1 e.2⟩

/-- `Sample`. -/
def sample (s : WeightedUniform) (value : Nat) : Except SampleErr Nat :=
  match s.indices[value]? with
  | none => .error .outOfRange
  | some index => .ok index

end WeightedUniform

end SavannahNode.Sampler
