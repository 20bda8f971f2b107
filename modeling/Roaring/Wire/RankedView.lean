import Mathlib
import Roaring.Lib.Rank
import Roaring.Lib.Window
import Roaring.Wire.Frozen

/-!
# The ranked view

A ranked image answers how many of its keys are below a key and which key has a
given ordinal.  The view reads an image whose contents nobody has checked, so
every access goes through the payload window or the rank window of one entry of
the index, and a read that leaves them comes out as `outside`.

The searches are those of `Frozen.lean` with their reads made visible; the
arithmetic on counts is that of `std::uint32_t`.
-/

namespace Roaring

open Lib

def u32 (x : Nat) : Nat := x % 2 ^ 32

/-- The difference of two `std::uint32_t`. -/
def u32Sub (x y : Nat) : Nat := (x + (2 ^ 32 - y)) % 2 ^ 32

/-! ## Searches that show their reads -/

def arrayBlockQuartersIn (values : Nat → Parsed Nat) (value base n : Nat) : Parsed (Nat × Nat) :=
  if 3 < n then do
    let quarter := n / 4
    let k1 ← values ((base + quarter + 1) * arrayGap - 1)
    let k2 ← values ((base + 2 * quarter + 1) * arrayGap - 1)
    let k3 ← values ((base + 3 * quarter + 1) * arrayGap - 1)
    let c1 := if k1 < value then 1 else 0
    let c2 := if k2 < value then 1 else 0
    let c3 := if k3 < value then 1 else 0
    arrayBlockQuartersIn values value (base + (c1 + c2 + c3) * quarter) (n - 3 * quarter)
  else .value (base, n)
termination_by n

def arrayBlockHalvesIn (values : Nat → Parsed Nat) (value base n : Nat) : Parsed Nat :=
  if 1 < n then do
    let half := n / 2
    let middle ← values ((base + half + 1) * arrayGap - 1)
    let base := if middle < value then base + half else base
    arrayBlockHalvesIn values value base (n - half)
  else .value base
termination_by n

def arrayBlockSearchIn (values : Nat → Parsed Nat) (numBlocks value : Nat) : Parsed Nat := do
  let (base, n) ← arrayBlockQuartersIn values value 0 numBlocks
  let base ← arrayBlockHalvesIn values value base n
  let last ← values ((base + 1) * arrayGap - 1)
  return if last < value then base + 1 else base

/-- The linear scan for the first value from position `j` on that is not below `value`. -/
def scanLowerBound (values : Nat → Parsed Nat) (value : Nat) : (remaining j : Nat) → Parsed Nat
  | 0, j => .value j
  | remaining + 1, j => do
      let current ← values j
      if value ≤ current then return j else scanLowerBound values value remaining (j + 1)

/-- How many of the values from position `j` on are below `value`: the vector compare of a block. -/
def blockBelow (values : Nat → Parsed Nat) (value : Nat) : (remaining j : Nat) → Parsed Nat
  | 0, _ => .value 0
  | remaining + 1, j => do
      let current ← values j
      let below ← blockBelow values value remaining (j + 1)
      return (if current < value then 1 else 0) + below

/-- The number of values below `value` in an array payload. -/
def arrayLowerBound (values : Nat → Parsed Nat) (count value : Nat) : Parsed Nat :=
  if count < arrayGap then scanLowerBound values value count 0
  else do
    let numBlocks := count / arrayGap
    let lo ← arrayBlockSearchIn values numBlocks value
    if lo < numBlocks then do
      let below ← blockBelow values value arrayGap (lo * arrayGap)
      return lo * arrayGap + below
    else scanLowerBound values value (count - numBlocks * arrayGap) (numBlocks * arrayGap)

def interleavedBinarySearchIn (begins : Nat → Parsed Nat) (key : Nat) (low high : Int) :
    Parsed Int :=
  if low ≤ high then do
    let middleIndex := (low + high) / 2
    let middleValue ← begins middleIndex.toNat
    if middleValue < key then interleavedBinarySearchIn begins key (middleIndex + 1) high
    else if middleValue > key then interleavedBinarySearchIn begins key low (middleIndex - 1)
    else return middleIndex
  else .value (-(low + 1))
termination_by (high + 1 - low).toNat

/-- What a lookup finds: the keys below, and whether the key itself is there. -/
structure RankPosition where
  below : Nat
  present : Bool
deriving DecidableEq, Repr

/-- The position of `value` in a run payload and its block of run ranks. -/
def runPosition (runs runRanks : Nat → Parsed Nat) (count value : Nat) : Parsed RankPosition := do
  let last ← interleavedBinarySearchIn (fun i ↦ runs (2 * i)) value 0 (count - 1)
  let last := if last < 0 then -last - 2 else last
  if last < 0 then return ⟨0, false⟩
  else do
    let last := last.toNat
    let runBegin ← runs (2 * last)
    let runEnd ← runs (2 * last + 1)
    let coveredEnd := runEnd + 1
    let covered := u32Sub (min value coveredEnd) runBegin
    let rank ← runRanks last
    return ⟨u32 (rank + covered), value ≤ runEnd⟩

/-- `select_in_word`, with the bit deposit of the target or without it: the
position of the set bit of a rank. -/
def selectInWord (bmi2 : Bool) (word : Word) (rank : Nat) : Nat :=
  if bmi2 then (pdep (1#64 <<< (rank % 64)) word).ctz.toNat
  else selectHalving 32 word rank 0

/-! ## Windows of an entry -/

namespace FrozenView

def payloadWindow (v : FrozenView) (e : FrozenChunkIndex) : Window :=
  ⟨v.data, e.payloadOffset, e.payloadBytes⟩

def entryRankBytes (e : FrozenChunkIndex) : Nat :=
  ((frozenContainerKindOf e.containerKind).map (frozenRankBytes · e.payloadCount)).getD 0

def rankWindow (v : FrozenView) (e : FrozenChunkIndex) : Window :=
  ⟨v.data, e.payloadOffset + e.payloadBytes, entryRankBytes e⟩

end FrozenView

/-! ## The view -/

structure RankedView where
  view : FrozenView
  chunkCount : Nat
  firstChunk : Nat
  size : Nat
  contiguous : Bool

namespace RankedView

/-- `index_of`'s "absent". -/
def npos : Nat := 2 ^ 32 - 1

/-- `ranked_view::from` of an opened image; none is the null view. -/
def ofView (view : FrozenView) : Option RankedView :=
  if view.header.version ≠ frozenRankedFormatVersion then none
  else
    let chunkCount := view.header.chunkCount
    let size := u32 view.header.valueCount
    match view.index.head?, view.index[chunkCount - 1]? with
    | some first, some last =>
        some { view, chunkCount, size, firstChunk := u32 first.chunk
               contiguous := u32 (u32Sub (u32 last.chunk) (u32 first.chunk) + 1) = chunkCount }
    | _, _ => some { view, chunkCount, size, firstChunk := 0, contiguous := false }

/-- `ranked_view::from` of the bytes of an image; a refused image gives the null view. -/
def ofImage (image : List UInt8) : Parsed RankedView := do
  let view ← frozenViewFrom .u32 image
  match ofView view with
  | none => .refused
  | some v => .value v

/-- The position of a low key in an array payload. -/
def arrayPosition (e : FrozenChunkIndex) (payload : Window) (low : Nat) : Parsed RankPosition := do
  let count := e.payloadCount
  let below ← arrayLowerBound (payload.unit 2) count low
  if below < count then do
    let value ← payload.unit 2 below
    return ⟨u32 (e.base + below), value = low⟩
  else return ⟨u32 (e.base + below), false⟩

/-- The position of a low key in the chunk of an entry. -/
def entryPosition (v : RankedView) (e : FrozenChunkIndex) (low : Nat) : Parsed RankPosition :=
  let payload := v.view.payloadWindow e
  let ranks := v.view.rankWindow e
  match frozenContainerKindOf e.containerKind with
  | some .bitset => do
      let wordAt := low / 64
      let bit := low % 64
      let bits ← payload.unit 8 wordAt
      let rank ← ranks.unit 2 wordAt
      let word := BitVec.ofNat 64 bits
      return ⟨u32 (e.base + rank + popcount (lowBits word bit)), word.getLsbD bit⟩
  | some .array => arrayPosition e payload low
  | some .run => do
      let inRun ← runPosition (payload.unit 2) (ranks.unit 2) e.payloadCount low
      return ⟨u32 (e.base + inRun.below), inRun.present⟩
  | none => .outside

/-- An entry of the index. -/
def entryAt (v : RankedView) (k : Nat) : Parsed FrozenChunkIndex :=
  match v.view.index[k]? with
  | none => .outside
  | some e => .value e

/-- The entry of the index a key falls to, or the position of a key without one. -/
def findEntry (v : RankedView) (chunk : Nat) : Parsed (FrozenChunkIndex ⊕ RankPosition) :=
  if v.contiguous then
    if chunk < v.firstChunk then return .inr ⟨0, false⟩
    else
      let at' := chunk - v.firstChunk
      if v.chunkCount ≤ at' then return .inr ⟨v.size, false⟩
      else do
        let e ← v.entryAt at'
        return .inl e
  else
    let it := lowerBoundEntry v.view.index chunk
    if it = v.chunkCount then return .inr ⟨v.size, false⟩
    else do
      let e ← v.entryAt it
      if u32 e.chunk ≠ chunk then return .inr ⟨e.base, false⟩ else return .inl e

def find (v : RankedView) (x : Nat) : Parsed RankPosition := do
  match ← v.findEntry (chunkKey x) with
  | .inr position => return position
  | .inl e => v.entryPosition e (lowKey x)

def contains (v : RankedView) (x : Nat) : Parsed Bool := do
  let position ← v.find x
  return position.present

/-- The number of keys below `x`. -/
def countBelow (v : RankedView) (x : Nat) : Parsed Nat := do
  let position ← v.find x
  return position.below

/-- The ordinal of `x`, or `npos`. -/
def indexOf (v : RankedView) (x : Nat) : Parsed Nat := do
  let position ← v.find x
  return if position.present then position.below else npos

/-- The low key of ordinal `within` in the chunk of an entry.  A rank block is
searched from its second count on. -/
def entrySelect (bmi2 : Bool) (v : RankedView) (e : FrozenChunkIndex) (within : Nat) : Parsed Nat :=
  let payload := v.view.payloadWindow e
  let ranks := v.view.rankWindow e
  let later := fun i ↦ ranks.unit 2 (i + 1)
  match frozenContainerKindOf e.containerKind with
  | some .array => payload.unit 2 within
  | some .run => do
      let runAt ← upperBound later within 0 (u32Sub e.payloadCount 1)
      let runBegin ← payload.unit 2 (2 * runAt)
      let rank ← ranks.unit 2 runAt
      return u32 (runBegin + u32Sub within rank)
  | some .bitset => do
      let wordAt ← upperBound later within 0 (wordCount - 1)
      let bits ← payload.unit 8 wordAt
      let rank ← ranks.unit 2 wordAt
      return u32 (u32 (wordAt * 64) + selectInWord bmi2 (BitVec.ofNat 64 bits) (u32Sub within rank))
  | none => .outside

def entryBase (v : RankedView) (k : Nat) : Parsed Nat := do
  let e ← v.entryAt k
  return e.base

/-- The key with ordinal `i`; `i` is below the size. -/
def select (bmi2 : Bool) (v : RankedView) (i : Nat) : Parsed Nat := do
  let behind ← upperBound v.entryBase i 0 v.chunkCount
  match behind with
  | 0 => .outside
  | it + 1 => do
      let e ← v.entryAt it
      let low ← v.entrySelect bmi2 e (u32Sub i e.base)
      return u32 (u32 e.chunk <<< 16) ||| low % 2 ^ 16

end RankedView

end Roaring
