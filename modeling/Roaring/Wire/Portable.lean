import Mathlib
import Roaring.Lib.Bytes
import Roaring.Bitmap.Basic

/-!
# The portable format: size, writer, reader

The three computations of the source, each with its own idea of the layout: the
plan that sizes an image, the single pass that writes headers and payloads, and
the reader that advances one cursor over untrusted bytes.

The writer's three cursors (descriptive header, offsets, payload) are three
accumulators here, joined when the pass is over.  The reader works on offsets
into the buffer, and every access goes through a bounded read.
-/

namespace Roaring

open Lib

/-! ## Constants and layout -/

def portableCookieNoRun : Nat := 12346

def portableCookieWithRun : Nat := 12347

/-- Below this many containers a run-carrying bitmap omits the offset header. -/
def portableNoOffsetThreshold : Nat := 4

/-- A non-run container is an array up to and including this cardinality. -/
def portableArrayMaxCardinality : Nat := 4096

def portableBitsetBytes : Nat := 8192

inductive PortableKind where
  | array
  | bitset
  | run
deriving DecidableEq, Repr

structure PortableWire where
  kind : PortableKind
  cardinality : Nat
  bytes : Nat

/-- The wire kind follows the cardinality, not the in-memory kind, for non-run containers. -/
def portableWireOf (h : ContainerHandle) : PortableWire :=
  if h.holdsRun then ⟨.run, h.cardinality, 2 + h.count * 2 * 2⟩
  else if h.cardinality > portableArrayMaxCardinality then
    ⟨.bitset, h.cardinality, portableBitsetBytes⟩
  else ⟨.array, h.cardinality, h.cardinality * 2⟩

def put16 (value : Nat) : List UInt8 := leBytes 2 value

def put32 (value : Nat) : List UInt8 := leBytes 4 value

@[simp] theorem length_put16 (v : Nat) : (put16 v).length = 2 := length_leBytes 2 v

@[simp] theorem length_put32 (v : Nat) : (put32 v).length = 4 := length_leBytes 4 v

/-- Sets bit `i` of a byte string: bit `i % 8` of byte `i / 8`. -/
def setBit (bytes : List UInt8) (i : Nat) : List UInt8 :=
  bytes.modify (i / 8) fun byte ↦ byte ||| UInt8.ofNat (2 ^ (i % 8))

/-- The words of a block as they lie in memory. -/
def wordBytes (words : Words wordCount) : List UInt8 :=
  (List.range wordCount).flatMap fun i ↦ leBytes 8 (words.word i).toNat

def wordsOfBytes (bytes : List UInt8) : Words wordCount :=
  Words.ofFn wordCount fun i ↦ BitVec.ofNat 64 (leValue ((bytes.drop (8 * i)).take 8))

/-! ## The writer -/

def portableWriteContainer (h : ContainerHandle) (wire : PortableWire) : List UInt8 :=
  match wire.kind, h.payload with
  | .run, .run runs =>
      put16 runs.length ++ runs.flatMap fun r ↦ put16 r.first ++ put16 (r.last - r.first)
  | .array, .array values => (values.flatMap put16).take wire.bytes
  | .array, .bitset words =>
      (List.range wordCount).flatMap fun index ↦
        (extractSetBits (index * 64) (words.word index)).flatMap put16
  | .bitset, .bitset words => wordBytes words
  | .bitset, .array values => values.foldl setBit (List.replicate portableBitsetBytes 0)
  -- the wire kind is `run` exactly for a run payload
  | _, _ => []

structure PortablePlan where
  containers : Nat
  hasRun : Bool
  headerBytes : Nat
  payloadBytes : Nat

/-- The bytes in front of the payloads. -/
def portableHeaderBytes (hasRun : Bool) (containers : Nat) : Nat :=
  if hasRun then
    4 + (containers + 7) / 8 + 4 * containers
      + if containers ≥ portableNoOffsetThreshold then 4 * containers else 0
  else 8 + 8 * containers

def portablePlanFor (chunks : List Chunk) : PortablePlan :=
  let containers := chunks.length
  let hasRun := chunks.any fun c ↦ c.slot.holdsRun
  { containers, hasRun
    headerBytes := portableHeaderBytes hasRun containers
    payloadBytes := (chunks.map fun c ↦ (portableWireOf c.slot).bytes).sum }

/-- What the pass over the containers has written so far. -/
structure PortableOut where
  flags : List UInt8
  descriptive : List UInt8 := []
  offsets : List UInt8 := []
  payload : List UInt8 := []

/-- One container of the pass: `payloadAt` is where the payloads begin. -/
def portableWriteChunk (payloadAt : Nat) (withOffsets : Bool) (position : Nat) (out : PortableOut)
    (c : Chunk) : PortableOut :=
  let wire := portableWireOf c.slot
  { flags := if c.slot.holdsRun then setBit out.flags position else out.flags
    descriptive := out.descriptive ++ put16 c.key ++ put16 (wire.cardinality - 1)
    offsets := if withOffsets then out.offsets ++ put32 (payloadAt + out.payload.length)
      else out.offsets
    payload := out.payload ++ portableWriteContainer c.slot wire }

def portableWriteChunks (payloadAt : Nat) (withOffsets : Bool) :
    List Chunk → Nat → PortableOut → PortableOut
  | [], _, out => out
  | c :: cs, position, out =>
      portableWriteChunks payloadAt withOffsets cs (position + 1)
        (portableWriteChunk payloadAt withOffsets position out c)

def portableWrite32 (chunks : List Chunk) (count : Nat) : List UInt8 :=
  let hasRun := chunks.any fun c ↦ c.slot.holdsRun
  let flagBytes := (count + 7) / 8
  let flags := if hasRun then List.replicate flagBytes 0 else []
  let withOffsets := !hasRun || decide (count ≥ portableNoOffsetThreshold)
  let payloadAt := (if hasRun then 4 + flagBytes else 8) + 4 * count
    + if withOffsets then 4 * count else 0
  let out := portableWriteChunks payloadAt withOffsets chunks 0 { flags := flags }
  let cookie := if hasRun then put32 (portableCookieWithRun ||| ((count - 1) <<< 16))
    else put32 portableCookieNoRun ++ put32 count
  cookie ++ out.flags ++ out.descriptive ++ out.offsets ++ out.payload

/-- The runs of chunks that share the high half of a 64-bit key, in key order. -/
def portableBuckets : List Chunk → List (Nat × List Chunk)
  | [] => []
  | c :: cs =>
      let high := c.key / 65536
      (high, c :: cs.takeWhile fun d ↦ d.key / 65536 = high)
        :: portableBuckets (cs.dropWhile fun d ↦ d.key / 65536 = high)
termination_by chunks => chunks.length
decreasing_by
  exact Nat.lt_succ_of_le (List.dropWhile_suffix _).length_le

def Bitmap.portableSizeInBytes (K : KeyType) (b : Bitmap) : Nat :=
  match K with
  | .u64 =>
      8 + ((portableBuckets b.chunks).map fun bucket ↦
        let plan := portablePlanFor bucket.2
        if plan.containers ≠ 0 then 4 + plan.headerBytes + plan.payloadBytes else 0).sum
  | _ =>
      let plan := portablePlanFor b.chunks
      plan.headerBytes + plan.payloadBytes

def Bitmap.portableSerialize (K : KeyType) (b : Bitmap) : List UInt8 :=
  match K with
  | .u64 =>
      let buckets := portableBuckets b.chunks
      leBytes 8 buckets.length ++ buckets.flatMap fun bucket ↦
        put32 bucket.1 ++ portableWrite32 bucket.2 bucket.2.length
  | _ => portableWrite32 b.chunks b.chunks.length

/-! ## The reader -/

/-- The neighbouring pairs from value `i` on, `pairs` of them; every one is read
and one verdict is given at the end. -/
def portableAscendingFrom (buf : List UInt8) (values : Nat) :
    (pairs i : Nat) → (unordered : Bool) → Parsed Bool
  | 0, _, unordered => .value (!unordered)
  | pairs + 1, i, unordered => do
      let current ← getLE 2 buf (values + i * 2)
      let next ← getLE 2 buf (values + (i + 1) * 2)
      portableAscendingFrom buf values pairs (i + 1) (unordered || decide (current ≥ next))

/-- `lanes`: the values of one vector. -/
def portableLanes : Nat := 16

/-- `compare`: sixteen neighbouring pairs from value `i` on, each side read as one vector. -/
def portableCompare (buf : List UInt8) (values i : Nat) (unordered : Bool) : Parsed Bool := do
  let current ← bytesAt buf (values + i * 2) (2 * portableLanes)
  let next ← bytesAt buf (values + (i + 1) * 2) (2 * portableLanes)
  let lanes := (units 2 portableLanes current).zip (units 2 portableLanes next)
  -- `current >= next` where `max( current, next ) == current`
  return unordered || lanes.any fun lane ↦ max lane.1 lane.2 == lane.1

/-- The loop over the whole vectors of pairs, from value `i` on. -/
def portableCompareVectors (buf : List UInt8) (values : Nat) :
    (vectors i : Nat) → (unordered : Bool) → Parsed Bool
  | 0, _, unordered => .value unordered
  | vectors + 1, i, unordered => do
      let unordered ← portableCompare buf values i unordered
      portableCompareVectors buf values vectors (i + portableLanes) unordered

/-- `avx2`: the build compares sixteen pairs at a time. -/
def portableStrictlyAscending (avx2 : Bool) (buf : List UInt8) (values count : Nat) : Parsed Bool :=
  if count < 2 then .value true
  else
    let pairs := count - 1
    if avx2 ∧ portableLanes ≤ pairs then do
      let unordered ← portableCompareVectors buf values (pairs / portableLanes) 0 false
      -- the last vector overlaps the one before it
      let unordered ←
        if pairs / portableLanes * portableLanes ≠ pairs then
          portableCompare buf values (pairs - portableLanes) unordered
        else .value unordered
      return !unordered
    else portableAscendingFrom buf values pairs 0 false

/-- Stores a run behind those of `dst`, whose last one comes first.  Adjacent runs
are one run here: the writer is allowed to leave them split. -/
def portableStoreRun (previousEnd : Int) (first runEnd : Nat) : List Run → List Run
  | r :: rs =>
      if (first : Int) = previousEnd + 1 then ⟨r.first, runEnd⟩ :: rs
      else ⟨first, runEnd⟩ :: r :: rs
  | [] => [⟨first, runEnd⟩]

/-- The run loop: `previousEnd` is `-1` before the first run, and `dst` holds the
runs written so far, the last one first. -/
def portableReadRuns (buf : List UInt8) :
    (runs p covered : Nat) → (previousEnd : Int) → (dst : List Run) →
      Parsed (Nat × Nat × List Run)
  | 0, p, covered, _, dst => .value (p, covered, dst.reverse)
  | runs + 1, p, covered, previousEnd, dst => do
      let first ← getLE 2 buf p
      let length ← getLE 2 buf (p + 2)
      let runEnd := first + length
      if runEnd > 0xFFFF ∨ (first : Int) ≤ previousEnd then
        .refused   -- out of the 16-bit domain, unsorted or overlapping
      else
        portableReadRuns buf runs (p + 4) (covered + (runEnd - first + 1)) runEnd
          (portableStoreRun previousEnd first runEnd dst)

/-- One container at `p`: the position behind it and the handle. -/
def portableReadContainer (avx2 : Bool) (buf : List UInt8) (isRun : Bool) (cardinality p : Nat) :
    Parsed (Nat × ContainerHandle) :=
  let available := fun p ↦ buf.length - p
  if isRun then
    if available p < 2 then .refused
    else do
      let runCount ← getLE 2 buf p
      let p := p + 2
      if runCount = 0 ∨ available p < runCount * 4 then .refused
      else do
        let (p, covered, runs) ← portableReadRuns buf runCount p 0 (-1) []
        if covered ≠ cardinality then .refused
        else return (p, ContainerHandle.makeRunFrom runs cardinality)
  else if cardinality > portableArrayMaxCardinality then
    if available p < portableBitsetBytes then .refused
    else do
      let bytes ← bytesAt buf p portableBitsetBytes
      let words := wordsOfBytes bytes
      if words.count ≠ cardinality then .refused
      else return (p + portableBitsetBytes, ContainerHandle.makeBitsetFrom words cardinality)
  else if available p < cardinality * 2 then .refused
  else do
    let ordered ← portableStrictlyAscending avx2 buf p cardinality
    if ¬ ordered then .refused
    else do
      let bytes ← bytesAt buf p (cardinality * 2)
      return (p + cardinality * 2, ContainerHandle.syncHeader (units 2 cardinality bytes))

/-- The bitmap under construction: its chunks, the last one first, and their total. -/
structure PortableResult where
  chunks : List Chunk := []
  total : Nat := 0

/-- Whether container `k` is flagged as a run. -/
def portableIsRun (buf : List UInt8) (runFlags : Option Nat) (k : Nat) : Parsed Bool :=
  match runFlags with
  | none => .value false
  | some flags => do
      let byte ← getLE 1 buf (flags + k / 8)
      return byte.testBit (k % 8)

/-- The container loop of one 32-bit bitmap, from container `k` on. -/
def portableReadChunks (avx2 : Bool) (buf : List UInt8) (runFlags : Option Nat)
    (descriptive highBits : Nat) :
    (remaining k p : Nat) → (previousKey : Int) → PortableResult → Parsed (Nat × PortableResult)
  | 0, _, p, _, result => .value (p, result)
  | remaining + 1, k, p, previousKey, result => do
      let key ← getLE 2 buf (descriptive + 4 * k)
      if (key : Int) ≤ previousKey then .refused
      else do
        let cardinality := (← getLE 2 buf (descriptive + 4 * k + 2)) + 1
        let isRun ← portableIsRun buf runFlags k
        let (p, container) ← portableReadContainer avx2 buf isRun cardinality p
        portableReadChunks avx2 buf runFlags descriptive highBits remaining (k + 1) p key
          { chunks := ⟨highBits ||| key, container⟩ :: result.chunks
            total := result.total + cardinality }

/-- The cookie at `p`: whether runs are flagged, the container count and the
position behind. -/
def portableReadCookie (buf : List UInt8) (p : Nat) : Parsed (Bool × Nat × Nat) :=
  let available := fun p ↦ buf.length - p
  if available p < 4 then .refused
  else do
    let cookie ← getLE 4 buf p
    let p := p + 4
    if cookie % 65536 = portableCookieWithRun then return (true, cookie / 65536 + 1, p)
    else if cookie = portableCookieNoRun then
      if available p < 4 then .refused
      else do
        let count ← getLE 4 buf p
        if count > 65536 then .refused else return (false, count, p + 4)
    else .refused

/-- `portable_read_32`: one 32-bit bitmap at `p`, its chunk keys under `highBits`. -/
def portableRead32 (avx2 : Bool) (buf : List UInt8) (p highBits : Nat) (result : PortableResult) :
    Parsed (Nat × PortableResult) := do
  let available := fun p ↦ buf.length - p
  let (hasRun, count, p) ← portableReadCookie buf p
  let flagBytes := (count + 7) / 8
  if hasRun ∧ available p < flagBytes then .refused
  else
    let runFlags := if hasRun then some p else none
    let p := if hasRun then p + flagBytes else p
    if available p < count * 4 then .refused
    else
      let descriptive := p
      let p := p + count * 4
      -- the offsets are redundant with the descriptive header and are not read
      let withOffsets := !hasRun || decide (count ≥ portableNoOffsetThreshold)
      if withOffsets ∧ available p < count * 4 then .refused
      else
        let p := if withOffsets then p + count * 4 else p
        portableReadChunks avx2 buf runFlags descriptive highBits count 0 p (-1) result

/-- The bucket loop of a 64-bit image. -/
def portableReadBuckets (avx2 : Bool) (buf : List UInt8) :
    (buckets p : Nat) → (previousHigh : Int) → PortableResult → Parsed PortableResult
  | 0, _, _, result => .value result
  | buckets + 1, p, previousHigh, result =>
      if buf.length - p < 4 then .refused
      else do
        let high ← getLE 4 buf p
        if (high : Int) ≤ previousHigh then .refused
        else do
          let (p, result) ← portableRead32 avx2 buf (p + 4) (high <<< 16) result
          portableReadBuckets avx2 buf buckets p high result

/-- The chunks of an image of a key type of 32 bits or more. -/
def portableReadImage (avx2 : Bool) (K : KeyType) (buf : List UInt8) : Parsed PortableResult :=
  match K with
  | .u64 =>
      if buf.length < 8 then .refused
      else do
        let buckets ← getLE 8 buf 0
        -- every bucket costs at least its key and a minimal 32-bit bitmap header
        if buckets > 0xFFFFFFFF ∨ buckets > (buf.length - 8) / 12 then .refused
        else portableReadBuckets avx2 buf buckets 8 (-1) {}
  | _ => do
      let (_, result) ← portableRead32 avx2 buf 0 0 {}
      return result

def portableDeserialize (avx2 : Bool) (K : KeyType) (buf : List UInt8) : Parsed Bitmap := do
  let result ← portableReadImage avx2 K buf
  return { chunks := result.chunks.reverse, size := result.total }

end Roaring
