import Mathlib
import Roaring.Lib.Bytes
import Roaring.Bitmap.Basic
import Roaring.Wire.Portable

/-!
# The frozen format: size, writer, view

The zero-copy image of a bitmap is a 24-byte header, an index of 32 bytes for
each chunk, and the payloads as they lie in memory, each at the alignment of its
kind; a ranked image has a block of cumulative counts behind every run and
bitset payload.

The writer fills a buffer behind one running offset.  Here the bytes behind the
index are an accumulator, and the running offset is kept beside it as the source
keeps it.  The view reads the payloads in place: `FrozenView.payload` is the
reinterpretation of the bytes an index entry points at.
-/

namespace Roaring

open Lib

/-! ## Layout -/

def frozenSerializationMagic : Nat := 0x31464252

def frozenFormatVersion : Nat := 1

def frozenRankedFormatVersion : Nat := 2

def frozenHeaderSize : Nat := 24

def frozenIndexEntrySize : Nat := 32

inductive FrozenContainerKind where
  | array
  | run
  | bitset
deriving DecidableEq, Repr

/-- The stored number of a container kind. -/
def FrozenContainerKind.toNat : FrozenContainerKind → Nat
  | .array => 1
  | .run => 2
  | .bitset => 3

def frozenContainerKindOf : Nat → Option FrozenContainerKind
  | 1 => some .array
  | 2 => some .run
  | 3 => some .bitset
  | _ => none

structure FrozenHeader where
  magic : Nat
  keyBits : Nat
  version : Nat
  chunkCount : Nat
  valueCount : Nat
deriving DecidableEq, Repr

structure FrozenChunkIndex where
  chunk : Nat
  payloadOffset : Nat
  payloadBytes : Nat
  payloadCount : Nat
  cardinality : Nat
  containerKind : Nat
  /-- The values of all earlier chunks in a ranked image, zero otherwise. -/
  base : Nat
deriving DecidableEq, Repr

/-- The header as it lies in memory, the four bytes that align its last field included. -/
def FrozenHeader.bytes (h : FrozenHeader) : List UInt8 :=
  leFields [(4, h.magic), (2, h.keyBits), (2, h.version), (4, h.chunkCount), (4, 0),
    (8, h.valueCount)]

def FrozenChunkIndex.bytes (e : FrozenChunkIndex) : List UInt8 :=
  leFields [(8, e.chunk), (4, e.payloadOffset), (4, e.payloadBytes), (4, e.payloadCount),
    (4, e.cardinality), (1, e.containerKind), (3, 0), (4, e.base)]

def frozenHeaderOf (bs : List UInt8) : FrozenHeader where
  magic := leValue (bs.take 4)
  keyBits := leValue ((bs.drop 4).take 2)
  version := leValue ((bs.drop 6).take 2)
  chunkCount := leValue ((bs.drop 8).take 4)
  valueCount := leValue ((bs.drop 16).take 8)

def frozenChunkIndexOf (bs : List UInt8) : FrozenChunkIndex where
  chunk := leValue (bs.take 8)
  payloadOffset := leValue ((bs.drop 8).take 4)
  payloadBytes := leValue ((bs.drop 12).take 4)
  payloadCount := leValue ((bs.drop 16).take 4)
  cardinality := leValue ((bs.drop 20).take 4)
  containerKind := leValue ((bs.drop 24).take 1)
  base := leValue ((bs.drop 28).take 4)

/-- `offset` rounded up to a multiple of a power of two. -/
def alignUp (offset alignment : Nat) : Nat :=
  (offset + alignment - 1) - (offset + alignment - 1) % alignment

/-- The alignment and the bytes of a payload. -/
def frozenPayloadLayout (h : ContainerHandle) : Nat × Nat :=
  match h.kind with
  | .array => (2, h.count * 2)
  | .run => (2, h.count * 4)
  | .bitset => (8, wordCount * 8)

def frozenRankBytes (kind : FrozenContainerKind) (payloadCount : Nat) : Nat :=
  match kind with
  | .array => 0
  | .run => payloadCount * 2
  | .bitset => wordCount * 2

/-- The overload of `frozen_rank_bytes` for a container. -/
def frozenRankBytesOf (h : ContainerHandle) : Nat :=
  match h.kind with
  | .array => 0
  | .run => frozenRankBytes .run h.count
  | .bitset => frozenRankBytes .bitset wordCount

/-! ## The writer -/

def Bitmap.frozenSizeBytes (ranked : Bool) (b : Bitmap) : Nat :=
  b.chunks.foldl (fun offset c ↦
      let (alignment, payloadSize) := frozenPayloadLayout c.slot
      alignUp offset alignment + payloadSize + if ranked then frozenRankBytesOf c.slot else 0)
    (frozenHeaderSize + b.chunks.length * frozenIndexEntrySize)

/-- The rank block of runs: the values before each, in 16 bits. -/
def frozenRunRanks : List Run → (before : Nat) → List UInt8
  | [], _ => []
  | r :: rs, before => leBytes 2 before ++ frozenRunRanks rs (before + (r.last - r.first + 1))

/-- The rank block of a word block: the values before each word, in 16 bits. -/
def frozenWordRanks (words : Words wordCount) : (remaining i before : Nat) → List UInt8
  | 0, _, _ => []
  | remaining + 1, i, before =>
      leBytes 2 before ++ frozenWordRanks words remaining (i + 1) (before + popcount (words.word i))

/-- What the writer's switch on the kind of a container yields. -/
structure FrozenBody where
  kind : FrozenContainerKind
  payloadCount : Nat
  cardinality : Nat
  payload : List UInt8
  ranks : List UInt8

def frozenBody (h : ContainerHandle) : FrozenBody :=
  match h.payload with
  | .array values =>
      { kind := .array, payloadCount := values.length, cardinality := values.length
        payload := values.flatMap (leBytes 2), ranks := [] }
  | .run runs =>
      { kind := .run, payloadCount := runs.length, cardinality := h.cardinality
        payload := runs.flatMap fun r ↦ leBytes 2 r.first ++ leBytes 2 r.last
        ranks := frozenRunRanks runs 0 }
  | .bitset words =>
      { kind := .bitset, payloadCount := wordCount, cardinality := h.cardinality
        payload := wordBytes words
        ranks := frozenWordRanks words wordCount 0 0 }

/-- The writer's cursors, and the bytes written into the index and behind it. -/
structure FrozenOut where
  index : List UInt8 := []
  body : List UInt8 := []
  payloadOffset : Nat
  base : Nat := 0

def frozenWriteChunk (ranked : Bool) (out : FrozenOut) (c : Chunk) : FrozenOut :=
  let (alignment, payloadSize) := frozenPayloadLayout c.slot
  let alignedOffset := alignUp out.payloadOffset alignment
  let written := frozenBody c.slot
  let entry : FrozenChunkIndex :=
    { chunk := c.key, payloadOffset := alignedOffset, payloadBytes := payloadSize
      payloadCount := written.payloadCount, cardinality := written.cardinality
      containerKind := written.kind.toNat, base := if ranked then out.base else 0 }
  { index := out.index ++ entry.bytes
    body := out.body ++ List.replicate (alignedOffset - out.payloadOffset) 0 ++ written.payload
      ++ if ranked then written.ranks else []
    payloadOffset := alignedOffset + payloadSize + if ranked then frozenRankBytesOf c.slot else 0
    base := out.base + written.cardinality }

/-- `frozen_serialize`: the bytes it writes, and the count it returns. -/
def Bitmap.frozenSerialize (K : KeyType) (ranked : Bool) (b : Bitmap) : List UInt8 × Nat :=
  let chunkCount := b.chunks.length
  let header : FrozenHeader :=
    { magic := frozenSerializationMagic, keyBits := K.digits
      version := if ranked then frozenRankedFormatVersion else frozenFormatVersion
      chunkCount := chunkCount, valueCount := b.size }
  let out := b.chunks.foldl (frozenWriteChunk ranked)
    { payloadOffset := frozenHeaderSize + chunkCount * frozenIndexEntrySize }
  (header.bytes ++ out.index ++ out.body, out.payloadOffset)

/-! ## Opening an image -/

/-- `std::numeric_limits<chunk_type>::max()`. -/
def KeyType.chunkTypeMax (K : KeyType) : Nat := if K.digits ≤ 32 then 0xFFFF else 2 ^ K.digits - 1

def frozenPayloadAlignment (e : FrozenChunkIndex) : Nat :=
  match frozenContainerKindOf e.containerKind with
  | some .array => 2
  | some .run => 2
  | some .bitset => 8
  | none => 0

def frozenExpectedPayloadBytes (e : FrozenChunkIndex) : Nat :=
  match frozenContainerKindOf e.containerKind with
  | some .array => e.payloadCount * 2
  | some .run => e.payloadCount * 4
  | some .bitset => wordCount * 8
  | none => 0

def frozenRankedCountsMatch (e : FrozenChunkIndex) : Bool :=
  if e.cardinality = 0 ∨ e.cardinality > lowDomainSize then false
  else match frozenContainerKindOf e.containerKind with
    | some .array => e.payloadCount = e.cardinality
    | some .run => e.payloadCount ≠ 0 && e.payloadCount ≤ e.cardinality
    | some .bitset => e.payloadCount = wordCount
    | none => false

/-- What the loop over the index has established so far. -/
structure FrozenScan where
  payloadFloor : Nat
  imageEnd : Nat
  totalCardinality : Nat := 0
  previousChunk : Option Nat := none
  anyEmpty : Bool := false

/-- The checks on one index entry of an image of `size` bytes; none is a refusal. -/
def frozenScanEntry (K : KeyType) (size : Nat) (ranked : Bool) (s : FrozenScan)
    (e : FrozenChunkIndex) : Option FrozenScan :=
  let expectedAlignment := frozenPayloadAlignment e
  let rankEnd := e.payloadOffset + e.payloadBytes
    + if ranked then
        ((frozenContainerKindOf e.containerKind).map (frozenRankBytes · e.payloadCount)).getD 0
      else 0
  if s.previousChunk.any (e.chunk ≤ ·) then none
  else if e.chunk > K.chunkTypeMax then none
  else if expectedAlignment = 0 ∨ e.payloadOffset % expectedAlignment ≠ 0 then none
  else if e.payloadOffset < s.payloadFloor ∨ e.payloadOffset > size then none
  else if e.payloadBytes > size - e.payloadOffset then none
  else if e.payloadBytes ≠ frozenExpectedPayloadBytes e then none
  else if ranked ∧ (e.base ≠ s.totalCardinality ∨ ¬ frozenRankedCountsMatch e) then none
  else if ranked ∧ rankEnd > size then none
  else some
    { payloadFloor := if ranked then rankEnd else s.payloadFloor
      imageEnd := max s.imageEnd rankEnd
      totalCardinality := s.totalCardinality + e.cardinality
      previousChunk := some e.chunk
      anyEmpty := s.anyEmpty || e.cardinality = 0 }

/-- The loop over the index from entry `i` on: the last state and the entries read. -/
def frozenScanIndex (K : KeyType) (buf : List UInt8) (ranked : Bool) :
    (remaining i : Nat) → FrozenScan → Parsed (FrozenScan × List FrozenChunkIndex)
  | 0, _, s => .value (s, [])
  | remaining + 1, i, s => do
      let bytes ← bytesAt buf (frozenHeaderSize + i * frozenIndexEntrySize) frozenIndexEntrySize
      let e := frozenChunkIndexOf bytes
      match frozenScanEntry K buf.length ranked s e with
      | none => .refused
      | some s => do
          let (s, index) ← frozenScanIndex K buf ranked remaining (i + 1) s
          return (s, e :: index)

/-- A view of an accepted image: its header and index where they lie in `data`. -/
structure FrozenView where
  header : FrozenHeader
  index : List FrozenChunkIndex
  data : List UInt8
  bytes : Nat

/-- `frozen_view_from`; a refused image gives the null view. -/
def frozenViewFrom (K : KeyType) (buf : List UInt8) : Parsed FrozenView :=
  if buf.length < frozenHeaderSize then .refused
  else do
    let header := frozenHeaderOf (← bytesAt buf 0 frozenHeaderSize)
    if header.magic ≠ frozenSerializationMagic ∨ header.keyBits ≠ K.digits ∨
        (header.version ≠ frozenFormatVersion ∧ header.version ≠ frozenRankedFormatVersion) then
      .refused
    else
      let ranked : Bool := header.version = frozenRankedFormatVersion
      if ranked ∧ (K.digits > 32 ∨ header.valueCount ≥ 2 ^ 32) then .refused
      else
        let indexEnd := frozenHeaderSize + header.chunkCount * frozenIndexEntrySize
        if buf.length < indexEnd then .refused
        else do
          let (s, index) ← frozenScanIndex K buf ranked header.chunkCount 0
            { payloadFloor := indexEnd, imageEnd := indexEnd }
          if s.anyEmpty ∨ s.totalCardinality ≠ header.valueCount then .refused
          else return { header, index, data := buf, bytes := s.imageEnd }

/-! ## Lookups in a payload -/

/-- The values in a block of an array payload. -/
def arrayGap : Nat := 16

/-- The block of an array payload that holds the insertion point of `value`, by
quarters while there are more than three blocks left, then by halves. -/
def arrayBlockQuarters (values : List Nat) (value base n : Nat) : Nat × Nat :=
  if 3 < n then
    let quarter := n / 4
    let k1 := values.getD ((base + quarter + 1) * arrayGap - 1) 0
    let k2 := values.getD ((base + 2 * quarter + 1) * arrayGap - 1) 0
    let k3 := values.getD ((base + 3 * quarter + 1) * arrayGap - 1) 0
    let c1 := if k1 < value then 1 else 0
    let c2 := if k2 < value then 1 else 0
    let c3 := if k3 < value then 1 else 0
    arrayBlockQuarters values value (base + (c1 + c2 + c3) * quarter) (n - 3 * quarter)
  else (base, n)
termination_by n

def arrayBlockHalves (values : List Nat) (value base n : Nat) : Nat :=
  if 1 < n then
    let half := n / 2
    let base := if values.getD ((base + half + 1) * arrayGap - 1) 0 < value then base + half
      else base
    arrayBlockHalves values value base (n - half)
  else base
termination_by n

def arrayBlockSearch (values : List Nat) (numBlocks value : Nat) : Nat :=
  let (base, n) := arrayBlockQuarters values value 0 numBlocks
  let base := arrayBlockHalves values value base n
  if values.getD ((base + 1) * arrayGap - 1) 0 < value then base + 1 else base

/-- The linear scan that stops at the first value not below the probe. -/
def scanContains (value : Nat) : List Nat → Bool
  | [] => false
  | v :: vs => if v ≥ value then v = value else scanContains value vs

def arrayContainsPayload (values : List Nat) (value : Nat) : Bool :=
  if values.length < arrayGap then scanContains value values
  else
    let numBlocks := values.length / arrayGap
    let lo := arrayBlockSearch values numBlocks value
    if lo < numBlocks then ((values.drop (lo * arrayGap)).take arrayGap).any (· = value)
    else scanContains value (values.drop (numBlocks * arrayGap))

/-- The index of the run that begins at `key`, or the negative of one more than
where it would be inserted. -/
def interleavedBinarySearch (runs : List Run) (key : Nat) (low high : Int) : Int :=
  if low ≤ high then
    let middleIndex := (low + high) / 2
    let middleValue := (runs.getD middleIndex.toNat ⟨0, 0⟩).first
    if middleValue < key then interleavedBinarySearch runs key (middleIndex + 1) high
    else if middleValue > key then interleavedBinarySearch runs key low (middleIndex - 1)
    else middleIndex
  else -(low + 1)
termination_by (high + 1 - low).toNat

def runContainsPayload (runs : List Run) (value : Nat) : Bool :=
  let index := interleavedBinarySearch runs value 0 (runs.length - 1)
  if index ≥ 0 then true
  else
    let index := -index - 2
    if index < 0 then false else value ≤ (runs.getD index.toNat ⟨0, 0⟩).last

/-! ## The view -/

/-- The runs stored at the front of some bytes. -/
def runsOfBytes : Nat → List UInt8 → List Run
  | 0, _ => []
  | n + 1, bs => ⟨leValue (bs.take 2), leValue ((bs.drop 2).take 2)⟩ :: runsOfBytes n (bs.drop 4)

/-- The bytes an entry points at, read as its kind says. -/
def frozenPayload (kind : FrozenContainerKind) (count : Nat) (payload : List UInt8) : Payload :=
  match kind with
  | .array => .array (units 2 count payload)
  | .run => .run (runsOfBytes count payload)
  | .bitset => .bitset (wordsOfBytes payload)

/-- `std::ranges::lower_bound` over the chunk keys of the index. -/
def lowerBoundEntry (index : List FrozenChunkIndex) (chunk : Nat) : Nat :=
  index.findIdx fun e ↦ chunk ≤ e.chunk

/-- `make_borrowed`: a handle over payload bytes that stay where they are. -/
def makeBorrowed (kind : FrozenContainerKind) (payload : List UInt8) (count cardinality : Nat) :
    ContainerHandle :=
  match frozenPayload kind count payload with
  | .array values =>
      { payload := .array values, cardinality := cardinality
        min := values.headD 0, max := values.getLastD 0 }
  | .run runs =>
      { payload := .run runs, cardinality := cardinality
        min := (runs.head?.map Run.first).getD 0, max := (runs.getLast?.map Run.last).getD 0 }
  | .bitset words =>
    { payload := .bitset words, cardinality := cardinality, endpointsStale := true }

/-- The values `container_for_each` calls its function on, in order. -/
def containerForEach (h : ContainerHandle) : List Nat :=
  match h.payload with
  | .array values => values
  | .run runs => runs.flatMap Run.values
  | .bitset words =>
      (List.range wordCount).flatMap fun index ↦ extractSetBits (index * 64) (words.word index)

namespace FrozenView

def payloadBytes (v : FrozenView) (e : FrozenChunkIndex) : List UInt8 := v.data.drop e.payloadOffset

/-- The lookup in the payload of one entry. -/
def entryContains (v : FrozenView) (e : FrozenChunkIndex) (low : Nat) : Bool :=
  match frozenContainerKindOf e.containerKind with
  | some .array => arrayContainsPayload (units 2 e.payloadCount (v.payloadBytes e)) low
  | some .run => runContainsPayload (runsOfBytes e.payloadCount (v.payloadBytes e)) low
  | some .bitset => ((wordsOfBytes (v.payloadBytes e)).word (low / 64)).getLsbD (low % 64)
  | none => false

def contains (v : FrozenView) (value : Nat) : Bool :=
  if v.header.chunkCount = 0 then false
  else
    let chunk := chunkKey value
    match v.index[lowerBoundEntry v.index chunk]? with
    | none => false
    | some e => if e.chunk ≠ chunk then false else v.entryContains e (lowKey value)

/-- The keys emitted for one entry: from `fromLow` on. -/
def entryForEachFrom (v : FrozenView) (e : FrozenChunkIndex) (fromLow : Nat) : List Nat :=
  match frozenContainerKindOf e.containerKind with
  | none => []
  | some kind =>
      if fromLow ≠ 0 ∧ kind = .bitset then
        let words := wordsOfBytes (v.payloadBytes e)
        let wordAt := fromLow / 64
        let first := words.word wordAt &&& (BitVec.allOnes 64 <<< (fromLow % 64))
        (extractSetBits (wordAt * 64) first ++
          (List.range' (wordAt + 1) (wordCount - (wordAt + 1))).flatMap fun index ↦
            extractSetBits (index * 64) (words.word index)).map (compose e.chunk)
      else
        let container := makeBorrowed kind (v.payloadBytes e) e.payloadCount e.cardinality
        ((containerForEach container).filter (fromLow ≤ ·)).map (compose e.chunk)

/-- `for_each_from`: the keys the callback is called on, in order. -/
def forEachFrom (v : FrozenView) (first : Nat) : List Nat :=
  if v.header.chunkCount = 0 then []
  else
    let firstChunk := chunkKey first
    (v.index.drop (lowerBoundEntry v.index firstChunk)).flatMap fun e ↦
      v.entryForEachFrom e (if e.chunk = firstChunk then lowKey first else 0)

def materializeContainer (v : FrozenView) (e : FrozenChunkIndex) (kind : FrozenContainerKind) :
    ContainerHandle :=
  match kind with
  | .array => .makeArrayFromSorted (units 2 e.payloadCount (v.payloadBytes e))
  | .run => .makeRunFrom (runsOfBytes e.payloadCount (v.payloadBytes e)) e.cardinality
  | .bitset =>
      .makeBitsetFrom (wordsOfBytes ((v.payloadBytes e).take e.payloadBytes)) e.cardinality

/-- A bitmap with one chunk for each entry of the index. -/
def toBitmap (v : FrozenView) (slot : FrozenChunkIndex → FrozenContainerKind → ContainerHandle) :
    Bitmap :=
  if v.header.chunkCount = 0 then .empty
  else
    { chunks := v.index.filterMap fun e ↦
        (frozenContainerKindOf e.containerKind).map fun kind ↦ ⟨e.chunk, slot e kind⟩
      size := v.header.valueCount }

def materialize (v : FrozenView) : Bitmap := v.toBitmap v.materializeContainer

def borrowInto (v : FrozenView) : Bitmap :=
  v.toBitmap fun e kind ↦ makeBorrowed kind (v.payloadBytes e) e.payloadCount e.cardinality

end FrozenView

end Roaring
