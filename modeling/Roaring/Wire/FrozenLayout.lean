import Mathlib
import Roaring.Wire.Frozen
import Roaring.Wire.PortableWriter

/-!
# Where the frozen writer puts things

`frozenEntries` and `frozenBodies` say chunk by chunk what the writer appends to
the index and behind it; the running offset they share is also the one the size
computation adds up.  Each entry then points at the bytes of its payload.
-/

namespace Roaring

open Lib

/-! ## Alignment -/

section AlignUp

variable {offset alignment : Nat}

theorem le_alignUp (hpos : 0 < alignment) : offset ≤ alignUp offset alignment := by
  have := Nat.mod_lt (offset + alignment - 1) hpos
  rw [alignUp]
  omega

theorem alignUp_mod (offset alignment : Nat) : alignUp offset alignment % alignment = 0 := by
  rw [alignUp, Nat.sub_mod_eq_zero_of_mod_eq]
  exact (Nat.mod_mod _ _).symm

end AlignUp

/-! ## One container -/

section Body

variable {h : ContainerHandle}

theorem frozenPayloadLayout_pos (h : ContainerHandle) : 0 < (frozenPayloadLayout h).1 := by
  rw [frozenPayloadLayout]
  split <;> exact Nat.succ_pos _

theorem length_frozenRunRanks (runs : List Run) (before : Nat) :
    (frozenRunRanks runs before).length = runs.length * 2 := by
  induction runs generalizing before with
  | nil => rfl
  | cons r rs ih =>
      rw [frozenRunRanks, List.length_append, ih, length_leBytes, List.length_cons]
      omega

theorem length_frozenWordRanks (words : Words wordCount) (remaining i before : Nat) :
    (frozenWordRanks words remaining i before).length = remaining * 2 := by
  induction remaining generalizing i before with
  | zero => rw [frozenWordRanks, Nat.zero_mul, List.length_nil]
  | succ remaining ih =>
      rw [frozenWordRanks, List.length_append, ih, length_leBytes]
      omega

/-- The payload takes the planned bytes. -/
theorem length_frozenBody_payload (h : ContainerHandle) :
    (frozenBody h).payload.length = (frozenPayloadLayout h).2 := by
  rw [frozenBody, frozenPayloadLayout, ContainerHandle.kind, ContainerHandle.count]
  cases h.payload with
  | array values =>
      dsimp only [Payload.kind]
      rw [length_flatMap_leBytes, mul_comm]
  | run runs =>
      dsimp only [Payload.kind]
      rw [List.length_flatMap]
      simp
  | bitset words =>
      dsimp only [Payload.kind]
      rw [length_wordBytes]
      rfl

/-- The rank block takes the planned bytes. -/
theorem length_frozenBody_ranks (h : ContainerHandle) :
    (frozenBody h).ranks.length = frozenRankBytesOf h := by
  rw [frozenBody, frozenRankBytesOf, ContainerHandle.kind, ContainerHandle.count]
  cases h.payload with
  | array values => rfl
  | run runs => exact length_frozenRunRanks runs 0
  | bitset words =>
      dsimp only [Payload.kind]
      rw [length_frozenWordRanks, frozenRankBytes]

theorem frozenBody_cardinality (hv : h.Valid) : (frozenBody h).cardinality = h.cardinality := by
  have hcard := hv.cardinality
  rw [ContainerHandle.values] at hcard
  rw [frozenBody]
  cases hp : h.payload with
  | array values =>
      rw [hp] at hcard
      exact hcard.symm
  | run runs => rfl
  | bitset words => rfl

theorem runsOfBytes_flatMap {runs : List Run} (hc : Canonical runs) (rest : List UInt8) :
    runsOfBytes runs.length
      ((runs.flatMap fun r ↦ leBytes 2 r.first ++ leBytes 2 r.last) ++ rest) = runs := by
  induction runs with
  | nil => rfl
  | cons r rs ih =>
      have hlast : r.last < 256 ^ 2 := hc.bounded r List.mem_cons_self
      have hfirst : r.first < 256 ^ 2 := hc.head_le.trans_lt hlast
      have hlen : (leBytes 2 r.first ++ leBytes 2 r.last).length = 4 := by simp
      rw [List.length_cons, runsOfBytes, List.flatMap_cons, List.append_assoc,
        List.drop_left' hlen, ih hc.tail, List.append_assoc, List.take_left' (length_leBytes 2 _),
        List.drop_left' (length_leBytes 2 _), List.take_left' (length_leBytes 2 _),
        leValue_leBytes_of_lt hfirst, leValue_leBytes_of_lt hlast]

/-- What was written for a payload reads back as the payload, whatever follows it. -/
theorem frozenPayload_frozenBody (hv : h.Valid) (rest : List UInt8) :
    frozenPayload (frozenBody h).kind (frozenBody h).payloadCount
      ((frozenBody h).payload ++ rest) = h.payload := by
  have hwf := hv.payload
  rw [frozenBody]
  cases hp : h.payload with
  | array values =>
      rw [hp] at hwf
      cases hwf with
      | array _ bounded => exact congrArg Payload.array (units_flatMap_leBytes 2 bounded rest)
  | run runs =>
      rw [hp] at hwf
      cases hwf with
      | run canonical => exact congrArg Payload.run (runsOfBytes_flatMap canonical rest)
  | bitset words =>
      dsimp only
      rw [frozenPayload, wordsOfBytes_wordBytes]

end Body

/-! ## The whole writer -/

/-- The offset behind the payload and the rank block of a chunk begun at `offset`. -/
def frozenNext (ranked : Bool) (offset : Nat) (c : Chunk) : Nat :=
  alignUp offset (frozenPayloadLayout c.slot).1 + (frozenPayloadLayout c.slot).2
    + if ranked then frozenRankBytesOf c.slot else 0

def frozenEntry (ranked : Bool) (offset base : Nat) (c : Chunk) : FrozenChunkIndex where
  chunk := c.key
  payloadOffset := alignUp offset (frozenPayloadLayout c.slot).1
  payloadBytes := (frozenPayloadLayout c.slot).2
  payloadCount := (frozenBody c.slot).payloadCount
  cardinality := (frozenBody c.slot).cardinality
  containerKind := (frozenBody c.slot).kind.toNat
  base := if ranked then base else 0

def frozenEntries (ranked : Bool) : (offset base : Nat) → List Chunk → List FrozenChunkIndex
  | _, _, [] => []
  | offset, base, c :: cs =>
      frozenEntry ranked offset base c ::
        frozenEntries ranked (frozenNext ranked offset c) (base + (frozenBody c.slot).cardinality)
          cs

/-- The padding, payload and ranks of one chunk. -/
def frozenChunkBytes (ranked : Bool) (offset : Nat) (c : Chunk) : List UInt8 :=
  List.replicate (alignUp offset (frozenPayloadLayout c.slot).1 - offset) 0
    ++ (frozenBody c.slot).payload ++ if ranked then (frozenBody c.slot).ranks else []

def frozenBodies (ranked : Bool) : (offset : Nat) → List Chunk → List UInt8
  | _, [] => []
  | offset, c :: cs =>
      frozenChunkBytes ranked offset c ++ frozenBodies ranked (frozenNext ranked offset c) cs

theorem length_frozenChunkBytes (ranked : Bool) (offset : Nat) (c : Chunk) :
    offset + (frozenChunkBytes ranked offset c).length = frozenNext ranked offset c := by
  have hle : offset ≤ alignUp offset (frozenPayloadLayout c.slot).1 :=
    le_alignUp (frozenPayloadLayout_pos c.slot)
  rw [frozenChunkBytes, frozenNext, List.length_append, List.length_append, List.length_replicate,
    length_frozenBody_payload]
  cases ranked
  · simp only [Bool.false_eq_true, if_false, List.length_nil]
    omega
  · simp only [if_true, length_frozenBody_ranks]
    omega

/-- The writer's accumulators after a pass, and its offset, which the size is made of. -/
theorem foldl_frozenWriteChunk (ranked : Bool) (cs : List Chunk) (out : FrozenOut) :
    let result := cs.foldl (frozenWriteChunk ranked) out
    result.index = out.index ++
        (frozenEntries ranked out.payloadOffset out.base cs).flatMap FrozenChunkIndex.bytes ∧
      result.body = out.body ++ frozenBodies ranked out.payloadOffset cs ∧
      result.payloadOffset = cs.foldl (frozenNext ranked) out.payloadOffset := by
  induction cs generalizing out with
  | nil => simp [frozenEntries, frozenBodies]
  | cons c cs ih =>
      obtain ⟨hindex, hbody, hoffset⟩ := ih (frozenWriteChunk ranked out c)
      refine ⟨hindex.trans ?_, hbody.trans ?_, hoffset⟩
      · rw [frozenEntries, List.flatMap_cons, ← List.append_assoc]
        rfl
      · rw [frozenBodies, ← List.append_assoc, frozenChunkBytes, ← List.append_assoc,
          ← List.append_assoc]
        rfl

theorem length_frozenBodies (ranked : Bool) (offset : Nat) (cs : List Chunk) :
    offset + (frozenBodies ranked offset cs).length = cs.foldl (frozenNext ranked) offset := by
  induction cs generalizing offset with
  | nil => rfl
  | cons c cs ih =>
      rw [frozenBodies, List.length_append, ← Nat.add_assoc, length_frozenChunkBytes, ih,
        List.foldl_cons]

@[simp] theorem length_frozenHeader (h : FrozenHeader) : h.bytes.length = frozenHeaderSize := by
  simp [FrozenHeader.bytes, frozenHeaderSize]

@[simp] theorem length_frozenChunkIndex (e : FrozenChunkIndex) :
    e.bytes.length = frozenIndexEntrySize := by
  simp [FrozenChunkIndex.bytes, frozenIndexEntrySize]

theorem length_frozenEntries (ranked : Bool) (offset base : Nat) (cs : List Chunk) :
    (frozenEntries ranked offset base cs).length = cs.length := by
  induction cs generalizing offset base with
  | nil => rfl
  | cons c cs ih => rw [frozenEntries, List.length_cons, ih, List.length_cons]

theorem length_flatMap_frozenChunkIndex (es : List FrozenChunkIndex) :
    (es.flatMap FrozenChunkIndex.bytes).length = es.length * frozenIndexEntrySize := by
  rw [List.length_flatMap]
  simp

/-- The header the writer puts in front. -/
def Bitmap.frozenHeader (K : KeyType) (ranked : Bool) (b : Bitmap) : FrozenHeader where
  magic := frozenSerializationMagic
  keyBits := K.digits
  version := if ranked then frozenRankedFormatVersion else frozenFormatVersion
  chunkCount := b.chunks.length
  valueCount := b.size

/-- Where the index ends and the payloads begin. -/
def Bitmap.frozenIndexEnd (b : Bitmap) : Nat :=
  frozenHeaderSize + b.chunks.length * frozenIndexEntrySize

theorem frozenSerialize_eq (K : KeyType) (ranked : Bool) (b : Bitmap) :
    b.frozenSerialize K ranked =
      ((b.frozenHeader K ranked).bytes ++
          (frozenEntries ranked b.frozenIndexEnd 0 b.chunks).flatMap FrozenChunkIndex.bytes ++
          frozenBodies ranked b.frozenIndexEnd b.chunks,
        b.frozenSizeBytes ranked) := by
  obtain ⟨hindex, hbody, hoffset⟩ :=
    foldl_frozenWriteChunk ranked b.chunks { payloadOffset := b.frozenIndexEnd }
  rw [Bitmap.frozenSerialize, show frozenHeaderSize + b.chunks.length * frozenIndexEntrySize =
    b.frozenIndexEnd from rfl,
    hindex, hbody, hoffset, List.nil_append, List.nil_append]
  rfl

/-- The writer fills exactly the computed size. -/
theorem length_frozenSerialize (K : KeyType) (ranked : Bool) (b : Bitmap) :
    (b.frozenSerialize K ranked).1.length = b.frozenSizeBytes ranked ∧
      (b.frozenSerialize K ranked).2 = b.frozenSizeBytes ranked := by
  rw [frozenSerialize_eq]
  constructor
  · rw [List.length_append, List.length_append, length_frozenHeader,
      length_flatMap_frozenChunkIndex, length_frozenEntries]
    exact length_frozenBodies ranked b.frozenIndexEnd b.chunks
  · rfl

end Roaring
