import Mathlib
import Roaring.Wire.FrozenLayout

/-!
# A written image is accepted

The entries of the index survive the trip through their bytes, and each passes
the checks of the loop over the index.  The state that the loop carries is the
writer's own: its floor and its end follow the running offset, its total the
values written so far.
-/

namespace Roaring

open Lib

/-! ## Header and entries as bytes -/

/-- The fields of an entry fit their widths. -/
structure FrozenChunkIndex.Fits (e : FrozenChunkIndex) : Prop where
  chunk : e.chunk < 256 ^ 8
  payloadOffset : e.payloadOffset < 256 ^ 4
  payloadBytes : e.payloadBytes < 256 ^ 4
  payloadCount : e.payloadCount < 256 ^ 4
  cardinality : e.cardinality < 256 ^ 4
  containerKind : e.containerKind < 256 ^ 1
  base : e.base < 256 ^ 4

theorem frozenChunkIndexOf_bytes {e : FrozenChunkIndex} (h : e.Fits) :
    frozenChunkIndexOf e.bytes = e := by
  obtain ⟨chunk, offset, bytes, count, cardinality, kind, base⟩ := e
  refine FrozenChunkIndex.mk.injEq .. |>.mpr ⟨?_, ?_, ?_, ?_, ?_, ?_, ?_⟩
  · exact leValue_field [] h.chunk _
  · exact leValue_field [(8, chunk)] h.payloadOffset _
  · exact leValue_field [(8, chunk), (4, offset)] h.payloadBytes _
  · exact leValue_field [(8, chunk), (4, offset), (4, bytes)] h.payloadCount _
  · exact leValue_field [(8, chunk), (4, offset), (4, bytes), (4, count)] h.cardinality _
  · exact leValue_field [(8, chunk), (4, offset), (4, bytes), (4, count), (4, cardinality)]
      h.containerKind _
  · exact leValue_field [(8, chunk), (4, offset), (4, bytes), (4, count), (4, cardinality),
      (1, kind), (3, 0)] h.base []

structure FrozenHeader.Fits (h : FrozenHeader) : Prop where
  magic : h.magic < 256 ^ 4
  keyBits : h.keyBits < 256 ^ 2
  version : h.version < 256 ^ 2
  chunkCount : h.chunkCount < 256 ^ 4
  valueCount : h.valueCount < 256 ^ 8

theorem frozenHeaderOf_bytes {h : FrozenHeader} (hf : h.Fits) : frozenHeaderOf h.bytes = h := by
  obtain ⟨magic, bits, version, chunks, values⟩ := h
  refine FrozenHeader.mk.injEq .. |>.mpr ⟨?_, ?_, ?_, ?_, ?_⟩
  · exact leValue_field [] hf.magic _
  · exact leValue_field [(4, magic)] hf.keyBits _
  · exact leValue_field [(4, magic), (2, bits)] hf.version _
  · exact leValue_field [(4, magic), (2, bits), (2, version)] hf.chunkCount _
  · exact leValue_field [(4, magic), (2, bits), (2, version), (4, chunks), (4, 0)] hf.valueCount []

/-! ## One entry -/

section Entry

variable {K : KeyType} {sb : Bool} {c : Chunk}

theorem frozenContainerKindOf_toNat (kind : FrozenContainerKind) :
    frozenContainerKindOf kind.toNat = some kind := by cases kind <;> rfl

theorem Chunk.Valid.cardinality_le (h : c.Valid K sb) : c.slot.cardinality ≤ lowDomainSize := by
  rw [h.slot.cardinality]
  exact h.slot.payload.length_le

theorem Canonical.length_le_runCardinality {runs : List Run} (h : Canonical runs) :
    runs.length ≤ runCardinality runs := by
  induction runs with
  | nil => exact le_rfl
  | cons r rs ih =>
      have := ih h.tail
      rw [List.length_cons, runCardinality_cons, Run.length]
      omega

theorem frozenEntry_payloadCount_le (h : c.Valid K sb) :
    (frozenBody c.slot).payloadCount ≤ lowDomainSize := by
  have hle := h.cardinality_le
  have hwf := h.slot.payload
  have hcard := h.slot.cardinality
  rw [ContainerHandle.values] at hcard
  rw [frozenBody]
  cases hp : c.slot.payload with
  | array values =>
      rw [hp] at hcard
      exact hcard.symm.le.trans hle
  | run runs =>
      rw [hp] at hcard hwf
      cases hwf with
      | run canonical =>
          have hlen : c.slot.cardinality = runCardinality runs :=
            hcard.trans canonical.length_values
          exact canonical.length_le_runCardinality.trans (hlen ▸ hle)
  | bitset words => exact show wordCount ≤ lowDomainSize by decide

theorem frozenPayloadAlignment_entry (ranked : Bool) (offset base : Nat) (c : Chunk) :
    frozenPayloadAlignment (frozenEntry ranked offset base c) = (frozenPayloadLayout c.slot).1 := by
  rw [frozenPayloadAlignment, frozenEntry, frozenContainerKindOf_toNat, frozenBody,
    frozenPayloadLayout, ContainerHandle.kind]
  cases c.slot.payload <;> rfl

theorem frozenExpectedPayloadBytes_entry (ranked : Bool) (offset base : Nat) (c : Chunk) :
    frozenExpectedPayloadBytes (frozenEntry ranked offset base c) =
      (frozenPayloadLayout c.slot).2 := by
  rw [frozenExpectedPayloadBytes, frozenEntry, frozenContainerKindOf_toNat, frozenBody,
    frozenPayloadLayout, ContainerHandle.kind, ContainerHandle.count]
  cases c.slot.payload <;> rfl

theorem frozenRankBytes_entry (c : Chunk) :
    frozenRankBytes (frozenBody c.slot).kind (frozenBody c.slot).payloadCount =
      frozenRankBytesOf c.slot := by
  rw [frozenBody, frozenRankBytesOf, ContainerHandle.kind, ContainerHandle.count]
  cases c.slot.payload <;> rfl

theorem frozenRankedCountsMatch_entry (h : c.Valid K sb) (offset base : Nat) :
    frozenRankedCountsMatch (frozenEntry true offset base c) = true := by
  have hle := h.cardinality_le
  have hpos := h.cardinality_pos
  have hcard := frozenBody_cardinality h.slot
  have hwf := h.slot.payload
  have hvalues := h.slot.cardinality
  rw [ContainerHandle.values] at hvalues
  rw [frozenRankedCountsMatch, frozenEntry, frozenContainerKindOf_toNat]
  dsimp only
  rw [hcard, if_neg (by omega), frozenBody]
  cases hp : c.slot.payload with
  | array values =>
      rw [hp] at hvalues
      exact decide_eq_true hvalues.symm
  | run runs =>
      rw [hp] at hvalues hwf
      cases hwf with
      | run canonical =>
          have hlen : c.slot.cardinality = runCardinality runs :=
            hvalues.trans canonical.length_values
          have hruns := canonical.length_le_runCardinality
          have hne : runs.length ≠ 0 := by
            intro hzero
            rw [List.length_eq_zero_iff.mp hzero] at hlen
            exact hpos.ne' hlen
          dsimp only
          rw [Bool.and_eq_true, decide_eq_true_eq, decide_eq_true_eq]
          exact ⟨hne, hlen ▸ hruns⟩
  | bitset words => exact decide_eq_true rfl

theorem Chunk.Valid.key_le_chunkTypeMax (h : c.Valid K sb) : c.key ≤ K.chunkTypeMax := by
  have := h.key_lt
  cases K <;> simp only [KeyType.chunkDomainSize, KeyType.digits,
    KeyType.chunkTypeMax] at this ⊢ <;>
    norm_num at this ⊢ <;> omega

theorem Chunk.Valid.key_lt_word (h : c.Valid K sb) : c.key < 256 ^ 8 := by
  have := h.key_lt
  cases K <;> simp only [KeyType.chunkDomainSize, KeyType.digits] at this <;>
    norm_num at this ⊢ <;> omega

/-- The writer's state of the loop over the index, when it has reached `offset`. -/
structure ScanAt (ranked : Bool) (offset base : Nat) (s : FrozenScan) : Prop where
  floor : s.payloadFloor ≤ offset
  imageEnd : s.imageEnd = offset
  total : s.totalCardinality = base
  nonempty : s.anyEmpty = false

/-- An entry passes the checks, and the state moves on with the writer. -/
theorem frozenScanEntry_entry (h : c.Valid K sb) {ranked : Bool} {offset base size : Nat}
    {s : FrozenScan} (hs : ScanAt ranked offset base s)
    (hprevious : ∀ k ∈ s.previousChunk, k < c.key) (hfit : frozenNext ranked offset c ≤ size) :
    ∃ s', frozenScanEntry K size ranked s (frozenEntry ranked offset base c) = some s' ∧
      ScanAt ranked (frozenNext ranked offset c) (base + c.slot.cardinality) s' ∧
      s'.previousChunk = some c.key := by
  have hpos := frozenPayloadLayout_pos c.slot
  have hle : offset ≤ alignUp offset (frozenPayloadLayout c.slot).1 := le_alignUp hpos
  have hcard := frozenBody_cardinality h.slot
  have hcardpos := h.cardinality_pos
  have hfloor := hs.floor
  have hend := hs.imageEnd
  have hord : s.previousChunk.any (c.key ≤ ·) = false := by
    cases hp : s.previousChunk with
    | none => rfl
    | some k => simpa using hprevious k hp
  have hnext : frozenNext ranked offset c = alignUp offset (frozenPayloadLayout c.slot).1 +
      (frozenPayloadLayout c.slot).2 + if ranked then frozenRankBytesOf c.slot else 0 := rfl
  set e := frozenEntry ranked offset base c with he
  have hchunk : e.chunk = c.key := rfl
  have hoffset : e.payloadOffset = alignUp offset (frozenPayloadLayout c.slot).1 := rfl
  have hbytes : e.payloadBytes = (frozenPayloadLayout c.slot).2 := rfl
  have hcount : e.cardinality = c.slot.cardinality := hcard
  have halign := frozenPayloadAlignment_entry ranked offset base c
  have hexpected := frozenExpectedPayloadBytes_entry ranked offset base c
  have hrank : ((frozenContainerKindOf e.containerKind).map
      (frozenRankBytes · e.payloadCount)).getD 0 = frozenRankBytesOf c.slot := by
    rw [he, frozenEntry, frozenContainerKindOf_toNat]
    exact frozenRankBytes_entry c
  have hranked : ranked = true → e.base = s.totalCardinality ∧
      frozenRankedCountsMatch e = true := by
    rintro rfl
    exact ⟨hs.total.symm, frozenRankedCountsMatch_entry h offset base⟩
  rw [← he] at halign hexpected
  rw [frozenScanEntry, hrank, halign, hexpected, hoffset, hbytes, hchunk, hcount, ← hnext, hord,
    if_neg Bool.false_ne_true,
      if_neg (show ¬ c.key > K.chunkTypeMax from Nat.not_lt_of_le h.key_le_chunkTypeMax),
    if_neg (by
      rintro (h0 | hmod)
      · omega
      · exact hmod (alignUp_mod _ _)),
    if_neg (by omega), if_neg (by omega), if_neg (fun hne ↦ hne rfl),
    if_neg (by
      rintro ⟨hr, hb | hm⟩
      · exact hb (hranked hr).1
      · exact hm (hranked hr).2),
    if_neg (by omega)]
  refine ⟨_, rfl, ⟨?_, ?_, ?_, ?_⟩, rfl⟩
  · dsimp only
    split <;> omega
  · dsimp only
    omega
  · exact congrArg (· + c.slot.cardinality) hs.total
  · dsimp only
    rw [hs.nonempty, Bool.false_or, decide_eq_false_iff_not]
    omega

end Entry

/-! ## The whole index -/

section Index

variable {K : KeyType} {sb : Bool} {ranked : Bool}

/-- The running offset only grows. -/
theorem le_foldl_frozenNext (ranked : Bool) (offset : Nat) (cs : List Chunk) :
    offset ≤ cs.foldl (frozenNext ranked) offset := by
  rw [← length_frozenBodies]
  exact Nat.le_add_right _ _

theorem frozenEntry_fits {c : Chunk} (h : c.Valid K sb) {offset base : Nat}
    (hfit : frozenNext ranked offset c < 2 ^ 32) (hbase : ranked = true → base < 2 ^ 32) :
    (frozenEntry ranked offset base c).Fits := by
  have hdomain : lowDomainSize = 65536 := rfl
  have hcount := frozenEntry_payloadCount_le h
  have hcard := h.cardinality_le
  have hwritten := frozenBody_cardinality h.slot
  rw [frozenNext] at hfit
  constructor
  · exact h.key_lt_word
  · dsimp only [frozenEntry]
    omega
  · dsimp only [frozenEntry]
    omega
  · dsimp only [frozenEntry]
    omega
  · dsimp only [frozenEntry]
    omega
  · dsimp only [frozenEntry]
    cases (frozenBody c.slot).kind <;> decide
  · dsimp only [frozenEntry]
    split
    · rename_i hr
      exact hbase hr
    · decide

/-- The loop over the index reads the written entries and accepts them. -/
theorem frozenScanIndex_entries {cs : List Chunk} (hv : ∀ c ∈ cs, c.Valid K sb)
    (hasc : cs.Pairwise fun c d ↦ c.key < d.key) {buf front rest : List UInt8}
    (i offset base : Nat) (s : FrozenScan) (hs : ScanAt ranked offset base s)
    (hprevious : ∀ k ∈ s.previousChunk, ∀ c ∈ cs, k < c.key)
    (hbuf : buf =
      front ++ ((frozenEntries ranked offset base cs).flatMap FrozenChunkIndex.bytes ++ rest))
    (hfront : front.length = frozenHeaderSize + i * frozenIndexEntrySize)
    (hsize : cs.foldl (frozenNext ranked) offset ≤ buf.length) (hlt : buf.length < 2 ^ 32)
    (hbase : ranked = true → base + (cs.map fun c ↦ c.slot.cardinality).sum < 2 ^ 32) :
    ∃ s', frozenScanIndex K buf ranked cs.length i s =
        .value (s', frozenEntries ranked offset base cs) ∧
      ScanAt ranked (cs.foldl (frozenNext ranked) offset)
        (base + (cs.map fun c ↦ c.slot.cardinality).sum) s' := by
  induction cs generalizing front i offset base s with
  | nil => exact ⟨s, rfl, hs⟩
  | cons c cs ih =>
      have hc := hv c List.mem_cons_self
      have hmono := le_foldl_frozenNext ranked (frozenNext ranked offset c) cs
      rw [List.foldl_cons] at hsize
      rw [List.map_cons, List.sum_cons, ← Nat.add_assoc] at hbase ⊢
      have hfits : (frozenEntry ranked offset base c).Fits :=
        frozenEntry_fits hc (by omega) fun hr ↦ by have := hbase hr; omega
      obtain ⟨s₁, hscan, hs₁, hchunk⟩ := frozenScanEntry_entry hc hs
        (fun k hk ↦ hprevious k hk c List.mem_cons_self) (hmono.trans hsize)
      -- the 32 bytes of this entry
      rw [frozenEntries, List.flatMap_cons, List.append_assoc] at hbuf
      have hlen : frozenHeaderSize + i * frozenIndexEntrySize + frozenIndexEntrySize ≤
          buf.length := by
        rw [hbuf, List.length_append, hfront, List.length_append, length_frozenChunkIndex]
        omega
      have hbytes : (buf.drop (frozenHeaderSize + i * frozenIndexEntrySize)).take
          frozenIndexEntrySize = (frozenEntry ranked offset base c).bytes := by
        rw [hbuf, List.drop_left' hfront, List.take_left' (length_frozenChunkIndex _)]
      have hcard := frozenBody_cardinality hc.slot
      have hprevious₁ : ∀ k ∈ s₁.previousChunk, ∀ d ∈ cs, k < d.key := by
        rw [hchunk]
        rintro k ⟨⟩ d hd
        exact List.rel_of_pairwise_cons hasc hd
      rw [hcard] at hbuf
      obtain ⟨s', hrest, hs'⟩ := ih (fun d hd ↦ hv d (List.mem_cons_of_mem c hd)) hasc.of_cons
        (i + 1) (frozenNext ranked offset c) (base + c.slot.cardinality) s₁ hs₁ hprevious₁
        (hbuf.trans (List.append_assoc _ _ _).symm)
        (by rw [List.length_append, hfront, length_frozenChunkIndex]; ring) hsize hbase
      refine ⟨s', ?_, hs'⟩
      rw [List.length_cons, frozenScanIndex, bytesAt_of_le hlen, Parsed.value_bind]
      dsimp only
      rw [hbytes, frozenChunkIndexOf_bytes hfits, hscan]
      dsimp only
      rw [hrest, Parsed.value_bind, frozenEntries, hcard]
      rfl

end Index

/-! ## The view of an image -/

/-- What a reader relies on: the entry names the chunk, and the bytes it points at
read as the chunk's payload. -/
structure EntryOf (data : List UInt8) (e : FrozenChunkIndex) (c : Chunk) : Prop where
  chunk : e.chunk = c.key
  cardinality : e.cardinality = c.slot.cardinality
  kind : frozenContainerKindOf e.containerKind = some (frozenBody c.slot).kind
  payload : frozenPayload (frozenBody c.slot).kind e.payloadCount (data.drop e.payloadOffset) =
    c.slot.payload
  bytes : e.payloadBytes = (frozenPayloadLayout c.slot).2

/-- The written entries point at the payloads. -/
theorem entriesOf_frozenEntries {K : KeyType} {sb ranked : Bool} {cs : List Chunk}
    (hv : ∀ c ∈ cs, c.Valid K sb) {data front rest : List UInt8} {offset base : Nat}
    (hdata : data = front ++ (frozenBodies ranked offset cs ++ rest))
    (hfront : front.length = offset) :
    List.Forall₂ (EntryOf data) (frozenEntries ranked offset base cs) cs := by
  induction cs generalizing front offset base with
  | nil => exact .nil
  | cons c cs ih =>
      have hc := hv c List.mem_cons_self
      rw [frozenBodies] at hdata
      refine .cons ⟨rfl, frozenBody_cardinality hc.slot, frozenContainerKindOf_toNat _, ?_, rfl⟩ ?_
      · set aligned := alignUp offset (frozenPayloadLayout c.slot).1
        have hle : offset ≤ aligned := le_alignUp (frozenPayloadLayout_pos c.slot)
        have hpad : (front ++ List.replicate (aligned - offset) (0 : UInt8)).length = aligned := by
          rw [List.length_append, List.length_replicate, hfront]
          omega
        have hdrop : data.drop aligned = (frozenBody c.slot).payload ++
            ((if ranked then (frozenBody c.slot).ranks else []) ++
              (frozenBodies ranked (frozenNext ranked offset c) cs ++ rest)) := by
          rw [hdata, frozenChunkBytes]
          simp only [List.append_assoc]
          rw [← List.append_assoc front, List.drop_left' hpad]
        show frozenPayload _ _ (data.drop aligned) = _
        rw [hdrop]
        exact frozenPayload_frozenBody hc.slot _
      · apply ih (fun d hd ↦ hv d (List.mem_cons_of_mem c hd))
        · rw [hdata, List.append_assoc, List.append_assoc]
        · rw [List.length_append, hfront]
          exact length_frozenChunkBytes ranked offset c

/-- The options a ranked image is written with. -/
def RankedAllowed (K : KeyType) (b : Bitmap) : Prop := K.digits ≤ 32 ∧ b.size < 2 ^ 32

theorem Bitmap.Valid.size_le {K : KeyType} {sb : Bool} {b : Bitmap} (h : b.Valid K sb) :
    b.size ≤ b.chunks.length * lowDomainSize := by
  rw [h.size]
  calc (b.chunks.map fun c ↦ c.slot.cardinality).sum
      ≤ (b.chunks.map fun _ ↦ lowDomainSize).sum :=
        List.sum_le_sum fun c hc ↦ (h.chunks c hc).cardinality_le
    _ = b.chunks.length * lowDomainSize := by rw [List.map_const', List.sum_replicate, smul_eq_mul]

/-- What the writer puts in front of the payloads ends where the index does. -/
theorem length_frozenFront (K : KeyType) (ranked : Bool) (b : Bitmap) :
    ((b.frozenHeader K ranked).bytes ++ (frozenEntries ranked b.frozenIndexEnd 0 b.chunks).flatMap
      FrozenChunkIndex.bytes).length = b.frozenIndexEnd := by
  rw [List.length_append, length_frozenHeader, length_flatMap_frozenChunkIndex,
    length_frozenEntries]
  rfl

/-- The view of a written image. -/
def Bitmap.frozenView (K : KeyType) (ranked : Bool) (b : Bitmap) : FrozenView where
  header := b.frozenHeader K ranked
  index := frozenEntries ranked b.frozenIndexEnd 0 b.chunks
  data := (b.frozenSerialize K ranked).1
  bytes := b.frozenSizeBytes ranked

/-- The image is accepted, and its view is the header and the index it was written with. -/
theorem frozenViewFrom_eq_frozenView {K : KeyType} {sb : Bool} {b : Bitmap} (h : b.Valid K sb)
    {ranked : Bool} (hranked : ranked = true → RankedAllowed K b)
    (hsize : b.frozenSizeBytes ranked < 2 ^ 32) :
    frozenViewFrom K (b.frozenSerialize K ranked).1 = .value (b.frozenView K ranked) := by
  rw [Bitmap.frozenView]
  have hlen := (length_frozenSerialize K ranked b).1
  have himage := congrArg Prod.fst (frozenSerialize_eq K ranked b)
  dsimp only at himage
  set buf := (b.frozenSerialize K ranked).1
  set header := b.frozenHeader K ranked with hheader
  set entries := frozenEntries ranked b.frozenIndexEnd 0 b.chunks with hentries
  set bodies := frozenBodies ranked b.frozenIndexEnd b.chunks
  have hend : b.frozenIndexEnd = 24 + b.chunks.length * 32 := rfl
  have hfold : b.chunks.foldl (frozenNext ranked) b.frozenIndexEnd = buf.length := hlen.symm
  have hle : b.frozenIndexEnd ≤ buf.length := hfold ▸ le_foldl_frozenNext ranked _ _
  have hcount : b.chunks.length < 256 ^ 4 := by omega
  have hvalues : b.size < 256 ^ 8 := by
    have := h.size_le
    unfold lowDomainSize at this
    omega
  have hfits : header.Fits := by
    refine ⟨show frozenSerializationMagic < 256 ^ 4 by decide, ?_, ?_, hcount, hvalues⟩
    · show K.digits < 256 ^ 2
      cases K <;> decide
    · show (if ranked then frozenRankedFormatVersion else frozenFormatVersion) < 256 ^ 2
      cases ranked <;> decide
  have hhead : frozenHeaderOf ((buf.drop 0).take frozenHeaderSize) = header := by
    rw [List.drop_zero, himage, List.append_assoc, List.take_left' (length_frozenHeader _),
      frozenHeaderOf_bytes hfits]
  have hversion : decide (header.version = frozenRankedFormatVersion) = ranked := by
    rw [hheader, Bitmap.frozenHeader]
    cases ranked <;> rfl
  obtain ⟨s, hscan, hs⟩ := frozenScanIndex_entries h.chunks h.ascending 0 b.frozenIndexEnd 0
    { payloadFloor := b.frozenIndexEnd, imageEnd := b.frozenIndexEnd }
    (show ScanAt ranked _ _ _ from ⟨le_rfl, rfl, rfl, rfl⟩) nofun
      (himage.trans (List.append_assoc _ _ _))
    (show header.bytes.length = frozenHeaderSize + 0 * frozenIndexEntrySize by
      rw [length_frozenHeader, Nat.zero_mul, Nat.add_zero])
    hfold.le (hlen ▸ hsize) (fun hr ↦ by
      rw [Nat.zero_add, ← h.size]
      exact (hranked hr).2)
  have hbytes : s.imageEnd = b.frozenSizeBytes ranked := hs.imageEnd.trans (hfold.trans hlen)
  rw [← hbytes, frozenViewFrom, if_neg (by unfold frozenHeaderSize; omega),
    bytesAt_of_le (by unfold frozenHeaderSize; omega), Parsed.value_bind]
  dsimp only
  rw [hhead, hversion, if_neg (by
    rintro (hne | hne | ⟨h1, h2⟩)
    · exact hne rfl
    · exact hne rfl
    · revert h1 h2
      rw [hheader, Bitmap.frozenHeader]
      cases ranked
      · exact fun h1 _ ↦ h1 rfl
      · exact fun _ h2 ↦ h2 rfl)]
  rw [if_neg (by
    rintro ⟨hr, hdigits | hmany⟩
    · exact absurd (hranked hr).1 (Nat.not_le_of_lt hdigits)
    · exact absurd (hranked hr).2 (Nat.not_lt_of_le hmany))]
  rw [if_neg (show ¬ buf.length < frozenHeaderSize + header.chunkCount * frozenIndexEntrySize from
    Nat.not_lt_of_le hle)]
  have hscan' : frozenScanIndex K buf ranked header.chunkCount 0
      { payloadFloor := frozenHeaderSize + header.chunkCount * frozenIndexEntrySize
        imageEnd := frozenHeaderSize + header.chunkCount * frozenIndexEntrySize } =
      .value (s, entries) := hscan
  rw [hscan', Parsed.value_bind]
  dsimp only
  rw [if_neg (by
    rintro (hempty | htotal)
    · rw [hs.nonempty] at hempty
      exact Bool.false_ne_true hempty
    · rw [hs.total, Nat.zero_add] at htotal
      exact htotal h.size.symm)]
  rfl

/-- The image is accepted, and the view has the entries and the size it was written with. -/
theorem frozenViewFrom_frozenSerialize {K : KeyType} {sb : Bool} {b : Bitmap} (h : b.Valid K sb)
    {ranked : Bool} (hranked : ranked = true → RankedAllowed K b)
    (hsize : b.frozenSizeBytes ranked < 2 ^ 32) :
    ∃ v, frozenViewFrom K (b.frozenSerialize K ranked).1 = .value v ∧
      v.bytes = b.frozenSizeBytes ranked ∧ v.header.chunkCount = b.chunks.length ∧
      v.header.valueCount = b.size ∧ List.Forall₂ (EntryOf v.data) v.index b.chunks := by
  refine ⟨b.frozenView K ranked, frozenViewFrom_eq_frozenView h hranked hsize, rfl, rfl, rfl, ?_⟩
  refine @entriesOf_frozenEntries K sb ranked b.chunks h.chunks _ _ [] _ _ ?_
    (length_frozenFront K ranked b)
  rw [List.append_nil]
  exact congrArg Prod.fst (frozenSerialize_eq K ranked b)

end Roaring
