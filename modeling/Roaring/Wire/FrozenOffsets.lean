import Mathlib
import Roaring.Wire.FrozenRoundTrip

/-!
# Images beyond the 32-bit offsets

The writer narrows every payload offset to 32 bits and does not look whether it
fits.  A payload that begins at `2 ^ 32` or later is named by an offset that has
wrapped, and the first such offset is small: payloads are short, so it has gone
past the wrap by less than one payload.  An image that long has so many chunks
that its index alone is longer than that, and an offset into the index is
refused.
-/

namespace Roaring

open Lib

/-! ## Narrowed entries -/

theorem leBytes_mod (k x : Nat) : leBytes k (x % 256 ^ k) = leBytes k x := by
  have h := leBytes_leValue (leBytes k x)
  rwa [length_leBytes, leValue_leBytes] at h

/-- An entry as 32 bits of offset can tell it. -/
def FrozenChunkIndex.narrowed (e : FrozenChunkIndex) : FrozenChunkIndex :=
  { e with payloadOffset := e.payloadOffset % 256 ^ 4 }

theorem FrozenChunkIndex.bytes_narrowed (e : FrozenChunkIndex) : e.narrowed.bytes = e.bytes := by
  simp only [bytes, narrowed, leFields, List.flatMap_cons, leBytes_mod]

section Narrowed

variable {K : KeyType} {sb : Bool}

/-- The bound on what one chunk adds to the running offset: its payload and its padding. -/
def frozenStride : Nat := 4 * lowDomainSize + 7

theorem alignUp_le (offset : Nat) (c : Chunk) :
    alignUp offset (frozenPayloadLayout c.slot).1 ≤ offset + 7 := by
  have hle : (frozenPayloadLayout c.slot).1 ≤ 8 := by
    rw [frozenPayloadLayout]
    cases c.slot.kind with
    | array => exact show 2 ≤ 8 by decide
    | run => exact show 2 ≤ 8 by decide
    | bitset => exact le_rfl
  rw [alignUp]
  omega

theorem payloadBytes_le {c : Chunk} (h : c.Valid K sb) :
    (frozenPayloadLayout c.slot).2 ≤ 4 * lowDomainSize := by
  have hcount := frozenEntry_payloadCount_le h
  rw [frozenBody] at hcount
  rw [frozenPayloadLayout, ContainerHandle.kind, ContainerHandle.count]
  cases hp : c.slot.payload with
  | array values =>
      rw [hp] at hcount
      dsimp only [Payload.kind] at hcount ⊢
      omega
  | run runs =>
      rw [hp] at hcount
      dsimp only [Payload.kind] at hcount ⊢
      omega
  | bitset words => exact show wordCount * 8 ≤ 4 * lowDomainSize by decide

theorem frozenNext_le {c : Chunk} (h : c.Valid K sb) (offset : Nat) :
    frozenNext false offset c ≤ offset + frozenStride := by
  have halign := alignUp_le offset c
  have hbytes := payloadBytes_le h
  rw [frozenNext, frozenStride]
  simp only [Bool.false_eq_true, if_false]
  omega

theorem frozenChunkIndexOf_narrowed {c : Chunk} (h : c.Valid K sb) (offset base : Nat) :
    frozenChunkIndexOf (frozenEntry false offset base c).bytes =
      (frozenEntry false offset base c).narrowed := by
  have hdomain : lowDomainSize = 65536 := rfl
  have hcount := frozenEntry_payloadCount_le h
  have hcard := h.cardinality_le
  have hwritten := frozenBody_cardinality h.slot
  have hbytes := payloadBytes_le h
  rw [← FrozenChunkIndex.bytes_narrowed]
  apply frozenChunkIndexOf_bytes
  constructor
  · exact h.key_lt_word
  · exact Nat.mod_lt _ (by decide)
  · dsimp only [FrozenChunkIndex.narrowed, frozenEntry]
    omega
  · dsimp only [FrozenChunkIndex.narrowed, frozenEntry]
    omega
  · dsimp only [FrozenChunkIndex.narrowed, frozenEntry]
    omega
  · dsimp only [FrozenChunkIndex.narrowed, frozenEntry]
    cases (frozenBody c.slot).kind <;> decide
  · exact show 0 < 256 ^ 4 by decide

/-! ## What an accepted index says -/

/-- An entry of an unranked image that passes lies behind the index, and leaves the floor. -/
theorem frozenScanEntry_floor {size : Nat} {s s' : FrozenScan} {e : FrozenChunkIndex}
    (h : frozenScanEntry K size false s e = some s') :
    s.payloadFloor ≤ e.payloadOffset ∧ s'.payloadFloor = s.payloadFloor := by
  have hplace : ¬ (e.payloadOffset < s.payloadFloor ∨ e.payloadOffset > size) := by
    intro hout
    simp only [frozenScanEntry, hout, if_true] at h
    split_ifs at h
  refine ⟨not_lt.mp fun hlt ↦ hplace (Or.inl hlt), ?_⟩
  simp only [frozenScanEntry, Bool.false_eq_true, false_and, if_false] at h
  split_ifs at h
  cases h
  rfl

/-- The index that the loop over a written image has read, when it has accepted it. -/
theorem frozenScanIndex_accepted {cs : List Chunk} (hv : ∀ c ∈ cs, c.Valid K sb)
    {buf front rest : List UInt8} {i offset base : Nat} {s s' : FrozenScan}
    {index : List FrozenChunkIndex}
    (hbuf : buf =
      front ++ ((frozenEntries false offset base cs).flatMap FrozenChunkIndex.bytes ++ rest))
    (hfront : front.length = frozenHeaderSize + i * frozenIndexEntrySize)
    (h : frozenScanIndex K buf false cs.length i s = .value (s', index)) :
    index = (frozenEntries false offset base cs).map FrozenChunkIndex.narrowed ∧
      ∀ e ∈ index, s.payloadFloor ≤ e.payloadOffset := by
  induction cs generalizing front i offset base s index with
  | nil =>
      cases h
      exact ⟨rfl, nofun⟩
  | cons c cs ih =>
      rw [frozenEntries, List.flatMap_cons, List.append_assoc] at hbuf
      have hlen : frozenHeaderSize + i * frozenIndexEntrySize + frozenIndexEntrySize ≤
          buf.length := by
        rw [hbuf, List.length_append, hfront, List.length_append, length_frozenChunkIndex]
        omega
      have hbytes : (buf.drop (frozenHeaderSize + i * frozenIndexEntrySize)).take
          frozenIndexEntrySize = (frozenEntry false offset base c).bytes := by
        rw [hbuf, List.drop_left' hfront, List.take_left' (length_frozenChunkIndex _)]
      rw [List.length_cons, frozenScanIndex, bytesAt_of_le hlen, Parsed.value_bind] at h
      dsimp only at h
      rw [hbytes, frozenChunkIndexOf_narrowed (hv c List.mem_cons_self)] at h
      cases hscan :
        frozenScanEntry K buf.length false s (frozenEntry false offset base c).narrowed with
      | none =>
          rw [hscan] at h
          cases h
      | some s₁ =>
          rw [hscan] at h
          dsimp only at h
          obtain ⟨⟨s₂, tail⟩, hrest, hout⟩ := Parsed.bind_eq_value.mp h
          cases hout
          obtain ⟨hfloor, hsame⟩ := frozenScanEntry_floor hscan
          obtain ⟨htail, hfloors⟩ := ih (fun d hd ↦ hv d (List.mem_cons_of_mem c hd))
            (hbuf.trans (List.append_assoc _ _ _).symm)
            (by rw [List.length_append, hfront, length_frozenChunkIndex]; ring) hrest
          constructor
          · rw [frozenEntries, List.map_cons, htail]
          · intro e he
            rcases List.mem_cons.mp he with rfl | he
            · exact hfloor
            · exact hsame ▸ hfloors e he

/-- Behind an index longer than a stride, no accepted offset has wrapped. -/
theorem offsets_lt_of_long {cs : List Chunk} (hv : ∀ c ∈ cs, c.Valid K sb) {offset base floor : Nat}
    (hfloor : frozenStride < floor) (hoffset : offset + 7 < 2 ^ 32 + frozenStride)
    (h : ∀ e ∈ (frozenEntries false offset base cs).map FrozenChunkIndex.narrowed,
      floor ≤ e.payloadOffset) :
    ∀ e ∈ frozenEntries false offset base cs, e.payloadOffset < 2 ^ 32 := by
  induction cs generalizing offset base with
  | nil => exact nofun
  | cons c cs ih =>
      rw [frozenEntries, List.map_cons] at h
      obtain ⟨hhead, htail⟩ := List.forall_mem_cons.mp h
      have halign := alignUp_le offset c
      have hstride : frozenStride = 262151 := rfl
      -- a first offset past the wrap is below the stride, and so below the floor
      have hfirst : alignUp offset (frozenPayloadLayout c.slot).1 < 2 ^ 32 := by
        by_contra hge
        change floor ≤ alignUp offset (frozenPayloadLayout c.slot).1 % 256 ^ 4 at hhead
        omega
      have hbytes := payloadBytes_le (hv c List.mem_cons_self)
      have hdomain : lowDomainSize = 65536 := rfl
      refine List.forall_mem_cons.mpr
        ⟨hfirst, ih (fun d hd ↦ hv d (List.mem_cons_of_mem c hd)) ?_ htail⟩
      rw [frozenNext]
      simp only [Bool.false_eq_true, if_false]
      omega

/-- A short table does not reach the wrap at all. -/
theorem offsets_lt_of_short {cs : List Chunk} (hv : ∀ c ∈ cs, c.Valid K sb) {offset base : Nat}
    (hoffset : offset + cs.length * frozenStride < 2 ^ 32) :
    ∀ e ∈ frozenEntries false offset base cs, e.payloadOffset < 2 ^ 32 := by
  induction cs generalizing offset base with
  | nil => exact nofun
  | cons c cs ih =>
      rw [List.length_cons, Nat.succ_mul] at hoffset
      have halign := alignUp_le offset c
      have hstride : frozenStride = 262151 := rfl
      have hnext := frozenNext_le (hv c List.mem_cons_self) offset
      have hfirst : alignUp offset (frozenPayloadLayout c.slot).1 < 2 ^ 32 := by omega
      refine List.forall_mem_cons.mpr ⟨hfirst, ih (fun d hd ↦ hv d (List.mem_cons_of_mem c hd)) ?_⟩
      omega

theorem narrowed_of_lt {e : FrozenChunkIndex} (h : e.payloadOffset < 2 ^ 32) : e.narrowed = e := by
  obtain ⟨chunk, offset, bytes, count, cardinality, kind, base⟩ := e
  exact congrArg (fun o ↦ FrozenChunkIndex.mk chunk o bytes count cardinality kind base)
    (Nat.mod_eq_of_lt h)

/-- Whatever the length of a written image, an index that the loop accepts is the
one that was written. -/
theorem index_of_accepted {cs : List Chunk} (hv : ∀ c ∈ cs, c.Valid K sb) {base : Nat}
    {index : List FrozenChunkIndex}
    (hindex : index =
    (frozenEntries false (frozenHeaderSize + cs.length * frozenIndexEntrySize) base cs).map
      FrozenChunkIndex.narrowed)
    (hfloor : ∀ e ∈ index, frozenHeaderSize + cs.length * frozenIndexEntrySize ≤ e.payloadOffset) :
    index = frozenEntries false (frozenHeaderSize + cs.length * frozenIndexEntrySize) base cs := by
  have hstride : frozenStride = 262151 := rfl
  have hend : frozenHeaderSize + cs.length * frozenIndexEntrySize = 24 + cs.length * 32 := rfl
  have hoffsets :
      ∀ e ∈ frozenEntries false (frozenHeaderSize + cs.length * frozenIndexEntrySize) base cs,
      e.payloadOffset < 2 ^ 32 := by
    by_cases hshort : frozenHeaderSize + cs.length * frozenIndexEntrySize + cs.length *
      frozenStride < 2 ^ 32
    · exact offsets_lt_of_short hv hshort
    · rw [hindex] at hfloor
      rw [hend, hstride] at hshort
      by_cases hwide : 2 ^ 32 ≤ frozenHeaderSize + cs.length * frozenIndexEntrySize
      · -- no offset of 32 bits lies behind such an index
        intro e he
        have hle := hfloor e.narrowed (List.mem_map_of_mem he)
        have hlt : e.narrowed.payloadOffset < 256 ^ 4 := Nat.mod_lt _ (by decide)
        omega
      · exact offsets_lt_of_long hv (by omega) (by omega) hfloor
  rw [hindex]
  conv_rhs => rw [← List.map_id (frozenEntries false _ base cs)]
  exact List.map_congr_left fun e he ↦ narrowed_of_lt (hoffsets e he)

end Narrowed

/-! ## What is accepted is the bitmap -/

/-- The view that opening a written image gives, if it gives one. -/
theorem frozenViewFrom_written {K : KeyType} {sb : Bool} (b : ValidBitmap K sb) {rest : List UInt8}
    {v : FrozenView}
    (h : frozenViewFrom K ((b.bitmap.frozenSerialize K false).1 ++ rest) = .value v) :
    v.header = b.bitmap.frozenHeader K false ∧
      v.index = frozenEntries false b.bitmap.frozenIndexEnd 0 b.bitmap.chunks ∧
      v.data = (b.bitmap.frozenSerialize K false).1 ++ rest := by
  have himage := congrArg Prod.fst (frozenSerialize_eq K false b.bitmap)
  dsimp only at himage
  generalize hbuf : (b.bitmap.frozenSerialize K false).1 ++ rest = buf at h
  rw [himage, List.append_assoc, List.append_assoc] at hbuf
  have hlen : frozenHeaderSize ≤ buf.length := by
    rw [← hbuf, List.length_append, length_frozenHeader]
    omega
  have hvalues : b.bitmap.size < 256 ^ 8 := by
    have hsize := b.valid.size_le
    have hcount := b.countable
    unfold lowDomainSize at hsize
    omega
  have hfits : (b.bitmap.frozenHeader K false).Fits := by
    refine ⟨show frozenSerializationMagic < 256 ^ 4 by decide, ?_, ?_, b.countable, hvalues⟩
    · show K.digits < 256 ^ 2
      cases K <;> decide
    · show frozenFormatVersion < 256 ^ 2
      decide
  have hhead : frozenHeaderOf ((buf.drop 0).take frozenHeaderSize) = b.bitmap.frozenHeader K
      false := by
    rw [List.drop_zero, ← hbuf, List.take_left' (length_frozenHeader _), frozenHeaderOf_bytes hfits]
  have hversion : decide ((b.bitmap.frozenHeader K false).version = frozenRankedFormatVersion) =
      false :=
    rfl
  rw [frozenViewFrom, if_neg (not_lt.mpr hlen), bytesAt_of_le (by rwa [Nat.zero_add]),
    Parsed.value_bind] at h
  dsimp only at h
  rw [hhead, hversion] at h
  split_ifs at h
  obtain ⟨⟨s, index⟩, hscan, hout⟩ := Parsed.bind_eq_value.mp h
  dsimp only at hout
  split_ifs at hout
  cases hout
  obtain ⟨hindex, hfloor⟩ := frozenScanIndex_accepted b.valid.chunks hbuf.symm
    (length_frozenHeader _) hscan
  exact ⟨rfl, index_of_accepted b.valid.chunks hindex hfloor, rfl⟩

/-- No image is accepted as another set, whatever its length: an unranked image in
front of any other bytes, opened as a view, reads as the bitmap it was written
from or is refused. -/
theorem frozen_acceptedImageIsTheBitmap {K : KeyType} {sb : Bool} (b : ValidBitmap K sb)
    (rest : List UInt8) {v : FrozenView}
    (h : frozenViewFrom K ((b.bitmap.frozenSerialize K false).1 ++ rest) = .value v) :
    (∀ x, v.contains x = true ↔ x ∈ b.bitmap.values) ∧
      (∀ first, v.forEachFrom first = b.bitmap.values.filter (first ≤ ·)) ∧
      (v.materialize.Valid K sb ∧ v.materialize.values = b.bitmap.values) ∧
      v.borrowInto.Valid K sb ∧ v.borrowInto.values = b.bitmap.values := by
  obtain ⟨hheader, hindex, hdata⟩ := frozenViewFrom_written b h
  have hentries : List.Forall₂ (EntryOf v.data) v.index b.bitmap.chunks := by
    rw [hindex, hdata, congrArg Prod.fst (frozenSerialize_eq K false b.bitmap)]
    exact entriesOf_frozenEntries b.valid.chunks (List.append_assoc _ _ _)
      (length_frozenFront K false b.bitmap)
  have hcount : v.header.chunkCount = b.bitmap.chunks.length := congrArg _ hheader
  have hvalues : v.header.valueCount = b.bitmap.size := congrArg _ hheader
  obtain ⟨hmat, hmatValues, -⟩ := toBitmap_spec b.valid hentries hcount hvalues
    v.materializeContainer fun e c he hc ↦ materializeContainer_spec hc he
  obtain ⟨hbor, hborValues, -⟩ := toBitmap_spec b.valid hentries hcount hvalues
    (fun e kind ↦ makeBorrowed kind (v.payloadBytes e) e.payloadCount e.cardinality)
    fun e c he hc ↦ makeBorrowed_spec hc he
  exact ⟨contains_iff b.valid hentries hcount, forEachFrom_eq b.valid hentries hcount,
    ⟨hmat, hmatValues⟩, hbor, hborValues⟩

theorem frozen_acceptedImageIsTheBitmap_arrayAndRun :
    ∃ v, frozenViewFrom .u32 ((arrayAndRun.bitmap.frozenSerialize .u32 false).1 ++ []) = .value v ∧
      v.forEachFrom 2 = [5, 65543, 65544, 65545] := by
  have hview : frozenViewFrom .u32 ((arrayAndRun.bitmap.frozenSerialize .u32 false).1 ++ []) =
      .value (arrayAndRun.bitmap.frozenView .u32 false) := by
    rw [List.append_nil]
    exact frozenViewFrom_eq_frozenView arrayAndRun.valid nofun (by decide)
  obtain ⟨-, hforEach, -⟩ := frozen_acceptedImageIsTheBitmap arrayAndRun [] hview
  exact ⟨_, hview, (hforEach 2).trans (by decide)⟩

end Roaring
