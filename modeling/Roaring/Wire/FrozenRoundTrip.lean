import Mathlib
import Roaring.Wire.FrozenSearch
import Roaring.Wire.FrozenAccept

/-!
# The frozen round trip

A view of a written image answers as the bitmap it was written from: lookups,
enumeration from any key, and the two ways of turning it back into a bitmap.
Each reader is compared with the bitmap entry by entry, over the relation
`EntryOf` between the index and the chunks.
-/

namespace Roaring

open Lib

/-! ## One entry -/

section Entry

variable {K : KeyType} {sb : Bool} {v : FrozenView} {e : FrozenChunkIndex} {c : Chunk}

/-- Looking a value up in a payload is membership. -/
theorem entryContains_iff (hc : c.Valid K sb) (he : EntryOf v.data e c) (low : Nat) :
    v.entryContains e low = true ↔ low ∈ c.slot.values := by
  have hwf := hc.slot.payload
  have hkind := he.kind
  have hpayload := he.payload
  rw [ContainerHandle.values, FrozenView.entryContains, hkind, FrozenView.payloadBytes]
  rw [frozenBody] at hpayload ⊢
  cases hp : c.slot.payload with
  | array values =>
      rw [hp] at hpayload hwf
      injection hpayload with hunits
      cases hwf with
      | array ascending _ =>
          dsimp only
          rw [hunits]
          exact arrayContainsPayload_iff ascending low
  | run runs =>
      rw [hp] at hpayload hwf
      injection hpayload with hruns
      cases hwf with
      | run canonical =>
          dsimp only
          rw [hruns]
          exact runContainsPayload_iff canonical low
  | bitset words =>
      rw [hp] at hpayload
      injection hpayload with hwords
      dsimp only
      rw [hwords]
      exact Words.mem_values.symm

/-- A borrowed handle has the payload and the count of the container written. -/
theorem makeBorrowed_spec (hc : c.Valid K sb) (he : EntryOf v.data e c) :
    let h := makeBorrowed (frozenBody c.slot).kind (v.payloadBytes e) e.payloadCount e.cardinality
    h.payload = c.slot.payload ∧ h.cardinality = c.slot.cardinality ∧ h.Valid := by
  have hwf := hc.slot.payload
  have hcard := hc.slot.cardinality
  have hpayload : frozenPayload (frozenBody c.slot).kind e.payloadCount (v.payloadBytes e) =
    c.slot.payload := he.payload
  rw [ContainerHandle.values] at hcard
  rw [makeBorrowed, hpayload, he.cardinality]
  cases hp : c.slot.payload with
  | array values =>
      rw [hp] at hcard hwf
      cases hwf with
      | array ascending bounded =>
          refine ⟨rfl, rfl, ?_⟩
          rw [hcard]
          exact ContainerHandle.syncHeader_valid ascending bounded
  | run runs =>
      rw [hp] at hcard hwf
      cases hwf with
      | run canonical =>
          refine ⟨rfl, rfl, ?_⟩
          exact ContainerHandle.makeRunFrom_valid canonical
            (hcard.trans canonical.length_values).symm
  | bitset words =>
      rw [hp] at hcard
      refine ⟨rfl, rfl, ?_⟩
      exact ContainerHandle.makeBitsetFrom_valid (words.count_eq_length_values.trans hcard.symm)

/-- A word block copied by its stored byte count is the block. -/
theorem wordsOfBytes_take (bs : List UInt8) :
    wordsOfBytes (bs.take (wordCount * 8)) = wordsOfBytes bs := by
  apply Words.ext_word
  intro i hi
  rw [wordsOfBytes, wordsOfBytes, Words.word_ofFn _ hi, Words.word_ofFn _ hi, List.drop_take,
    List.take_take, Nat.min_eq_left (by omega)]

/-- The copied container has the payload and the count of the container written. -/
theorem materializeContainer_spec (hc : c.Valid K sb) (he : EntryOf v.data e c) :
    let h := v.materializeContainer e (frozenBody c.slot).kind
    h.payload = c.slot.payload ∧ h.cardinality = c.slot.cardinality ∧ h.Valid := by
  have hwf := hc.slot.payload
  have hcard := hc.slot.cardinality
  have hpayload : frozenPayload (frozenBody c.slot).kind e.payloadCount (v.payloadBytes e) =
    c.slot.payload := he.payload
  have hbytes := he.bytes
  rw [ContainerHandle.values] at hcard
  rw [frozenPayloadLayout, ContainerHandle.kind] at hbytes
  rw [frozenBody] at hpayload ⊢
  cases hp : c.slot.payload with
  | array values =>
      rw [hp] at hcard hwf hpayload
      injection hpayload with hunits
      cases hwf with
      | array ascending bounded =>
          dsimp only [FrozenView.materializeContainer]
          rw [hunits]
          exact ⟨rfl, hcard.symm, ContainerHandle.syncHeader_valid ascending bounded⟩
  | run runs =>
      rw [hp] at hcard hwf hpayload
      injection hpayload with hruns
      cases hwf with
      | run canonical =>
          dsimp only [FrozenView.materializeContainer]
          rw [hruns, he.cardinality]
          exact ⟨rfl, rfl, ContainerHandle.makeRunFrom_valid canonical
            (hcard.trans canonical.length_values).symm⟩
  | bitset words =>
      rw [hp] at hcard hpayload hbytes
      injection hpayload with hwords
      dsimp only [Payload.kind] at hbytes
      dsimp only [FrozenView.materializeContainer]
      rw [hbytes, wordsOfBytes_take, hwords, he.cardinality]
      exact ⟨rfl, rfl, ContainerHandle.makeBitsetFrom_valid
        (words.count_eq_length_values.trans hcard.symm)⟩

theorem containerForEach_eq (h : ContainerHandle) : containerForEach h = h.values := by
  rw [containerForEach, ContainerHandle.values]
  cases h.payload with
  | array values => rfl
  | run runs => rfl
  | bitset words =>
      dsimp only
      rw [Payload.values, ← words.flatMap_extractSetBits]
      simp only [mul_comm]

/-- The keys emitted for one entry are those of its values from the start on. -/
theorem entryForEachFrom_eq (hc : c.Valid K sb) (he : EntryOf v.data e c) {fromLow : Nat}
    (hfrom : fromLow < lowDomainSize) :
    v.entryForEachFrom e fromLow = (c.slot.values.filter (fromLow ≤ ·)).map (compose c.key) := by
  rw [FrozenView.entryForEachFrom, he.kind, he.chunk]
  dsimp only
  split
  · -- a bitset begins at the word of the start
    rename_i hcond
    have hpayload := he.payload
    rw [hcond.2] at hpayload
    rw [ContainerHandle.values, ← hpayload]
    rw [frozenPayload, Payload.values, FrozenView.payloadBytes, Words.values_filter_le _ hfrom]
    simp only [extractSetBits_eq, mul_comm]
  · obtain ⟨hpayload, -, -⟩ := makeBorrowed_spec hc he
    rw [containerForEach_eq, ContainerHandle.values, hpayload]
    rfl

end Entry

/-! ## Lookups -/

section Readers

variable {K : KeyType} {sb : Bool} {v : FrozenView}

/-- The lookup over the part of the index that is left. -/
theorem contains_index {index : List FrozenChunkIndex} {chunks : List Chunk}
    (h : List.Forall₂ (EntryOf v.data) index chunks) (hv : ∀ c ∈ chunks, c.Valid K sb)
    (hasc : chunks.Pairwise fun c d ↦ c.key < d.key) (x : Nat) :
    (index[lowerBoundEntry index (chunkKey x)]?.any fun e ↦
      decide (e.chunk = chunkKey x) && v.entryContains e (lowKey x)) = true ↔
      x ∈ chunks.flatMap Chunk.values := by
  induction h with
  | nil => simp
  | @cons e c es cs he _ ih =>
      have hc := hv c List.mem_cons_self
      have hrest := ih (fun d hd ↦ hv d (List.mem_cons_of_mem c hd)) hasc.of_cons
      have hkey : x ∈ c.values → chunkKey x = c.key := fun hx ↦ (hc.chunkKey_of_mem hx).1
      rw [List.flatMap_cons, List.mem_append, lowerBoundEntry, List.findIdx_cons]
      by_cases hle : chunkKey x ≤ e.chunk
      · -- this entry is the first one not below the key
        rw [decide_eq_true hle, cond_true, List.getElem?_cons_zero, Option.any_some,
          Bool.and_eq_true, decide_eq_true_eq, entryContains_iff hc he]
        have htail : x ∈ cs.flatMap Chunk.values → c.key < chunkKey x := by
          intro hx
          obtain ⟨d, hd, hx⟩ := List.mem_flatMap.mp hx
          rw [((hv d (List.mem_cons_of_mem c hd)).chunkKey_of_mem hx).1]
          exact List.rel_of_pairwise_cons hasc hd
        rw [he.chunk] at hle ⊢
        constructor
        · rintro ⟨hchunk, hlow⟩
          left
          rw [Chunk.values, List.mem_map]
          refine ⟨lowKey x, hlow, ?_⟩
          rw [hchunk, compose_chunkKey_lowKey]
        · rintro (hx | hx)
          · exact ⟨(hkey hx).symm, (hc.chunkKey_of_mem hx).2⟩
          · exact absurd hle (Nat.not_le_of_lt (htail hx))
      · rw [decide_eq_false hle, cond_false, List.getElem?_cons_succ]
        refine hrest.trans ⟨Or.inr, Or.rec (fun hx ↦ ?_) id⟩
        rw [he.chunk, hkey hx] at hle
        exact absurd le_rfl hle

/-- `contains` is membership. -/
theorem contains_iff {b : Bitmap} (hb : b.Valid K sb)
    (hindex : List.Forall₂ (EntryOf v.data) v.index b.chunks)
    (hcount : v.header.chunkCount = b.chunks.length) (x : Nat) :
    v.contains x = true ↔ x ∈ b.values := by
  rw [FrozenView.contains, Bitmap.values, ← contains_index hindex hb.chunks hb.ascending x]
  split
  · rename_i hzero
    rw [hcount] at hzero
    have hnil : v.index = [] := List.length_eq_zero_iff.mp (hindex.length_eq.trans hzero)
    rw [hnil]
    simp
  · dsimp only
    cases v.index[lowerBoundEntry v.index (chunkKey x)]? with
    | none => simp
    | some e =>
        by_cases heq : e.chunk = chunkKey x
        · simp [heq]
        · simp [heq]

/-! ## Enumeration -/

/-- The entries from the chunk of `first` on emit the keys from `first` on. -/
theorem forEachFrom_tail {first : Nat} {index : List FrozenChunkIndex} {chunks : List Chunk}
    (h : List.Forall₂ (EntryOf v.data) index chunks) (hv : ∀ c ∈ chunks, c.Valid K sb)
    (hfrom : ∀ c ∈ chunks, chunkKey first ≤ c.key) :
    (index.flatMap fun e ↦
        v.entryForEachFrom e (if e.chunk = chunkKey first then lowKey first else 0)) =
      (chunks.flatMap Chunk.values).filter (first ≤ ·) := by
  induction h with
  | nil => rfl
  | @cons e c es cs he _ ih =>
      have hc := hv c List.mem_cons_self
      have hle := hfrom c List.mem_cons_self
      have hrest := ih (fun d hd ↦ hv d (List.mem_cons_of_mem c hd))
        (fun d hd ↦ hfrom d (List.mem_cons_of_mem c hd))
      have hlow : (if e.chunk = chunkKey first then lowKey first else 0) < lowDomainSize := by
        split
        · exact lowKey_lt first
        · decide
      rw [List.flatMap_cons, List.flatMap_cons, List.filter_append, hrest,
        entryForEachFrom_eq hc he hlow, Chunk.values, List.filter_map]
      congr 2
      apply List.filter_congr
      intro u hu
      have hult := hc.slot.values_lt u hu
      have hsplit : chunkKey first * lowDomainSize + lowKey first = first :=
        compose_chunkKey_lowKey first
      apply decide_eq_decide.mpr
      rw [he.chunk]
      show _ ≤ u ↔ first ≤ c.key * lowDomainSize + u
      split
      · rename_i heq
        rw [heq]
        omega
      · rename_i hne
        have hlt : chunkKey first + 1 ≤ c.key := by omega
        have hmul := Nat.mul_le_mul_right lowDomainSize hlt
        have hlowlt := lowKey_lt first
        rw [Nat.add_mul, Nat.one_mul] at hmul
        omega

theorem forEachFrom_index {first : Nat} {index : List FrozenChunkIndex} {chunks : List Chunk}
    (h : List.Forall₂ (EntryOf v.data) index chunks) (hv : ∀ c ∈ chunks, c.Valid K sb)
    (hasc : chunks.Pairwise fun c d ↦ c.key < d.key) :
    ((index.drop (lowerBoundEntry index (chunkKey first))).flatMap fun e ↦
        v.entryForEachFrom e (if e.chunk = chunkKey first then lowKey first else 0)) =
      (chunks.flatMap Chunk.values).filter (first ≤ ·) := by
  induction h with
  | nil => rfl
  | @cons e c es cs he hes ih =>
      have hc := hv c List.mem_cons_self
      rw [lowerBoundEntry, List.findIdx_cons]
      by_cases hle : chunkKey first ≤ e.chunk
      · rw [decide_eq_true hle, cond_true, List.drop_zero]
        apply forEachFrom_tail (.cons he hes) hv
        rw [he.chunk] at hle
        rintro d (_ | ⟨_, hd⟩)
        · exact hle
        · exact hle.trans (List.rel_of_pairwise_cons hasc hd).le
      · rw [decide_eq_false hle, cond_false, List.drop_succ_cons]
        refine (ih (fun d hd ↦ hv d (List.mem_cons_of_mem c hd)) hasc.of_cons).trans ?_
        have hbelow : c.values.filter (first ≤ ·) = [] := by
          rw [List.filter_eq_nil_iff]
          intro y hy
          obtain ⟨hchunk, -⟩ := hc.chunkKey_of_mem hy
          rw [he.chunk, ← hchunk] at hle
          rw [decide_eq_true_eq, Nat.not_le]
          exact Nat.lt_of_div_lt_div (Nat.lt_of_not_le hle)
        rw [List.flatMap_cons, List.filter_append, hbelow, List.nil_append]

/-- `for_each_from` visits exactly the keys from `first` on, in ascending order. -/
theorem forEachFrom_eq {b : Bitmap} (hb : b.Valid K sb)
    (hindex : List.Forall₂ (EntryOf v.data) v.index b.chunks)
    (hcount : v.header.chunkCount = b.chunks.length) (first : Nat) :
    v.forEachFrom first = b.values.filter (first ≤ ·) := by
  rw [FrozenView.forEachFrom]
  split
  · rename_i hzero
    rw [hcount] at hzero
    rw [Bitmap.values, List.length_eq_zero_iff.mp hzero]
    rfl
  · exact forEachFrom_index hindex hb.chunks hb.ascending

/-! ## Bitmaps of a view -/

/-- A bitmap with the keys, payloads and counts of a valid one is valid and holds the same keys. -/
theorem valid_of_samePayloads {chunks : List Chunk} {b : Bitmap} (hb : b.Valid K sb)
    (h : List.Forall₂ (fun c d ↦ c.key = d.key ∧ c.slot.payload = d.slot.payload ∧
      c.slot.cardinality = d.slot.cardinality ∧ c.slot.Valid) chunks b.chunks) :
    Bitmap.Valid K sb ⟨chunks, b.size⟩ ∧ Bitmap.values ⟨chunks, b.size⟩ = b.values := by
  obtain ⟨bchunks, size⟩ := b
  have hkeys : chunks.map Chunk.key = bchunks.map Chunk.key := by
    rw [← List.forall₂_eq_eq_eq, List.forall₂_map_left_iff, List.forall₂_map_right_iff]
    exact h.imp fun _ _ hcd ↦ hcd.1
  have hcards : chunks.map (fun c ↦ c.slot.cardinality) = bchunks.map fun c ↦
      c.slot.cardinality := by
    rw [← List.forall₂_eq_eq_eq, List.forall₂_map_left_iff, List.forall₂_map_right_iff]
    exact h.imp fun _ _ hcd ↦ hcd.2.2.1
  have hvalues : chunks.map Chunk.values = bchunks.map Chunk.values := by
    rw [← List.forall₂_eq_eq_eq, List.forall₂_map_left_iff, List.forall₂_map_right_iff]
    refine h.imp fun c d hcd ↦ ?_
    rw [Chunk.values, Chunk.values, ContainerHandle.values, ContainerHandle.values, hcd.1, hcd.2.1]
  refine ⟨⟨?_, ?_, ?_⟩, ?_⟩
  · have hasc := List.pairwise_map.mpr hb.ascending
    rw [← hkeys] at hasc
    exact List.pairwise_map.mp hasc
  · intro c hc
    obtain ⟨i, hi, rfl⟩ := List.getElem_of_mem hc
    have hj : i < bchunks.length := h.length_eq ▸ hi
    obtain ⟨hkey, hpayload, -, hvalid⟩ := h.get hi hj
    have hd := hb.chunks _ (List.getElem_mem hj)
    refine ⟨?_, hvalid, ?_, ?_⟩
    · exact hkey ▸ hd.key_lt
    · have hne := hd.nonempty
      rw [ContainerHandle.values] at hne ⊢
      exact hpayload ▸ hne
    · exact fun hsb values hv ↦ hd.limit hsb values (hpayload ▸ hv)
  · show size = _
    rw [hcards]
    exact hb.size
  · rw [Bitmap.values, Bitmap.values, List.flatMap_def, List.flatMap_def, hvalues]

/-- The chunks made of the entries of an index, each with the payload of its chunk. -/
theorem samePayloads_filterMap {slot : FrozenChunkIndex → FrozenContainerKind → ContainerHandle}
    (hslot : ∀ e c, EntryOf v.data e c → c.Valid K sb →
      (slot e (frozenBody c.slot).kind).payload = c.slot.payload ∧
      (slot e (frozenBody c.slot).kind).cardinality = c.slot.cardinality ∧
      (slot e (frozenBody c.slot).kind).Valid)
    {index : List FrozenChunkIndex} {chunks : List Chunk}
    (h : List.Forall₂ (EntryOf v.data) index chunks) (hv : ∀ c ∈ chunks, c.Valid K sb) :
    List.Forall₂ (fun c d ↦ c.key = d.key ∧ c.slot.payload = d.slot.payload ∧
        c.slot.cardinality = d.slot.cardinality ∧ c.slot.Valid)
      (index.filterMap fun e ↦ (frozenContainerKindOf e.containerKind).map fun kind ↦
        (⟨e.chunk, slot e kind⟩ : Chunk)) chunks := by
  induction h with
  | nil => exact .nil
  | @cons e c es cs he _ ih =>
      obtain ⟨hpayload, hcard, hvalid⟩ := hslot e c he (hv c List.mem_cons_self)
      rw [List.filterMap_cons, he.kind, Option.map_some]
      exact .cons ⟨he.chunk, hpayload, hcard, hvalid⟩
        (ih fun d hd ↦ hv d (List.mem_cons_of_mem c hd))

/-- A bitmap made entry by entry, each with the payload of its chunk. -/
theorem toBitmap_spec {b : Bitmap} (hb : b.Valid K sb)
    (hindex : List.Forall₂ (EntryOf v.data) v.index b.chunks)
    (hcount : v.header.chunkCount = b.chunks.length) (hsize : v.header.valueCount = b.size)
    (slot : FrozenChunkIndex → FrozenContainerKind → ContainerHandle)
    (hslot : ∀ e c, EntryOf v.data e c → c.Valid K sb →
      (slot e (frozenBody c.slot).kind).payload = c.slot.payload ∧
      (slot e (frozenBody c.slot).kind).cardinality = c.slot.cardinality ∧
      (slot e (frozenBody c.slot).kind).Valid) :
    (v.toBitmap slot).Valid K sb ∧ (v.toBitmap slot).values = b.values ∧
      (v.toBitmap slot).size = b.size := by
  rw [FrozenView.toBitmap]
  split
  · rename_i hzero
    rw [hcount] at hzero
    have hnil := List.length_eq_zero_iff.mp hzero
    have hsize0 := hb.size
    rw [hnil] at hsize0
    refine ⟨⟨List.Pairwise.nil, nofun, rfl⟩, ?_, hsize0.symm⟩
    rw [Bitmap.values, Bitmap.values, hnil]
    rfl
  · rw [hsize]
    obtain ⟨hvalid, hvalues⟩ :=
      valid_of_samePayloads hb (samePayloads_filterMap hslot hindex hb.chunks)
    exact ⟨hvalid, hvalues, rfl⟩

end Readers

/-! ## The round trip -/

/-- The frozen round trip.  The image of a valid bitmap, ranked or not, takes the
computed bytes, is accepted, and its view has the bitmap's keys in every way it
can be read. -/
theorem frozen_roundTrip {K : KeyType} {sb : Bool} (b : ValidBitmap K sb) (ranked : Bool)
    (hranked : ranked = true → RankedAllowed K b.bitmap)
    (hsize : b.bitmap.frozenSizeBytes ranked < 2 ^ 32) :
    (b.bitmap.frozenSerialize K ranked).1.length = b.bitmap.frozenSizeBytes ranked ∧
    (b.bitmap.frozenSerialize K ranked).2 = b.bitmap.frozenSizeBytes ranked ∧
    ∃ v, frozenViewFrom K (b.bitmap.frozenSerialize K ranked).1 = .value v ∧
      v.bytes = b.bitmap.frozenSizeBytes ranked ∧
      (∀ x, v.contains x = true ↔ x ∈ b.bitmap.values) ∧
      (∀ first, v.forEachFrom first = b.bitmap.values.filter (first ≤ ·)) ∧
      (v.materialize.Valid K sb ∧ v.materialize.validate sb = none ∧
        v.materialize.values = b.bitmap.values ∧ v.materialize.size = b.bitmap.size) ∧
      v.borrowInto.Valid K sb ∧ v.borrowInto.validate sb = none ∧
        v.borrowInto.values = b.bitmap.values ∧ v.borrowInto.size = b.bitmap.size := by
  obtain ⟨hlen, hwritten⟩ := length_frozenSerialize K ranked b.bitmap
  obtain ⟨v, hview, hbytes, hcount, hvalues, hindex⟩ :=
    frozenViewFrom_frozenSerialize b.valid hranked hsize
  obtain ⟨hmat, hmatValues, hmatSize⟩ := toBitmap_spec b.valid hindex hcount hvalues
    v.materializeContainer fun e c he hc ↦ materializeContainer_spec hc he
  obtain ⟨hbor, hborValues, hborSize⟩ := toBitmap_spec b.valid hindex hcount hvalues
    (fun e kind ↦ makeBorrowed kind (v.payloadBytes e) e.payloadCount e.cardinality)
    fun e c he hc ↦ makeBorrowed_spec hc he
  refine ⟨hlen, hwritten, v, hview, hbytes, ?_, ?_, ?_, ?_⟩
  · exact contains_iff b.valid hindex hcount
  · exact forEachFrom_eq b.valid hindex hcount
  · exact ⟨hmat, hmat.validate_eq_none, hmatValues, hmatSize⟩
  · exact ⟨hbor, hbor.validate_eq_none, hborValues, hborSize⟩

/-- An array in chunk 0 and a run in chunk 1. -/
def arrayAndRun : ValidBitmap .u32 true where
  bitmap := ⟨[⟨0, .syncHeader [1, 5]⟩, ⟨1, .makeRunFrom [⟨7, 9⟩] 3⟩], 5⟩
  valid := by
    have harray : (ContainerHandle.syncHeader [1, 5]).Valid :=
      ContainerHandle.syncHeader_valid (by decide) (by decide)
    have hrun : (ContainerHandle.makeRunFrom [⟨7, 9⟩] 3).Valid :=
      ContainerHandle.makeRunFrom_valid ⟨by simp, by simp, by simp [lowDomainSize]⟩ rfl
    refine ⟨by simp, ?_, rfl⟩
    rintro _ (_ | ⟨_, _ | ⟨_, ⟨⟩⟩⟩)
    · exact ⟨by decide, harray, by decide, fun _ values hv ↦ by cases hv; decide⟩
    · exact ⟨by decide, hrun, by decide, nofun⟩
  countable := by decide

theorem frozen_roundTrip_arrayAndRun :
    ∃ v, frozenViewFrom .u32 (arrayAndRun.bitmap.frozenSerialize .u32 true).1 = .value v ∧
      v.contains 65544 = true ∧ v.forEachFrom 2 = [5, 65543, 65544, 65545] := by
  obtain ⟨-, -, v, hview, -, hcontains, hforEach, -⟩ :=
    frozen_roundTrip arrayAndRun true (fun _ ↦ ⟨by decide, by decide⟩) (by decide)
  exact ⟨v, hview, (hcontains 65544).mpr (by decide), (hforEach 2).trans (by decide)⟩

end Roaring
