import Mathlib
import Roaring.Wire.PortableReader

/-!
# What the portable reader returns

A legal image, cut from bytes, has a table that is a valid bitmap and holds the
keys the image denotes.  With the equation of `PortableReader` this makes
`portableDeserialize` a safe validator: it never reads outside its input, it
refuses every illegal image, and what it returns is the bitmap of a legal one.
-/

namespace Roaring

open Lib

/-! ## Bounds that the field widths give -/

/-- What holds of a chunk cut from bytes, legal or not. -/
structure WireChunk.Bounded (c : WireChunk) : Prop where
  key_lt : c.key < 65536
  cardinality_pos : 0 < c.cardinality
  array : ∀ values, c.container = .array values →
    (∀ v ∈ values, v < lowDomainSize) ∧ values.length ≤ arrayToBitsetThreshold

structure WireBucket.Bounded (K : KeyType) (b : WireBucket) : Prop where
  high : ∀ key < 65536, b.high * 65536 + key < K.chunkDomainSize
  chunks : ∀ c ∈ b.chunks, c.Bounded

theorem bounded_of_decodeContainer {isRun : Bool} {cardinality : Nat} {bs rest : List UInt8}
    {c : WireContainer} (h : decodeContainer isRun cardinality bs = some (c, rest)) :
    ∀ values, c = .array values →
      (∀ v ∈ values, v < lowDomainSize) ∧ values.length ≤ arrayToBitsetThreshold := by
  rintro values rfl
  rw [decodeContainer] at h
  split at h
  · obtain ⟨⟨n, bs₁⟩, -, h⟩ := Option.bind_eq_some_iff.mp h
    obtain ⟨⟨payload, bs₂⟩, -, h⟩ := Option.map_eq_some_iff.mp h
    cases h
  · split at h
    · obtain ⟨⟨payload, bs₁⟩, -, h⟩ := Option.map_eq_some_iff.mp h
      cases h
    · rename_i hsmall
      obtain ⟨⟨payload, bs₁⟩, -, h⟩ := Option.map_eq_some_iff.mp h
      cases h
      refine ⟨fun v hv ↦ units_lt 2 _ _ v hv, ?_⟩
      rw [length_units]
      exact Nat.le_of_not_gt hsmall

theorem bounded_of_decodeChunks {flags : Option (List UInt8)} {descriptive bs rest : List UInt8}
    {remaining k : Nat} {cs : List WireChunk}
    (h : decodeChunks flags descriptive remaining k bs = some (cs, rest)) :
    ∀ c ∈ cs, c.Bounded := by
  induction remaining generalizing k bs cs with
  | zero =>
      cases h
      exact fun c hc ↦ absurd hc List.not_mem_nil
  | succ remaining ih =>
      rw [decodeChunks] at h
      obtain ⟨⟨c, bs₁⟩, h₁, h⟩ := Option.bind_eq_some_iff.mp h
      obtain ⟨⟨ds, bs₂⟩, h₂, h⟩ := Option.map_eq_some_iff.mp h
      cases h
      exact List.forall_mem_cons.mpr
        ⟨⟨leValue_take_lt 2 _, Nat.succ_pos _, bounded_of_decodeContainer h₁⟩, ih h₂⟩

theorem bounded_of_decode32 {bs rest : List UInt8} {cs : List WireChunk}
    (h : decode32 bs = some (cs, rest)) : ∀ c ∈ cs, c.Bounded := by
  rw [decode32] at h
  obtain ⟨⟨hasRun, count, bs₁⟩, -, h⟩ := Option.bind_eq_some_iff.mp h
  obtain ⟨⟨flags, bs₂⟩, -, h⟩ := Option.bind_eq_some_iff.mp h
  obtain ⟨⟨descriptive, bs₃⟩, -, h⟩ := Option.bind_eq_some_iff.mp h
  obtain ⟨⟨offsets, bs₄⟩, -, h⟩ := Option.bind_eq_some_iff.mp h
  exact bounded_of_decodeChunks h

theorem bounded_of_decodeBuckets {n : Nat} {bs rest : List UInt8} {buckets : List WireBucket}
    (h : decodeBuckets n bs = some (buckets, rest)) : ∀ b ∈ buckets, b.Bounded .u64 := by
  induction n generalizing bs buckets with
  | zero =>
      cases h
      exact fun b hb ↦ absurd hb List.not_mem_nil
  | succ n ih =>
      rw [decodeBuckets] at h
      obtain ⟨⟨high, bs₁⟩, h₁, h⟩ := Option.bind_eq_some_iff.mp h
      obtain ⟨⟨chunks, bs₂⟩, h₂, h⟩ := Option.bind_eq_some_iff.mp h
      obtain ⟨⟨ds, bs₃⟩, h₃, h⟩ := Option.map_eq_some_iff.mp h
      cases h
      refine List.forall_mem_cons.mpr ⟨⟨fun key hkey ↦ ?_, bounded_of_decode32 h₂⟩, ih h₃⟩
      rw [takeBytes] at h₁
      split at h₁
      · cases h₁
        have hlt : leValue (bs.take 4) < 256 ^ 4 := leValue_take_lt 4 bs
        show leValue (bs.take 4) * 65536 + key < 2 ^ (64 - 16)
        omega
      · cases h₁

theorem bounded_of_decodePortable {K : KeyType} (hK : 32 ≤ K.digits) {buf : List UInt8}
    {buckets : List WireBucket} (h : decodePortable K buf = some buckets) :
    ∀ b ∈ buckets, b.Bounded K := by
  cases K with
  | u16 => simp [KeyType.digits] at hK
  | u32 =>
      obtain ⟨⟨cs, rest⟩, h₁, h⟩ := Option.map_eq_some_iff.mp h
      cases h
      rintro b (_ | ⟨_, ⟨⟩⟩)
      refine ⟨fun key hkey ↦ ?_, bounded_of_decode32 h₁⟩
      show 0 * 65536 + key < 2 ^ (32 - 16)
      omega
  | u64 =>
      obtain ⟨⟨n, bs₁⟩, -, h⟩ := Option.bind_eq_some_iff.mp h
      dsimp only at h
      split at h
      · obtain ⟨⟨bs, rest⟩, h₁, h⟩ := Option.map_eq_some_iff.mp h
        cases h
        exact bounded_of_decodeBuckets h₁
      · cases h

/-! ## Coalesced runs -/

/-- Putting one stored run behind canonical ones that all end below it. -/
theorem coalesceRun_spec {dst : List Run} (h : Canonical dst.reverse) {r : Nat × Nat}
    (hlt : r.1 + r.2 < lowDomainSize) (hafter : ∀ d ∈ dst, d.last < r.1) :
    Canonical (coalesceRun dst r).reverse ∧
      runValues (coalesceRun dst r).reverse =
        runValues dst.reverse ++ List.range' r.1 (r.2 + 1) ∧
      ∀ d ∈ coalesceRun dst r, d.last ≤ r.1 + r.2 := by
  have hone : (⟨r.1, r.1 + r.2⟩ : Run).values = List.range' r.1 (r.2 + 1) := by
    rw [Run.values]
    congr 1
    show r.1 + r.2 + 1 - r.1 = r.2 + 1
    omega
  cases dst with
  | nil =>
      refine ⟨Canonical.append_singleton_iff.mpr
        ⟨Canonical.nil, Nat.le_add_right _ _, hlt, by simp⟩,
        ?_, by simp [coalesceRun]⟩
      simpa [coalesceRun] using hone
  | cons d ds =>
      rw [List.reverse_cons] at h
      obtain ⟨hds, hdle, hdlt, hap⟩ := Canonical.append_singleton_iff.mp h
      have hd : d.last < r.1 := hafter d List.mem_cons_self
      rw [coalesceRun]
      split
      · rename_i hadj
        refine ⟨?_, ?_, List.forall_mem_cons.mpr ⟨le_rfl, fun e he ↦ ?_⟩⟩
        · rw [List.reverse_cons]
          refine Canonical.append_singleton_iff.mpr ⟨hds, ?_, hlt, hap⟩
          show d.first ≤ r.1 + r.2
          omega
        · simp only [List.reverse_cons, runValues_append, runValues_cons, runValues_nil,
            List.append_nil, List.append_assoc]
          congr 1
          rw [Run.values, Run.values]
          have h1 : r.1 = d.first + (d.last + 1 - d.first) := by omega
          have h2 : r.1 + r.2 + 1 - d.first = d.last + 1 - d.first + (r.2 + 1) := by omega
          rw [h2, ← List.range'_append_1, ← h1]
        · have := hafter e (List.mem_cons_of_mem d he)
          omega
      · rename_i hgap
        refine ⟨?_, ?_, List.forall_mem_cons.mpr ⟨le_rfl, fun e he ↦ ?_⟩⟩
        · rw [List.reverse_cons, List.reverse_cons]
          refine Canonical.append_singleton_iff.mpr ⟨h, Nat.le_add_right _ _, hlt, fun s hs ↦ ?_⟩
          rcases List.mem_append.mp hs with hs | hs
          · have := hap s hs
            show s.last + 1 < r.1
            omega
          · rw [List.mem_singleton.mp hs]
            show d.last + 1 < r.1
            omega
        · rw [List.reverse_cons, runValues_append, runValues_cons, runValues_nil, List.append_nil,
            hone]
        · have := hafter e he
          omega

theorem foldl_coalesceRun_spec {dst : List Run} (h : Canonical dst.reverse)
    {rs : List (Nat × Nat)} (hord : WireRunsOrdered rs)
    (hafter : ∀ d ∈ dst, ∀ r ∈ rs, d.last < r.1) :
    Canonical (rs.foldl coalesceRun dst).reverse ∧
      runValues (rs.foldl coalesceRun dst).reverse =
        runValues dst.reverse ++ (WireContainer.run rs).values := by
  induction rs generalizing dst with
  | nil => exact ⟨h, by simp [WireContainer.values]⟩
  | cons r rs ih =>
      have hlt : r.1 + r.2 < lowDomainSize :=
        Nat.lt_succ_of_le (hord.bounded r List.mem_cons_self)
      obtain ⟨hap, hasc⟩ := List.pairwise_cons.mp hord.ascending
      obtain ⟨hc, hv, hlast⟩ := coalesceRun_spec h hlt fun d hd ↦ hafter d hd r List.mem_cons_self
      have hrest := ih hc ⟨fun s hs ↦ hord.bounded s (List.mem_cons_of_mem r hs), hasc⟩
        fun d hd s hs ↦ (hlast d hd).trans_lt (hap s hs)
      refine ⟨hrest.1, hrest.2.trans ?_⟩
      rw [hv, List.append_assoc]
      rfl

/-- Coalescing legal runs gives canonical ones that hold the same values. -/
theorem coalesceRuns_spec {rs : List (Nat × Nat)} (hord : WireRunsOrdered rs) :
    Canonical (coalesceRuns rs) ∧ runValues (coalesceRuns rs) = (WireContainer.run rs).values :=
  @foldl_coalesceRun_spec [] Canonical.nil rs hord fun _ hd ↦ absurd hd List.not_mem_nil

/-! ## The bitmap of a legal image -/

namespace WireChunk

variable {c : WireChunk}

theorem toHandle_spec (hwf : c.WellFormed) (hb : c.Bounded) :
    (c.container.toHandle c.cardinality).Valid ∧
      (c.container.toHandle c.cardinality).values = c.container.values ∧
      (c.container.toHandle c.cardinality).cardinality = c.cardinality := by
  have hcard := hwf.cardinality
  have hlegal := hwf.container
  cases hc : c.container with
  | array values =>
      rw [hc] at hcard hlegal
      exact ⟨ContainerHandle.syncHeader_valid hlegal (hb.array values hc).1, rfl, hcard⟩
  | bitset words =>
      rw [hc] at hcard
      refine ⟨ContainerHandle.makeBitsetFrom_valid ?_, rfl, rfl⟩
      rw [words.count_eq_length_values]
      exact hcard
  | run runs =>
      rw [hc] at hcard hlegal
      obtain ⟨hcanon, hvalues⟩ := coalesceRuns_spec hlegal.2
      refine ⟨ContainerHandle.makeRunFrom_valid hcanon ?_, hvalues, rfl⟩
      rw [← hcanon.length_values, hvalues]
      exact hcard

theorem toChunk_valid {K : KeyType} {sb : Bool} {high : Nat} (hwf : c.WellFormed)
    (hb : c.Bounded) (hkey : high * 65536 + c.key < K.chunkDomainSize) :
    (c.toChunk high).Valid K sb := by
  obtain ⟨hvalid, hvalues, -⟩ := toHandle_spec hwf hb
  refine ⟨hkey, hvalid, ?_, fun _ values hp ↦ ?_⟩
  · show (c.container.toHandle c.cardinality).values ≠ []
    rw [hvalues]
    refine List.length_pos_iff.mp ?_
    rw [hwf.cardinality]
    exact hb.cardinality_pos
  · have hp : (c.container.toHandle c.cardinality).payload = .array values := hp
    cases hc : c.container with
    | array vs =>
        rw [hc] at hp
        cases hp
        exact (hb.array values hc).2
    | bitset words =>
        rw [hc] at hp
        cases hp
    | run runs =>
        rw [hc] at hp
        cases hp

end WireChunk

theorem WireWellFormed.tail {b : WireBucket} {bs : List WireBucket} (h : WireWellFormed (b :: bs)) :
    WireWellFormed bs :=
  ⟨h.highs.of_cons, fun c hc ↦ h.keys c (List.mem_cons_of_mem b hc),
    fun c hc ↦ h.chunks c (List.mem_cons_of_mem b hc)⟩

theorem wireToBitmap_ascending {buckets : List WireBucket} {K : KeyType}
    (hwf : WireWellFormed buckets) (hb : ∀ b ∈ buckets, b.Bounded K) :
    (wireToBitmap buckets).chunks.Pairwise fun c d ↦ c.key < d.key := by
  induction buckets with
  | nil => exact List.Pairwise.nil
  | cons b bs ih =>
      have hrest := ih hwf.tail fun c hc ↦ hb c (List.mem_cons_of_mem b hc)
      refine List.pairwise_append.mpr ⟨?_, hrest, ?_⟩
      · refine (hwf.keys b List.mem_cons_self).map _ fun c d hcd ↦ ?_
        exact Nat.add_lt_add_left hcd _
      · intro c hc d hd
        obtain ⟨wc, hwc, rfl⟩ := List.mem_map.mp hc
        obtain ⟨b', hb', hd⟩ := List.mem_flatMap.mp hd
        obtain ⟨wd, -, rfl⟩ := List.mem_map.mp hd
        have hhigh : b.high < b'.high := List.rel_of_pairwise_cons hwf.highs hb'
        have hkey := ((hb b List.mem_cons_self).chunks wc hwc).key_lt
        show b.high * 65536 + wc.key < b'.high * 65536 + wd.key
        omega

/-- A legal image stands for a valid bitmap, which holds its keys. -/
theorem wireToBitmap_valid {buckets : List WireBucket} {K : KeyType} (sb : Bool)
    (hwf : WireWellFormed buckets) (hb : ∀ b ∈ buckets, b.Bounded K) :
    (wireToBitmap buckets).Valid K sb ∧ (wireToBitmap buckets).values = wireValues buckets := by
  refine ⟨⟨wireToBitmap_ascending hwf hb, fun c hc ↦ ?_, ?_⟩, ?_⟩
  · obtain ⟨b, hbm, hc⟩ := List.mem_flatMap.mp hc
    obtain ⟨wc, hwc, rfl⟩ := List.mem_map.mp hc
    have hbound := hb b hbm
    exact WireChunk.toChunk_valid (hwf.chunks b hbm wc hwc) (hbound.chunks wc hwc)
      (hbound.high _ (hbound.chunks wc hwc).key_lt)
  · show _ = ((buckets.flatMap WireBucket.toChunks).map fun c ↦ c.slot.cardinality).sum
    rw [List.map_flatMap, List.flatMap_def, List.sum_flatten, List.map_map]
    refine congrArg List.sum ?_
    refine List.map_congr_left fun b hbm ↦ ?_
    rw [Function.comp_apply, WireBucket.toChunks, List.map_map]
    congr 1
    refine List.map_congr_left fun c hc ↦ ?_
    exact (WireChunk.toHandle_spec (hwf.chunks b hbm c hc) ((hb b hbm).chunks c hc)).2.2.symm
  · rw [Bitmap.values, wireToBitmap, List.flatMap_assoc, wireValues]
    refine List.flatMap_congr fun b hbm ↦ ?_
    rw [WireBucket.toChunks, List.flatMap_map]
    refine List.flatMap_congr fun c hc ↦ ?_
    rw [Chunk.values, WireChunk.toChunk,
      (WireChunk.toHandle_spec (hwf.chunks b hbm c hc) ((hb b hbm).chunks c hc)).2.1]

/-- The reader's accumulator ends up as the table of the image. -/
theorem addBuckets_eq (buckets : List WireBucket) (result : PortableResult) :
    (result.addBuckets buckets).chunks.reverse =
        result.chunks.reverse ++ (wireToBitmap buckets).chunks ∧
      (result.addBuckets buckets).total = result.total + (wireToBitmap buckets).size := by
  induction buckets generalizing result with
  | nil => simp [PortableResult.addBuckets, wireToBitmap]
  | cons b bs ih =>
      have := ih (result.addChunks b.high b.chunks)
      rw [PortableResult.addBuckets, this.1, this.2]
      simp [PortableResult.addChunks, wireToBitmap, WireBucket.toChunks, Nat.add_assoc]

/-- The reader cuts the image, refuses it unless it is legal, and builds its table. -/
theorem portableDeserialize_eq (avx2 : Bool) {K : KeyType} (hK : 32 ≤ K.digits) (buf : List UInt8) :
    match decodePortable K buf with
    | none => portableDeserialize avx2 K buf = .refused
    | some buckets =>
        (WireWellFormed buckets → portableDeserialize avx2 K buf = .value (wireToBitmap buckets)) ∧
        (¬ WireWellFormed buckets → portableDeserialize avx2 K buf = .refused) := by
  have himage := portableReadImage_eq avx2 hK buf
  rw [portableDeserialize]
  cases hdec : decodePortable K buf with
  | none =>
      rw [hdec] at himage
      dsimp only at himage
      rw [himage]
      rfl
  | some buckets =>
      rw [hdec] at himage
      obtain ⟨hchunks, htotal⟩ := addBuckets_eq buckets {}
      refine ⟨fun h ↦ ?_, fun h ↦ ?_⟩
      · rw [himage.1 h, Parsed.value_bind, hchunks, htotal]
        simp
      · rw [himage.2 h]
        rfl

/-- `portable_deserialize` is a safe validator, with vectors of values or without.  On every
byte string it ends without reading outside it; an image it accepts can be cut into legal containers
and comes back as a valid bitmap of exactly the keys they denote; an image that
cannot be cut, or is not legal, is refused. -/
theorem portableDeserialize_safe (avx2 : Bool) {K : KeyType} (hK : 32 ≤ K.digits) (sb : Bool)
    (buf : List UInt8) :
    (portableDeserialize avx2 K buf).Safe ∧
    (∀ b, portableDeserialize avx2 K buf = .value b →
      b.Valid K sb ∧ b.validate sb = none ∧
      ∃ image, decodePortable K buf = some image ∧ WireWellFormed image ∧
        b.values = wireValues image ∧ b.size = (wireValues image).length) ∧
    (∀ image, decodePortable K buf = some image → WireWellFormed image →
      ∃ b, portableDeserialize avx2 K buf = .value b) ∧
    (∀ image, decodePortable K buf = some image → ¬ WireWellFormed image →
      portableDeserialize avx2 K buf = .refused) ∧
    (decodePortable K buf = none → portableDeserialize avx2 K buf = .refused) := by
  have heq := portableDeserialize_eq avx2 hK buf
  cases hdec : decodePortable K buf with
  | none =>
      rw [hdec] at heq
      dsimp only at heq
      rw [heq]
      exact ⟨Parsed.safe_refused, nofun, nofun, nofun, fun _ ↦ rfl⟩
  | some buckets =>
      rw [hdec] at heq
      by_cases hwf : WireWellFormed buckets
      · obtain ⟨hvalid, hvalues⟩ := wireToBitmap_valid sb hwf
          (bounded_of_decodePortable hK hdec)
        rw [heq.1 hwf]
        refine ⟨Parsed.safe_value _, ?_, ?_, ?_, nofun⟩
        · rintro b ⟨⟩
          exact ⟨hvalid, hvalid.validate_eq_none, buckets, rfl, hwf, hvalues,
            hvalues ▸ hvalid.size_eq_length_values⟩
        · exact fun _ _ _ ↦ ⟨_, rfl⟩
        · rintro image ⟨⟩ hno
          exact absurd hwf hno
      · rw [heq.2 hwf]
        refine ⟨Parsed.safe_refused, nofun, ?_, fun _ _ _ ↦ rfl, nofun⟩
        rintro image ⟨⟩ h
        exact absurd h hwf

/-- A 32-bit image of one run container whose two runs, 1 to 2 and 3 to 5, are adjacent. -/
def adjacentRunsImage : List UInt8 :=
  [0x3B, 0x30, 0, 0, 1, 0, 0, 4, 0, 2, 0, 1, 0, 1, 0, 3, 0, 2, 0]

theorem portableDeserialize_safe_adjacentRuns :
    decodePortable .u32 adjacentRunsImage = some [⟨0, [⟨0, 5, .run [(1, 1), (3, 2)]⟩]⟩] ∧
      ∀ avx2 : Bool, ∃ b, portableDeserialize avx2 .u32 adjacentRunsImage = .value b ∧
        b.validate true = none ∧ b.values = [1, 2, 3, 4, 5] := by
  have hcut : decodePortable .u32 adjacentRunsImage = some [⟨0, [⟨0, 5, .run [(1, 1), (3, 2)]⟩]⟩] :=
    rfl
  refine ⟨hcut, fun avx2 ↦ ?_⟩
  obtain ⟨-, haccept, hlegal, -⟩ :=
    portableDeserialize_safe avx2 (show 32 ≤ KeyType.u32.digits by decide) true adjacentRunsImage
  have hwf : WireWellFormed [⟨0, [⟨0, 5, .run [(1, 1), (3, 2)]⟩]⟩] := by
    refine ⟨by simp, by simp, ?_⟩
    rintro _ (_ | ⟨_, ⟨⟩⟩) _ (_ | ⟨_, ⟨⟩⟩)
    exact ⟨⟨by simp, by simp, by simp⟩, rfl⟩
  obtain ⟨b, hread⟩ := hlegal _ hcut hwf
  obtain ⟨-, hnone, image, himage, -, hvalues, -⟩ := haccept b hread
  rw [hcut] at himage
  cases himage
  exact ⟨b, hread, hnone, hvalues⟩

end Roaring
