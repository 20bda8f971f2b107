import Mathlib
import Roaring.Wire.PortableWriter

/-!
# The portable round trip

The image of a valid bitmap is legal, denotes its keys, and has the planned
length; the reader therefore returns them.  What is left over the single 32-bit
bitmap is the grouping by high half of the 64-bit format.
-/

namespace Roaring

open Lib

/-! ## Buckets -/

/-- The buckets of ascending chunks: they split the table in order, each under the
one high half of its keys. -/
structure GroupedByHigh (chunks : List Chunk) (buckets : List (Nat × List Chunk)) : Prop where
  flatten : buckets.flatMap Prod.snd = chunks
  highs : buckets.Pairwise fun b c ↦ b.1 < c.1
  high_eq : ∀ b ∈ buckets, ∀ c ∈ b.2, c.key / 65536 = b.1
  nonempty : ∀ b ∈ buckets, b.2 ≠ []

theorem portableBuckets_grouped {chunks : List Chunk}
    (hasc : chunks.Pairwise fun c d ↦ c.key < d.key) :
    GroupedByHigh chunks (portableBuckets chunks) := by
  induction chunks using portableBuckets.induct with
  | case1 =>
      rw [portableBuckets]
      exact ⟨rfl, List.Pairwise.nil, nofun, nofun⟩
  | case2 c cs high ih =>
      set same := fun d : Chunk ↦ decide (d.key / 65536 = high)
      have hsuffix : (cs.dropWhile same).Sublist cs := (List.dropWhile_suffix same).sublist
      have hrest := ih (hasc.of_cons.sublist hsuffix)
      rw [portableBuckets]
      refine ⟨?_, List.Pairwise.cons (fun b hb ↦ ?_) hrest.highs, ?_, ?_⟩
      · rw [List.flatMap_cons, hrest.flatten]
        exact congrArg (c :: ·) List.takeWhile_append_dropWhile
      · -- the first chunk left over is in another bucket, and no later key is smaller
        obtain ⟨d, hd⟩ := List.exists_mem_of_ne_nil _ (hrest.nonempty b hb)
        have hmem : d ∈ cs.dropWhile same :=
          hrest.flatten ▸ List.mem_flatMap.mpr ⟨b, hb, hd⟩
        have hlt : ∀ e ∈ cs.dropWhile same, high < e.key / 65536 := by
          have hsub : (cs.dropWhile same).Pairwise fun c d ↦ c.key < d.key :=
            hasc.of_cons.sublist hsuffix
          cases hcase : cs.dropWhile same with
          | nil => simp
          | cons e es =>
              have hne : same e = false := by
                have := List.head_dropWhile_not same (l := cs) (by simp [hcase])
                simpa [hcase] using this
              rw [hcase] at hsub hsuffix
              have hce : c.key < e.key :=
                List.rel_of_pairwise_cons hasc (hsuffix.mem List.mem_cons_self)
              have hhead : high < e.key / 65536 := by
                have hle : high ≤ e.key / 65536 := Nat.div_le_div_right hce.le
                have : e.key / 65536 ≠ high := of_decide_eq_false hne
                omega
              rintro f (_ | ⟨_, hf⟩)
              · exact hhead
              · exact hhead.trans_le (Nat.div_le_div_right (List.rel_of_pairwise_cons hsub hf).le)
        rw [← hrest.high_eq b hb d hd]
        exact hlt d hmem
      · rintro b (_ | ⟨_, hb⟩)
        · rintro d (_ | ⟨_, hd⟩)
          · rfl
          · have hsame := List.mem_takeWhile_imp (p := same) hd
            exact of_decide_eq_true hsame
        · exact hrest.high_eq b hb
      · rintro b (_ | ⟨_, hb⟩)
        · exact List.cons_ne_nil _ _
        · exact hrest.nonempty b hb

/-- Chunks under one high half number at most 65536. -/
theorem length_le_of_high {chunks : List Chunk} {high : Nat}
    (hasc : chunks.Pairwise fun c d ↦ c.key < d.key)
    (hhigh : ∀ c ∈ chunks, c.key / 65536 = high) : chunks.length ≤ 65536 := by
  have hnodup : (chunks.map Chunk.key).Nodup :=
    hasc.map _ fun _ _ hlt ↦ ne_of_lt hlt
  have hsub : chunks.map Chunk.key ⊆ List.range' (high * 65536) 65536 := by
    rintro _ hk
    obtain ⟨c, hc, rfl⟩ := List.mem_map.mp hk
    have := hhigh c hc
    rw [List.mem_range'_1]
    omega
  simpa using (hnodup.subperm hsub).length_le

theorem GroupedByHigh.length_le {chunks : List Chunk} {buckets : List (Nat × List Chunk)}
    (h : GroupedByHigh chunks buckets) : buckets.length ≤ chunks.length := by
  rw [← h.flatten, List.length_flatMap]
  calc buckets.length = (buckets.map fun b ↦ b.2.length).length := by rw [List.length_map]
    _ ≤ (buckets.map fun b ↦ b.2.length).sum := by
      refine List.length_le_sum_of_one_le _ fun n hn ↦ ?_
      obtain ⟨b, hb, rfl⟩ := List.mem_map.mp hn
      exact List.length_pos_iff.mpr (h.nonempty b hb)

theorem GroupedByHigh.sublist {chunks : List Chunk} {buckets : List (Nat × List Chunk)}
    (h : GroupedByHigh chunks buckets) {b : Nat × List Chunk} (hb : b ∈ buckets) :
    b.2.Sublist chunks := by
  rw [← h.flatten, List.flatMap_def]
  exact List.sublist_flatten_of_mem (List.mem_map_of_mem hb)

/-! ## The image of a bitmap -/

def wireOf (K : KeyType) (b : Bitmap) : List WireBucket :=
  match K with
  | .u64 => (portableBuckets b.chunks).map fun bucket ↦ ⟨bucket.1, bucket.2.map wireChunkOf⟩
  | _ => [⟨0, b.chunks.map wireChunkOf⟩]

/-- The wire container holds the values of the container. -/
theorem values_wireContainerOf {h : ContainerHandle} (hv : h.Valid) :
    (wireContainerOf h).values = h.values := by
  have hwf := hv.payload
  rw [ContainerHandle.values, wireContainerOf]
  cases hp : h.payload with
  | run runs =>
      rw [hp] at hwf
      cases hwf with
      | run canonical =>
          dsimp only
          rw [WireContainer.values, List.flatMap_map, Payload.values, runValues]
          refine List.flatMap_congr fun r hr ↦ ?_
          have := canonical.forward r hr
          show List.range' r.first (r.last - r.first + 1) = List.range' r.first
            (r.last + 1 - r.first)
          congr 1
          omega
  | array values =>
      rw [hp] at hwf
      cases hwf with
      | array ascending bounded =>
          dsimp only
          split
          · exact values_wordsOfBytes_foldl ascending bounded
          · rfl
  | bitset words =>
      dsimp only
      split <;> rfl

theorem wireContainerOf_wellFormed {h : ContainerHandle} (hv : h.Valid) (hne : h.values ≠ []) :
    (wireContainerOf h).WellFormed := by
  have hwf := hv.payload
  rw [ContainerHandle.values] at hne
  rw [wireContainerOf]
  cases hp : h.payload with
  | run runs =>
      rw [hp] at hwf hne
      cases hwf with
      | run canonical =>
          refine ⟨?_, ⟨?_, ?_⟩⟩
          · rintro hnil
            rw [List.map_eq_nil_iff.mp hnil] at hne
            exact hne rfl
          · rintro _ hmem
            obtain ⟨r, hr, rfl⟩ := List.mem_map.mp hmem
            have h1 := canonical.forward r hr
            have h2 := canonical.bounded r hr
            unfold lowDomainSize at h2
            show r.first + (r.last - r.first) ≤ 0xFFFF
            omega
          · refine List.pairwise_map.mpr (canonical.apart.imp_of_mem fun {r s} hr _ hrs ↦ ?_)
            have h1 := canonical.forward r hr
            show r.first + (r.last - r.first) < s.first
            omega
  | array values =>
      rw [hp] at hwf
      cases hwf with
      | array ascending bounded =>
          dsimp only
          split
          · exact trivial
          · exact ascending
  | bitset words =>
      dsimp only
      split
      · exact trivial
      · exact words.values_ascending

theorem wireChunkOf_wellFormed {K : KeyType} {sb : Bool} {c : Chunk} (h : c.Valid K sb) :
    (wireChunkOf c).WellFormed where
  container := wireContainerOf_wellFormed h.slot h.nonempty
  cardinality := by
    rw [wireChunkOf, values_wireContainerOf h.slot]
    exact h.slot.cardinality.symm

/-- The keys a wire chunk stands for under the high half of its key. -/
theorem values_wireChunkOf {K : KeyType} {sb : Bool} {c : Chunk} (h : c.Valid K sb) {high : Nat}
    (hhigh : c.key / 65536 = high) :
    (wireChunkOf c).container.values.map (compose (high * 65536 + (wireChunkOf c).key)) =
      c.values := by
  have hkey : high * 65536 + c.key % 65536 = c.key := by omega
  rw [wireChunkOf, values_wireContainerOf h.slot, hkey]
  rfl

theorem flatMap_values_wireChunkOf {K : KeyType} {sb : Bool} {chunks : List Chunk}
    (h : ∀ c ∈ chunks, c.Valid K sb) {high : Nat} (hhigh : ∀ c ∈ chunks, c.key / 65536 = high) :
    ((chunks.map wireChunkOf).flatMap fun c ↦
      c.container.values.map (compose (high * 65536 + c.key))) = chunks.flatMap Chunk.values := by
  rw [List.flatMap_map]
  exact List.flatMap_congr fun c hc ↦ values_wireChunkOf (h c hc) (hhigh c hc)

theorem keys_wireChunkOf {chunks : List Chunk} (hasc : chunks.Pairwise fun c d ↦ c.key < d.key)
    {high : Nat} (hhigh : ∀ c ∈ chunks, c.key / 65536 = high) :
    (chunks.map wireChunkOf).Pairwise fun c d ↦ c.key < d.key := by
  refine List.pairwise_map.mpr (hasc.imp_of_mem fun {c d} hc hd hlt ↦ ?_)
  have h1 := hhigh c hc
  have h2 := hhigh d hd
  show c.key % 65536 < d.key % 65536
  omega

/-- The image of a valid bitmap is legal and denotes the keys of the bitmap. -/
theorem wireOf_spec {K : KeyType} {sb : Bool} {b : Bitmap} (h : b.Valid K sb) :
    WireWellFormed (wireOf K b) ∧ wireValues (wireOf K b) = b.values := by
  have hgroup := portableBuckets_grouped h.ascending
  cases K with
  | u64 =>
      have hchunk : ∀ bucket ∈ portableBuckets b.chunks, ∀ c ∈ bucket.2, c.Valid .u64 sb :=
        fun bucket hb c hc ↦ h.chunks c ((hgroup.sublist hb).mem hc)
      refine ⟨⟨List.pairwise_map.mpr hgroup.highs, ?_, ?_⟩, ?_⟩
      · rintro _ hmem
        obtain ⟨bucket, hb, rfl⟩ := List.mem_map.mp hmem
        exact keys_wireChunkOf (h.ascending.sublist (hgroup.sublist hb)) (hgroup.high_eq bucket hb)
      · rintro _ hmem c hc
        obtain ⟨bucket, hb, rfl⟩ := List.mem_map.mp hmem
        obtain ⟨d, hd, rfl⟩ := List.mem_map.mp hc
        exact wireChunkOf_wellFormed (hchunk bucket hb d hd)
      · rw [wireValues, wireOf, List.flatMap_map, Bitmap.values]
        conv_rhs => rw [← hgroup.flatten, List.flatMap_assoc]
        exact List.flatMap_congr fun bucket hb ↦
          flatMap_values_wireChunkOf (hchunk bucket hb) (hgroup.high_eq bucket hb)
  | u16 | u32 =>
      all_goals
        have hhigh : ∀ c ∈ b.chunks, c.key / 65536 = 0 := fun c hc ↦ by
          have := (h.chunks c hc).key_lt
          simp only [KeyType.chunkDomainSize, KeyType.digits] at this
          omega
        refine ⟨⟨List.pairwise_singleton _ _, ?_, ?_⟩, ?_⟩
        · rintro _ (_ | ⟨_, ⟨⟩⟩)
          exact keys_wireChunkOf h.ascending hhigh
        · rintro _ (_ | ⟨_, ⟨⟩⟩) c hc
          obtain ⟨d, hd, rfl⟩ := List.mem_map.mp hc
          exact wireChunkOf_wellFormed (h.chunks d hd)
        · show wireValues [⟨0, b.chunks.map wireChunkOf⟩] = _
          rw [wireValues, List.flatMap_singleton]
          exact flatMap_values_wireChunkOf h.chunks hhigh

/-! ## The round trip -/

/-- The bucket loop of a 64-bit image against the writer's. -/
theorem decodeBuckets_append {K : KeyType} {sb : Bool} {buckets : List (Nat × List Chunk)}
    (hhigh : ∀ b ∈ buckets, b.1 < 256 ^ 4)
    (hv : ∀ b ∈ buckets, ∀ c ∈ b.2, c.Valid K sb)
    (hle : ∀ b ∈ buckets, b.2.length ≤ 65536) :
    (decodeBuckets buckets.length (buckets.flatMap fun bucket ↦
        put32 bucket.1 ++ portableWrite32 bucket.2 bucket.2.length)) =
      some (buckets.map fun bucket ↦ ⟨bucket.1, bucket.2.map wireChunkOf⟩, []) := by
  induction buckets with
  | nil => rfl
  | cons b bs ih =>
      have hrest := ih (fun c hc ↦ hhigh c (List.mem_cons_of_mem b hc))
        (fun c hc ↦ hv c (List.mem_cons_of_mem b hc))
        (fun c hc ↦ hle c (List.mem_cons_of_mem b hc))
      have hcut := (portableWrite32_spec (hv b List.mem_cons_self) (hle b List.mem_cons_self)
        (bs.flatMap fun bucket ↦ put32 bucket.1 ++ portableWrite32 bucket.2 bucket.2.length)).2
      rw [List.length_cons, decodeBuckets, List.flatMap_cons, List.append_assoc,
        takeBytes_append (length_put32 _), Option.bind_some]
      dsimp only
      rw [hcut, Option.bind_some]
      dsimp only
      rw [hrest, put32, leValue_leBytes_of_lt (hhigh b List.mem_cons_self)]
      rfl

/-- What is written for a valid bitmap has the planned length and cuts back into its image. -/
theorem portableSerialize_spec {K : KeyType} (hK : 32 ≤ K.digits) {sb : Bool}
    (b : ValidBitmap K sb) :
    (b.bitmap.portableSerialize K).length = b.bitmap.portableSizeInBytes K ∧
    decodePortable K (b.bitmap.portableSerialize K) = some (wireOf K b.bitmap) := by
  obtain ⟨b, h, hcount⟩ := b
  cases K with
  | u16 => simp [KeyType.digits] at hK
  | u32 =>
      have hhigh : ∀ c ∈ b.chunks, c.key / 65536 = 0 := fun c hc ↦ by
        have := (h.chunks c hc).key_lt
        simp only [KeyType.chunkDomainSize, KeyType.digits] at this
        omega
      obtain ⟨hlen, hcut⟩ :=
        portableWrite32_spec h.chunks (length_le_of_high h.ascending hhigh) []
      rw [List.append_nil] at hcut
      refine ⟨hlen, ?_⟩
      show (decode32 (portableWrite32 b.chunks b.chunks.length)).map _ = _
      rw [hcut]
      rfl
  | u64 =>
      have hgroup := portableBuckets_grouped h.ascending
      have hv : ∀ bucket ∈ portableBuckets b.chunks, ∀ c ∈ bucket.2, c.Valid .u64 sb :=
        fun bucket hb c hc ↦ h.chunks c ((hgroup.sublist hb).mem hc)
      have hle : ∀ bucket ∈ portableBuckets b.chunks, bucket.2.length ≤ 65536 := fun bucket hb ↦
        length_le_of_high (h.ascending.sublist (hgroup.sublist hb)) (hgroup.high_eq bucket hb)
      have hhigh : ∀ bucket ∈ portableBuckets b.chunks, bucket.1 < 256 ^ 4 := by
        intro bucket hb
        obtain ⟨c, hc⟩ := List.exists_mem_of_ne_nil _ (hgroup.nonempty bucket hb)
        rw [← hgroup.high_eq bucket hb c hc]
        have := (hv bucket hb c hc).key_lt
        simp only [KeyType.chunkDomainSize, KeyType.digits] at this
        omega
      have hbuckets : (portableBuckets b.chunks).length < 256 ^ 4 :=
        hgroup.length_le.trans_lt hcount
      refine ⟨?_, ?_⟩
      · rw [Bitmap.portableSerialize, Bitmap.portableSizeInBytes, List.length_append,
          length_leBytes, List.length_flatMap]
        refine congrArg (8 + List.sum ·) (List.map_congr_left fun bucket hb ↦ ?_)
        have hpos := List.length_pos_iff.mpr (hgroup.nonempty bucket hb)
        have hlen := (portableWrite32_spec (hv bucket hb) (hle bucket hb) []).1
        have hne : (portablePlanFor bucket.2).containers ≠ 0 := hpos.ne'
        rw [List.length_append, length_put32, hlen, if_pos hne, Nat.add_assoc]
      · rw [decodePortable, Bitmap.portableSerialize, takeBytes_append (length_leBytes 8 _),
          Option.bind_some]
        dsimp only
        rw [leValue_leBytes_of_lt (hbuckets.trans (by decide)), if_pos (by omega),
          decodeBuckets_append hhigh hv hle]
        rfl

/-- The portable round trip.  A valid bitmap of 32- or 64-bit keys is written in
exactly the planned bytes, and reading them back gives a valid bitmap of the same
keys. -/
theorem portable_roundTrip (avx2 : Bool) {K : KeyType} (hK : 32 ≤ K.digits) {sb : Bool}
    (b : ValidBitmap K sb) :
    (b.bitmap.portableSerialize K).length = b.bitmap.portableSizeInBytes K ∧
    ∃ b', portableDeserialize avx2 K (b.bitmap.portableSerialize K) = .value b' ∧
      b'.Valid K sb ∧ b'.validate sb = none ∧
      b'.size = b.bitmap.values.length ∧ b'.values = b.bitmap.values := by
  obtain ⟨hlen, hcut⟩ := portableSerialize_spec hK b
  obtain ⟨hwf, hvalues⟩ := wireOf_spec b.valid
  have hread := portableDeserialize_eq avx2 hK (b.bitmap.portableSerialize K)
  rw [hcut] at hread
  obtain ⟨hvalid, heq⟩ := wireToBitmap_valid sb hwf (bounded_of_decodePortable hK hcut)
  rw [hvalues] at heq
  refine ⟨hlen, _, hread.1 hwf, hvalid, hvalid.validate_eq_none, ?_, heq⟩
  rw [hvalid.size_eq_length_values, heq]

/-- An array under the high half 0 and a run under the high half 1. -/
def twoBuckets : ValidBitmap .u64 true where
  bitmap := ⟨[⟨3, .syncHeader [1, 5]⟩, ⟨65536, .makeRunFrom [⟨7, 9⟩] 3⟩], 5⟩
  valid := by
    have harray : (ContainerHandle.syncHeader [1, 5]).Valid :=
      ContainerHandle.syncHeader_valid (by decide) (by decide)
    have hrun : (ContainerHandle.makeRunFrom [⟨7, 9⟩] 3).Valid :=
      ContainerHandle.makeRunFrom_valid ⟨by simp, by simp, by simp [lowDomainSize]⟩ rfl
    refine ⟨by simp, ?_, rfl⟩
    rintro _ (_ | ⟨_, _ | ⟨_, ⟨⟩⟩⟩)
    · exact ⟨by decide, harray, by decide, fun _ values hv ↦ by cases hv; decide⟩
    · exact ⟨by decide, hrun, by decide, nofun⟩
  countable := by decide

theorem portable_roundTrip_twoBuckets :
    (twoBuckets.bitmap.portableSerialize .u64).length = 51 ∧ ∀ avx2 : Bool,
      ∃ b', portableDeserialize avx2 .u64 (twoBuckets.bitmap.portableSerialize .u64) = .value b' ∧
        b'.values = [196609, 196613, 4294967303, 4294967304, 4294967305] := by
  have hround := fun avx2 ↦
    portable_roundTrip avx2 (show 32 ≤ KeyType.u64.digits by decide) twoBuckets
  constructor
  · refine (hround false).1.trans ?_
    simp [Bitmap.portableSizeInBytes, twoBuckets, portableBuckets]
    decide
  · intro avx2
    obtain ⟨-, b', hread, -, -, -, hvalues⟩ := hround avx2
    exact ⟨b', hread, hvalues.trans (by decide)⟩

end Roaring
