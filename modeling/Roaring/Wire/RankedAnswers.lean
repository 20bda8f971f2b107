import Mathlib
import Roaring.Wire.RankedBlocks

/-!
# What a ranked view answers

The ranked view of a written image against the bitmap it was written from.  Inside
one chunk the position of a low key is its rank among the values of the chunk and
the key of an ordinal is the value there; the bases of the index are the values of
all chunks in front, so that both carry over to the keys of the bitmap.
-/

namespace Roaring

open Lib

theorem u32_of_lt {x : Nat} (h : x < 2 ^ 32) : u32 x = x := Nat.mod_eq_of_lt h

theorem u32Sub_of_le {x y : Nat} (h : y ≤ x) (hx : x < 2 ^ 32) : u32Sub x y = x - y := by
  rw [u32Sub]
  omega

/-! ## One entry -/

/-- An entry of a ranked view over the chunk it was written from. -/
structure RankedEntry (v : RankedView) (e : FrozenChunkIndex) (c : Chunk) : Prop where
  entry : EntryOf v.view.data e c
  ranks : RanksOf v.view.data e c
  checked : e.Checked .u32 v.view.data.length
  small : e.base + c.slot.cardinality < 2 ^ 32

section Entry

variable {K : KeyType} {sb : Bool} {v : RankedView} {e : FrozenChunkIndex} {c : Chunk}

theorem RankedEntry.kind_payload (h : RankedEntry v e c) :
    frozenContainerKindOf e.containerKind = some (frozenBody c.slot).kind ∧
      frozenPayload (frozenBody c.slot).kind e.payloadCount (v.view.payloadBytes e) =
        c.slot.payload :=
  ⟨h.entry.kind, h.entry.payload⟩

theorem RankedEntry.rankCounts_eq (h : RankedEntry v e c) {n : Nat}
    (hn : (rankBlock c.slot).length = n) : rankCounts v e n = rankBlock c.slot := hn ▸ h.ranks

/-- Each kind of container, with what the reader finds in the windows of its entry. -/
theorem RankedEntry.cases (h : RankedEntry v e c) :
    (∃ values, c.slot.payload = .array values ∧
      frozenContainerKindOf e.containerKind = some .array ∧
      units 2 e.payloadCount (v.view.payloadBytes e) = values) ∨
    (∃ runs, c.slot.payload = .run runs ∧
      frozenContainerKindOf e.containerKind = some .run ∧
      runsOfBytes e.payloadCount (v.view.payloadBytes e) = runs ∧
      rankCounts v e e.payloadCount = (List.range runs.length).map (before (runLengths runs))) ∨
    ∃ words, c.slot.payload = .bitset words ∧
      frozenContainerKindOf e.containerKind = some .bitset ∧
      wordsOfBytes (v.view.payloadBytes e) = words ∧
      rankCounts v e wordCount = (List.range wordCount).map (before (wordPopcounts words)) := by
  obtain ⟨hkind, hpayload⟩ := h.kind_payload
  have hcounts : ∀ n, (rankBlock c.slot).length = n → rankCounts v e n = rankBlock c.slot :=
    fun n hn ↦ h.rankCounts_eq hn
  have hblock := length_rankBlock c.slot
  rw [rankBlock] at hcounts hblock
  rw [frozenBody] at hkind hpayload
  cases hp : c.slot.payload with
  | array values =>
      rw [hp] at hkind hpayload
      injection hpayload with hunits
      exact .inl ⟨values, rfl, hkind, hunits⟩
  | run runs =>
      rw [hp] at hkind hpayload hcounts hblock
      injection hpayload with hruns
      have hlen : e.payloadCount = runs.length := by rw [← hruns, length_runsOfBytes]
      exact .inr (.inl ⟨runs, rfl, hkind, hruns, hcounts _ (hblock.trans hlen.symm)⟩)
  | bitset words =>
      rw [hp] at hkind hpayload hcounts hblock
      injection hpayload with hwords
      exact .inr (.inr ⟨words, rfl, hkind, hwords, hcounts _ hblock⟩)

theorem getD_map_range {f : Nat → Nat} {n i : Nat} (hi : i < n) :
    ((List.range n).map f).getD i 0 = f i := by
  rw [List.getD_eq_getElem _ _ (by rwa [List.length_map, List.length_range]), List.getElem_map,
    List.getElem_range]

/-- The point of a search over a function is that of one over its values in a list. -/
theorem partitionPoint_map_range {f : Nat → Nat} {n w p : Nat}
    (h : PartitionPoint (fun i ↦ f i ≤ w) n p) :
    PartitionPoint (fun i ↦ ((List.range n).map f).getD i 0 ≤ w)
    ((List.range n).map f).length p := by
  rw [List.length_map, List.length_range]
  refine ⟨h.le, fun i hi ↦ ?_, fun i hi hn ↦ ?_⟩
  · rw [getD_map_range (hi.trans_le h.le)]
    exact h.of_lt i hi
  · rw [getD_map_range hn]
    exact h.not_of_le i hi hn

/-- The position of a low key in a chunk: the values in front of the chunk and the rank in it. -/
theorem RankedEntry.position (h : RankedEntry v e c) (hc : c.Valid K sb) {low : Nat}
    (hlow : low < lowDomainSize) :
    v.entryPosition e low =
      .value ⟨e.base + rank c.slot.values low, decide (low ∈ c.slot.values)⟩ := by
  have hwf := hc.slot.payload
  have hsmall := h.small
  have hrank : rank c.slot.values low ≤ c.slot.cardinality :=
    hc.slot.cardinality ▸ rank_le_length _ _
  have hbase : u32 (e.base + rank c.slot.values low) = e.base + rank c.slot.values low :=
    u32_of_lt (by omega)
  rw [← hbase]
  rw [ContainerHandle.values] at hrank hbase ⊢
  rcases h.cases with ⟨values, hp, hkind, hvalues⟩ | ⟨runs, hp, hkind, hruns, hcounts⟩ |
    ⟨words, hp, hkind, hwords, hcounts⟩
  · rw [hp] at hwf ⊢
    cases hwf with
    | array ascending _ =>
        obtain ⟨r, hposition, hr⟩ := entryPosition_array h.checked hkind low
        rw [hvalues] at hposition hr
        rw [hposition, hr ascending]
        have hpresent : values[rank values low]? = some low ↔ low ∈ values :=
          ⟨List.mem_of_getElem?, fun hmem ↦ getElem?_of_rank ascending hmem rfl⟩
        exact congrArg (fun present ↦ Parsed.value (RankPosition.mk _ present))
          (decide_eq_decide.mpr hpresent)
  · rw [hp] at hwf hrank ⊢
    cases hwf with
    | run canonical =>
        rw [entryPosition_run h.checked hkind low, hruns, hcounts]
        rcases lastRun_cases canonical low with ⟨hneg, habove⟩ |
          ⟨front, r, back, rfl, hlast, hle, hback⟩
        · -- every run begins above the key
          rw [if_pos hneg]
          have habove : ∀ x ∈ runValues runs, low < x := by
            intro x hx
            obtain ⟨s, hs, hfirst, -⟩ := mem_runValues.mp hx
            exact (habove s hs).trans_le hfirst
          have hzero : rank (runValues runs) low = 0 := rank_of_le fun x hx ↦ (habove x hx).le
          have habsent : low ∉ runValues runs := fun hmem ↦ Nat.lt_irrefl low (habove low hmem)
          rw [Payload.values, hzero, decide_eq_false habsent]
        · have hlen : front.length < (front ++ r :: back).length := by
            rw [List.length_append, List.length_cons]
            omega
          have hget : (front ++ r :: back).getD front.length ⟨0, 0⟩ = r := by
            rw [List.getD_append_right _ _ _ _ le_rfl, Nat.sub_self, List.getD_cons_zero]
          rw [Payload.values] at hrank ⊢
          have hcut := rank_runValues_cut canonical hle hback
          have hbound := canonical.bounded r (List.mem_append_right front List.mem_cons_self)
          have hforward := canonical.forward r (List.mem_append_right front List.mem_cons_self)
          unfold lowDomainSize at hbound hlow
          have hcovered : u32Sub (min low (r.last + 1)) r.first = min low (r.last + 1) - r.first :=
            u32Sub_of_le (by omega) (by omega)
          have hinside : u32 (rank (runValues (front ++ r :: back)) low) =
              rank (runValues (front ++ r :: back)) low := u32_of_lt (by omega)
          rw [if_neg (by omega), hlast, Int.toNat_natCast]
          dsimp only
          rw [hget, getD_map_range hlen, before_runLengths canonical, hcovered, ← hcut, hinside,
            decide_eq_decide.mpr (mem_runValues_cut canonical hle hback)]
  · rw [hp] at hrank ⊢
    have hword : low / 64 < wordCount := Nat.div_lt_of_lt_mul hlow
    have hsplit := rank_words words hlow
    rw [entryPosition_bitset h.checked hkind hlow, hwords, hcounts, getD_map_range hword,
      popcount_lowBits (Nat.mod_lt low (by decide)), Payload.values, hsplit, Nat.add_assoc]
    have hpresent : (words.word (low / 64)).getLsbD (low % 64) = decide (low ∈ words.values) := by
      rw [Bool.eq_iff_iff, decide_eq_true_eq, Words.mem_values]
      exact Iff.rfl
    rw [hpresent]

/-- The bit of a rank, found with the bit deposit or by halves. -/
theorem selectInWord_spec (bmi2 : Bool) {word : Word} {r : Nat} (h : r < popcount word) :
    bitRank word (selectInWord bmi2 word r) ≤ r ∧
      r < bitRank word (selectInWord bmi2 word r + 1) := by
  have hr : r < 64 := h.trans_le (popcount_le word)
  rw [selectInWord]
  cases bmi2 with
  | true =>
      rw [if_pos rfl, Nat.mod_eq_of_lt hr]
      exact ctz_pdep h
  | false =>
      rw [popcount_eq_bitRank] at h
      obtain ⟨d, hd, hlo, hhi⟩ := selectHalving_spec le_rfl word h 0
      rw [Nat.zero_add] at hd
      rw [if_neg Bool.false_ne_true]
      have hd : selectHalving 32 word r 0 = d := hd
      rw [hd]
      exact ⟨hlo, hhi⟩

/-- The low key of an ordinal inside a chunk is the value there. -/
theorem RankedEntry.select (bmi2 : Bool) (h : RankedEntry v e c) (hc : c.Valid K sb) {within : Nat}
    (hwithin : within < c.slot.cardinality) :
    ∃ low, v.entrySelect bmi2 e within = .value low ∧ c.slot.values[within]? = some low := by
  have hwf := hc.slot.payload
  have hcard := hc.slot.cardinality
  have hbound : ∀ low, c.slot.values[within]? = some low → low < 2 ^ 32 := by
    intro low hlow
    have := hc.slot.values_lt low (List.mem_of_getElem? hlow)
    unfold lowDomainSize at this
    omega
  have hsmall : within < 2 ^ 32 := hwithin.trans (by have := h.small; omega)
  have hlength := hcard ▸ hwithin
  rw [ContainerHandle.values] at hbound hlength ⊢
  rcases h.cases with ⟨values, hp, hkind, hvalues⟩ | ⟨runs, hp, hkind, hruns, hcounts⟩ |
    ⟨words, hp, hkind, hwords, hcounts⟩
  · rw [hp] at hlength ⊢
    refine ⟨_, entrySelect_array bmi2 h.checked hkind (h.entry.cardinality ▸ hwithin), ?_⟩
    have hlength : within < values.length := hlength
    rw [hvalues, List.getD_eq_getElem _ _ hlength]
    exact List.getElem?_eq_getElem hlength
  · rw [hp] at hwf hlength hbound ⊢
    cases hwf with
    | run canonical =>
        have hlen : (runLengths runs).length = runs.length := List.length_map _
        rw [Payload.values, canonical.length_values] at hlength
        obtain ⟨k, hk, hpoint, hlo, hhi⟩ :=
          exists_block (show within < (runLengths runs).sum from hlength)
        rw [hlen] at hk hpoint
        obtain ⟨runAt, hselect, hrunAt⟩ := entrySelect_run bmi2 h.checked hkind within
        rw [hruns, hcounts] at hselect
        rw [hcounts] at hrunAt
        obtain rfl : runAt = k := hrunAt k (partitionPoint_map_range hpoint)
        have hget : runs[runAt]? = some runs[runAt] := List.getElem?_eq_getElem hk
        have hlens : (runs.map fun r ↦ r.values.length) = runLengths runs := by
          apply List.map_congr_left
          intro r hr
          exact Run.length_values (canonical.forward r hr)
        have hvalue := getElem?_flatMap_of_before Run.values hget (hlens ▸ hlo) (hlens ▸ hhi)
        have hwidth := before_succ (hlen.symm ▸ hk)
        rw [runLengths_getD hk, List.getD_eq_getElem _ _ hk, Run.length] at hwidth
        have hforward := canonical.forward _ (List.getElem_mem hk)
        rw [hlens, Run.values, List.getElem?_range' (by omega), Nat.one_mul] at hvalue
        refine ⟨_, hselect, ?_⟩
        rw [List.getD_eq_getElem _ _ hk, getD_map_range hk, u32Sub_of_le hlo hsmall]
        rw [Payload.values, runValues, hvalue] at hbound ⊢
        rw [u32_of_lt (hbound _ rfl)]
  · rw [hp] at hlength hbound ⊢
    rw [Payload.values, ← words.count_eq_length_values, Words.count, ← wordPopcounts] at hlength
    obtain ⟨k, hk, hpoint, hlo, hhi⟩ := exists_block hlength
    rw [length_wordPopcounts] at hk hpoint
    obtain ⟨wordAt, hselect, hwordAt⟩ := entrySelect_bitset bmi2 h.checked hkind within
    rw [hwords, hcounts] at hselect
    rw [hcounts] at hwordAt
    obtain rfl : wordAt = k := hwordAt k (partitionPoint_map_range hpoint)
    have hget : (List.range wordCount)[wordAt]? = some wordAt := List.getElem?_range hk
    have hlens :
        ((List.range wordCount).map fun i ↦ (bitPositions (64 * i) (words.word i)).length) =
        wordPopcounts words := by
      rw [wordPopcounts]
      exact List.map_congr_left fun i _ ↦ (popcount_eq_length _ _).symm
    have hvalue := getElem?_flatMap_of_before (fun i ↦ bitPositions (64 * i) (words.word i)) hget
      (hlens ▸ hlo) (hlens ▸ hhi)
    have hwidth :=
      before_succ (show wordAt < (wordPopcounts words).length by rwa [length_wordPopcounts])
    rw [wordPopcounts_getD words hk] at hwidth
    obtain ⟨hbitlo, hbithi⟩ := selectInWord_spec bmi2
      (show within - before (wordPopcounts words) wordAt < popcount (words.word wordAt) by omega)
    rw [hlens, getElem?_bitPositions (64 * wordAt) hbitlo hbithi] at hvalue
    refine ⟨_, hselect, ?_⟩
    have hwordSmall : u32 (wordAt * 64) = 64 * wordAt := by
      rw [u32_of_lt (by unfold wordCount at hk; omega), mul_comm]
    rw [getD_map_range hk, u32Sub_of_le hlo hsmall, hwordSmall]
    rw [Payload.values, words.values_eq_flatMap, hvalue] at hbound ⊢
    rw [u32_of_lt (hbound _ rfl)]

end Entry

/-! ## The view -/

/-- A ranked view over the image of a bitmap. -/
structure RankedOf (v : RankedView) (b : Bitmap) : Prop where
  opened : v.Over .u32
  entries : List.Forall₂ (RankedEntry v) v.view.index b.chunks
  contiguous : v.contiguous = true →
    ∀ k (hk : k < v.view.index.length), v.view.index[k].chunk = v.firstChunk + k

/-- Keys without a gap are the first one and those behind it. -/
theorem ofView_contiguous {view : FrozenView} (h : AcceptedRanked .u32 view) {v : RankedView}
    (hv : RankedView.ofView view = some v) (hcontiguous : v.contiguous = true) (k : Nat)
    (hk : k < v.view.index.length) : v.view.index[k].chunk = v.firstChunk + k := by
  rw [RankedView.ofView, if_neg (fun hne ↦ hne h.version), ← h.count] at hv
  dsimp only at hv
  split at hv
  · rename_i first last hfirst hlast
    cases hv
    have hk : k < view.index.length := hk
    have hkeys : (view.index.map FrozenChunkIndex.chunk).Pairwise (· < ·) :=
      List.pairwise_map.mpr h.ascending
    have hlen : (view.index.map FrozenChunkIndex.chunk).length = view.index.length :=
      List.length_map _
    have hsmall : ∀ e ∈ view.index, e.chunk ≤ 0xFFFF := fun e he ↦ (h.entries e he).chunk_le
    rw [List.head?_eq_getElem?, List.getElem?_eq_getElem (by omega), Option.some_inj] at hfirst
    rw [List.getElem?_eq_getElem (by omega), Option.some_inj] at hlast
    have hlo := getElem_add_le hkeys (i := 0) (d := k) (by omega)
    have hhi := getElem_add_le hkeys (i := k) (d := view.index.length - 1 - k) (by omega)
    have hat : k + (view.index.length - 1 - k) = view.index.length - 1 := by omega
    simp only [hat, Nat.zero_add, List.getElem_map, hfirst, hlast] at hlo hhi
    have hfirstSmall := hsmall first (hfirst ▸ List.getElem_mem _)
    have hlastSmall := hsmall last (hlast ▸ List.getElem_mem _)
    have hspan : u32 (u32Sub (u32 last.chunk) (u32 first.chunk) + 1) = view.index.length :=
      of_decide_eq_true hcontiguous
    rw [u32_of_lt (show last.chunk < 2 ^ 32 by omega),
      u32_of_lt (show first.chunk < 2 ^ 32 by omega),
      u32Sub_of_le (by omega) (by omega), u32_of_lt (by omega)] at hspan
    show view.index[k].chunk = u32 first.chunk + k
    rw [u32_of_lt (show first.chunk < 2 ^ 32 by omega)]
    omega
  · cases hv
    exact absurd hcontiguous Bool.false_ne_true

section Chunks

variable {K : KeyType} {sb : Bool} {c : Chunk} {x : Nat}

theorem Chunk.Valid.lt_of_key_lt (h : c.Valid K sb) (hkey : c.key < chunkKey x) :
    ∀ y ∈ c.values, y < x := by
  intro y hy
  rw [← (h.chunkKey_of_mem hy).1] at hkey
  exact Nat.lt_of_div_lt_div hkey

theorem Chunk.Valid.length_values (h : c.Valid K sb) : c.values.length = c.slot.cardinality := by
  rw [Chunk.values, List.length_map, h.slot.cardinality]

/-- In its own chunk a key is ranked by its low key. -/
theorem rank_values_of_key (hkey : c.key = chunkKey x) :
    rank c.values x = rank c.slot.values (lowKey x) := by
  have hx : c.key * lowDomainSize + lowKey x = x := hkey ▸ compose_chunkKey_lowKey x
  conv_lhs => rw [← hx]
  exact rank_map_add _ _ _

theorem mem_values_of_key (h : c.Valid K sb) (hkey : c.key = chunkKey x) :
    x ∈ c.values ↔ lowKey x ∈ c.slot.values := by
  constructor
  · exact fun hx ↦ (h.chunkKey_of_mem hx).2
  · intro hlow
    refine List.mem_map.mpr ⟨lowKey x, hlow, ?_⟩
    rw [hkey, compose_chunkKey_lowKey]

end Chunks

section View

variable {sb : Bool} {v : RankedView} {b : Bitmap}

theorem RankedOf.length_eq (h : RankedOf v b) : v.view.index.length = b.chunks.length :=
  h.entries.length_eq

theorem RankedOf.entry (h : RankedOf v b) {k : Nat} (hk : k < v.view.index.length)
    (hk' : k < b.chunks.length) : RankedEntry v v.view.index[k] b.chunks[k] := h.entries.get hk hk'

/-- The cardinalities of the index are the lengths of the chunks. -/
theorem RankedOf.cardinalities_eq (h : RankedOf v b) (hb : b.Valid .u32 sb) :
    cardinalities v.view.index = b.chunks.map fun c ↦ c.values.length := by
  apply List.ext_getElem
  · rw [cardinalities, List.length_map, List.length_map]
    exact h.length_eq
  · intro k hk hk'
    rw [List.length_map] at hk'
    have hke : k < v.view.index.length := h.length_eq ▸ hk'
    rw [List.getElem_map]
    refine (List.getElem_map _).trans ?_
    rw [(h.entry hke hk').entry.cardinality, (hb.chunks _ (List.getElem_mem hk')).length_values]

theorem length_flatMap_take (b : Bitmap) (k : Nat) :
    ((b.chunks.take k).flatMap Chunk.values).length =
      before (b.chunks.map fun c ↦ c.values.length) k := by
  rw [List.length_flatMap, before, List.map_take]

/-- Where the lookup of a chunk key ends: at its entry, or between the entries around it. -/
theorem RankedOf.findEntry_cases (h : RankedOf v b) (chunk : Nat) :
    (∃ k, ∃ hk : k < v.view.index.length, v.view.index[k].chunk = chunk ∧
      v.findEntry chunk = .value (.inl v.view.index[k])) ∨
    ∃ k, k ≤ v.view.index.length ∧ (∀ j (hj : j < v.view.index.length), j < k →
        v.view.index[j].chunk < chunk) ∧
      (∀ j (hj : j < v.view.index.length), k ≤ j → chunk < v.view.index[j].chunk) ∧
      v.findEntry chunk = .value (.inr ⟨before (cardinalities v.view.index) k, false⟩) := by
  have hlen : (cardinalities v.view.index).length = v.view.index.length := List.length_map _
  have hall : v.size = before (cardinalities v.view.index) v.view.index.length := by
    rw [h.opened.size, ← hlen, before_length]
  rw [RankedView.findEntry, h.opened.chunkCount]
  split
  · rename_i hcontiguous
    have hkey := h.contiguous hcontiguous
    split
    · right
      refine ⟨0, Nat.zero_le _, fun j hj hj0 ↦ absurd hj0 (Nat.not_lt_zero j), fun j hj _ ↦ ?_, rfl⟩
      rw [hkey j hj]
      omega
    · dsimp only
      split
      · right
        refine ⟨v.view.index.length, le_rfl, fun j hj _ ↦ ?_, fun j hj hle ↦ by omega, ?_⟩
        · rw [hkey j hj]
          omega
        · rw [hall]
          rfl
      · left
        rename_i hge hlt
        have hlt := Nat.lt_of_not_le hlt
        refine ⟨chunk - v.firstChunk, hlt, ?_, ?_⟩
        · rw [hkey _ hlt]
          omega
        · rw [entryAt_of_lt hlt]
          rfl
  · have hbelow : ∀ j (hj : j < v.view.index.length), j < lowerBoundEntry v.view.index chunk →
        v.view.index[j].chunk < chunk := by
      intro j hj hlt
      have := List.not_of_lt_findIdx hlt
      rwa [decide_eq_false_iff_not, Nat.not_le] at this
    dsimp only
    split
    · rename_i hend
      right
      refine ⟨v.view.index.length, le_rfl, fun j hj _ ↦ hbelow j hj (hend ▸ hj),
        fun j hj hle ↦ by omega, ?_⟩
      rw [hall]
      rfl
    · rename_i hend
      set it := lowerBoundEntry v.view.index chunk with hit
      have hlt : it < v.view.index.length := Nat.lt_of_le_of_ne List.findIdx_le_length hend
      have hle : chunk ≤ v.view.index[it].chunk := by
        have := List.findIdx_getElem (w := hlt)
        exact of_decide_eq_true this
      have hsmall : v.view.index[it].chunk ≤ 0xFFFF :=
        (h.opened.accepted.entries _ (List.getElem_mem hlt)).chunk_le
      rw [entryAt_of_lt hlt, Parsed.value_bind,
        u32_of_lt (show v.view.index[it].chunk < 2 ^ 32 by omega)]
      split
      · rename_i hne
        right
        refine ⟨it, hlt.le, hbelow, fun j hj hle' ↦ ?_, ?_⟩
        · have hfirst : chunk < v.view.index[it].chunk := Nat.lt_of_le_of_ne hle (Ne.symm hne)
          rcases Nat.lt_or_eq_of_le hle' with hlt' | rfl
          · exact hfirst.trans
              (List.pairwise_iff_getElem.mp h.opened.accepted.ascending it j hlt hj hlt')
          · exact hfirst
        · rw [h.opened.accepted.base it _ (List.getElem?_eq_getElem hlt)]
          rfl
      · rename_i heq
        left
        exact ⟨it, hlt, Decidable.not_not.mp heq, rfl⟩

/-- The lookup of a key: the keys of the bitmap below it, and whether it is one of them. -/
theorem RankedOf.find_eq (h : RankedOf v b) (hb : b.Valid .u32 sb) (x : Nat) :
    v.find x = .value ⟨rank b.values x, decide (x ∈ b.values)⟩ := by
  have hcards := h.cardinalities_eq hb
  have hvalid := hb.chunks
  rw [RankedView.find]
  rcases h.findEntry_cases (chunkKey x) with ⟨k, hk, hchunk, hfind⟩ | ⟨k, hk, hbelow, habove, hfind⟩
  · have hk' : k < b.chunks.length := h.length_eq ▸ hk
    have hentry := h.entry hk hk'
    have hc := hvalid _ (List.getElem_mem hk')
    have hkey : b.chunks[k].key = chunkKey x := hentry.entry.chunk.symm.trans hchunk
    have hsplit : b.chunks = b.chunks.take k ++ b.chunks[k] :: b.chunks.drop (k + 1) := by
      rw [← List.drop_eq_getElem_cons hk', List.take_append_drop]
    have hasc := hb.ascending
    rw [hsplit, List.pairwise_append] at hasc
    obtain ⟨-, hback, hfront⟩ := hasc
    have hlt : ∀ c ∈ b.chunks.take k, ∀ y ∈ c.values, y < x := fun c hc ↦
      (hvalid c (List.mem_of_mem_take hc)).lt_of_key_lt (hkey ▸ hfront c hc _ List.mem_cons_self)
    have hgt : ∀ c ∈ b.chunks.drop (k + 1), ∀ y ∈ c.values, x < y := by
      intro c hc y hy
      have hv := hvalid c (List.mem_of_mem_drop hc)
      have hlt := List.rel_of_pairwise_cons hback hc
      rw [hkey, ← (hv.chunkKey_of_mem hy).1] at hlt
      exact Nat.lt_of_div_lt_div hlt
    have hrank : rank b.values x =
        before (cardinalities v.view.index) k + rank b.chunks[k].slot.values (lowKey x) := by
      rw [Bitmap.values, hcards, ← length_flatMap_take, ← rank_values_of_key hkey]
      conv_lhs => rw [hsplit]
      exact rank_flatMap Chunk.values hlt fun c hc y hy ↦ (hgt c hc y hy).le
    have hmem : x ∈ b.values ↔ lowKey x ∈ b.chunks[k].slot.values := by
      rw [← mem_values_of_key hc hkey, Bitmap.values, List.mem_flatMap]
      constructor
      · rintro ⟨c, hmem, hx⟩
        rw [hsplit] at hmem
        rcases List.mem_append.mp hmem with hmem | hmem
        · exact absurd (hlt c hmem x hx) (Nat.lt_irrefl x)
        · rcases List.mem_cons.mp hmem with rfl | hmem
          · exact hx
          · exact absurd (hgt c hmem x hx) (Nat.lt_irrefl x)
      · exact fun hx ↦ ⟨_, List.getElem_mem hk', hx⟩
    rw [hfind, Parsed.value_bind]
    show v.entryPosition _ _ = _
    rw [hentry.position hc (lowKey_lt x), h.opened.accepted.base k _ (List.getElem?_eq_getElem hk),
      hrank,
      decide_eq_decide.mpr hmem]
  · have hlt : ∀ c ∈ b.chunks.take k, ∀ y ∈ c.values, y < x := by
      intro c hc
      obtain ⟨j, hj, rfl⟩ := List.getElem_of_mem hc
      rw [List.length_take] at hj
      have hj' : j < b.chunks.length := by omega
      have hje : j < v.view.index.length := h.length_eq ▸ hj'
      rw [List.getElem_take]
      apply (hvalid _ (List.getElem_mem hj')).lt_of_key_lt
      rw [← (h.entry hje hj').entry.chunk]
      exact hbelow j hje (by omega)
    have hgt : ∀ c ∈ b.chunks.drop k, ∀ y ∈ c.values, x < y := by
      intro c hc y hy
      obtain ⟨j, hj, rfl⟩ := List.getElem_of_mem hc
      rw [List.length_drop] at hj
      have hj' : k + j < b.chunks.length := by omega
      have hje : k + j < v.view.index.length := h.length_eq ▸ hj'
      rw [List.getElem_drop] at hy
      have hkey := habove (k + j) hje (Nat.le_add_right k j)
      rw [(h.entry hje hj').entry.chunk,
        ← ((hvalid _ (List.getElem_mem hj')).chunkKey_of_mem hy).1] at hkey
      exact Nat.lt_of_div_lt_div hkey
    have hrank : rank b.values x = before (cardinalities v.view.index) k := by
      rw [Bitmap.values, hcards, ← length_flatMap_take]
      conv_lhs => rw [← List.take_append_drop k b.chunks]
      rw [List.flatMap_append]
      apply rank_cut
      · intro y hy
        obtain ⟨c, hc, hy⟩ := List.mem_flatMap.mp hy
        exact hlt c hc y hy
      · intro y hy
        obtain ⟨c, hc, hy⟩ := List.mem_flatMap.mp hy
        exact (hgt c hc y hy).le
    have habsent : x ∉ b.values := by
      intro hx
      obtain ⟨c, hc, hx⟩ := List.mem_flatMap.mp hx
      rw [← List.take_append_drop k b.chunks] at hc
      rcases List.mem_append.mp hc with hc | hc
      · exact absurd (hlt c hc x hx) (Nat.lt_irrefl x)
      · exact absurd (hgt c hc x hx) (Nat.lt_irrefl x)
    rw [hfind, Parsed.value_bind, hrank, decide_eq_false habsent]
    rfl

/-- The key of an ordinal is the key of the bitmap that stands there. -/
theorem RankedOf.select_eq (bmi2 : Bool) (h : RankedOf v b) (hb : b.Valid .u32 sb) {i : Nat}
    (hi : i < v.size) : ∃ x, v.select bmi2 i = .value x ∧ b.values[i]? = some x := by
  have hcards := h.cardinalities_eq hb
  obtain ⟨k, e, hk, hlo, hhi, hwithin, hselect⟩ := select_entry bmi2 h.opened hi
  obtain ⟨hke, rfl⟩ := List.getElem?_eq_some_iff.mp hk
  have hk' : k < b.chunks.length := h.length_eq ▸ hke
  have hentry := h.entry hke hk'
  have hc := hb.chunks _ (List.getElem_mem hk')
  obtain ⟨low, hlow, hvalue⟩ := hentry.select bmi2 hc (hentry.entry.cardinality ▸ hwithin)
  have hlowSmall : low < lowDomainSize := hc.slot.values_lt low (List.mem_of_getElem? hvalue)
  have hkeySmall : b.chunks[k].key < 2 ^ 16 := hc.key_lt
  rw [hcards] at hlo hhi hvalue
  refine ⟨compose b.chunks[k].key low, ?_, ?_⟩
  · have hshift : u32 (u32 b.chunks[k].key <<< 16) = b.chunks[k].key <<< 16 := by
      rw [u32_of_lt (show b.chunks[k].key < 2 ^ 32 by omega), Nat.shiftLeft_eq,
        u32_of_lt (by omega)]
    rw [hselect, hlow, Parsed.value_bind, hentry.entry.chunk, hshift,
      Nat.mod_eq_of_lt (show low < 2 ^ 16 from hlowSmall),
      ← Nat.shiftLeft_add_eq_or_of_lt (show low < 2 ^ 16 from hlowSmall), Nat.shiftLeft_eq]
    rfl
  · have hget : b.chunks[k]? = some b.chunks[k] := List.getElem?_eq_getElem hk'
    rw [Bitmap.values, getElem?_flatMap_of_before Chunk.values hget hlo hhi, Chunk.values,
      List.getElem?_map, hvalue]
    rfl

end View

/-- The view of a written ranked image. -/
theorem exists_rankedOf {sb : Bool} {b : Bitmap} (hb : b.Valid .u32 sb) (hmany : b.size < 2 ^ 32)
    (hsize : b.frozenSizeBytes true < 2 ^ 32) :
    ∃ v, RankedView.ofImage (b.frozenSerialize .u32 true).1 = .value v ∧ v.size = b.size ∧
      RankedOf v b := by
  have hview : frozenViewFrom .u32 (b.frozenSerialize .u32 true).1 =
      .value (b.frozenView .u32 true) :=
    frozenViewFrom_eq_frozenView hb (fun _ ↦ ⟨by decide, hmany⟩) hsize
  obtain ⟨haccepted, -⟩ := frozenViewFrom_acceptedRanked hview rfl
  obtain ⟨v, hof, hview', hover⟩ := ofView_over haccepted
  have hdata := congrArg Prod.fst (frozenSerialize_eq .u32 true b)
  have hfront := length_frozenFront .u32 true b
  have hentries : List.Forall₂ (EntryOf v.view.data) v.view.index b.chunks := by
    rw [hview']
    refine @entriesOf_frozenEntries _ _ _ _ hb.chunks _ _ [] _ _ ?_ hfront
    rw [List.append_nil]
    exact hdata
  have hranks : List.Forall₂ (RanksOf v.view.data) v.view.index b.chunks := by
    rw [hview']
    exact ranksOf_frozenEntries hb.chunks hdata hfront
  have hvsize : v.size = b.size := by
    rw [hover.size, hview', haccepted.total]
    rfl
  refine ⟨v, ?_, hvsize, hover, ?_, fun hcontiguous ↦ ofView_contiguous haccepted hof hcontiguous⟩
  · rw [RankedView.ofImage, hview, Parsed.value_bind, hof]
  · rw [List.forall₂_iff_get]
    refine ⟨hentries.length_eq, fun k hk hk' ↦ ?_⟩
    have he : EntryOf v.view.data v.view.index[k] b.chunks[k] := hentries.get hk hk'
    have hbase := hover.accepted.base k _ (List.getElem?_eq_getElem hk)
    have hcards : (cardinalities v.view.index).length = v.view.index.length := List.length_map _
    have hsum := before_le_sum (cardinalities v.view.index) (k + 1)
    have hat : (cardinalities v.view.index).getD k 0 = v.view.index[k].cardinality := by
      rw [List.getD_eq_getElem _ _ (hcards ▸ hk)]
      exact List.getElem_map _
    rw [before_succ (hcards ▸ hk), hat, ← hover.size, hvsize, ← hbase, he.cardinality] at hsum
    exact ⟨he, hranks.get hk hk', hover.accepted.entries _ (List.getElem_mem hk),
      hsum.trans_lt hmany⟩

/-- Rank and selection on a ranked image.  The image of a valid bitmap opens as a
ranked view with the bitmap's size, which counts the keys below any key, knows a
key's ordinal and membership, and finds the key of any ordinal. -/
theorem rankedView_answers {sb : Bool} (b : ValidBitmap .u32 sb) (hmany : b.bitmap.size < 2 ^ 32)
    (hsize : b.bitmap.frozenSizeBytes true < 2 ^ 32) :
    ∃ v, RankedView.ofImage (b.bitmap.frozenSerialize .u32 true).1 = .value v ∧
      v.size = b.bitmap.values.length ∧
      (∀ x, v.countBelow x = .value (rank b.bitmap.values x) ∧
        v.indexOf x = .value
          (if x ∈ b.bitmap.values then rank b.bitmap.values x else RankedView.npos) ∧
        v.contains x = .value (decide (x ∈ b.bitmap.values))) ∧
      ∀ bmi2 i, ∀ hi : i < b.bitmap.values.length,
        v.select bmi2 i = .value b.bitmap.values[i] ∧ v.indexOf b.bitmap.values[i] = .value i := by
  obtain ⟨v, hv, hvsize, hof⟩ := exists_rankedOf b.valid hmany hsize
  have hlen := b.valid.size_eq_length_values
  have hfind := hof.find_eq b.valid
  have hindexOf : ∀ x, v.indexOf x = .value
      (if x ∈ b.bitmap.values then rank b.bitmap.values x else RankedView.npos) := by
    intro x
    rw [RankedView.indexOf, hfind, Parsed.value_bind]
    by_cases hx : x ∈ b.bitmap.values
    · simp [hx]
    · simp [hx]
  refine ⟨v, hv, hvsize.trans hlen, fun x ↦ ⟨?_, hindexOf x, ?_⟩, fun bmi2 i hi ↦ ⟨?_, ?_⟩⟩
  · rw [RankedView.countBelow, hfind]
    rfl
  · rw [RankedView.contains, hfind]
    rfl
  · obtain ⟨x, hx, hget⟩ := hof.select_eq bmi2 b.valid (hi.trans_eq (hvsize.trans hlen).symm)
    rw [List.getElem?_eq_getElem hi, Option.some_inj] at hget
    rw [hx, hget]
  · rw [hindexOf, if_pos (List.getElem_mem hi), rank_getElem b.valid.values_ascending hi]

theorem rankedView_answers_arrayAndRun :
    ∃ v, RankedView.ofImage (arrayAndRun.bitmap.frozenSerialize .u32 true).1 = .value v ∧
      v.countBelow 65544 = .value 3 ∧ v.select true 3 = .value 65544 := by
  obtain ⟨v, hv, -, hlookups, hselect⟩ := rankedView_answers arrayAndRun (by decide) (by decide)
  exact ⟨v, hv, (hlookups 65544).1, (hselect true 3 (by decide)).1⟩

end Roaring
