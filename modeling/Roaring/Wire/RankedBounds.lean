import Mathlib
import Roaring.Wire.FrozenAccept
import Roaring.Wire.RankedSearch

/-!
# Reads of an untrusted ranked image

Opening an image checks, for every entry of its index, where the payload and the
rank block lie and that their sizes agree with the cardinality, and that the
bases are the running sums of the cardinalities.  What the payloads and the rank
blocks hold is not read.  `AcceptedRanked` is what such an image is known to
satisfy; it bounds every read of the four lookups.
-/

namespace Roaring

open Lib

/-! ## What opening an image checks -/

/-- The checks of one entry of a ranked image of `size` bytes. -/
structure FrozenChunkIndex.Checked (K : KeyType) (size : Nat) (e : FrozenChunkIndex) : Prop where
  chunk_le : e.chunk ≤ K.chunkTypeMax
  bytes : e.payloadBytes = frozenExpectedPayloadBytes e
  counts : frozenRankedCountsMatch e = true
  inside : e.payloadOffset + e.payloadBytes + FrozenView.entryRankBytes e ≤ size

theorem frozenScanEntry_checked {K : KeyType} {size : Nat} {s s' : FrozenScan}
    {e : FrozenChunkIndex} (h : frozenScanEntry K size true s e = some s') :
    e.Checked K size ∧ (∀ k ∈ s.previousChunk, k < e.chunk) ∧ e.base = s.totalCardinality ∧
      s'.previousChunk = some e.chunk ∧
        s'.totalCardinality = s.totalCardinality + e.cardinality := by
  rw [frozenScanEntry] at h
  simp only [if_true, true_and, Option.ite_none_left_eq_some, not_or, Decidable.not_not] at h
  obtain ⟨hprevious, hchunk, -, -, -, hbytes, ⟨hbase, hcounts⟩, hinside, hstate⟩ := h
  cases hstate
  refine ⟨⟨Nat.le_of_not_lt hchunk, hbytes, hcounts, Nat.le_of_not_lt hinside⟩, ?_, hbase, rfl, rfl⟩
  intro k hk
  rw [Option.mem_def.mp hk, Option.any_some, decide_eq_true_eq] at hprevious
  exact Nat.lt_of_not_le hprevious

/-- The cardinalities of the entries of an index. -/
def cardinalities (index : List FrozenChunkIndex) : List Nat :=
  index.map FrozenChunkIndex.cardinality

/-- What the loop over the index has checked of the entries it returns. -/
structure IndexChecked (K : KeyType) (size : Nat) (s : FrozenScan) (index : List FrozenChunkIndex) :
    Prop where
  entries : ∀ e ∈ index, e.Checked K size
  ascending : index.Pairwise fun e f ↦ e.chunk < f.chunk
  previous : ∀ k ∈ s.previousChunk, ∀ e ∈ index, k < e.chunk
  base : ∀ k e, index[k]? = some e → e.base = s.totalCardinality + before (cardinalities index) k

theorem frozenScanIndex_checked {K : KeyType} {buf : List UInt8} {n i : Nat} {s s' : FrozenScan}
    {index : List FrozenChunkIndex} (h : frozenScanIndex K buf true n i s = .value (s', index)) :
    index.length = n ∧ IndexChecked K buf.length s index ∧
      s'.totalCardinality = s.totalCardinality + (cardinalities index).sum := by
  induction n generalizing i s index with
  | zero =>
      rw [frozenScanIndex] at h
      cases h
      refine ⟨rfl, ⟨List.forall_mem_nil _, List.Pairwise.nil, fun _ _ ↦ List.forall_mem_nil _, ?_⟩,
        rfl⟩
      intro k e hk
      cases hk
  | succ n ih =>
      rw [frozenScanIndex, Parsed.bind_eq_value] at h
      obtain ⟨bytes, -, h⟩ := h
      dsimp only at h
      split at h
      · cases h
      · rename_i s₁ hentry
        rw [Parsed.bind_eq_value] at h
        obtain ⟨⟨s₂, rest⟩, hrest, h⟩ := h
        cases h
        obtain ⟨hlen, hchecked, htotal⟩ := ih hrest
        obtain ⟨he, hprevious, hbase, hchunk, hsum⟩ := frozenScanEntry_checked hentry
        have hbehind := hchecked.previous _ hchunk
        refine ⟨congrArg Nat.succ hlen, ⟨?_, ?_, ?_, ?_⟩, ?_⟩
        · exact List.forall_mem_cons.mpr ⟨he, hchecked.entries⟩
        · exact List.pairwise_cons.mpr ⟨hbehind, hchecked.ascending⟩
        · intro k hk
          have hlt := hprevious k hk
          exact List.forall_mem_cons.mpr ⟨hlt, fun f hf ↦ hlt.trans (hbehind f hf)⟩
        · intro k e hk
          cases k with
          | zero =>
              rw [List.getElem?_cons_zero] at hk
              cases hk
              exact hbase
          | succ k =>
              have hfront : before (cardinalities (frozenChunkIndexOf bytes :: rest)) (k + 1) =
                  (frozenChunkIndexOf bytes).cardinality + before (cardinalities rest) k := rfl
              rw [hchecked.base k e hk, hsum, Nat.add_assoc, ← hfront]
        · have hall : (cardinalities (frozenChunkIndexOf bytes :: rest)).sum =
              (frozenChunkIndexOf bytes).cardinality + (cardinalities rest).sum := rfl
          exact htotal.trans (by rw [hsum, Nat.add_assoc, ← hall])

/-- What an accepted ranked image is known to satisfy. -/
structure AcceptedRanked (K : KeyType) (v : FrozenView) : Prop where
  version : v.header.version = frozenRankedFormatVersion
  count : v.index.length = v.header.chunkCount
  entries : ∀ e ∈ v.index, e.Checked K v.data.length
  ascending : v.index.Pairwise fun e f ↦ e.chunk < f.chunk
  base : ∀ k e, v.index[k]? = some e → e.base = before (cardinalities v.index) k
  total : (cardinalities v.index).sum = v.header.valueCount
  small : v.header.valueCount < 2 ^ 32

theorem frozenViewFrom_acceptedRanked {K : KeyType} {buf : List UInt8} {v : FrozenView}
    (h : frozenViewFrom K buf = .value v)
    (hversion : v.header.version = frozenRankedFormatVersion) :
    AcceptedRanked K v ∧ v.data = buf := by
  rw [frozenViewFrom] at h
  split at h
  · cases h
  · rw [Parsed.bind_eq_value] at h
    obtain ⟨bytes, -, h⟩ := h
    dsimp only at h
    split at h
    · cases h
    · split at h
      · cases h
      · rename_i hranked
        split at h
        · cases h
        · rw [Parsed.bind_eq_value] at h
          obtain ⟨⟨s, index⟩, hscan, h⟩ := h
          dsimp only at h
          split at h
          · cases h
          · rename_i htotal
            cases h
            have hversion : (frozenHeaderOf bytes).version = frozenRankedFormatVersion := hversion
            rw [decide_eq_true hversion] at hscan hranked
            obtain ⟨hlen, hchecked, hsum⟩ := frozenScanIndex_checked hscan
            rw [not_or, Decidable.not_not] at htotal
            have hsum : s.totalCardinality = (cardinalities index).sum :=
              hsum.trans (Nat.zero_add _)
            refine ⟨⟨hversion, hlen, hchecked.entries, hchecked.ascending, ?_, ?_, ?_⟩, rfl⟩
            · intro k e hk
              exact (hchecked.base k e hk).trans (Nat.zero_add _)
            · exact hsum.symm.trans htotal.2
            · by_contra hge
              exact hranked ⟨rfl, .inr (Nat.le_of_not_lt hge)⟩

/-! ## One entry -/

section Entry

variable {K : KeyType} {v : RankedView} {e : FrozenChunkIndex}

theorem payloadWindow_inside (h : e.Checked K v.view.data.length) :
    (v.view.payloadWindow e).Inside := (Nat.le_add_right _ _).trans h.inside

theorem rankWindow_inside (h : e.Checked K v.view.data.length) : (v.view.rankWindow e).Inside :=
  h.inside

/-- The sizes that the checks tie to the cardinality, kind by kind. -/
theorem Checked.sizes (h : e.Checked K v.view.data.length) :
    0 < e.cardinality ∧ e.cardinality ≤ lowDomainSize ∧
      match frozenContainerKindOf e.containerKind with
      | some .array => e.payloadCount = e.cardinality ∧ e.payloadBytes = e.payloadCount * 2
      | some .run => 0 < e.payloadCount ∧ e.payloadCount ≤ e.cardinality ∧
          e.payloadBytes = e.payloadCount * 4 ∧ FrozenView.entryRankBytes e = e.payloadCount * 2
      | some .bitset => e.payloadBytes = wordCount * 8 ∧ FrozenView.entryRankBytes e = wordCount * 2
      | none => False := by
  have hcounts := h.counts
  have hbytes := h.bytes
  rw [frozenRankedCountsMatch] at hcounts
  rw [frozenExpectedPayloadBytes] at hbytes
  split at hcounts
  · exact absurd hcounts Bool.false_ne_true
  · rename_i hcard
    refine ⟨by omega, by omega, ?_⟩
    rw [FrozenView.entryRankBytes]
    split
    · rename_i hkind
      rw [hkind] at hcounts hbytes
      exact ⟨of_decide_eq_true hcounts, hbytes⟩
    · rename_i hkind
      rw [hkind] at hcounts hbytes
      rw [Bool.and_eq_true, decide_eq_true_eq, decide_eq_true_eq] at hcounts
      exact ⟨Nat.pos_of_ne_zero hcounts.1, hcounts.2, hbytes, by rw [hkind]; rfl⟩
    · rename_i hkind
      rw [hkind] at hbytes
      exact ⟨hbytes, by rw [hkind]; rfl⟩
    · rename_i hkind
      rw [hkind] at hcounts
      exact Bool.false_ne_true hcounts

/-- The rank block of an entry, as the numbers that fill it. -/
def rankCounts (v : RankedView) (e : FrozenChunkIndex) (n : Nat) : List Nat :=
  (v.view.rankWindow e).items 2 n

theorem length_rankCounts (v : RankedView) (e : FrozenChunkIndex) (n : Nat) :
    (rankCounts v e n).length = n := length_units _ _ _

/-- A word of a bitset payload. -/
theorem unit_word (h : (v.view.payloadWindow e).Inside) (hbytes : e.payloadBytes = wordCount * 8)
    {i : Nat} (hi : i < wordCount) :
    ∃ bits, (v.view.payloadWindow e).unit 8 i = .value bits ∧
      BitVec.ofNat 64 bits = (wordsOfBytes (v.view.payloadBytes e)).word i := by
  have hfit : wordCount * 8 ≤ (v.view.payloadWindow e).size := hbytes.symm.le
  refine ⟨_, Window.reads h hfit i (by rwa [Window.items, length_units]), ?_⟩
  rw [wordsOfBytes, Words.word_ofFn _ hi, List.getD_eq_getElem?_getD, Window.items,
    getElem?_units 8 hi, mul_comm 8 i]
  rfl

theorem entryPosition_bitset (h : e.Checked K v.view.data.length)
    (hkind : frozenContainerKindOf e.containerKind = some .bitset) {low : Nat}
    (hlow : low < lowDomainSize) :
    let word := (wordsOfBytes (v.view.payloadBytes e)).word (low / 64)
    v.entryPosition e low = .value
      ⟨u32 (e.base + (rankCounts v e wordCount).getD (low / 64) 0 + popcount
        (lowBits word (low % 64))),
        word.getLsbD (low % 64)⟩ := by
  have hsizes := Checked.sizes h
  rw [hkind] at hsizes
  obtain ⟨-, -, hbytes, hrank⟩ := hsizes
  have hword : low / 64 < wordCount := Nat.div_lt_of_lt_mul hlow
  obtain ⟨bits, hbits, heq⟩ := unit_word (payloadWindow_inside h) hbytes hword
  have hreads := Window.reads (rankWindow_inside h) (n := wordCount) hrank.symm.le (low / 64)
    (by rwa [Window.items, length_units])
  rw [RankedView.entryPosition, hkind]
  dsimp only
  rw [hbits, Parsed.value_bind, hreads, Parsed.value_bind, heq]
  rfl

theorem entryPosition_array (h : e.Checked K v.view.data.length)
    (hkind : frozenContainerKindOf e.containerKind = some .array) (low : Nat) :
    let values := units 2 e.payloadCount (v.view.payloadBytes e)
    ∃ r, v.entryPosition e low = .value ⟨u32 (e.base + r), values[r]? = some low⟩ ∧
      (values.Pairwise (· < ·) → r = rank values low) := by
  have hsizes := Checked.sizes h
  rw [hkind] at hsizes
  obtain ⟨-, -, -, hbytes⟩ := hsizes
  have hreads :
      Reads ((v.view.payloadWindow e).unit 2) (units 2 e.payloadCount (v.view.payloadBytes e)) :=
    Window.reads (payloadWindow_inside h) hbytes.symm.le
  intro values
  have hlen : values.length = e.payloadCount := length_units _ _ _
  obtain ⟨r, hr, hle, hrank⟩ := arrayLowerBound_eq hreads low
  refine ⟨r, ?_, hrank⟩
  rw [RankedView.entryPosition, hkind]
  dsimp only
  rw [RankedView.arrayPosition, ← hlen, hr, Parsed.value_bind]
  split
  · rename_i hlt
    have hpresent : decide (values[r] = low) = decide (some values[r] = some low) :=
      decide_eq_decide.mpr Option.some_inj.symm
    rw [hreads r hlt, Parsed.value_bind, List.getD_eq_getElem _ _ hlt, List.getElem?_eq_getElem hlt]
    exact congrArg (fun present ↦ Parsed.value (RankPosition.mk _ present)) hpresent
  · rename_i hge
    rw [List.getElem?_eq_none (Nat.le_of_not_lt hge)]
    rfl

theorem entryPosition_run (h : e.Checked K v.view.data.length)
    (hkind : frozenContainerKindOf e.containerKind = some .run) (low : Nat) :
    let runs := runsOfBytes e.payloadCount (v.view.payloadBytes e)
    let position : RankPosition := if lastRun runs low < 0 then ⟨0, false⟩
      else
        let last := (lastRun runs low).toNat
        let r := runs.getD last ⟨0, 0⟩
        ⟨u32 ((rankCounts v e e.payloadCount).getD last 0 + u32Sub (min low (r.last + 1)) r.first),
          low ≤ r.last⟩
    v.entryPosition e low = .value ⟨u32 (e.base + position.below), position.present⟩ := by
  have hsizes := Checked.sizes h
  rw [hkind] at hsizes
  obtain ⟨-, -, -, -, hbytes, hrank⟩ := hsizes
  have hruns : RunReads ((v.view.payloadWindow e).unit 2)
      (runsOfBytes e.payloadCount (v.view.payloadBytes e)) :=
    runReads_window (payloadWindow_inside h) hbytes.symm.le
  have hranks : Reads ((v.view.rankWindow e).unit 2) (rankCounts v e e.payloadCount) :=
    Window.reads (rankWindow_inside h) hrank.symm.le
  have hlen := length_runsOfBytes e.payloadCount (v.view.payloadBytes e)
  have hposition := runPosition_eq hruns hranks ((length_rankCounts v e _).trans hlen.symm) low
  rw [hlen] at hposition
  intro runs position
  rw [RankedView.entryPosition, hkind]
  dsimp only
  rw [hposition, Parsed.value_bind]
  rfl

/-- The position of a low key is found by reads inside the two windows of the entry. -/
theorem entryPosition_bounded (h : e.Checked K v.view.data.length) {low : Nat}
    (hlow : low < lowDomainSize) : ∃ p, v.entryPosition e low = .value p := by
  have hsizes := (Checked.sizes h).2.2
  cases hkind : frozenContainerKindOf e.containerKind with
  | none =>
      rw [hkind] at hsizes
      exact hsizes.elim
  | some kind =>
      cases kind with
      | array =>
          obtain ⟨r, hr, -⟩ := entryPosition_array h hkind low
          exact ⟨_, hr⟩
      | run => exact ⟨_, entryPosition_run h hkind low⟩
      | bitset => exact ⟨_, entryPosition_bitset h hkind hlow⟩

theorem entrySelect_array (bmi2 : Bool) (h : e.Checked K v.view.data.length)
    (hkind : frozenContainerKindOf e.containerKind = some .array) {within : Nat}
    (hwithin : within < e.cardinality) :
    v.entrySelect bmi2 e within =
      .value ((units 2 e.payloadCount (v.view.payloadBytes e)).getD within 0) := by
  have hsizes := Checked.sizes h
  rw [hkind] at hsizes
  obtain ⟨-, -, hcount, hbytes⟩ := hsizes
  have hreads :
      Reads ((v.view.payloadWindow e).unit 2) (units 2 e.payloadCount (v.view.payloadBytes e)) :=
    Window.reads (payloadWindow_inside h) hbytes.symm.le
  rw [RankedView.entrySelect, hkind]
  exact hreads within (by rw [length_units]; omega)

theorem entrySelect_run (bmi2 : Bool) (h : e.Checked K v.view.data.length)
    (hkind : frozenContainerKindOf e.containerKind = some .run) (within : Nat) :
    let runs := runsOfBytes e.payloadCount (v.view.payloadBytes e)
    let counts := rankCounts v e e.payloadCount
    ∃ runAt, v.entrySelect bmi2 e within = .value
        (u32 ((runs.getD runAt ⟨0, 0⟩).first + u32Sub within (counts.getD runAt 0))) ∧
      ∀ k, PartitionPoint (fun i ↦ counts.getD i 0 ≤ within) counts.length (k + 1) → runAt = k := by
  have hsizes := Checked.sizes h
  rw [hkind] at hsizes
  obtain ⟨-, hcard, hpos, hle, hbytes, hrank⟩ := hsizes
  have hruns : RunReads ((v.view.payloadWindow e).unit 2)
      (runsOfBytes e.payloadCount (v.view.payloadBytes e)) :=
    runReads_window (payloadWindow_inside h) hbytes.symm.le
  have hranks : Reads ((v.view.rankWindow e).unit 2) (rankCounts v e e.payloadCount) :=
    Window.reads (rankWindow_inside h) hrank.symm.le
  have hlen := length_rankCounts v e e.payloadCount
  have hlater : u32Sub e.payloadCount 1 = (rankCounts v e e.payloadCount).length - 1 := by
    rw [hlen, u32Sub]
    unfold lowDomainSize at hcard
    omega
  intro runs counts
  obtain ⟨runAt, hsearch, hlt, hpoint⟩ := upperBound_tail hranks within
    (hpos.trans_eq hlen.symm)
  refine ⟨runAt, ?_, hpoint⟩
  rw [RankedView.entrySelect, hkind]
  dsimp only
  rw [hlater, hsearch, Parsed.value_bind, (hruns runAt (by rw [length_runsOfBytes]; omega)).1,
    Parsed.value_bind, hranks runAt hlt, Parsed.value_bind]
  rfl

theorem entrySelect_bitset (bmi2 : Bool) (h : e.Checked K v.view.data.length)
    (hkind : frozenContainerKindOf e.containerKind = some .bitset) (within : Nat) :
    let words := wordsOfBytes (v.view.payloadBytes e)
    let counts := rankCounts v e wordCount
    ∃ wordAt, v.entrySelect bmi2 e within = .value (u32 (u32 (wordAt * 64) +
        selectInWord bmi2 (words.word wordAt) (u32Sub within (counts.getD wordAt 0)))) ∧
      ∀ k, PartitionPoint (fun i ↦ counts.getD i 0 ≤ within) counts.length (k + 1) →
        wordAt = k := by
  have hsizes := Checked.sizes h
  rw [hkind] at hsizes
  obtain ⟨-, -, hbytes, hrank⟩ := hsizes
  have hranks : Reads ((v.view.rankWindow e).unit 2) (rankCounts v e wordCount) :=
    Window.reads (rankWindow_inside h) hrank.symm.le
  have hlen := length_rankCounts v e wordCount
  intro words counts
  obtain ⟨wordAt, hsearch, hlt, hpoint⟩ := upperBound_tail hranks within
    (by rw [hlen]; exact show 0 < wordCount by decide)
  rw [hlen] at hsearch
  obtain ⟨bits, hbits, heq⟩ := unit_word (payloadWindow_inside h) hbytes (hlen ▸ hlt)
  refine ⟨wordAt, ?_, hpoint⟩
  rw [RankedView.entrySelect, hkind]
  dsimp only
  rw [hsearch, Parsed.value_bind, hbits, Parsed.value_bind, hranks wordAt hlt,
    Parsed.value_bind, heq]
  rfl

/-- The key of an ordinal below the cardinality is found by reads inside the two windows. -/
theorem entrySelect_bounded (bmi2 : Bool) (h : e.Checked K v.view.data.length) {within : Nat}
    (hwithin : within < e.cardinality) : ∃ low, v.entrySelect bmi2 e within = .value low := by
  have hsizes := (Checked.sizes h).2.2
  cases hkind : frozenContainerKindOf e.containerKind with
  | none =>
      rw [hkind] at hsizes
      exact hsizes.elim
  | some kind =>
      cases kind with
      | array => exact ⟨_, entrySelect_array bmi2 h hkind hwithin⟩
      | run =>
          obtain ⟨runAt, hselect, -⟩ := entrySelect_run bmi2 h hkind within
          exact ⟨_, hselect⟩
      | bitset =>
          obtain ⟨wordAt, hselect, -⟩ := entrySelect_bitset bmi2 h hkind within
          exact ⟨_, hselect⟩

end Entry

/-! ## The view -/

/-- A ranked view over an accepted image. -/
structure RankedView.Over (K : KeyType) (v : RankedView) : Prop where
  accepted : AcceptedRanked K v.view
  chunkCount : v.chunkCount = v.view.index.length
  size : v.size = (cardinalities v.view.index).sum

section View

variable {K : KeyType} {v : RankedView}

theorem ofView_over {view : FrozenView} (h : AcceptedRanked K view) :
    ∃ v, RankedView.ofView view = some v ∧ v.view = view ∧ v.Over K := by
  have hsize : u32 view.header.valueCount = (cardinalities view.index).sum := by
    rw [u32, Nat.mod_eq_of_lt h.small]
    exact h.total.symm
  rw [RankedView.ofView, if_neg (fun hne ↦ hne h.version)]
  dsimp only
  split
  · exact ⟨_, rfl, rfl, h, h.count.symm, hsize⟩
  · exact ⟨_, rfl, rfl, h, h.count.symm, hsize⟩

theorem entryAt_of_lt {k : Nat} (hk : k < v.view.index.length) :
    v.entryAt k = .value v.view.index[k] := by rw [RankedView.entryAt, List.getElem?_eq_getElem hk]

/-- The entry a key falls to is one of the index. -/
theorem findEntry_bounded (h : v.Over K) (chunk : Nat) :
    (∃ p, v.findEntry chunk = .value (.inr p)) ∨
      ∃ e ∈ v.view.index, v.findEntry chunk = .value (.inl e) := by
  rw [RankedView.findEntry, h.chunkCount]
  split
  · split
    · exact .inl ⟨_, rfl⟩
    · dsimp only
      split
      · exact .inl ⟨_, rfl⟩
      · rename_i hlt
        have hlt := Nat.lt_of_not_le hlt
        rw [entryAt_of_lt hlt]
        exact .inr ⟨_, List.getElem_mem hlt, rfl⟩
  · dsimp only
    split
    · exact .inl ⟨_, rfl⟩
    · rename_i hne
      have hlt : lowerBoundEntry v.view.index chunk < v.view.index.length :=
        Nat.lt_of_le_of_ne List.findIdx_le_length hne
      rw [entryAt_of_lt hlt, Parsed.value_bind]
      split
      · exact .inl ⟨_, rfl⟩
      · exact .inr ⟨_, List.getElem_mem hlt, rfl⟩

theorem find_bounded (h : v.Over K) (x : Nat) : ∃ p, v.find x = .value p := by
  rw [RankedView.find]
  rcases findEntry_bounded h (chunkKey x) with ⟨p, hfind⟩ | ⟨e, he, hfind⟩
  · rw [hfind, Parsed.value_bind]
    exact ⟨p, rfl⟩
  · rw [hfind, Parsed.value_bind]
    exact entryPosition_bounded (h.accepted.entries e he) (lowKey_lt x)

/-- The entry of an ordinal, and the ordinal inside it. -/
theorem select_entry (bmi2 : Bool) (h : v.Over K) {i : Nat} (hi : i < v.size) :
    ∃ k e, v.view.index[k]? = some e ∧ before (cardinalities v.view.index) k ≤ i ∧
      i < before (cardinalities v.view.index) (k + 1) ∧
      i - before (cardinalities v.view.index) k < e.cardinality ∧
      v.select bmi2 i = (v.entrySelect bmi2 e (i - before (cardinalities v.view.index) k) >>=
          fun low ↦
        .value (u32 (u32 e.chunk <<< 16) ||| low % 2 ^ 16)) := by
  rw [h.size] at hi
  obtain ⟨k, hk, hpoint, hlo, hhi⟩ := exists_block hi
  have hlen : (cardinalities v.view.index).length = v.view.index.length := List.length_map _
  have hke : k < v.view.index.length := hlen ▸ hk
  have hget : v.view.index[k]? = some v.view.index[k] := List.getElem?_eq_getElem hke
  have hbase : ∀ j (hj : j < v.view.index.length),
      v.view.index[j].base = before (cardinalities v.view.index) j :=
    fun j hj ↦ h.accepted.base j _ (List.getElem?_eq_getElem hj)
  set bases := v.view.index.map FrozenChunkIndex.base with hbases
  have hblen : bases.length = v.view.index.length := List.length_map _
  have hgetD : ∀ j, j < v.view.index.length →
      bases.getD j 0 = before (cardinalities v.view.index) j := by
    intro j hj
    rw [List.getD_eq_getElem _ _ (hblen ▸ hj), List.getElem_map, hbase j hj]
  have hreads : Reads v.entryBase bases := by
    intro j hj
    rw [hblen] at hj
    rw [RankedView.entryBase, entryAt_of_lt hj, hgetD j hj, ← hbase j hj]
    rfl
  have hsearch : PartitionPoint (fun j ↦ bases.getD j 0 ≤ i) bases.length (k + 1) := by
    rw [hblen]
    rw [hlen] at hpoint
    refine ⟨hpoint.le, fun j hj ↦ ?_, fun j hj hjn ↦ ?_⟩
    · rw [hgetD j (hj.trans_le hpoint.le)]
      exact hpoint.of_lt j hj
    · rw [hgetD j hjn]
      exact hpoint.not_of_le j hj hjn
  have hupper := upperBound_eq hreads hsearch (Nat.zero_le _)
    (show k + 1 ≤ 0 + v.view.index.length by omega) (by omega)
  have hsum : before (cardinalities v.view.index) (k + 1) =
      before (cardinalities v.view.index) k + v.view.index[k].cardinality := by
    rw [before_succ hk, List.getD_eq_getElem _ _ hk]
    exact congrArg _ (List.getElem_map _)
  have hsmall : i < 2 ^ 32 := hi.trans_le (h.accepted.total.le.trans h.accepted.small.le)
  have hsub : u32Sub i v.view.index[k].base = i - before (cardinalities v.view.index) k := by
    rw [hbase k hke, u32Sub]
    omega
  refine ⟨k, v.view.index[k], hget, hlo, hhi, by omega, ?_⟩
  rw [RankedView.select, h.chunkCount, hupper, Parsed.value_bind]
  dsimp only
  rw [entryAt_of_lt hke, Parsed.value_bind, hsub]
  rfl

theorem select_bounded (bmi2 : Bool) (h : v.Over K) {i : Nat} (hi : i < v.size) :
    ∃ id, v.select bmi2 i = .value id := by
  obtain ⟨k, e, hk, -, -, hwithin, hselect⟩ := select_entry bmi2 h hi
  obtain ⟨low, hlow⟩ := entrySelect_bounded bmi2
    (h.accepted.entries e (List.mem_of_getElem? hk)) hwithin
  rw [hselect, hlow]
  exact ⟨_, rfl⟩

/-- The windows of every entry lie inside the image, and each lookup reads nothing
outside those of the one entry its key or its ordinal falls to. -/
theorem RankedView.Over.boundedReads (h : v.Over K) :
    (∀ e ∈ v.view.index, (v.view.payloadWindow e).Inside ∧ (v.view.rankWindow e).Inside) ∧
    (∀ x, (∃ below, v.countBelow x = .value below) ∧ (∃ ordinal, v.indexOf x = .value ordinal) ∧
      ∃ present, v.contains x = .value present) ∧
    ∀ bmi2 i, i < v.size → ∃ id, v.select bmi2 i = .value id := by
  refine ⟨fun e he ↦ ?_, fun x ↦ ?_, fun bmi2 i hi ↦ select_bounded bmi2 h hi⟩
  · have hchecked := h.accepted.entries e he
    exact ⟨payloadWindow_inside hchecked, rankWindow_inside hchecked⟩
  · obtain ⟨p, hp⟩ := find_bounded h x
    rw [RankedView.countBelow, RankedView.indexOf, RankedView.contains, hp]
    exact ⟨⟨_, rfl⟩, ⟨_, rfl⟩, ⟨_, rfl⟩⟩

end View

/-- Every image that opens as a ranked one gives a view. -/
theorem ofImage_over {buf : List UInt8} {view : FrozenView}
    (hview : frozenViewFrom .u32 buf = .value view)
    (hversion : view.header.version = frozenRankedFormatVersion) :
    ∃ v, RankedView.ofImage buf = .value v ∧ v.view = view ∧ v.view.data = buf ∧ v.Over .u32 := by
  obtain ⟨haccepted, hdata⟩ := frozenViewFrom_acceptedRanked hview hversion
  obtain ⟨v, hof, rfl, hover⟩ := ofView_over haccepted
  refine ⟨v, ?_, rfl, hdata, hover⟩
  rw [RankedView.ofImage, hview, Parsed.value_bind, hof]

/-- Bounded reads of an untrusted ranked image.  Whatever the payloads and the rank
blocks of an accepted image hold, each lookup of its ranked view reads inside the
payload and the rank block of one chunk of the image. -/
theorem rankedView_boundedReads {buf : List UInt8} {view : FrozenView}
    (hview : frozenViewFrom .u32 buf = .value view)
    (hversion : view.header.version = frozenRankedFormatVersion) :
    ∃ v, RankedView.ofImage buf = .value v ∧ v.view.data = buf ∧
      (∀ e ∈ v.view.index, (v.view.payloadWindow e).Inside ∧ (v.view.rankWindow e).Inside) ∧
      (∀ x, (∃ below, v.countBelow x = .value below) ∧ (∃ ordinal, v.indexOf x = .value ordinal) ∧
        ∃ present, v.contains x = .value present) ∧
      ∀ bmi2 i, i < v.size → ∃ id, v.select bmi2 i = .value id := by
  obtain ⟨v, hv, -, hdata, hover⟩ := ofImage_over hview hversion
  exact ⟨v, hv, hdata, hover.boundedReads⟩

/-- A ranked image with runs out of order and a rank block that does not add up. -/
def disorderedImage : List UInt8 :=
  leFields [(4, frozenSerializationMagic), (2, 32), (2, 2), (4, 1), (4, 0), (8, 9)] ++
    leFields [(8, 3), (4, 56), (4, 8), (4, 2), (4, 9), (1, 2), (3, 0), (4, 0)] ++
    leFields [(2, 500), (2, 20), (2, 7), (2, 9)] ++ leFields [(2, 600), (2, 5)]

theorem rankedView_boundedReads_disordered :
    ∃ v, RankedView.ofImage disorderedImage = .value v ∧
      ∃ below, v.countBelow 197000 = .value below := by
  obtain ⟨v, hv, -, -, hlookups, -⟩ :=
    @rankedView_boundedReads disorderedImage _ rfl rfl
  exact ⟨v, hv, (hlookups 197000).1⟩

end Roaring
