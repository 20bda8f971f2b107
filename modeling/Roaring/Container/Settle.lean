import Mathlib
import Roaring.Lib.WordRanges
import Roaring.Container.RunAlgebra
import Roaring.Container.RunEdit
import Roaring.Container.RunBitset

/-!
# Containers settled from words and from runs

A set that was worked out as words, or as runs, becomes a container of the kind that its
cardinality and its runs choose.  A conversion reads one payload and fills another of the
size that was counted for it; the values never change.
-/

namespace Roaring

open Lib

/-! ## Ranges of a word block -/

/-- `range_operation`. -/
inductive RangeOperation where
  | add
  | remove
  | flip
deriving DecidableEq, Repr

/-- What a word becomes under the mask of the range. -/
def RangeOperation.apply : RangeOperation → Word → Word → Word
  | .add, word, mask => word ||| mask
  | .remove, word, mask => word &&& ~~~mask
  | .flip, word, mask => word ^^^ mask

/-- `apply_range_to_words`. -/
def applyRangeToWords (words : Words wordCount) (first last : Nat) (op : RangeOperation) :
    Words wordCount :=
  words.applyRange op.apply first last

/-- `values_from_words`. -/
def valuesFromWords (words : Words wordCount) : List Nat :=
  (List.range wordCount).flatMap fun i ↦ extractSetBits (64 * i) (words.word i)

/-- `words_from_container`. -/
def wordsFromContainer (container : ContainerHandle) : Words wordCount :=
  match container.payload with
  | .bitset words => words
  | _ => (Words.zeroed wordCount).scatter container.values

/-! ## Conversions -/

/-- `make_bitset_container_from_words`. -/
def makeBitsetContainerFromWords (words : Words wordCount) : ContainerHandle :=
  if words.count = 0 then .makeArrayFromSorted [] else .makeBitsetFrom words words.count

/-- `make_container_from_words`. -/
def makeContainerFromWords (eager : Bool) (words : Words wordCount) (bitsetThreshold : Nat) :
    ContainerHandle :=
  let cardinality := words.count
  if cardinality = 0 then .makeArrayFromSorted []
  else if bitsetThreshold ≤ cardinality ∧ bitsetBytes ≤ cardinality * lowTypeBytes then
    .makeBitsetFrom words cardinality
  else makeContainerFromSortedValues eager (valuesFromWords words) bitsetThreshold

/-- The counted fill of one run. -/
def fillRun (r : Run) : List Nat :=
  (List.range (r.last - r.first + 1)).map fun i ↦ (r.first + i) % lowDomainSize

/-- `array_handle_from_container`; nothing is returned when the places counted for it are not just
filled. -/
def arrayHandleFromContainer (container : ContainerHandle) : Option ContainerHandle :=
  let values := match container.payload with
    | .run runs => runs.flatMap fillRun
    | _ => container.values
  if values.length = container.cardinality then some (.syncHeader values) else none

/-- `bitset_handle_from_runs`. -/
def bitsetHandleFromRuns (runs : List Run) : ContainerHandle :=
  makeBitsetContainerFromWords
    (runs.foldl (fun words r ↦ applyRangeToWords words r.first r.last .add)
      (Words.zeroed wordCount))

/-- `settle_run_result`, of a run container. -/
def settleRunResult (result : ContainerHandle) (bitsetThreshold : Nat) : Option ContainerHandle :=
  match result.payload with
  | .run runs =>
    match chooseRunContainerKind result.cardinality runs.length bitsetThreshold with
    | .run => some result
    | .array => arrayHandleFromContainer result
    | .bitset => some (bitsetHandleFromRuns runs)
  | _ => none

/-! ## What the words hold -/

section Words

variable {words : Words wordCount} {first last v : Nat} {op : RangeOperation}

/-- Whether a number is held behind a range operation. -/
def RangeOperation.holds : RangeOperation → Prop → Prop → Prop
  | .add, held, inside => held ∨ inside
  | .remove, held, inside => held ∧ ¬ inside
  | .flip, held, inside => Xor held inside

/-- A range operation on the words changes the bits of the range as it says, and no other. -/
theorem contains_applyRangeToWords (hle : first ≤ last) (hlast : last < lowDomainSize) :
    (applyRangeToWords words first last op).contains v = true ↔
      op.holds (words.contains v = true) (first ≤ v ∧ v ≤ last) := by
  have hlast' : last < 64 * wordCount := hlast
  rw [applyRangeToWords]
  cases op with
  | add =>
    have hf : ∀ w m : Word, ∀ i, i < 64 →
        (RangeOperation.add.apply w m).getLsbD i = (w.getLsbD i || m.getLsbD i) := by
      intro w m i _
      exact BitVec.getLsbD_or
    rw [Words.contains_applyRange words hf Bool.or_false hle hlast']
    simp [RangeOperation.holds]
  | remove =>
    have hf : ∀ w m : Word, ∀ i, i < 64 →
        (RangeOperation.remove.apply w m).getLsbD i = (w.getLsbD i && !m.getLsbD i) := by
      intro w m i hi
      rw [RangeOperation.apply, BitVec.getLsbD_and, BitVec.getLsbD_not, decide_eq_true hi,
        Bool.true_and]
    have hg : ∀ b : Bool, (b && !false) = b := by
      intro b
      rw [Bool.not_false, Bool.and_true]
    rw [Words.contains_applyRange (g := fun a b ↦ a && !b) words hf hg hle hlast', Bool.and_eq_true,
      Bool.not_eq_true',
      decide_eq_false_iff_not]
    rfl
  | flip =>
    have hf : ∀ w m : Word, ∀ i, i < 64 →
        (RangeOperation.flip.apply w m).getLsbD i = (w.getLsbD i).xor (m.getLsbD i) := by
      intro w m i _
      exact BitVec.getLsbD_xor
    rw [Words.contains_applyRange words hf Bool.xor_false hle hlast']
    by_cases hin : first ≤ v ∧ v ≤ last <;> simp [RangeOperation.holds, Xor, hin]

theorem valuesFromWords_eq (words : Words wordCount) : valuesFromWords words = words.values :=
  words.flatMap_extractSetBits

/-- The words of a container hold its values. -/
theorem contains_wordsFromContainer {container : ContainerHandle} (hv : container.Valid) :
    (wordsFromContainer container).contains v = true ↔ v ∈ container.values := by
  have hscatter : ((Words.zeroed wordCount).scatter container.values).contains v = true ↔
      v ∈ container.values := by
    rw [Words.contains_scatter _ hv.values_lt, Words.contains_zeroed, Bool.or_false,
      decide_eq_true_eq]
  rw [wordsFromContainer]
  split
  · rename_i words hwords
    rw [ContainerHandle.values, hwords]
    exact Words.mem_values.symm
  · exact hscatter

/-- Ranges that are added one after the other hold the values of the runs. -/
theorem contains_foldl_add {runs : List Run} (hforward : ∀ r ∈ runs, r.first ≤ r.last)
    (hbounded : ∀ r ∈ runs, r.last < lowDomainSize) :
    (runs.foldl (fun words r ↦ applyRangeToWords words r.first r.last .add) words).contains
      v = true ↔
      words.contains v = true ∨ v ∈ runValues runs := by
  induction runs generalizing words with
  | nil => simp
  | cons r rs ih =>
    have hr : r ∈ r :: rs := List.mem_cons_self
    rw [List.foldl_cons, ih (fun s hs ↦ hforward s (List.mem_cons_of_mem r hs))
      fun s hs ↦ hbounded s (List.mem_cons_of_mem r hs), contains_applyRangeToWords (hforward r hr)
        (hbounded r hr),
      RangeOperation.holds, runValues_cons, List.mem_append, Run.mem_values, or_assoc]

end Words

/-! ## What the conversions hold -/

namespace ContainerHandle

theorem Valid.canonical {h : ContainerHandle} {runs : List Run} (hv : h.Valid)
    (hrun : h.payload = .run runs) :
    Canonical runs := by
  have hpayload := hv.payload
  rw [hrun] at hpayload
  cases hpayload with
  | run canonical => exact canonical

variable {h : ContainerHandle}

theorem values_array {values : List Nat} (harray : h.payload = .array values) :
    h.values = values := by
  rw [ContainerHandle.values, harray]
  rfl

theorem values_run {runs : List Run} (hrun : h.payload = .run runs) :
    h.values = runValues runs := by
  rw [ContainerHandle.values, hrun]
  rfl

theorem values_bitset {words : Words wordCount} (hbitset : h.payload = .bitset words) :
    h.values = words.values := by
  rw [ContainerHandle.values, hbitset]
  rfl

/-- Runs under the exact count and the ends of their values. -/
theorem holds_runs {runs : List Run} {vs : List Nat} (hrun : h.payload = .run runs)
    (hexact : h.cardinalityStale = false)
    (hc : Canonical runs) (hvs : runValues runs = vs) (hcard : h.cardinality = vs.length)
    (hmin : h.min = vs.headD 0) (hmax : h.max = vs.getLastD 0) : h.Holds vs := by
  have hvalues := (values_run hrun).trans hvs
  refine ⟨⟨?_, hexact, ?_, .inr fun hne ↦ ?_⟩, hvalues⟩
  · rw [hrun]
    exact .run hc
  · rw [hvalues, hcard]
  · simp only [hvalues] at hne ⊢
    rw [hmin, hmax, headD_eq hne, getLastD_eq hne]
    exact ⟨rfl, rfl⟩

/-- A word block under its exact count, whatever the endpoints were. -/
theorem holds_words {words : Words wordCount} (hbitset : h.payload = .bitset words)
    (hexact : h.cardinalityStale = false)
    (hcard : h.cardinality = words.count) (hstale : h.endpointsStale = true) :
    h.Holds words.values := by
  have hvalues := values_bitset hbitset
  refine ⟨⟨?_, hexact, ?_, .inl hstale⟩, hvalues⟩
  · rw [hbitset]
    exact .bitset words
  · rw [hvalues, hcard, words.count_eq_length_values]

/-- The empty handle holds nothing. -/
theorem holds_empty : (makeArrayFromSorted []).Holds [] := holds_array .nil nofun

end ContainerHandle

section Conversions

variable {words : Words wordCount} {container result : ContainerHandle} {runs : List Run}
  {eager : Bool} {bitsetThreshold : Nat}

theorem count_eq_zero_iff (words : Words wordCount) : words.count = 0 ↔ words.values = [] := by
  rw [words.count_eq_length_values, List.length_eq_zero_iff]

theorem makeBitsetFrom_holds (words : Words wordCount) :
    (ContainerHandle.makeBitsetFrom words words.count).Holds words.values :=
  ⟨ContainerHandle.makeBitsetFrom_valid rfl, rfl⟩

theorem makeBitsetContainerFromWords_holds (words : Words wordCount) :
    (makeBitsetContainerFromWords words).Holds words.values := by
  rw [makeBitsetContainerFromWords]
  split
  · rename_i hzero
    rw [(count_eq_zero_iff words).1 hzero]
    exact ContainerHandle.holds_empty
  · exact makeBitsetFrom_holds words

theorem makeContainerFromWords_holds (eager : Bool) (words : Words wordCount)
    (bitsetThreshold : Nat) :
    (makeContainerFromWords eager words bitsetThreshold).Holds words.values := by
  simp only [makeContainerFromWords]
  split
  · rename_i hzero
    rw [(count_eq_zero_iff words).1 hzero]
    exact ContainerHandle.holds_empty
  · split
    · exact makeBitsetFrom_holds words
    · rw [valuesFromWords_eq]
      exact makeContainerFromSortedValues_holds words.values_ascending fun v hv ↦
        Words.lt_of_mem_values hv

/-- Words without a bit make the empty handle. -/
theorem makeContainerFromWords_empty (hnil : words.values = []) :
    makeContainerFromWords eager words bitsetThreshold = .makeArrayFromSorted [] := by
  rw [makeContainerFromWords, if_pos ((count_eq_zero_iff words).2 hnil)]

theorem fillRun_eq {r : Run} (hforward : r.first ≤ r.last) (hbounded : r.last < lowDomainSize) :
    fillRun r = r.values := by
  have hlen : r.last - r.first + 1 = r.last + 1 - r.first := by omega
  rw [fillRun, Run.values, List.range'_eq_map_range, hlen]
  apply List.map_congr_left
  intro i hi
  rw [List.mem_range] at hi
  exact Nat.mod_eq_of_lt (by omega)

theorem arrayHandleFromContainer_spec (hv : container.Valid) :
    ∃ h, arrayHandleFromContainer container = some h ∧ h.Holds container.values ∧
      h.kind = .array := by
  have hfill : (match container.payload with
      | .run runs => runs.flatMap fillRun
      | _ => container.values) = container.values := by
    split
    · rename_i runs hruns
      have hc := hv.canonical hruns
      rw [ContainerHandle.values, hruns]
      exact List.flatMap_congr fun r hr ↦ fillRun_eq (hc.forward r hr) (hc.bounded r hr)
    · rfl
  refine ⟨.syncHeader container.values, ?_, ContainerHandle.holds_array hv.values_ascending
    hv.values_lt, rfl⟩
  simp only [arrayHandleFromContainer]
  rw [hfill, if_pos hv.cardinality.symm]

theorem bitsetHandleFromRuns_holds (hc : Canonical runs) :
    (bitsetHandleFromRuns runs).Holds (runValues runs) := by
  have hvalues :
      (runs.foldl (fun words r ↦ applyRangeToWords words r.first r.last .add)
      (Words.zeroed wordCount)).values =
      runValues runs := by
    refine List.Pairwise.eq_of_mem_iff (r := (· < ·)) (Words.values_ascending _) hc.values_ascending
      fun v ↦ ?_
    rw [Words.mem_values, contains_foldl_add hc.forward hc.bounded, Words.contains_zeroed]
    simp
  have hholds := makeBitsetContainerFromWords_holds
    (runs.foldl (fun words r ↦ applyRangeToWords words r.first r.last .add)
      (Words.zeroed wordCount))
  rw [hvalues] at hholds
  exact hholds

theorem kind_bitsetHandleFromRuns (hc : Canonical runs) (hne : runValues runs ≠ []) :
    (bitsetHandleFromRuns runs).kind = .bitset := by
  have hholds := bitsetHandleFromRuns_holds hc
  rw [bitsetHandleFromRuns, makeBitsetContainerFromWords] at hholds ⊢
  split at hholds
  · exact absurd hholds.values_eq.symm hne
  · rename_i hzero
    rw [if_neg hzero]
    rfl

/-- The bitset is only chosen for sets of some size. -/
theorem pos_of_isBitsetCardinality {cardinality : Nat}
    (h : isBitsetCardinality cardinality bitsetThreshold = true) :
    0 < cardinality := by
  rw [isBitsetCardinality, decide_eq_true_eq] at h
  by_contra hzero
  obtain rfl : cardinality = 0 := Nat.eq_zero_of_not_pos hzero
  exact absurd h.2 (by decide)

theorem isBitsetCardinality_of_choose {cardinality runCount : Nat}
    (h : chooseRunContainerKind cardinality runCount bitsetThreshold = .bitset) :
    isBitsetCardinality cardinality bitsetThreshold = true := by
  simp only [chooseRunContainerKind] at h
  split at h
  · cases h
  · split at h
    · assumption
    · cases h

/-- A run result keeps its values in the form that is chosen for it. -/
theorem settleRunResult_spec (hv : result.Valid) (hrun : result.payload = .run runs)
    (bitsetThreshold : Nat) :
    ∃ h, settleRunResult result bitsetThreshold = some h ∧ h.Holds result.values ∧
      h.kind = chooseRunContainerKind result.values.length runs.length bitsetThreshold := by
  have hc := hv.canonical hrun
  have hvalues : result.values = runValues runs := by
    rw [ContainerHandle.values, hrun]
    rfl
  rw [settleRunResult, hrun]
  dsimp only
  rw [hv.cardinality]
  cases hkind : chooseRunContainerKind result.values.length runs.length bitsetThreshold with
  | run =>
    refine ⟨result, rfl, ⟨hv, rfl⟩, ?_⟩
    rw [ContainerHandle.kind, hrun]
    rfl
  | array => exact arrayHandleFromContainer_spec hv
  | bitset =>
    have hpos := pos_of_isBitsetCardinality (isBitsetCardinality_of_choose hkind)
    have hne : runValues runs ≠ [] := by
      rw [← hvalues]
      exact List.ne_nil_of_length_pos hpos
    rw [hvalues]
    exact ⟨_, rfl, bitsetHandleFromRuns_holds hc, kind_bitsetHandleFromRuns hc hne⟩

end Conversions

end Roaring
