import Mathlib
import Roaring.Lib.WordPass
import Roaring.Container.Settle

/-!
# Containers optimised for storage

The form of a container is chosen from its cardinality and from the number of its runs, by
serialized size.  The runs are counted only up to what can still decide, and the writers
fill the places that were counted for them.  From an array the bitset is taken by the
threshold alone, from a bitset by the threshold and the sizes: below the array limit the
two choices undo each other.
-/

namespace Roaring

open Lib

/-! ## Counted runs -/

/-- `run_serialized_bytes`. -/
def runSerializedBytes (runCount : Nat) : Nat := runCount * runBytesPerRun + lowTypeBytes

/-- `run_count_cap`. -/
def runCountCap (bytes : Nat) : Nat := bytes / runBytesPerRun + 1

/-- The loop of `run_count_from_bitset_words`, which stops at the cap. -/
def countWordStarts (cap : Nat) : (words : List Word) → (previousTop : Word) →
    (runCount : Nat) → Nat
  | [], _, runCount => runCount
  | word :: words, previousTop, runCount =>
    let runCount := runCount + popcount (startBits word previousTop)
    if cap ≤ runCount then cap else countWordStarts cap words (topBit word) runCount

/-- `run_count_from_bitset_words`. -/
def runCountFromBitsetWords (words : Words wordCount) (cap : Nat) : Nat :=
  countWordStarts cap words.toList 0#64 0

/-- The loop of `run_handle_from_counted_values`, into a payload of `runCount` runs. -/
def countedValueRuns (runCount : Nat) : (first previous : Nat) → List Nat → List Run →
    Option (List Run)
  | first, previous, [], out => writeRun runCount out ⟨first, previous⟩
  | first, previous, value :: values, out =>
    if value ≠ (previous + 1) % lowDomainSize then
      (writeRun runCount out ⟨first, previous⟩).bind (countedValueRuns runCount value value values)
    else countedValueRuns runCount first value values out

/-- A run handle from runs that fill the places counted for them. -/
def countedRunHandle (runCount cardinality first last : Nat) (out : List Run) :
    Option ContainerHandle :=
  if out.length = runCount then
    some { payload := .run out, cardinality := cardinality, min := first, max := last } else none

/-- `run_handle_from_counted_values`. -/
def runHandleFromCountedValues (values : List Nat) (runCount : Nat) : Option ContainerHandle :=
  match values with
  | [] => none
  | value :: rest =>
    (countedValueRuns runCount value value rest []).bind
      (countedRunHandle runCount values.length value (values.getLastD 0))

/-- The first word from `index` on that is not `like`, or the last one. -/
def skipWords (words : Words wordCount) (like : Word) (index : Nat) (word : Word) : Nat × Word :=
  if word = like ∧ index < wordCount - 1 then
    skipWords words like (index + 1) (words.word (index + 1))
  else (index, word)
termination_by wordCount - index

/-- The loop of `run_handle_from_counted_words`; every turn but the last writes a run. -/
def countedWordRuns (words : Words wordCount) (runCount : Nat) : (fuel index : Nat) → Word →
    List Run → Option (List Run)
  | 0, _, _, _ => none
  | fuel + 1, index, word, out =>
    let start := skipWords words 0#64 index word
    if start.2 = 0#64 then some out
    else
      let first := start.1 * 64 + start.2.ctz.toNat
      -- the bits below the begin set too, the run ends at the first clear bit
      let stop := skipWords words (BitVec.allOnes 64) start.1 (start.2 ||| (start.2 - 1#64))
      if stop.2 = BitVec.allOnes 64 then writeRun runCount out ⟨first, lowTypeMax⟩
      else
        let last := stop.1 * 64 + firstClear stop.2 - 1
        (writeRun runCount out ⟨first, last⟩).bind
          (countedWordRuns words runCount fuel stop.1 (stop.2 &&& (stop.2 + 1#64)))

/-- `run_handle_from_counted_words`. -/
def runHandleFromCountedWords (words : Words wordCount) (runCount cardinality : Nat) :
    Option ContainerHandle :=
  (countedWordRuns words runCount (runCount + 1) 0 (words.word 0) []).bind fun out ↦
    countedRunHandle runCount cardinality ((out.head?.map Run.first).getD 0)
      ((out.getLast?.map Run.last).getD 0) out

/-! ## `optimize_container_for_storage` -/

/-- The arm of a run container. -/
def optimizeRun (eager : Bool) (container : ContainerHandle) (runs : List Run)
    (bitsetThreshold : Nat) : Option ContainerHandle :=
  if container.cardinality = 0 then some (.makeArrayFromSorted [])
  else if eager then settleRunResult container bitsetThreshold
  else if bitsetThreshold ≤ container.cardinality then some (bitsetHandleFromRuns runs)
  else arrayHandleFromContainer container

/-- The arm of an array. -/
def optimizeArray (eager : Bool) (container : ContainerHandle) (values : List Nat)
    (bitsetThreshold : Nat) : Option ContainerHandle :=
  if values = [] then some (.makeArrayFromSorted [])
  else
    let arrayBytes := values.length * lowTypeBytes
    let bitsetAllowed := decide (bitsetThreshold ≤ values.length)
    let cap := runCountCap (if bitsetAllowed then max arrayBytes bitsetBytes else arrayBytes)
    let runCount := if eager then runCountFromSortedValues values cap else cap
    let runBytes := runSerializedBytes runCount
    if bitsetAllowed ∧ bitsetBytes ≤ runBytes then some (bitsetHandleFromSortedValues values)
    else if runBytes < arrayBytes then runHandleFromCountedValues values runCount
    else some container

/-- The arm of a bitset. -/
def optimizeBitset (eager : Bool) (container : ContainerHandle) (words : Words wordCount)
    (bitsetThreshold : Nat) : Option ContainerHandle :=
  let cardinality := container.cardinality
  if cardinality = 0 then some (.makeArrayFromSorted [])
  else
    let arrayBytes := cardinality * lowTypeBytes
    let holdsAsBitset := decide (bitsetThreshold ≤ cardinality ∧ bitsetBytes ≤ arrayBytes)
    -- runs are compared with the bitset when it may stay one, and only with the array otherwise
    let cap := runCountCap (if holdsAsBitset then bitsetBytes else arrayBytes)
    let runCount := if eager then runCountFromBitsetWords words cap else cap
    let runBytes := runSerializedBytes runCount
    if holdsAsBitset ∧ bitsetBytes ≤ runBytes then some container
    else if runBytes < arrayBytes then runHandleFromCountedWords words runCount cardinality
    else arrayFromBitset words cardinality

def optimizeContainerForStorage (eager : Bool) (container : ContainerHandle)
    (bitsetThreshold : Nat) : Option ContainerHandle :=
  match container.payload with
  | .run runs => optimizeRun eager container runs bitsetThreshold
  | .array values => optimizeArray eager container values bitsetThreshold
  | .bitset words => optimizeBitset eager container words bitsetThreshold

/-! ## The counts -/

section Counts

variable {values vs : List Nat} {words : Words wordCount} {cap index runCount first last : Nat}

/-- The runs of ascending values. -/
def runCountOf (values : List Nat) : Nat := (runsFromSortedValues values).length

/-- The starts of some words behind a carried bit. -/
def startsOf : (words : List Word) → (previousTop : Word) → Nat
  | [], _ => 0
  | word :: words, previousTop =>
    popcount (startBits word previousTop) + startsOf words (topBit word)

theorem countWordStarts_eq {ws : List Word} {top : Word} (hle : runCount ≤ cap) :
    countWordStarts cap ws top runCount = min (runCount + startsOf ws top) cap := by
  induction ws generalizing top runCount with
  | nil => rw [countWordStarts, startsOf, Nat.add_zero, min_eq_left hle]
  | cons w ws ih =>
    rw [countWordStarts, startsOf]
    split
    · rename_i hcap
      rw [min_eq_right (by omega)]
    · rename_i hbelow
      rw [ih (not_le.1 hbelow).le, Nat.add_assoc]

theorem startsOf_words (words : Words wordCount) :
    startsOf words.toList 0#64 = words.starts.count := by
  have hall : words.toList = (List.range' 0 wordCount).map words.word := by
    apply List.ext_getElem
    · rw [Vector.length_toList, List.length_map, List.length_range']
    · intro i hi hi'
      rw [Vector.length_toList] at hi
      rw [Vector.getElem_toList, List.getElem_map, List.getElem_range', Nat.zero_add, Nat.one_mul,
        Words.word_eq_getElem _ hi]
  have htail : ∀ count k, startsOf ((List.range' k count).map words.word) (words.carryInto k) =
      ((List.range' k count).map fun i ↦ popcount (words.starts.word i)).sum := by
    intro count
    induction count with
    | zero => exact fun k ↦ rfl
    | succ count ih =>
      intro k
      have hcarry : topBit (words.word k) = words.carryInto (k + 1) := by
        rw [Words.carryInto, if_neg (Nat.succ_ne_zero k), Nat.add_sub_cancel]
      rw [List.range'_succ, List.map_cons, List.map_cons, List.sum_cons, startsOf, hcarry,
        ih (k + 1), Words.word_starts]
  have hzero : words.carryInto 0 = 0#64 := by
    rw [Words.carryInto, if_pos rfl]
  rw [hall, ← hzero, htail, Words.count, List.range_eq_range']

/-- The count of the words is capped and otherwise exact. -/
theorem runCountFromBitsetWords_eq (words : Words wordCount) (cap : Nat) :
    runCountFromBitsetWords words cap = min words.starts.count cap := by
  rw [runCountFromBitsetWords, countWordStarts_eq (Nat.zero_le cap), Nat.zero_add, startsOf_words]

theorem countRunStarts_split {stop : Nat} (h1 : index ≤ stop) (h2 : stop ≤ values.length) :
    countRunStarts values index values.length = countRunStarts values index stop + countRunStarts
      values stop values.length := by
  have hlen : values.length - index = (stop - index) + (values.length - stop) := by omega
  have hstop : index + 1 * (stop - index) = stop := by omega
  rw [countRunStarts, hlen, ← List.range'_append, hstop, List.filter_append, List.length_append]
  rfl

/-- The blocks stop at the cap, or behind the last value with the exact count. -/
theorem countRunBlocks_eq : min (countRunBlocks values cap index runCount) cap =
    min (runCount + countRunStarts values index values.length) cap := by
  induction index, runCount using countRunBlocks.induct values cap with
  | case1 index runCount h ih =>
    rw [countRunBlocks, dif_pos h, ih, countRunStarts_split (le_min (Nat.le_add_right _ _) h.1.le)
      (min_le_right _ _), Nat.add_assoc]
  | case2 index runCount h =>
    rw [countRunBlocks, dif_neg h]
    by_cases hin : index < values.length
    · have hcap : cap ≤ runCount := by
        by_contra hlt
        exact h ⟨hin, not_le.1 hlt⟩
      rw [min_eq_right hcap, min_eq_right (by omega)]
    · have hnone : countRunStarts values index values.length = 0 := by
        rw [countRunStarts, Nat.sub_eq_zero_of_le (not_lt.1 hin)]
        rfl
      rw [hnone, Nat.add_zero]

/-- One value more in front of a list shifts its starts. -/
theorem countRunStarts_cons (last v : Nat) (vs : List Nat) :
    countRunStarts (last :: v :: vs) 1 (last :: v :: vs).length =
      (if v = (last + 1) % lowDomainSize then 0 else 1) + countRunStarts (v :: vs) 1
        (v :: vs).length := by
  have hshift : List.range' 2 vs.length = (List.range' 1 vs.length).map (1 + ·) := by
    rw [List.map_add_range']
  have hrest : (List.range' 2 vs.length).filter (fun i ↦ decide
      ((last :: v :: vs).getD i 0 ≠ ((last :: v :: vs).getD (i - 1) 0 + 1) % lowDomainSize)) =
      ((List.range' 1 vs.length).filter fun i ↦
        decide ((v :: vs).getD i 0 ≠ ((v :: vs).getD (i - 1) 0 + 1) % lowDomainSize)).map
        (1 + ·) := by
    rw [hshift, List.filter_map]
    congr 1
    apply List.filter_congr
    intro i hi
    rw [List.mem_range'_1] at hi
    obtain ⟨j, rfl⟩ : ∃ j, i = j + 1 := ⟨i - 1, by omega⟩
    simp only [Function.comp_apply, Nat.add_sub_cancel, Nat.add_comm 1 (j + 1), List.getD_cons_succ]
  have hlen : (last :: v :: vs).length - 1 = vs.length + 1 := rfl
  have hlen' : (v :: vs).length - 1 = vs.length := rfl
  rw [countRunStarts, hlen, List.range'_succ, List.filter_cons, hrest, countRunStarts, hlen']
  have hnext : (last :: v :: vs).getD 1 0 = v := rfl
  have hbefore : (last :: v :: vs).getD (1 - 1) 0 = last := rfl
  rw [hnext, hbefore]
  split
  · rename_i hne
    rw [List.length_cons, List.length_map, if_neg (of_decide_eq_true hne), Nat.add_comm]
  · rename_i heq
    rw [List.length_map, if_pos (not_not.1 fun hne ↦ heq (decide_eq_true hne)), Nat.zero_add]

theorem length_extendRuns (hasc : (last :: vs).Pairwise (· < ·))
    (hlt : ∀ v ∈ last :: vs, v < lowDomainSize) :
    (extendRuns first last vs).length = 1 + countRunStarts (last :: vs) 1 (last :: vs).length := by
  induction vs generalizing first last with
  | nil => rfl
  | cons v vs ih =>
    have hv := hlt v (List.mem_cons_of_mem _ List.mem_cons_self)
    have hlv : last < v := List.rel_of_pairwise_cons hasc List.mem_cons_self
    have hnext : v = (last + 1) % lowDomainSize ↔ v = last + 1 := by
      rw [Nat.mod_eq_of_lt (by omega)]
    have hrest := fun w hw ↦ hlt w (List.mem_cons_of_mem _ hw)
    rw [extendRuns, if_congr (extends_iff hv hlv) rfl rfl, countRunStarts_cons,
      if_congr hnext rfl rfl]
    split
    · rw [ih hasc.of_cons hrest, Nat.zero_add]
    · rw [List.length_cons, ih hasc.of_cons hrest]
      omega

/-- The count of the values is capped and otherwise exact. -/
theorem runCountFromSortedValues_eq (hasc : values.Pairwise (· < ·))
    (hlt : ∀ v ∈ values, v < lowDomainSize) (cap : Nat) :
    runCountFromSortedValues values cap = min (runCountOf values) cap := by
  cases values with
  | nil => rw [runCountFromSortedValues, if_pos rfl, runCountOf, runsFromSortedValues,
    List.length_nil, Nat.zero_min]
  | cons v vs =>
    rw [runCountFromSortedValues, if_neg (List.cons_ne_nil v vs), countRunBlocks_eq, runCountOf,
      runsFromSortedValues,
      length_extendRuns hasc hlt]

/-- Canonical runs of a word block are as many as its starts. -/
theorem starts_count_eq {runs : List Run} (hc : Canonical runs)
    (hvalues : runValues runs = words.values) :
    words.starts.count = runs.length := by
  have hbelow : RunsBelow words lowDomainSize runs := by
    refine ⟨hc, fun v ↦ ?_⟩
    rw [hvalues, Words.mem_values]
    exact ⟨fun h ↦ ⟨Words.lt_of_mem_values (Words.mem_values.2 h), h⟩, And.right⟩
  exact hbelow.length_eq.symm

theorem runCountOf_words (words : Words wordCount) :
    runCountOf words.values = words.starts.count := by
  obtain ⟨hc, hvalues⟩ := runsFromSortedValues_spec words.values_ascending fun v hv ↦
    Words.lt_of_mem_values hv
  exact (starts_count_eq hc hvalues).symm

/-- All canonical run lists of one set have the same length. -/
theorem runCountOf_runs {runs : List Run} (hc : Canonical runs) :
    runCountOf (runValues runs) = runs.length := by
  have hblock := Words.values_scatter (n := wordCount) hc.values_ascending hc.values_lt
  rw [← hblock, runCountOf_words]
  exact starts_count_eq hc hblock.symm

/-- No more runs than values, and no run in the empty set only. -/
theorem runCountOf_le (hasc : values.Pairwise (· < ·)) (hlt : ∀ v ∈ values, v < lowDomainSize) :
    runCountOf values ≤ values.length := by
  obtain ⟨hc, hvalues⟩ := runsFromSortedValues_spec hasc hlt
  have hlen := hc.length_values
  rw [hvalues] at hlen
  rw [hlen, runCountOf, runCardinality, ← List.length_map Run.length]
  refine List.length_le_sum_of_one_le _ fun n hn ↦ ?_
  obtain ⟨r, -, rfl⟩ := List.mem_map.1 hn
  rw [Run.length]
  exact Nat.succ_pos _

end Counts

/-! ## The counted writers -/

section Writers

variable {values vs : List Nat} {words : Words wordCount} {out : List Run}
  {first previous runCount m index : Nat} {word : Word}

theorem countedValueRuns_eq (hasc : (previous :: vs).Pairwise (· < ·))
    (hlt : ∀ v ∈ previous :: vs, v < lowDomainSize)
    (hroom : out.length + (extendRuns first previous vs).length ≤ runCount) :
    countedValueRuns runCount first previous vs out =
      some (out ++ extendRuns first previous vs) := by
  induction vs generalizing first previous out with
  | nil =>
    rw [extendRuns, List.length_singleton] at hroom
    rw [countedValueRuns, extendRuns, writeRun, if_pos (Nat.lt_of_succ_le hroom)]
  | cons v vs ih =>
    have hv := hlt v (List.mem_cons_of_mem _ List.mem_cons_self)
    have hlv : previous < v := List.rel_of_pairwise_cons hasc List.mem_cons_self
    have hnext : v ≠ (previous + 1) % lowDomainSize ↔ ¬ v = previous + 1 := by
      rw [Nat.mod_eq_of_lt (by omega)]
    have hrest := fun w hw ↦ hlt w (List.mem_cons_of_mem _ hw)
    rw [extendRuns, if_congr (extends_iff hv hlv) rfl rfl] at hroom ⊢
    rw [countedValueRuns, if_congr hnext rfl rfl]
    by_cases hjoin : v = previous + 1
    · rw [if_pos hjoin] at hroom ⊢
      rw [if_neg (not_not.2 hjoin)]
      exact ih hasc.of_cons hrest hroom
    · rw [if_neg hjoin, List.length_cons] at hroom
      have hlen : (out ++ [(⟨first, previous⟩ : Run)]).length = out.length + 1 := by
        rw [List.length_append, List.length_singleton]
      rw [if_pos hjoin, if_neg hjoin, writeRun, if_pos (by omega), Option.bind_some,
        ih hasc.of_cons hrest (by omega),
        List.append_assoc]
      rfl

/-- The values' writer fills the places that were counted. -/
theorem runHandleFromCountedValues_spec (hne : values ≠ []) (hasc : values.Pairwise (· < ·))
    (hlt : ∀ v ∈ values, v < lowDomainSize) :
    ∃ h, runHandleFromCountedValues values (runCountOf values) = some h ∧ h.Holds values ∧
      h.kind = .run := by
  obtain ⟨hc, hvalues⟩ := runsFromSortedValues_spec hasc hlt
  cases values with
  | nil => exact absurd rfl hne
  | cons v vs =>
    have hwrite : countedValueRuns (runCountOf (v :: vs)) v v vs [] =
        some (runsFromSortedValues (v :: vs)) := by
      rw [countedValueRuns_eq hasc hlt, List.nil_append]
      · rfl
      · rw [List.length_nil, Nat.zero_add]
        exact le_rfl
    rw [runHandleFromCountedValues, hwrite, Option.bind_some, countedRunHandle, runCountOf,
      if_pos rfl]
    refine ⟨_, rfl, ContainerHandle.holds_runs rfl rfl hc hvalues rfl rfl ?_, rfl⟩
    rfl

/-- Where the skip ends: at a word that is not like the others, or at the last one. -/
theorem skipWords_spec (words : Words wordCount) (like word : Word) (hindex : index < wordCount) :
    (skipWords words like index word).1 < wordCount ∧
      ((skipWords words like index word).2 = like →
        (skipWords words like index word).1 = wordCount - 1) ∧
      (skipWords words like index word = (index, word) ∨
        (word = like ∧ index < (skipWords words like index word).1 ∧
          (skipWords words like index word).2 = words.word (skipWords words like index word).1 ∧
          ∀ i, index < i → i < (skipWords words like index word).1 → words.word i = like)) := by
  induction index, word using skipWords.induct words like with
  | case1 index word h ih =>
    obtain ⟨hin, hend, hwhere⟩ := ih (by omega)
    rw [skipWords, if_pos h]
    refine ⟨hin, hend, .inr ⟨h.1, ?_⟩⟩
    rcases hwhere with hsame | ⟨hlike, hlt, hword, hbetween⟩
    · rw [hsame]
      exact ⟨Nat.lt_succ_self _, rfl, fun i h1 h2 ↦ absurd h2 (by dsimp only; omega)⟩
    · refine ⟨Nat.lt_of_succ_lt hlt, hword, fun i h1 h2 ↦ ?_⟩
      rcases Nat.lt_or_eq_of_le (Nat.succ_le_of_lt h1) with hlater | heq
      · exact hbetween i hlater h2
      · rw [← heq]
        exact hlike
  | case2 index word h =>
    rw [skipWords, if_neg h]
    refine ⟨hindex, fun hlike ↦ ?_, .inl rfl⟩
    by_contra hne
    dsimp only at hlike hne
    exact h ⟨hlike, by omega⟩

/-- What the loop knows at a word: nothing is set between what has been written and the word, and
the word's bits are those that have not been written. -/
structure Ahead (words : Words wordCount) (m index : Nat) (word : Word) : Prop where
  inside : index < wordCount
  near : m ≤ 64 * index + 64
  clear : ∀ v, m ≤ v → v < 64 * index → words.contains v = false
  bits : ∀ j, j < 64 →
    word.getLsbD j = (words.contains (64 * index + j) && decide (m ≤ 64 * index + j))

/-- What the loop knows inside a run: all is set from its begin to the word, and the word's bits
below the begin are filled. -/
structure Within (words : Words wordCount) (first index : Nat) (word : Word) : Prop where
  inside : index < wordCount
  near : first < 64 * index + 64
  all : ∀ v, first ≤ v → v < 64 * index → words.contains v = true
  bits : ∀ j, j < 64 →
    word.getLsbD j = (decide (64 * index + j < first) || words.contains (64 * index + j))

theorem Ahead.skip (h : Ahead words m index word) :
    Ahead words m (skipWords words 0#64 index word).1 (skipWords words 0#64 index word).2 := by
  obtain ⟨hin, -, hsame | ⟨hzero, hlt, hword, hbetween⟩⟩ := skipWords_spec words 0#64 word h.inside
  · rw [hsame]
    exact h
  · have hnear := h.near
    refine ⟨hin, by omega, fun v hm hv ↦ ?_, fun j hj ↦ ?_⟩
    · rcases Nat.lt_or_ge v (64 * index) with hbefore | hafter
      · exact h.clear v hm hbefore
      · have hv64 : v = 64 * (v / 64) + v % 64 := (Nat.div_add_mod v 64).symm
        have hmod : v % 64 < 64 := Nat.mod_lt _ (by decide)
        rcases Nat.lt_or_eq_of_le (show index ≤ v / 64 by omega) with hlater | heq
        · rw [hv64, Words.contains_add _ hmod, hbetween _ hlater (by omega), BitVec.getLsbD_zero]
        · have hbit := h.bits (v % 64) hmod
          rw [hzero, BitVec.getLsbD_zero, heq, ← hv64, decide_eq_true hm, Bool.and_true] at hbit
          exact hbit.symm
    · rw [hword, Words.contains_add _ hj, decide_eq_true (by omega), Bool.and_true]

theorem Within.skip (h : Within words first index word) :
    Within words first (skipWords words (BitVec.allOnes 64) index word).1
      (skipWords words (BitVec.allOnes 64) index word).2 := by
  obtain ⟨hin, -, hsame | ⟨hones, hlt, hword, hbetween⟩⟩ :=
    skipWords_spec words (BitVec.allOnes 64) word h.inside
  · rw [hsame]
    exact h
  · have hnear := h.near
    refine ⟨hin, by omega, fun v hm hv ↦ ?_, fun j hj ↦ ?_⟩
    · rcases Nat.lt_or_ge v (64 * index) with hbefore | hafter
      · exact h.all v hm hbefore
      · have hv64 : v = 64 * (v / 64) + v % 64 := (Nat.div_add_mod v 64).symm
        have hmod : v % 64 < 64 := Nat.mod_lt _ (by decide)
        rcases Nat.lt_or_eq_of_le (show index ≤ v / 64 by omega) with hlater | heq
        · rw [hv64, Words.contains_add _ hmod, hbetween _ hlater (by omega), BitVec.getLsbD_allOnes,
            decide_eq_true hmod]
        · have hbit := h.bits (v % 64) hmod
          rw [hones, BitVec.getLsbD_allOnes, decide_eq_true hmod, heq, ← hv64,
            decide_eq_false (not_lt.2 hm), Bool.false_or] at hbit
          exact hbit.symm
    · rw [hword, Words.contains_add _ hj, decide_eq_false (by omega), Bool.false_or]

/-- A word that is left over begins a run at its lowest bit. -/
theorem Ahead.begins (h : Ahead words m index word) (hne : word ≠ 0#64) :
    words.contains (64 * index + word.ctz.toNat) = true ∧ m ≤ 64 * index + word.ctz.toNat ∧
      (∀ v, m ≤ v → v < 64 * index + word.ctz.toNat → words.contains v = false) ∧
      Within words (64 * index + word.ctz.toNat) index (word ||| (word - 1#64)) := by
  have hctz := ctz_lt hne
  have hlow := h.bits _ hctz
  rw [BitVec.getLsbD_true_ctz_of_ne_zero hne, eq_comm, Bool.and_eq_true, decide_eq_true_eq] at hlow
  refine ⟨hlow.1, hlow.2, fun v hm hv ↦ ?_,
    h.inside, by omega, fun v h1 h2 ↦ absurd h1 (by omega), fun j hj ↦ ?_⟩
  · rcases Nat.lt_or_ge v (64 * index) with hbefore | hafter
    · exact h.clear v hm hbefore
    · obtain ⟨j, rfl⟩ := Nat.exists_eq_add_of_le hafter
      have hbit := h.bits j (by omega)
      rw [BitVec.getLsbD_false_of_lt_ctz (show j < word.ctz.toNat by omega), decide_eq_true hm,
        Bool.and_true] at hbit
      exact hbit.symm
  · rw [getLsbD_or_sub_one hne, h.bits j hj]
    by_cases hj' : j < word.ctz.toNat
    · rw [decide_eq_true hj', Bool.true_or, decide_eq_true (by omega), Bool.true_or]
    · rw [decide_eq_false hj', Bool.false_or, decide_eq_true (by omega), Bool.and_true,
        decide_eq_false (by omega), Bool.false_or]

/-- A word that is not filled ends the run at its first clear bit, and the bits behind it are left
over. -/
theorem Within.ends (h : Within words first index word) (hfirst : words.contains first = true)
    (hne : word ≠ BitVec.allOnes 64) :
    first < 64 * index + firstClear word ∧ words.contains (64 * index + firstClear word) = false ∧
      (∀ v, first ≤ v → v < 64 * index + firstClear word → words.contains v = true) ∧
      Ahead words (64 * index + firstClear word) index (word &&& (word + 1#64)) := by
  have hlt := firstClear_lt hne
  have hstop := h.bits _ hlt
  rw [getLsbD_firstClear hne, eq_comm, Bool.or_eq_false_iff, decide_eq_false_iff_not,
    not_lt] at hstop
  have hbefore : first < 64 * index + firstClear word := by
    refine Nat.lt_of_le_of_ne hstop.1 fun heq ↦ ?_
    rw [← heq, hfirst] at hstop
    exact Bool.false_ne_true hstop.2.symm
  refine ⟨hbefore, hstop.2, fun v h1 h2 ↦ ?_,
    h.inside, by omega, fun v h1 h2 ↦ absurd h1 (by omega), fun j hj ↦ ?_⟩
  · rcases Nat.lt_or_ge v (64 * index) with hlow | hhigh
    · exact h.all v h1 hlow
    · obtain ⟨j, rfl⟩ := Nat.exists_eq_add_of_le hhigh
      have hbit := h.bits j (by omega)
      rw [getLsbD_of_lt_firstClear hne (show j < firstClear word by omega),
        decide_eq_false (not_lt.2 h1), Bool.false_or] at hbit
      exact hbit.symm
  · rw [getLsbD_and_add_one hne, h.bits j hj]
    by_cases hj' : firstClear word ≤ j
    · rw [decide_eq_true hj', Bool.and_true, decide_eq_false (by omega), Bool.false_or,
        decide_eq_true (by omega), Bool.and_true]
    · rw [decide_eq_false hj', Bool.and_false, decide_eq_false (by omega), Bool.and_false]

/-- From a word of the block on, the loop writes all the runs that are left; each start has its
place. -/
theorem countedWordRuns_spec {fuel : Nat} (hahead : Ahead words m index word)
    (hbelow : RunsBelow words m out) (hborder : Border words m)
    (hcap : words.starts.count ≤ runCount) (hfuel : runCount + 1 ≤ out.length + fuel) :
    ∃ out', countedWordRuns words runCount fuel index word out = some out' ∧
      RunsBelow words lowDomainSize out' := by
  have hdomain : lowDomainSize = 64 * (wordCount - 1) + 64 := by decide
  have hmax : lowTypeMax + 1 = lowDomainSize := by decide
  induction fuel generalizing m index word out with
  | zero =>
    have hfits := hbelow.length_le
    omega
  | succ fuel ih =>
    rw [countedWordRuns]
    obtain ⟨-, hstart, -⟩ := skipWords_spec words 0#64 word hahead.inside
    have hskip := hahead.skip
    generalize skipWords words 0#64 index word = start at hstart hskip
    dsimp only
    split
    · rename_i hzero
      refine ⟨out, rfl, hbelow.extend ?_ fun v hm hv ↦ ?_⟩
      · have hnear := hskip.near
        have hin := hskip.inside
        omega
      · rcases Nat.lt_or_ge v (64 * start.1) with hlow | hhigh
        · exact hskip.clear v hm hlow
        · have hlast := hstart hzero
          obtain ⟨j, rfl⟩ := Nat.exists_eq_add_of_le hhigh
          have hbit := hskip.bits j (by omega)
          rw [hzero, BitVec.getLsbD_zero, decide_eq_true hm, Bool.and_true] at hbit
          exact hbit.symm
    · rename_i hsome
      obtain ⟨hset, hm, hclear, hwithin⟩ := hskip.begins hsome
      rw [Nat.mul_comm start.1]
      generalize 64 * start.1 + start.2.ctz.toNat = first at hset hm hclear hwithin ⊢
      obtain ⟨-, hstop, -⟩ :=
        skipWords_spec words (BitVec.allOnes 64) (start.2 ||| (start.2 - 1#64)) hskip.inside
      have hfill := hwithin.skip
      generalize skipWords words (BitVec.allOnes 64) start.1 (start.2 ||| (start.2 - 1#64)) =
        stop at hstop hfill
      have hpushed : ∀ last, first ≤ last → last < lowDomainSize →
          (∀ v, first ≤ v → v ≤ last → words.contains v = true) →
          RunsBelow words (last + 1) (out ++ [⟨first, last⟩]) ∧
            writeRun runCount out ⟨first, last⟩ = some (out ++ [⟨first, last⟩]) := by
        intro last hle hlt hall
        have hpush := hbelow.push (r := ⟨first, last⟩) hborder hm hle hlt hclear hall
        have hfits := hpush.length_le
        rw [List.length_append, List.length_singleton] at hfits
        exact ⟨hpush, if_pos (by omega)⟩
      have hnear := hfill.near
      have hin := hfill.inside
      split
      · rename_i hones
        have hlast := hstop hones
        obtain ⟨hpush, hwrite⟩ := hpushed lowTypeMax (by omega) (by decide) fun v h1 h2 ↦ by
          rcases Nat.lt_or_ge v (64 * stop.1) with hlow | hhigh
          · exact hfill.all v h1 hlow
          · obtain ⟨j, rfl⟩ := Nat.exists_eq_add_of_le hhigh
            have hbit := hfill.bits j (by omega)
            rw [hones, BitVec.getLsbD_allOnes, decide_eq_true (by omega),
              decide_eq_false (not_lt.2 h1), Bool.false_or] at hbit
            exact hbit.symm
        exact ⟨_, hwrite, hpush⟩
      · rename_i hpart
        obtain ⟨hlt, hnot, hall, hnext⟩ := hfill.ends hset hpart
        have hlow := firstClear_lt hpart
        rw [Nat.mul_comm stop.1]
        generalize 64 * stop.1 + firstClear stop.2 = stopAt at hlt hnot hall hnext ⊢
        have hlast : stopAt - 1 + 1 = stopAt := by omega
        have hinside := hnext.near
        obtain ⟨hpush, hwrite⟩ := hpushed (stopAt - 1) (by omega) (by omega) fun v h1 h2 ↦
          hall v h1 (by omega)
        rw [hlast] at hpush
        have hlen : (out ++ [(⟨first, stopAt - 1⟩ : Run)]).length = out.length + 1 := by
          rw [List.length_append, List.length_singleton]
        rw [hwrite, Option.bind_some]
        exact ih hnext hpush (.inr (.inr hnot)) (by omega)

/-- The words' writer fills the places that were counted. -/
theorem runHandleFromCountedWords_spec (words : Words wordCount) :
    ∃ h, runHandleFromCountedWords words words.starts.count words.values.length = some h ∧
      h.Holds words.values ∧ h.kind = .run := by
  have hahead : Ahead words 0 0 (words.word 0) := by
    refine ⟨by decide, Nat.zero_le _, fun v _ hv ↦ absurd hv (Nat.not_lt_zero v), fun j hj ↦ ?_⟩
    rw [Words.contains_add _ hj, decide_eq_true (Nat.zero_le _), Bool.and_true]
  obtain ⟨out, hrun, hbelow⟩ :=
    countedWordRuns_spec hahead (RunsBelow.start words) (.inl rfl) le_rfl
    (show words.starts.count + 1 ≤ [].length + (words.starts.count + 1) by
      rw [List.length_nil, Nat.zero_add])
  have hvalues : runValues out = words.values := by
    refine List.Pairwise.eq_of_mem_iff (r := (· < ·)) hbelow.canonical.values_ascending
      words.values_ascending fun v ↦ ?_
    rw [hbelow.mem, Words.mem_values]
    exact ⟨And.right, fun h ↦ ⟨Words.lt_of_mem_values (Words.mem_values.2 h), h⟩⟩
  have hcard : runCardinality out = words.values.length := by
    rw [← hbelow.canonical.length_values, hvalues]
  rw [runHandleFromCountedWords, hrun, Option.bind_some, countedRunHandle, if_pos hbelow.length_eq]
  exact ⟨ContainerHandle.makeRunFrom out words.values.length, rfl,
    ⟨ContainerHandle.makeRunFrom_valid hbelow.canonical hcard, hvalues⟩, rfl⟩

end Writers

/-! ## The decision -/

/-- The serialized size of a form. -/
def serializedBytes (kind : ContainerKind) (cardinality runCount : Nat) : Nat :=
  match kind with
  | .array => cardinality * lowTypeBytes
  | .run => runSerializedBytes runCount
  | .bitset => bitsetBytes

/-- The form that is decided from a form, with the exact number of runs. -/
def decidedKind (eager : Bool) (held : ContainerKind) (cardinality runCount bitsetThreshold : Nat) :
    ContainerKind :=
  let arrayBytes := cardinality * lowTypeBytes
  let runBytes := runSerializedBytes runCount
  if cardinality = 0 then .array
  else match held with
    | .run =>
      if eager then chooseRunContainerKind cardinality runCount bitsetThreshold
      else if bitsetThreshold ≤ cardinality then .bitset else .array
    | .array =>
      if bitsetThreshold ≤ cardinality ∧ (eager = true → bitsetBytes ≤ runBytes) then .bitset
      else if eager = true ∧ runBytes < arrayBytes then .run else .array
    | .bitset =>
      if (bitsetThreshold ≤ cardinality ∧ bitsetBytes ≤ arrayBytes) ∧
        (eager = true → bitsetBytes ≤ runBytes) then .bitset
      else if eager = true ∧ runBytes < arrayBytes then .run else .array

section Decision

variable {runCount bytes limit cardinality bitsetThreshold : Nat} {eager : Bool}

/-- A capped count compares with what it is capped for as the exact count does. -/
theorem runSerializedBytes_capped (hle : limit ≤ bytes) :
    runSerializedBytes (min runCount (runCountCap bytes)) < limit ↔
      runSerializedBytes runCount < limit := by
  have hdiv := Nat.div_add_mod bytes 4
  have hmod := Nat.mod_lt bytes (show 0 < 4 by decide)
  simp only [runSerializedBytes, runCountCap, runBytesPerRun, lowTypeBytes]
  omega

theorem not_runSerializedBytes_cap (hle : limit ≤ bytes) :
    ¬ runSerializedBytes (runCountCap bytes) < limit := by
  have hdiv := Nat.div_add_mod bytes 4
  have hmod := Nat.mod_lt bytes (show 0 < 4 by decide)
  simp only [runSerializedBytes, runCountCap, runBytesPerRun, lowTypeBytes]
  omega

/-- A count that is below the cap is exact. -/
theorem capped_eq (hle : limit ≤ bytes)
    (hlt : runSerializedBytes (min runCount (runCountCap bytes)) < limit) :
    min runCount (runCountCap bytes) = runCount := by
  have hdiv := Nat.div_add_mod bytes 4
  have hmod := Nat.mod_lt bytes (show 0 < 4 by decide)
  simp only [runSerializedBytes, runCountCap, runBytesPerRun, lowTypeBytes] at hlt ⊢
  omega

/-- The count that an arm decides with: capped, or the cap itself where runs are left out. -/
theorem countedBytes_lt_iff (hle : limit ≤ bytes) :
    runSerializedBytes (if eager then min runCount (runCountCap bytes) else runCountCap bytes) <
      limit ↔
      eager = true ∧ runSerializedBytes runCount < limit := by
  cases eager with
  | true =>
    rw [if_pos rfl, runSerializedBytes_capped hle]
    exact (and_iff_right rfl).symm
  | false =>
    rw [if_neg Bool.false_ne_true]
    exact ⟨fun h ↦ absurd h (not_runSerializedBytes_cap hle), fun h ↦ absurd h.1 Bool.false_ne_true⟩

/-- A runs' form is written for exactly the runs there are. -/
theorem counted_eq (hle : limit ≤ bytes)
    (hlt : runSerializedBytes (if eager then min runCount (runCountCap bytes)
      else runCountCap bytes) < limit) :
    (if eager then min runCount (runCountCap bytes) else runCountCap bytes) = runCount := by
  cases eager with
  | true => exact capped_eq hle hlt
  | false => exact absurd hlt (not_runSerializedBytes_cap hle)

end Decision

/-! ## The arms -/

section Arms

variable {container : ContainerHandle} {eager : Bool}

theorem optimizeRun_spec {runs : List Run} (hv : container.Valid)
    (hrun : container.payload = .run runs) (eager : Bool) (bitsetThreshold : Nat) :
    ∃ result, optimizeRun eager container runs bitsetThreshold = some result ∧
      result.Holds container.values ∧
      result.kind = decidedKind eager .run container.values.length (runCountOf container.values)
        bitsetThreshold := by
  have hc := hv.canonical hrun
  have hvalues := ContainerHandle.values_run hrun
  have hcount : runCountOf container.values = runs.length := by rw [hvalues, runCountOf_runs hc]
  rw [optimizeRun, hv.cardinality, decidedKind, hcount]
  split
  · rename_i hzero
    rw [List.eq_nil_of_length_eq_zero hzero]
    exact ⟨_, rfl, ContainerHandle.holds_empty, rfl⟩
  · rename_i hsome
    cases eager with
    | true =>
      obtain ⟨result, hsettle, hholds, hkind⟩ := settleRunResult_spec hv hrun bitsetThreshold
      exact ⟨result, hsettle, hholds, hkind⟩
    | false =>
      rw [if_neg Bool.false_ne_true, if_neg Bool.false_ne_true]
      split
      · have hne : runValues runs ≠ [] := by
          rw [← hvalues]
          exact fun hnil ↦ hsome (congrArg List.length hnil)
        rw [hvalues]
        exact ⟨_, rfl, bitsetHandleFromRuns_holds hc, kind_bitsetHandleFromRuns hc hne⟩
      · exact arrayHandleFromContainer_spec hv

theorem optimizeArray_spec {values : List Nat} (hv : container.Valid)
    (harray : container.payload = .array values) (eager : Bool) (bitsetThreshold : Nat) :
    ∃ result, optimizeArray eager container values bitsetThreshold = some result ∧
      result.Holds container.values ∧
      result.kind = decidedKind eager .array container.values.length (runCountOf container.values)
        bitsetThreshold := by
  have hvalues := ContainerHandle.values_array harray
  have hasc := hv.values_ascending
  have hlt := hv.values_lt
  have hself : container.Holds values := ⟨hv, hvalues⟩
  have hkind : container.kind = .array := by
    rw [ContainerHandle.kind, harray]
    rfl
  rw [hvalues] at hasc hlt ⊢
  rw [optimizeArray, decidedKind]
  by_cases hnil : values = []
  · rw [if_pos hnil, if_pos (by rw [hnil]; rfl), hnil]
    exact ⟨_, rfl, ContainerHandle.holds_empty, rfl⟩
  · have hlen : values.length ≠ 0 := fun h ↦ hnil (List.eq_nil_of_length_eq_zero h)
    rw [if_neg hnil, if_neg hlen]
    dsimp only
    rw [runCountFromSortedValues_eq hasc hlt]
    have harrayBytes : values.length * lowTypeBytes ≤
        if decide (bitsetThreshold ≤ values.length) = true then
          max (values.length * lowTypeBytes) bitsetBytes
        else values.length * lowTypeBytes := by
      split
      · exact le_max_left _ _
      · exact le_rfl
    have hbitsetBytes : bitsetThreshold ≤ values.length → bitsetBytes ≤
        if decide (bitsetThreshold ≤ values.length) = true then
          max (values.length * lowTypeBytes) bitsetBytes
        else values.length * lowTypeBytes := by
      intro hallowed
      rw [if_pos (decide_eq_true hallowed)]
      exact le_max_right _ _
    generalize (if decide (bitsetThreshold ≤ values.length) = true then
        max (values.length * lowTypeBytes) bitsetBytes
        else values.length * lowTypeBytes) = bytes at harrayBytes hbitsetBytes
    have hbitset : (decide (bitsetThreshold ≤ values.length) = true ∧ bitsetBytes ≤
        runSerializedBytes (if eager then min (runCountOf values) (runCountCap bytes)
          else runCountCap bytes)) ↔
        bitsetThreshold ≤ values.length ∧
          (eager = true → bitsetBytes ≤ runSerializedBytes (runCountOf values)) := by
      rw [decide_eq_true_eq]
      refine and_congr_right fun hallowed ↦ ?_
      rw [← not_lt, countedBytes_lt_iff (hbitsetBytes hallowed), not_and, not_lt]
    rw [if_congr hbitset rfl rfl, if_congr (countedBytes_lt_iff harrayBytes) rfl rfl]
    split
    · exact ⟨_, rfl, ContainerHandle.holds_bitset hasc hlt, rfl⟩
    · split
      · rename_i hruns
        rw [counted_eq harrayBytes ((countedBytes_lt_iff harrayBytes).2 hruns)]
        exact runHandleFromCountedValues_spec hnil hasc hlt
      · exact ⟨container, rfl, hself, hkind⟩

theorem kind_arrayFromBitset {words : Words wordCount} {cardinality : Nat} {h : ContainerHandle}
    (hextract : arrayFromBitset words cardinality = some h) : h.kind = .array := by
  rw [arrayFromBitset] at hextract
  split at hextract
  · cases hextract
    rfl
  · cases hextract

theorem optimizeBitset_spec {words : Words wordCount} (hv : container.Valid)
    (hbitset : container.payload = .bitset words) (eager : Bool) (bitsetThreshold : Nat) :
    ∃ result, optimizeBitset eager container words bitsetThreshold = some result ∧
      result.Holds container.values ∧
      result.kind = decidedKind eager .bitset container.values.length (runCountOf container.values)
        bitsetThreshold := by
  have hvalues := ContainerHandle.values_bitset hbitset
  have hself : container.Holds words.values := ⟨hv, hvalues⟩
  have hkind : container.kind = .bitset := by
    rw [ContainerHandle.kind, hbitset]
    rfl
  have hcount : runCountOf words.values = words.starts.count := runCountOf_words words
  rw [optimizeBitset, hv.cardinality, hvalues, decidedKind, hcount]
  dsimp only
  rw [runCountFromBitsetWords_eq]
  split
  · rename_i hzero
    rw [List.eq_nil_of_length_eq_zero hzero]
    exact ⟨_, rfl, ContainerHandle.holds_empty, rfl⟩
  · by_cases hholds : bitsetThreshold ≤ words.values.length ∧
      bitsetBytes ≤ words.values.length * lowTypeBytes
    · rw [decide_eq_true hholds, if_pos rfl]
      by_cases hruns :
        runSerializedBytes (if eager then min words.starts.count (runCountCap bitsetBytes)
        else runCountCap bitsetBytes) < bitsetBytes
      · obtain ⟨heager, hfew⟩ := (countedBytes_lt_iff le_rfl).1 hruns
        rw [if_neg fun h ↦ absurd hruns (not_lt.2 h.2), if_pos (hruns.trans_le hholds.2),
          counted_eq le_rfl hruns,
          if_neg fun h ↦ absurd hfew (not_lt.2 (h.2 heager)),
            if_pos ⟨heager, hfew.trans_le hholds.2⟩]
        exact runHandleFromCountedWords_spec words
      · have hmany : eager = true → bitsetBytes ≤ runSerializedBytes words.starts.count :=
            fun heager ↦
          not_lt.1 fun hlt ↦ hruns ((countedBytes_lt_iff le_rfl).2 ⟨heager, hlt⟩)
        rw [if_pos ⟨rfl, not_lt.1 hruns⟩, if_pos ⟨hholds, hmany⟩]
        exact ⟨container, rfl, hself, hkind⟩
    · rw [decide_eq_false hholds, if_neg Bool.false_ne_true, if_neg fun h ↦ Bool.false_ne_true h.1,
        if_neg fun h : _ ∧ _ ↦ hholds h.1]
      by_cases hruns :
          runSerializedBytes
          (if eager then min words.starts.count (runCountCap (words.values.length * lowTypeBytes))
          else runCountCap (words.values.length * lowTypeBytes)) < words.values.length *
            lowTypeBytes
      · rw [if_pos hruns, if_pos ((countedBytes_lt_iff le_rfl).1 hruns), counted_eq le_rfl hruns]
        exact runHandleFromCountedWords_spec words
      · rw [if_neg hruns, if_neg fun h ↦ hruns ((countedBytes_lt_iff le_rfl).2 h)]
        obtain ⟨h, hextract, hholds⟩ := arrayFromBitset_holds words.count_eq_length_values
        exact ⟨h, hextract, hholds, kind_arrayFromBitset hextract⟩

/-- Every arm returns the same set, in the form that the exact number of runs decides. -/
theorem optimizeContainerForStorage_holds (hv : container.Valid) (eager : Bool)
    (bitsetThreshold : Nat) :
    ∃ result, optimizeContainerForStorage eager container bitsetThreshold = some result ∧
      result.Holds container.values ∧
      result.kind = decidedKind eager container.kind container.values.length
        (runCountOf container.values) bitsetThreshold := by
  rw [optimizeContainerForStorage, ContainerHandle.kind]
  split
  · rename_i runs hrun
    rw [hrun]
    exact optimizeRun_spec hv hrun eager bitsetThreshold
  · rename_i values harray
    rw [harray]
    exact optimizeArray_spec hv harray eager bitsetThreshold
  · rename_i words hbitset
    rw [hbitset]
    exact optimizeBitset_spec hv hbitset eager bitsetThreshold

end Arms

/-! ## Where the arms agree -/

section Agreement

variable {eager : Bool} {held other kind : ContainerKind} {n r t : Nat}

/-- Where the decisions of the arms agree: of no values, or below the threshold, or from the array
limit on, or where runs are chosen. -/
def StorageAgrees (eager : Bool) (cardinality runCount bitsetThreshold : Nat) : Prop :=
  cardinality = 0 ∨ cardinality < bitsetThreshold ∨ bitsetBytes ≤ cardinality * lowTypeBytes ∨
    eager = true ∧ runSerializedBytes runCount < bitsetBytes

/-- The one form that all the arms decide on where they agree; the form that is held keeps a tie of
runs and an array. -/
def agreedKind (eager : Bool) (held : ContainerKind) (cardinality runCount bitsetThreshold : Nat) :
    ContainerKind :=
  if bitsetThreshold ≤ cardinality ∧ bitsetBytes ≤ cardinality * lowTypeBytes ∧
      (eager = true → bitsetBytes ≤ runSerializedBytes runCount) then .bitset
  else if eager = true ∧ (runSerializedBytes runCount < cardinality * lowTypeBytes ∨
      runSerializedBytes runCount = cardinality * lowTypeBytes ∧ held = .run) then .run
  else .array

theorem decidedKind_eq_agreedKind (hle : r ≤ n) (hagrees : StorageAgrees eager n r t) :
    decidedKind eager held n r t = agreedKind eager held n r t := by
  have hruns : runSerializedBytes r = r * 4 + 2 := rfl
  have hodd : runSerializedBytes r ≠ bitsetBytes := by
    rw [hruns, bitsetBytes, wordCount]
    omega
  rw [StorageAgrees] at hagrees
  unfold decidedKind agreedKind
  dsimp only
  by_cases hzero : n = 0
  · subst hzero
    rw [if_pos rfl, if_neg fun h ↦ absurd h.2.1 (by decide), if_neg]
    rw [hruns]
    omega
  · rw [if_neg hzero]
    have hagrees := hagrees.resolve_left hzero
    cases held with
    | array =>
      have hbitset : (t ≤ n ∧ (eager = true → bitsetBytes ≤ runSerializedBytes r)) ↔
          t ≤ n ∧ bitsetBytes ≤ n * lowTypeBytes ∧
            (eager = true → bitsetBytes ≤ runSerializedBytes r) := by
        refine ⟨fun h ↦ ⟨h.1, ?_, h.2⟩, fun h ↦ ⟨h.1, h.2.2⟩⟩
        rcases hagrees with hbelow | hlimit | ⟨heager, hruns⟩
        · exact absurd h.1 (not_le.2 hbelow)
        · exact hlimit
        · exact absurd (h.2 heager) (not_le.2 hruns)
      simp only [if_congr hbitset rfl rfl, reduceCtorEq, and_false, or_false]
    | bitset => simp only [and_assoc, reduceCtorEq, and_false, or_false]
    | run =>
      cases eager with
      | true =>
        have hform : r * runBytesPerRun + lowTypeBytes = runSerializedBytes r := rfl
        simp only [chooseRunContainerKind, isBitsetCardinality, decide_eq_true_eq, hform, if_true,
          true_and, and_true, forall_const]
        split_ifs <;> first | rfl | omega
      | false =>
        have hbitset : t ≤ n ↔ t ≤ n ∧ bitsetBytes ≤ n * lowTypeBytes ∧
            (false = true → bitsetBytes ≤ runSerializedBytes r) := by
          refine ⟨fun h ↦ ⟨h, ?_, fun hfalse ↦ absurd hfalse Bool.false_ne_true⟩, And.left⟩
          rcases hagrees with hbelow | hlimit | hruns
          · exact absurd h (not_le.2 hbelow)
          · exact hlimit
          · exact absurd hruns.1 Bool.false_ne_true
        rw [if_neg fun h : false = true ∧ _ ↦ Bool.false_ne_true h.1]
        dsimp only
        rw [if_neg Bool.false_ne_true]
        exact if_congr hbitset rfl rfl

/-- What is held decides a tie of runs and an array, and nothing else. -/
theorem agreedKind_eq_or_tie (eager : Bool) (other held : ContainerKind) (n r t : Nat) :
    agreedKind eager other n r t = agreedKind eager held n r t ∨
    runSerializedBytes r = n * lowTypeBytes := by
  by_cases htie : runSerializedBytes r = n * lowTypeBytes
  · exact .inr htie
  · left
    unfold agreedKind
    simp only [htie, false_and, or_false]

/-- The agreed form is agreed on from itself. -/
theorem agreedKind_again : agreedKind eager (agreedKind eager held n r t) n r t = agreedKind eager
    held n r t := by
  rcases agreedKind_eq_or_tie eager (agreedKind eager held n r t) held n r t with hsame | htie
  · exact hsame
  · unfold agreedKind
    simp only [htie, lt_irrefl, false_or, true_and]
    split_ifs <;> simp_all

theorem serializedBytes_agreedKind : serializedBytes (agreedKind eager other n r t) n r =
    serializedBytes (agreedKind eager held n r t) n r := by
  rcases agreedKind_eq_or_tie eager other held n r t with hsame | htie
  · rw [hsame]
  · unfold agreedKind
    split_ifs <;> simp only [serializedBytes, htie]

theorem agreedKind_minimal (hallowed : kind = .run → eager = true) :
    serializedBytes (agreedKind eager held n r arrayToBitsetThreshold) n r ≤ serializedBytes kind
      n r := by
  have hlimit : arrayToBitsetThreshold ≤ n ↔ bitsetBytes ≤ n * lowTypeBytes := by
    rw [arrayToBitsetThreshold, bitsetBytes, wordCount, lowTypeBytes]
    omega
  rw [agreedKind, if_congr (and_congr_left' hlimit) rfl rfl]
  split_ifs <;> cases eager <;> cases kind <;> simp_all [serializedBytes] <;> omega

/-- Where the arms disagree, an array and a bitset undo each other. -/
theorem decidedKind_again_ne (hagrees : ¬ StorageAgrees eager n r t) :
    decidedKind eager (decidedKind eager held n r t) n r t ≠ decidedKind eager held n r t := by
  rw [StorageAgrees, not_or, not_or, not_or, not_lt, not_le, not_and, not_lt] at hagrees
  obtain ⟨hzero, hthreshold, hlimit, hruns⟩ := hagrees
  have harray : decidedKind eager .array n r t = .bitset := by
    unfold decidedKind
    dsimp only
    rw [if_neg hzero, if_pos ⟨hthreshold, hruns⟩]
  have hbitset : decidedKind eager .bitset n r t = .array := by
    unfold decidedKind
    dsimp only
    rw [if_neg hzero, if_neg fun h ↦ absurd h.1.2 (not_le.2 hlimit), if_neg fun h ↦ ?_]
    exact absurd ((hruns h.1).trans_lt h.2) (not_lt.2 hlimit.le)
  have hrun : decidedKind eager .run n r t = .array ∨ decidedKind eager .run n r t = .bitset := by
    unfold decidedKind
    dsimp only
    rw [if_neg hzero]
    cases eager with
    | true =>
      left
      have hmore : ¬ r * runBytesPerRun + lowTypeBytes ≤ n * lowTypeBytes :=
        fun h ↦ absurd ((hruns rfl).trans h) (not_le.2 hlimit)
      have hloses : ¬ isBitsetCardinality n t = true := by
        rw [isBitsetCardinality, decide_eq_true_eq]
        exact fun h ↦ absurd h.2 (not_le.2 hlimit)
      rw [if_pos rfl, chooseRunContainerKind, if_neg fun h ↦ hmore h.1, if_neg hloses]
    | false => exact .inr (by rw [if_neg Bool.false_ne_true, if_pos hthreshold])
  cases held with
  | array =>
    rw [harray, hbitset]
    decide
  | bitset =>
    rw [hbitset, harray]
    decide
  | run =>
    rcases hrun with h | h
    · rw [h, harray]
      decide
    · rw [h, hbitset]
      decide

theorem storageAgrees_default (eager : Bool) (n r : Nat) :
    StorageAgrees eager n r arrayToBitsetThreshold := by
  rcases Nat.lt_or_ge n arrayToBitsetThreshold with hbelow | hlimit
  · exact .inr (.inl hbelow)
  · exact .inr (.inr (.inl (Nat.mul_le_mul_right lowTypeBytes hlimit)))

end Agreement
/-! ## Optimizing again -/

/-- What holds of every result: it is the same set, in the form that the exact number of runs
decides, and at the default threshold in the smallest of the allowed forms. -/
def IsStorageForm (eager : Bool) (container result : ContainerHandle) (bitsetThreshold : Nat) :
    Prop :=
  let cardinality := container.values.length
  let runCount := runCountOf container.values
  result.Holds container.values ∧
    result.kind = decidedKind eager container.kind cardinality runCount bitsetThreshold ∧
    (bitsetThreshold = arrayToBitsetThreshold → ∀ kind, (kind = .run → eager = true) →
      serializedBytes result.kind cardinality runCount ≤ serializedBytes kind cardinality runCount)

/-- A result that is kept when it is optimized again, and that every container of the same set comes
to: to a form of the same size, and to the same form unless runs and an array tie. -/
def IsSettled (eager : Bool) (container result : ContainerHandle) (bitsetThreshold : Nat) : Prop :=
  let cardinality := container.values.length
  let runCount := runCountOf container.values
  (∃ again, optimizeContainerForStorage eager result bitsetThreshold = some again ∧
    again.kind = result.kind) ∧
    ∀ other : ContainerHandle, other.Valid → other.values = container.values →
      ∃ result', optimizeContainerForStorage eager other bitsetThreshold = some result' ∧
        serializedBytes result'.kind cardinality runCount = serializedBytes result.kind cardinality
          runCount ∧
          (runSerializedBytes runCount ≠ cardinality * lowTypeBytes → result'.kind = result.kind)

section Again

variable {container : ContainerHandle}

/-- Optimizing always returns a storage form of the same set, and it is settled exactly where the
arms agree, which they always do at the default threshold. -/
theorem optimizeContainerForStorage_settled_iff (hv : container.Valid) (eager : Bool)
    (bitsetThreshold : Nat) :
    ∃ result, optimizeContainerForStorage eager container bitsetThreshold = some result ∧
      IsStorageForm eager container result bitsetThreshold ∧
      (IsSettled eager container result bitsetThreshold ↔
        StorageAgrees eager container.values.length (runCountOf container.values) bitsetThreshold) ∧
      (bitsetThreshold = arrayToBitsetThreshold →
        IsSettled eager container result bitsetThreshold) := by
  have hle := runCountOf_le hv.values_ascending hv.values_lt
  obtain ⟨result, hopt, hholds, hkind⟩ := optimizeContainerForStorage_holds hv eager bitsetThreshold
  obtain ⟨again, hagain, -, hkind'⟩ :=
    optimizeContainerForStorage_holds hholds.1 eager bitsetThreshold
  rw [hholds.2] at hkind'
  have hsettles : StorageAgrees eager container.values.length (runCountOf container.values)
      bitsetThreshold →
      IsSettled eager container result bitsetThreshold := by
    intro hagrees
    refine ⟨⟨again, hagain, ?_⟩, fun other hother hsame ↦ ?_⟩
    · rw [hkind', hkind, decidedKind_eq_agreedKind hle hagrees,
        decidedKind_eq_agreedKind hle hagrees,
        agreedKind_again]
    · obtain ⟨result', hopt', -, hkind''⟩ :=
        optimizeContainerForStorage_holds hother eager bitsetThreshold
      rw [hsame, decidedKind_eq_agreedKind hle hagrees] at hkind''
      rw [decidedKind_eq_agreedKind hle hagrees] at hkind
      refine ⟨result', hopt', ?_, fun htie ↦ ?_⟩
      · rw [hkind'', hkind, serializedBytes_agreedKind]
      · rw [hkind'', hkind]
        exact (agreedKind_eq_or_tie eager other.kind container.kind _ _ _).resolve_right htie
  refine ⟨result, hopt, ⟨hholds, hkind, fun hdefault kind hallowed ↦ ?_⟩,
    ⟨fun hsettled ↦ ?_, hsettles⟩, ?_⟩
  · subst hdefault
    rw [hkind, decidedKind_eq_agreedKind hle (storageAgrees_default _ _ _)]
    exact agreedKind_minimal hallowed
  · -- the form was decided otherwise from the result
    by_contra hagrees
    obtain ⟨⟨again', hagain', hkept⟩, -⟩ := hsettled
    obtain rfl := Option.some.inj (hagain.symm.trans hagain')
    rw [hkind', hkind] at hkept
    exact decidedKind_again_ne hagrees hkept
  · rintro rfl
    exact hsettles (storageAgrees_default _ _ _)

theorem optimizeContainerForStorage_settled_iff_runs :
    ∃ result, optimizeContainerForStorage true (.makeRunFrom [⟨0, 9⟩] 10) 4096 = some result ∧
      IsStorageForm true (.makeRunFrom [⟨0, 9⟩] 10) result 4096 ∧
      IsSettled true (.makeRunFrom [⟨0, 9⟩] 10) result 4096 := by
  have hvalid : (ContainerHandle.makeRunFrom [⟨0, 9⟩] 10).Valid :=
    ContainerHandle.makeRunFrom_valid ⟨by decide, by decide, by decide⟩ (by decide)
  obtain ⟨result, hopt, hform, -, hsettled⟩ :=
    optimizeContainerForStorage_settled_iff hvalid true 4096
  exact ⟨result, hopt, hform, hsettled rfl⟩

/-- One value behind a low threshold goes from an array to a bitset, and back. -/
theorem optimizeContainerForStorage_undone :
    (ContainerHandle.makeArrayFromSorted [5]).Valid ∧ ∃ result again,
      optimizeContainerForStorage false (.makeArrayFromSorted [5]) 1 = some result ∧
        optimizeContainerForStorage false result 1 = some again ∧ result.kind = .bitset ∧
          again.kind = .array := by
  have hholds : (ContainerHandle.makeArrayFromSorted [5]).Holds [5] :=
    ContainerHandle.holds_array (by decide) (by decide)
  obtain ⟨result, hopt, hresult, hkind⟩ := optimizeContainerForStorage_holds hholds.1 false 1
  obtain ⟨again, hagain, -, hkind'⟩ := optimizeContainerForStorage_holds hresult.1 false 1
  have hbitset : result.kind = .bitset := by rw [hkind]; rfl
  rw [hresult.2, hbitset] at hkind'
  exact ⟨hholds.1, result, again, hopt, hagain, hbitset, hkind'.trans (by rfl)⟩

/-- Three values take as much as an array as in one run: each of the two forms is kept.  And behind
a low threshold a form is not kept at all. -/
theorem optimizeContainerForStorage_tie :
    ((ContainerHandle.makeArrayFromSorted [1, 2, 3]).Valid ∧
      (ContainerHandle.makeRunFrom [⟨1, 3⟩] 3).Valid ∧
      (ContainerHandle.makeArrayFromSorted [1, 2, 3]).values =
        (ContainerHandle.makeRunFrom [⟨1, 3⟩] 3).values ∧
      ∃ fromArray fromRuns,
        optimizeContainerForStorage true (.makeArrayFromSorted [1, 2, 3]) arrayToBitsetThreshold =
          some fromArray ∧
        optimizeContainerForStorage true (.makeRunFrom [⟨1, 3⟩] 3) arrayToBitsetThreshold =
          some fromRuns ∧
        fromArray.kind = .array ∧ fromRuns.kind = .run) ∧
    ∃ result again, optimizeContainerForStorage false (.makeArrayFromSorted [5]) 1 = some result ∧
      optimizeContainerForStorage false result 1 = some again ∧ result.kind = .bitset ∧
        again.kind = .array := by
  have harray : (ContainerHandle.makeArrayFromSorted [1, 2, 3]).Holds [1, 2, 3] :=
    ContainerHandle.holds_array (by decide) (by decide)
  have hruns : (ContainerHandle.makeRunFrom [⟨1, 3⟩] 3).Valid :=
    ContainerHandle.makeRunFrom_valid ⟨by decide, by decide, by decide⟩ (by decide)
  obtain ⟨fromArray, hopt, -, hkind⟩ :=
    optimizeContainerForStorage_holds harray.1 true arrayToBitsetThreshold
  obtain ⟨fromRuns, hopt', -, hkind'⟩ :=
    optimizeContainerForStorage_holds hruns true arrayToBitsetThreshold
  refine ⟨⟨harray.1, hruns, rfl, fromArray, fromRuns, hopt, hopt', ?_, ?_⟩,
    optimizeContainerForStorage_undone.2⟩
  · rw [hkind]
    decide
  · rw [hkind']
    decide

end Again

end Roaring
