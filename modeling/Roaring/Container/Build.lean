import Mathlib
import Roaring.Container.Handle

/-!
# Containers built from ascending values

A chunk's values, ascending and without repeats, become a container of the kind
that its size asks for: by cardinality against a threshold, and by the bytes of
the runs where runs are considered at all.  The choice never changes the values,
which is all that `Holds` says of a result.
-/

namespace Roaring

open Lib

/-- `std::numeric_limits<low_type>::max()`. -/
def lowTypeMax : Nat := 65535

def lowTypeBytes : Nat := 2

def runBytesPerRun : Nat := 4

def bitsetBytes : Nat := wordCount * 8

/-- `std::numeric_limits<std::size_t>::max()`. -/
def sizeTypeMax : Nat := 2 ^ 64 - 1

/-! ## Runs of ascending values -/

/-- The loop of `run_ref::from_sorted_values`, with the run that is open. -/
def extendRuns (first last : Nat) : List Nat → List Run
  | [] => [⟨first, last⟩]
  | v :: vs =>
      if v = last ∨ (last ≠ lowTypeMax ∧ v = last + 1) then extendRuns first v vs
      else ⟨first, last⟩ :: extendRuns v v vs

def runsFromSortedValues : List Nat → List Run
  | [] => []
  | v :: vs => extendRuns v v vs

/-- How many values from `index` to `stop` are not the value before them plus one. -/
def countRunStarts (values : List Nat) (index stop : Nat) : Nat :=
  ((List.range' index (stop - index)).filter fun i ↦
    values.getD i 0 ≠ (values.getD (i - 1) 0 + 1) % lowDomainSize).length

/-- The blocks of `run_count_from_sorted_values`, none longer than what is missing to the cap. -/
def countRunBlocks (values : List Nat) (cap index runCount : Nat) : Nat :=
  if _h : index < values.length ∧ runCount < cap then
    countRunBlocks values cap (min (index + min (cap - runCount) 256) values.length)
      (runCount + countRunStarts values index
        (min (index + min (cap - runCount) 256) values.length))
  else runCount
termination_by values.length - index

def runCountFromSortedValues (values : List Nat) (cap : Nat) : Nat :=
  if values = [] then 0 else min (countRunBlocks values cap 1 1) cap

/-! ## The choice of a kind -/

/-- `choose_container_kind`. -/
def chooseContainerKind (eager : Bool) (cardinality bitsetThreshold : Nat) (countRuns : Nat → Nat) :
    ContainerKind :=
  let canConsiderRun := eager && decide (64 ≤ cardinality)
  let arrayBytes := cardinality * lowTypeBytes
  let runCountCap := max arrayBytes bitsetBytes / runBytesPerRun + 1
  let runBytes := if canConsiderRun then countRuns runCountCap * runBytesPerRun else sizeTypeMax
  if bitsetThreshold ≤ cardinality ∧ bitsetBytes ≤ runBytes then .bitset
  else if canConsiderRun ∧ runBytes < arrayBytes then .run
  else .array

def chooseSortedContainerKind (eager : Bool) (values : List Nat) (bitsetThreshold : Nat) :
    ContainerKind :=
  chooseContainerKind eager values.length bitsetThreshold (runCountFromSortedValues values)

/-! ## Handles -/

/-- `bitset_handle_from_sorted_values`: the words are scattered, the header is read off the
values. -/
def bitsetHandleFromSortedValues (values : List Nat) : ContainerHandle where
  payload := .bitset ((Words.zeroed wordCount).scatter values)
  cardinality := values.length
  min := values.headD 0
  max := values.getLastD 0
  endpointsStale := values.isEmpty

/-- `handle_from_run_container`. -/
def handleFromRunContainer (runs : List Run) : ContainerHandle :=
  ContainerHandle.makeRunFrom runs (runCardinality runs)

/-- `run_handle_from_sorted_values`. -/
def runHandleFromSortedValues (values : List Nat) : ContainerHandle :=
  handleFromRunContainer (runsFromSortedValues values)

/-- `make_container_from_sorted_values`. -/
def makeContainerFromSortedValues (eager : Bool) (values : List Nat) (bitsetThreshold : Nat) :
    ContainerHandle :=
  if values = [] then
    .makeArrayFromSorted []
  else match chooseSortedContainerKind eager values bitsetThreshold with
    | .bitset => bitsetHandleFromSortedValues values
    | .run => runHandleFromSortedValues values
    | .array => .makeArrayFromSorted values

/-- `make_container_from_filled_array`: the array at hand is the result where an array is chosen. -/
def makeContainerFromFilledArray (eager : Bool) (filledArray : ContainerHandle)
    (bitsetThreshold : Nat) : ContainerHandle :=
  let values := filledArray.values
  if values = [] then
    .makeArrayFromSorted []
  else match chooseSortedContainerKind eager values bitsetThreshold with
    | .bitset => bitsetHandleFromSortedValues values
    | .run => runHandleFromSortedValues values
    | .array => filledArray

/-! ## What a container holds -/

/-- A valid container of exactly these values. -/
structure ContainerHandle.Holds (h : ContainerHandle) (values : List Nat) : Prop where
  valid : h.Valid
  values_eq : h.values = values

namespace ContainerHandle

variable {h : ContainerHandle} {vs : List Nat} {runs : List Run}

theorem Holds.cardinality (hh : h.Holds vs) : h.cardinality = vs.length := by
  rw [hh.valid.cardinality, hh.values_eq]

theorem Holds.ascending (hh : h.Holds vs) : vs.Pairwise (· < ·) :=
  hh.values_eq ▸ hh.valid.values_ascending

theorem Holds.bounded (hh : h.Holds vs) : ∀ v ∈ vs, v < lowDomainSize :=
  hh.values_eq ▸ hh.valid.values_lt

theorem holds_array (hasc : vs.Pairwise (· < ·)) (hlt : ∀ v ∈ vs, v < lowDomainSize) :
    (makeArrayFromSorted vs).Holds vs := ⟨syncHeader_valid hasc hlt, rfl⟩

theorem holds_run (hc : Canonical runs) (hv : runValues runs = vs) :
    (handleFromRunContainer runs).Holds vs :=
  ⟨makeRunFrom_valid hc rfl, hv⟩

theorem getLastD_eq (hne : vs ≠ []) : vs.getLastD 0 = vs.getLast hne := by
  rw [List.getLastD_eq_getLast?, List.getLast?_eq_some_getLast hne]
  rfl

theorem headD_eq (hne : vs ≠ []) : vs.headD 0 = vs.head hne := by
  cases vs with
  | nil => exact absurd rfl hne
  | cons v vs => rfl

theorem holds_bitset (hasc : vs.Pairwise (· < ·)) (hlt : ∀ v ∈ vs, v < lowDomainSize) :
    (bitsetHandleFromSortedValues vs).Holds vs := by
  have hvalues : (bitsetHandleFromSortedValues vs).values = vs :=
    Words.values_scatter hasc fun v hv ↦ hlt v hv
  refine ⟨⟨.bitset _, rfl, ?_, ?_⟩, hvalues⟩
  · rw [hvalues]
    rfl
  · cases hvs : vs with
    | nil => exact .inl rfl
    | cons v ws =>
      refine .inr ?_
      rw [← hvs]
      intro hne
      simp only [hvalues] at hne ⊢
      exact ⟨headD_eq hne, getLastD_eq hne⟩

end ContainerHandle

open ContainerHandle

/-! ## Runs hold the values -/

variable {eager : Bool} {bitsetThreshold first last : Nat} {vs : List Nat}

theorem extends_iff {v : Nat} (hv : v < lowDomainSize) (hlast : last < v) :
    (v = last ∨ (last ≠ lowTypeMax ∧ v = last + 1)) ↔ v = last + 1 := by
  constructor
  · rintro (rfl | ⟨-, rfl⟩)
    · exact absurd hlast (lt_irrefl _)
    · rfl
  · rintro rfl
    refine .inr ⟨?_, rfl⟩
    rintro rfl
    exact absurd hv (by decide)

theorem values_snoc {v : Nat} (hle : first ≤ last) (hv : v = last + 1) :
    (⟨first, v⟩ : Run).values = (⟨first, last⟩ : Run).values ++ [v] := by
  subst hv
  have hlen : last + 1 + 1 - first = (last + 1 - first) + 1 := by omega
  have hnext : first + 1 * (last + 1 - first) = last + 1 := by omega
  simp only [Run.values, hlen, List.range'_concat, hnext]

/-- Ascending values behind an open run: their runs are canonical and list the values. -/
theorem extendRuns_spec (hle : first ≤ last) (hlast : last < lowDomainSize)
    (hasc : (last :: vs).Pairwise (· < ·)) (hlt : ∀ v ∈ vs, v < lowDomainSize) :
    Canonical (extendRuns first last vs) ∧
      runValues (extendRuns first last vs) = (⟨first, last⟩ : Run).values ++ vs ∧
      ∀ r ∈ extendRuns first last vs, first ≤ r.first := by
  induction vs generalizing first last with
  | nil =>
    refine ⟨Canonical.cons_iff.2 ⟨hle, hlast, by simp, .nil⟩, by simp [extendRuns], ?_⟩
    intro r hr
    rw [extendRuns, List.mem_singleton] at hr
    rw [hr]
  | cons v vs ih =>
    have hv := hlt v List.mem_cons_self
    have hlv : last < v := List.rel_of_pairwise_cons hasc List.mem_cons_self
    have hrest : ∀ w ∈ vs, w < lowDomainSize := fun w hw ↦ hlt w (List.mem_cons_of_mem v hw)
    rw [extendRuns]
    by_cases hnext : v = last + 1
    · rw [if_pos ((extends_iff hv hlv).2 hnext)]
      obtain ⟨hc, hvalues, hfirst⟩ := ih (hle.trans hlv.le) hv hasc.of_cons hrest
      refine ⟨hc, ?_, hfirst⟩
      rw [hvalues, values_snoc hle hnext, List.append_assoc]
      rfl
    · rw [if_neg (mt (extends_iff hv hlv).1 hnext)]
      obtain ⟨hc, hvalues, hfirst⟩ := ih le_rfl hv hasc.of_cons hrest
      refine ⟨Canonical.cons_iff.2 ⟨hle, hlast, ?_, hc⟩, ?_, ?_⟩
      · intro s hs
        have hs' := hfirst s hs
        show last + 1 < s.first
        omega
      · rw [runValues_cons, hvalues]
        simp [Run.values]
      · intro r hr
        rcases List.mem_cons.1 hr with rfl | hr
        · exact le_rfl
        · exact (hle.trans hlv.le).trans (hfirst r hr)

theorem runsFromSortedValues_spec (hasc : vs.Pairwise (· < ·)) (hlt : ∀ v ∈ vs, v < lowDomainSize) :
    Canonical (runsFromSortedValues vs) ∧ runValues (runsFromSortedValues vs) = vs := by
  cases vs with
  | nil => exact ⟨.nil, rfl⟩
  | cons v vs =>
    obtain ⟨hc, hvalues, -⟩ := extendRuns_spec le_rfl (hlt v List.mem_cons_self) hasc fun w hw ↦
      hlt w (List.mem_cons_of_mem v hw)
    refine ⟨hc, hvalues.trans ?_⟩
    simp [Run.values]

theorem holds_runHandle (hasc : vs.Pairwise (· < ·)) (hlt : ∀ v ∈ vs, v < lowDomainSize) :
    (runHandleFromSortedValues vs).Holds vs := by
  obtain ⟨hc, hvalues⟩ := runsFromSortedValues_spec hasc hlt
  exact holds_run hc hvalues

/-! ## Every choice holds the values -/

theorem makeContainerFromSortedValues_holds (hasc : vs.Pairwise (· < ·))
    (hlt : ∀ v ∈ vs, v < lowDomainSize) :
    (makeContainerFromSortedValues eager vs bitsetThreshold).Holds vs := by
  rw [makeContainerFromSortedValues]
  split
  · rename_i hnil
    rw [hnil]
    exact holds_array .nil (by simp)
  · split
    · exact holds_bitset hasc hlt
    · exact holds_runHandle hasc hlt
    · exact holds_array hasc hlt

end Roaring
