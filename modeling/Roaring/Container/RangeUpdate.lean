import Mathlib
import Roaring.Container.RangeQuery
import Roaring.Container.Settle

/-!
# A range added to, removed from or flipped in a container

Every kind of container has its own way to take a range operation: words are masked, runs
are clipped or joined with the range by an exclusive or, the values of an array become
the runs between them, words, or an array again.  Each way decides the form of its result by
itself and counts it before it is written.
-/

namespace Roaring

open Lib

/-! ## The flip of an array -/

/-- The values in front of a range, those in it and those behind it, by two searches. -/
def valuesBefore (values : List Nat) (first : Nat) : List Nat := values.takeWhile fun v ↦ v < first

def valuesInside (values : List Nat) (first last : Nat) : List Nat :=
  (ContainerHandle.valuesFrom values first).takeWhile fun v ↦ v ≤ last

def valuesBehind (values : List Nat) (first last : Nat) : List Nat :=
  (ContainerHandle.valuesFrom values first).dropWhile fun v ↦ v ≤ last

/-- `append_run`, into a buffer of `capacity` runs. -/
def appendRun (capacity : Nat) (out : List Run) (next : Run) : Option (List Run) :=
  match out.getLast? with
  | none => writeRun capacity out next
  | some last =>
    if last.last + 1 = next.first then some (out.dropLast ++ [⟨last.first, next.last⟩])
    else writeRun capacity out next

/-- The gaps that values leave in a range from `next` on. -/
def flipGaps (last : Nat) : (next : Nat) → List Nat → List Run
  | next, [] => if next ≤ last then [⟨next, last⟩] else []
  | next, v :: vs => (if next < v then [⟨next, v - 1⟩] else []) ++ flipGaps last (v + 1) vs

/-- The runs of the flipped values: the values in front, the gaps of the range and the values behind
are appended. -/
def flipArrayRuns (capacity : Nat) (values : List Nat) (first last : Nat) : Option (List Run) :=
  (unitRuns (valuesBefore values first) ++ (flipGaps last first (valuesInside values first last) ++
    unitRuns (valuesBehind values first last))).foldlM (appendRun capacity) []

/-- The values that a flip writes for a range from `value` on. -/
def flipInside (last : Nat) (value : Nat) : List Nat → List Nat
  | [] => List.range' value (last + 1 - value)
  | v :: vs =>
    if value ≤ last then
      if value ≠ v then value :: flipInside last (value + 1) (v :: vs)
      else flipInside last (value + 1) vs
    else []
termination_by last + 1 - value

/-- `run_ref::sync_header`: count and endpoints of runs are read off them. -/
def syncRunHeader (runs : List Run) : ContainerHandle := .makeRunFrom runs (runCardinality runs)

/-- `words.fill( std::numeric_limits<std::uint64_t>::max() )`. -/
def filledWords : Words wordCount := Vector.replicate wordCount (BitVec.allOnes 64)

/-- `flip_array_range`; nothing is returned when a form is not written in just the places counted
for it. -/
def flipArrayRange (container : ContainerHandle) (first last bitsetThreshold : Nat) :
    Option ContainerHandle :=
  let values := container.values
  let cardinality := values.length
  let inRange := (valuesInside values first last).length
  let span := last - first + 1
  let newCardinality := cardinality - inRange + (span - inRange)
  if cardinality < span ∧ isBitsetCardinality (span - cardinality) bitsetThreshold ∧
      (cardinality + 1) * runBytesPerRun + lowTypeBytes < bitsetBytes then
    (flipArrayRuns (cardinality + 1) values first last).map syncRunHeader
  else if isBitsetCardinality newCardinality bitsetThreshold then
    if first = 0 ∧ last = lowDomainSize - 1 then
      -- all bits are set, then the values cleared
      some (.makeBitsetFrom (values.foldl Words.erase filledWords) newCardinality)
    else
      let words := applyRangeToWords ((Words.zeroed wordCount).scatter values) first last .flip
      some { bitsetHandleFromSortedValues values with
        payload := .bitset words
        cardinality := newCardinality
        endpointsStale := true }
  else if newCardinality = 0 then some (.makeArrayFromSorted [])
  else
    let out := valuesBefore values first ++
        (flipInside last first (valuesInside values first last) ++
          valuesBehind values first last)
    if out.length = newCardinality then some (.syncHeader out) else none

/-! ## The flip of runs and of words -/

/-- The runs in front of the range are copied, the range and the runs behind its begin are
exclusive-ored to them. -/
def flipRuns (capacity : Nat) (source : List Run) (first last : Nat) : Option (List Run) := do
  let out ← (source.takeWhile fun r ↦ r.first < first).foldlM (writeRun capacity) []
  let out ← appendRunExclusive capacity out ⟨first, last⟩
  (source.dropWhile fun r ↦ r.first < first).foldlM (appendRunExclusive capacity) out

/-- `flip_run_range`. -/
def flipRunRange (source : List Run) (first last bitsetThreshold : Nat) :
    Option ContainerHandle := do
  let out ← flipRuns (source.length + 1) source first last
  if out = [] then return .makeArrayFromSorted []
  else settleRunResult (syncRunHeader out) bitsetThreshold

/-- `flip_bitset_range`. -/
def flipBitsetRange (container : ContainerHandle) (words : Words wordCount)
    (first last bitsetThreshold : Nat) : ContainerHandle :=
  let words := applyRangeToWords words first last .flip
  let cardinality := words.count
  if cardinality = 0 then .makeArrayFromSorted []
  else if !isBitsetCardinality cardinality bitsetThreshold then
    .makeArrayFromSorted (valuesFromWords words)
  else { container with
    payload := .bitset words
    cardinality := cardinality
    cardinalityStale := false
    endpointsStale := true }

/-! ## `apply_range_to_container` -/

/-- The runs are clipped on both sides of the range; a range that touches none leaves the container
as it is. -/
def clipRunRange (container : ContainerHandle) (runs : List Run)
    (first last bitsetThreshold : Nat) : Option ContainerHandle :=
  if (ContainerHandle.runsReaching runs first).head?.all (fun r ↦ last < r.first) then
    some container
  else
    let clipped := syncRunHeader (runRemoveClosedRange runs first last)
    if clipped.cardinality = 0 then some (.makeArrayFromSorted [])
    else settleRunResult clipped bitsetThreshold

/-- `container_range_of_ones`: a run, but for the two values that an array holds. -/
def rangeOfOnes (first last : Nat) : ContainerHandle :=
  if last - first < 2 then .makeArrayFromSorted (if first = last then [first] else [first, last])
  else syncRunHeader [⟨first, last⟩]

def applyRangeToContainer (eager : Bool) (container : ContainerHandle) (first last : Nat)
    (op : RangeOperation) (bitsetThreshold : Nat) : Option ContainerHandle :=
  if op = .flip then
    if container.cardinality = 0 then some (rangeOfOnes first last)
    else match container.payload with
      | .array _ => flipArrayRange container first last bitsetThreshold
      | .run source => flipRunRange source first last bitsetThreshold
      | .bitset words => some (flipBitsetRange container words first last bitsetThreshold)
  else
    let throughWords :=
      makeContainerFromWords eager (applyRangeToWords (wordsFromContainer container) first last op)
      bitsetThreshold
    match container.payload with
    | .run runs =>
      if op = .remove ∧ container.cardinality ≠ 0 then
        clipRunRange container runs first last bitsetThreshold
      else some throughWords
    | _ => some throughWords

/-! ## The parts of an array -/

section Array

variable {values : List Nat} {first last v : Nat}

theorem mem_valuesBefore (hasc : values.Pairwise (· < ·)) : v ∈ valuesBefore values first ↔
    v ∈ values ∧ v < first := by
  rw [valuesBefore, takeWhile_lt_eq_filter (hasc.imp Nat.le_of_lt), List.mem_filter,
    decide_eq_true_eq]

theorem valuesFrom_ascending (hasc : values.Pairwise (· < ·)) (first : Nat) :
    (ContainerHandle.valuesFrom values first).Pairwise (· < ·) :=
      hasc.sublist (List.dropWhile_sublist _)

theorem mem_valuesInside (hasc : values.Pairwise (· < ·)) :
    v ∈ valuesInside values first last ↔ v ∈ values ∧ first ≤ v ∧ v ≤ last := by
  have hrest := valuesFrom_ascending hasc first
  have hle : ∀ u, decide (u ≤ last) = decide (u < last + 1) :=
    fun u ↦ decide_eq_decide.2 Nat.lt_succ_iff.symm
  rw [valuesInside, funext hle, takeWhile_lt_eq_filter (hrest.imp Nat.le_of_lt), List.mem_filter,
    decide_eq_true_eq,
    mem_valuesFrom hasc, and_assoc, Nat.lt_succ_iff]

theorem mem_valuesBehind (hasc : values.Pairwise (· < ·)) (hle : first ≤ last) :
    v ∈ valuesBehind values first last ↔ v ∈ values ∧ last < v := by
  have hrest := valuesFrom_ascending hasc first
  have hlt : ∀ u, decide (u ≤ last) = decide (u < last + 1) :=
    fun u ↦ decide_eq_decide.2 Nat.lt_succ_iff.symm
  rw [valuesBehind, funext hlt, dropWhile_lt_eq_filter (hrest.imp Nat.le_of_lt), List.mem_filter,
    decide_eq_true_eq,
    mem_valuesFrom hasc, and_assoc]
  exact and_congr_right fun _ ↦ ⟨fun h ↦ h.2, fun h ↦ ⟨hle.trans (Nat.le_of_succ_le h), h⟩⟩

theorem valuesBefore_append (values : List Nat) (first last : Nat) :
    valuesBefore values first ++
      (valuesInside values first last ++ valuesBehind values first last) = values := by
  rw [valuesInside, valuesBehind, List.takeWhile_append_dropWhile, valuesBefore,
    ContainerHandle.valuesFrom,
    List.takeWhile_append_dropWhile]

end Array

/-! ## The values of the flip -/

section FlippedValues

variable {values vs : List Nat} {first last value v : Nat}

/-- The flip of an array, in order. -/
def flippedValues (values : List Nat) (first last : Nat) : List Nat :=
  valuesBefore values first ++
    (flipInside last first (valuesInside values first last) ++ valuesBehind values first last)

/-- The loop writes the values of the range that the array does not have. -/
theorem flipInside_eq (hasc : vs.Pairwise (· < ·)) (hge : ∀ u ∈ vs, value ≤ u)
    (hle : ∀ u ∈ vs, u ≤ last) :
    flipInside last value vs = (List.range' value (last + 1 - value)).filter fun u ↦
      decide (u ∉ vs) := by
  induction value, vs using flipInside.induct last with
  | case1 value => simp [flipInside]
  | case2 value v vs hin hne ih =>
    have hv : value < v := Nat.lt_of_le_of_ne (hge v List.mem_cons_self) hne
    have hnot : value ∉ v :: vs := by
      intro hmem
      rcases List.mem_cons.1 hmem with rfl | hmem
      · exact hne rfl
      · exact absurd (List.rel_of_pairwise_cons hasc hmem) (not_lt.2 hv.le)
    have hnext : ∀ u ∈ v :: vs, value + 1 ≤ u := by
      intro u hu
      have hu' := hge u hu
      by_contra hlt
      obtain rfl : u = value := by omega
      exact hnot hu
    have hlen : last + 1 - value = (last + 1 - (value + 1)) + 1 := by omega
    rw [flipInside, if_pos hin, if_pos hne, ih hasc hnext hle, hlen, List.range'_succ,
      List.filter_cons_of_pos (by simpa using hnot)]
  | case3 value v vs hin heq ih =>
    obtain rfl : value = v := not_not.1 heq
    have hlater : ∀ u ∈ vs, value + 1 ≤ u := fun u hu ↦ List.rel_of_pairwise_cons hasc hu
    have hlen : last + 1 - value = (last + 1 - (value + 1)) + 1 := by omega
    rw [flipInside, if_pos hin, if_neg (not_not.2 rfl), ih hasc.of_cons hlater fun u hu ↦
      hle u (List.mem_cons_of_mem value hu), hlen,
      List.range'_succ, List.filter_cons_of_neg (by simp)]
    apply List.filter_congr
    intro u hu
    have hne : u ≠ value := by
      rw [List.mem_range'_1] at hu
      omega
    simp [hne]
  | case4 value v vs hout =>
    have hv := List.mem_cons_self (a := v) (l := vs)
    exact absurd ((hge v hv).trans (hle v hv)) hout

variable (hasc : values.Pairwise (· < ·))

include hasc

theorem flipInside_valuesInside :
    flipInside last first (valuesInside values first last) =
      (List.range' first (last + 1 - first)).filter fun u ↦
        decide (u ∉ valuesInside values first last) := by
  refine flipInside_eq ?_ (fun u hu ↦ ((mem_valuesInside hasc).1 hu).2.1) fun u hu ↦
    ((mem_valuesInside hasc).1 hu).2.2
  exact (valuesFrom_ascending hasc first).sublist (List.takeWhile_sublist _)

theorem mem_flippedValues (hle : first ≤ last) :
    v ∈ flippedValues values first last ↔ Xor (v ∈ values) (first ≤ v ∧ v ≤ last) := by
  rw [flippedValues, flipInside_valuesInside hasc, List.mem_append, List.mem_append,
    mem_valuesBefore hasc,
    mem_valuesBehind hasc hle, List.mem_filter, List.mem_range'_1, decide_eq_true_eq,
      mem_valuesInside hasc, Xor]
  by_cases hv : v ∈ values
  · simp only [hv, true_and, not_true_eq_false, and_false, or_false]
    omega
  · simp only [hv, false_and, not_false_eq_true, and_true, false_or, or_false]
    omega

theorem flippedValues_ascending (hle : first ≤ last) :
    (flippedValues values first last).Pairwise (· < ·) := by
  rw [flippedValues, flipInside_valuesInside hasc]
  refine List.pairwise_append.2 ⟨hasc.sublist (List.takeWhile_sublist _), List.pairwise_append.2
    ⟨List.Pairwise.filter _ List.pairwise_lt_range',
      (valuesFrom_ascending hasc first).sublist (List.dropWhile_sublist _), ?_⟩, ?_⟩
  · intro u hu v hv
    have hu := (List.mem_filter.1 hu).1
    rw [List.mem_range'_1] at hu
    have hv := ((mem_valuesBehind hasc hle).1 hv).2
    omega
  · intro u hu v hv
    have hu := ((mem_valuesBefore hasc).1 hu).2
    rcases List.mem_append.1 hv with hv | hv
    · have hv := (List.mem_filter.1 hv).1
      rw [List.mem_range'_1] at hv
      omega
    · have hv := ((mem_valuesBehind hasc hle).1 hv).2
      omega

/-- The flip is counted by what the range holds. -/
theorem length_flippedValues (hle : first ≤ last) :
    (flippedValues values first last).length =
      values.length - (valuesInside values first last).length +
        (last - first + 1 - (valuesInside values first last).length) := by
  have hall := congrArg List.length (valuesBefore_append values first last)
  have hinside :
      (List.range' first (last + 1 - first)).filter
      (fun u ↦ decide (u ∈ valuesInside values first last)) =
      valuesInside values first last := by
    refine List.Pairwise.eq_of_mem_iff (r :=
      (· < ·)) (List.Pairwise.filter _ List.pairwise_lt_range')
      ((valuesFrom_ascending hasc first).sublist (List.takeWhile_sublist _)) fun v ↦ ?_
    rw [List.mem_filter, List.mem_range'_1, decide_eq_true_eq]
    refine ⟨fun h ↦ h.2, fun h ↦ ⟨?_, h⟩⟩
    have hv := ((mem_valuesInside hasc).1 h).2
    omega
  have hsplit := List.length_eq_length_filter_add (l := List.range' first (last + 1 - first))
    fun u ↦ decide (u ∈ valuesInside values first last)
  have hnot : (fun u ↦ !decide (u ∈ valuesInside values first last)) = fun u ↦
      decide (u ∉ valuesInside values first last) :=
    funext fun u ↦ (decide_not (p := u ∈ valuesInside values first last)).symm
  rw [List.length_range', hinside, hnot, ← flipInside_valuesInside hasc] at hsplit
  rw [flippedValues]
  rw [List.length_append, List.length_append] at hall ⊢
  omega

end FlippedValues

/-! ## The runs of the flip -/

section FlippedRuns

variable {out rs : List Run} {next : Run} {values vs : List Nat} {capacity first last start v : Nat}

/-- A run behind the runs so far joins the last of them or becomes a new one. -/
theorem appendRun_spec (hout : Canonical out) (hbefore : ∀ o ∈ out, o.last < next.first)
    (hforward : next.first ≤ next.last)
    (hlt : next.last < lowDomainSize) (hroom : out.length < capacity) :
    ∃ out', appendRun capacity out next = some out' ∧ Canonical out' ∧
      out'.length ≤ out.length + 1 ∧
      (∀ v, v ∈ runValues out' ↔ v ∈ runValues out ∨ v ∈ next.values) ∧
        ∀ o ∈ out', o.last ≤ next.last := by
  rw [appendRun]
  rcases List.eq_nil_or_concat' out with rfl | ⟨rest, o, rfl⟩
  · refine ⟨[next], if_pos hroom, canonical_singleton hforward hlt, le_rfl,
      fun v ↦ by simp, fun p hp ↦ ?_⟩
    rw [List.mem_singleton.1 hp]
  · obtain ⟨hrest, hoforward, hobounded, hapart⟩ := Canonical.append_singleton_iff.1 hout
    have ho := hbefore o (List.mem_append_right _ List.mem_cons_self)
    rw [List.getLast?_concat, List.dropLast_concat]
    dsimp only
    split
    · rename_i hadjacent
      refine ⟨_, rfl,
        Canonical.append_singleton_iff.2 ⟨hrest, by dsimp only; omega, hlt, hapart⟩, by
        simp, fun v ↦ ?_, fun p hp ↦ ?_⟩
      · rw [runValues_append, runValues_append, List.mem_append, List.mem_append, or_assoc]
        refine or_congr_right ?_
        simp only [runValues_cons, runValues_nil, List.append_nil, Run.mem_values]
        omega
      · rcases List.mem_append.1 hp with hp | hp
        · have hlow := hapart p hp
          omega
        · rw [List.mem_singleton.1 hp]
    · rename_i hgap
      refine ⟨_, if_pos hroom, Canonical.append_singleton_iff.2
        ⟨hout, hforward, hlt, fun p hp ↦ ?_⟩, by simp, fun v ↦ ?_,
        fun p hp ↦ ?_⟩
      · rcases List.mem_append.1 hp with hp | hp
        · have hlow := hapart p hp
          omega
        · rw [List.mem_singleton.1 hp]
          omega
      · rw [runValues_append, List.mem_append, runValues_cons, runValues_nil, List.append_nil]
      · rcases List.mem_append.1 hp with hp | hp
        · exact (hbefore p hp).le.trans hforward
        · rw [List.mem_singleton.1 hp]

/-- Ascending runs that are appended need no more places than they are. -/
theorem appendRuns_spec (hout : Canonical out) (hrs : Ascending rs)
    (hbefore : ∀ o ∈ out, ∀ r ∈ rs, o.last < r.first) (hroom : out.length + rs.length ≤ capacity) :
    ∃ out', rs.foldlM (appendRun capacity) out = some out' ∧ Canonical out' ∧
      out'.length ≤ out.length + rs.length ∧
      ∀ v, v ∈ runValues out' ↔ v ∈ runValues out ∨ v ∈ runValues rs := by
  induction rs generalizing out with
  | nil => exact ⟨out, rfl, hout, le_rfl, fun v ↦ by simp⟩
  | cons r rs ih =>
    rw [List.length_cons] at hroom ⊢
    obtain ⟨mid, hmid, hcanonical, hgrow, hmem, hends⟩ :=
      appendRun_spec hout (fun o ho ↦ hbefore o ho r List.mem_cons_self)
      hrs.head_le (hrs.bounded r List.mem_cons_self) (show out.length < capacity by omega)
    have hahead : ∀ o ∈ mid, ∀ s ∈ rs, o.last < s.first :=
      fun o ho s hs ↦ (hends o ho).trans_lt (hrs.head_lt hs)
    obtain ⟨out', hrun, hcanonical', hgrow', hmem'⟩ := ih hcanonical hrs.tail hahead (by omega)
    refine ⟨out', ?_, hcanonical', by omega, fun v ↦ ?_⟩
    · rw [List.foldlM_cons, hmid, Option.bind_eq_bind, Option.bind_some, hrun]
    · rw [hmem', hmem, runValues_cons, List.mem_append, or_assoc]

theorem Ascending.append {xs ys : List Run} (hxs : Ascending xs) (hys : Ascending ys)
    (hapart : ∀ x ∈ xs, ∀ y ∈ ys, x.last < y.first) : Ascending (xs ++ ys) := by
  refine ⟨fun r hr ↦ ?_, List.pairwise_append.2 ⟨hxs.apart, hys.apart, hapart⟩, fun r hr ↦ ?_⟩
  · exact (List.mem_append.1 hr).elim (hxs.forward r) (hys.forward r)
  · exact (List.mem_append.1 hr).elim (hxs.bounded r) (hys.bounded r)

/-- The gaps are the values of the range that are missing, in one run more than there are values at
most. -/
theorem flipGaps_spec (hlt : last < lowDomainSize) (hasc : vs.Pairwise (· < ·))
    (hge : ∀ u ∈ vs, start ≤ u) (hle : ∀ u ∈ vs, u ≤ last) :
    Ascending (flipGaps last start vs) ∧
      (∀ r ∈ flipGaps last start vs, start ≤ r.first ∧ r.last ≤ last) ∧
      (∀ v, v ∈ runValues (flipGaps last start vs) ↔ (start ≤ v ∧ v ≤ last) ∧ v ∉ vs) ∧
      (flipGaps last start vs).length ≤ vs.length + 1 := by
  induction vs generalizing start with
  | nil =>
    rw [flipGaps]
    split
    · rename_i hin
      refine ⟨(canonical_singleton hin hlt).ascending, fun r hr ↦ ?_, fun v ↦ by simp, le_rfl⟩
      rw [List.mem_singleton.1 hr]
      exact ⟨le_rfl, le_rfl⟩
    · rename_i hout
      refine ⟨Canonical.nil.ascending, nofun, fun v ↦ ?_, Nat.zero_le _⟩
      simp only [runValues_nil, List.not_mem_nil, not_false_eq_true, and_true, false_iff]
      omega
  | cons u us ih =>
    have hu := hge u List.mem_cons_self
    have hulast := hle u List.mem_cons_self
    have hlater : ∀ w ∈ us, u + 1 ≤ w := fun w hw ↦ List.rel_of_pairwise_cons hasc hw
    obtain ⟨hrest, hinside, hmem, hlen⟩ := ih hasc.of_cons hlater fun w hw ↦
      hle w (List.mem_cons_of_mem u hw)
    have hnot : ∀ v, v ≤ u → v ∉ us := fun v hv hmem ↦ absurd (hlater v hmem) (not_lt.2 hv)
    rw [flipGaps]
    split
    · rename_i hgap
      have hone : Canonical [⟨start, u - 1⟩] :=
        canonical_singleton (by dsimp only; omega) (by dsimp only; omega)
      refine ⟨hone.ascending.append hrest fun x hx y hy ↦ ?_, fun r hr ↦ ?_, fun v ↦ ?_, ?_⟩
      · have hy := (hinside y hy).1
        rw [List.mem_singleton.1 hx]
        dsimp only
        omega
      · rcases List.mem_append.1 hr with hr | hr
        · rw [List.mem_singleton.1 hr]
          dsimp only
          omega
        · have hr := hinside r hr
          omega
      · rw [runValues_append, List.mem_append, hmem, runValues_cons, runValues_nil, List.append_nil,
          Run.mem_values, List.mem_cons]
        dsimp only
        by_cases hv : v ≤ u
        · have hno := hnot v hv
          simp only [hno, not_false_eq_true, or_false]
          omega
        · have hne : v ≠ u := by omega
          simp only [hne, false_or]
          constructor
          · rintro (h | ⟨h, hno⟩)
            · omega
            · exact ⟨by omega, hno⟩
          · rintro ⟨h, hno⟩
            exact .inr ⟨by omega, hno⟩
      · rw [List.length_append, List.length_singleton, List.length_cons]
        omega
    · rename_i hsame
      obtain rfl : start = u := by omega
      refine ⟨hrest, fun r hr ↦ ⟨Nat.le_of_succ_le (hinside r hr).1, (hinside r hr).2⟩, fun v ↦ ?_,
        Nat.le_succ_of_le hlen⟩
      rw [List.nil_append, hmem, List.mem_cons]
      constructor
      · rintro ⟨h, hno⟩
        exact ⟨by omega, fun hor ↦ hor.elim (by omega) hno⟩
      · rintro ⟨h, hno⟩
        have hne : v ≠ start := fun heq ↦ hno (.inl heq)
        exact ⟨by omega, fun hv ↦ hno (.inr hv)⟩

/-- The flip of an array into runs needs one run more than there are values at most. -/
theorem flipArrayRuns_spec (hasc : values.Pairwise (· < ·))
    (hbounded : ∀ u ∈ values, u < lowDomainSize) (hle : first ≤ last) (hlt : last < lowDomainSize) :
    ∃ runs, flipArrayRuns (values.length + 1) values first last = some runs ∧ Canonical runs ∧
      runs.length ≤ values.length + 1 ∧ runValues runs = flippedValues values first last := by
  have hall := congrArg List.length (valuesBefore_append values first last)
  rw [List.length_append, List.length_append] at hall
  have hinside : (valuesInside values first last).Pairwise (· < ·) :=
    (valuesFrom_ascending hasc first).sublist (List.takeWhile_sublist _)
  have hbehind : (valuesBehind values first last).Pairwise (· < ·) :=
    (valuesFrom_ascending hasc first).sublist (List.dropWhile_sublist _)
  obtain ⟨hgaps, hends, hmem, hlen⟩ :=
    flipGaps_spec hlt hinside (fun u hu ↦ ((mem_valuesInside hasc).1 hu).2.1)
    fun u hu ↦ ((mem_valuesInside hasc).1 hu).2.2
  have hfront : Ascending (unitRuns (valuesBefore values first)) :=
    unitRuns_ascending (hasc.sublist (List.takeWhile_sublist _)) fun u hu ↦
      hbounded u ((mem_valuesBefore hasc).1 hu).1
  have hback : Ascending (unitRuns (valuesBehind values first last)) :=
    unitRuns_ascending hbehind fun u hu ↦ hbounded u ((mem_valuesBehind hasc hle).1 hu).1
  have hrs : Ascending (unitRuns (valuesBefore values first) ++
      (flipGaps last first (valuesInside values first last) ++
      unitRuns (valuesBehind values first last))) := by
    refine hfront.append (hgaps.append hback fun x hx y hy ↦ ?_) fun x hx y hy ↦ ?_
    · obtain ⟨w, hw, rfl⟩ := List.mem_map.1 hy
      exact (hends x hx).2.trans_lt ((mem_valuesBehind hasc hle).1 hw).2
    · obtain ⟨u, hu, rfl⟩ := List.mem_map.1 hx
      have hu := ((mem_valuesBefore hasc).1 hu).2
      rcases List.mem_append.1 hy with hy | hy
      · exact hu.trans_le (hends y hy).1
      · obtain ⟨w, hw, rfl⟩ := List.mem_map.1 hy
        have hw := ((mem_valuesBehind hasc hle).1 hw).2
        dsimp only
        omega
  have hroom :
      (unitRuns (valuesBefore values first) ++
      (flipGaps last first (valuesInside values first last) ++
      unitRuns (valuesBehind values first last))).length ≤ values.length + 1 := by
    rw [List.length_append, List.length_append, unitRuns, unitRuns, List.length_map,
      List.length_map]
    omega
  obtain ⟨runs, hrun, hcanonical, hgrow, hvalues⟩ :=
    appendRuns_spec Canonical.nil hrs (List.forall_mem_nil _)
    (show [].length + _ ≤ values.length + 1 by rwa [List.length_nil, Nat.zero_add])
  rw [List.length_nil, Nat.zero_add] at hgrow
  refine ⟨runs, hrun, hcanonical, hgrow.trans hroom, ?_⟩
  refine List.Pairwise.eq_of_mem_iff (r := (· < ·)) hcanonical.values_ascending
    (flippedValues_ascending hasc hle) fun v ↦ ?_
  rw [hvalues, runValues_nil, runValues_append, runValues_append, List.mem_append, List.mem_append,
    mem_runValues_unitRuns,
    mem_runValues_unitRuns, hmem, flippedValues, flipInside_valuesInside hasc, List.mem_append,
      List.mem_append, List.mem_filter,
    List.mem_range'_1, decide_eq_true_eq]
  have hspan : first ≤ v ∧ v < first + (last + 1 - first) ↔ first ≤ v ∧ v ≤ last := by omega
  rw [hspan]
  simp

/-- Runs that fit are copied as they are. -/
theorem foldlM_writeRun (hroom : out.length + rs.length ≤ capacity) :
    rs.foldlM (writeRun capacity) out = some (out ++ rs) := by
  induction rs generalizing out with
  | nil => rw [List.foldlM_nil, List.append_nil]; rfl
  | cons r rs ih =>
    rw [List.length_cons] at hroom
    have hwrite : writeRun capacity out r = some (out ++ [r]) := if_pos (by omega)
    rw [List.foldlM_cons, hwrite, Option.bind_eq_bind, Option.bind_some, ih, List.append_assoc]
    · rfl
    · rw [List.length_append, List.length_singleton]
      omega

/-- The runs that are left of one list are exclusive-ored when the other is at its end. -/
theorem ExclusiveSoFar.takeAll {ls ys : List Run} (hcap : ls.length + ys.length ≤ capacity)
    (h : ExclusiveSoFar ls ys rs [] out) :
    ∃ out', rs.foldlM (appendRunExclusive capacity) out = some out' ∧
      ExclusiveSoFar ls ys [] [] out' := by
  induction rs generalizing out with
  | nil => exact ⟨out, rfl, h⟩
  | cons r rs ih =>
    obtain ⟨mid, hmid, hnext⟩ := h.takeLeft hcap fun q hq ↦ absurd hq List.not_mem_nil
    obtain ⟨out', hrun, hend⟩ := ih hnext
    refine ⟨out', ?_, hend⟩
    rw [List.foldlM_cons, hmid, Option.bind_eq_bind, Option.bind_some, hrun]

/-- The begins of canonical runs ascend. -/
theorem Canonical.first_mono (hc : Canonical rs) (start : Nat) :
    (∀ r ∈ rs.takeWhile fun r ↦ decide (r.first < start), r.first < start) ∧
      ∀ r ∈ rs.dropWhile fun r ↦ decide (r.first < start), start ≤ r.first := by
  refine ⟨fun r hr ↦ by simpa using List.mem_takeWhile_imp hr, ?_⟩
  induction rs with
  | nil => exact nofun
  | cons r rs ih =>
    intro q hq
    by_cases hr : r.first < start
    · rw [List.dropWhile_cons_of_pos (by simpa using hr)] at hq
      exact ih hc.tail q hq
    · rw [List.dropWhile_cons_of_neg (by simpa using hr)] at hq
      exact (not_lt.1 hr).trans (hc.ascending.first_le q hq)

/-- The flip of runs needs one run more than there are at most. -/
theorem flipRuns_spec (hc : Canonical rs) (hle : first ≤ last) (hlt : last < lowDomainSize) :
    ∃ runs, flipRuns (rs.length + 1) rs first last = some runs ∧ Canonical runs ∧
      runs.length ≤ rs.length + 1 ∧
      ∀ v, v ∈ runValues runs ↔ Xor (v ∈ runValues rs) (first ≤ v ∧ v ≤ last) := by
  have hsplit : (rs.takeWhile fun r ↦ decide (r.first < first)) ++
      (rs.dropWhile fun r ↦ decide (r.first < first)) = rs :=
    List.takeWhile_append_dropWhile
  obtain ⟨hfront, hback⟩ := hc.first_mono first
  rw [flipRuns]
  generalize hf : (rs.takeWhile fun r ↦ decide (r.first < first)) = front at hsplit hfront
  generalize hb : (rs.dropWhile fun r ↦ decide (r.first < first)) = back at hsplit hback
  have hlen := congrArg List.length hsplit
  rw [List.length_append] at hlen
  have hcfront : Canonical front := (hsplit ▸ hc).left
  have hcback : Canonical back := (hsplit ▸ hc).right
  have hapart : ∀ o ∈ front, ∀ q ∈ back, o.last + 1 < q.first := by
    have hpair := hc.apart
    rw [← hsplit, List.pairwise_append] at hpair
    exact hpair.2.2
  have hrange : Canonical [⟨first, last⟩] := canonical_singleton hle hlt
  have hcap : rs.length + [(⟨first, last⟩ : Run)].length ≤ rs.length + 1 := le_rfl
  have hstart : ExclusiveSoFar rs [⟨first, last⟩] back [⟨first, last⟩] front := by
    refine ⟨hcfront, hcback.ascending, hrange.ascending, ?_,
      fun o ho ↦ ⟨fun q hq ↦ ?_, fun q hq ↦ ?_⟩, fun o ho ↦ .inl fun q hq ↦ ?_,
      fun v ↦ ?_⟩
    · omega
    · have ho := List.mem_of_getLast? ho
      have hgap := hapart o ho q hq
      have hforward := hcfront.forward o ho
      omega
    · rw [List.mem_singleton.1 hq]
      exact (hfront o (List.mem_of_getLast? ho)).le
    · exact Nat.lt_of_succ_lt (hapart o (List.mem_of_getLast? ho) q hq)
    · have hboth : v ∈ runValues front → v ∉ runValues back := by
        intro hv hv'
        obtain ⟨o, ho, -, hlast⟩ := mem_runValues.1 hv
        obtain ⟨q, hq, hbegin, -⟩ := mem_runValues.1 hv'
        have hgap := hapart o ho q hq
        omega
      rw [← hsplit, runValues_append, List.mem_append]
      by_cases hv : v ∈ runValues front
      · simp [Xor, hv, hboth hv]
      · simp [Xor, hv]
  obtain ⟨mid, hmid, hnext⟩ := hstart.swap.takeLeft ((Nat.add_comm _ _).trans_le hcap) hback
  obtain ⟨runs, hrun, hend⟩ := hnext.swap.takeAll hcap
  refine ⟨runs, ?_, hend.canonical, ?_, fun v ↦ ?_⟩
  · have hcopy : front.foldlM (writeRun (rs.length + 1)) [] = some front :=
      foldlM_writeRun (by rw [List.length_nil]; omega)
    rw [hcopy, Option.bind_eq_bind, Option.bind_some, hmid, Option.bind_some, hrun]
  · simpa using hend.length
  · have hmem := hend.mem v
    rw [runValues_cons, runValues_nil, List.append_nil, Run.mem_values] at hmem
    rw [← hmem]
    simp [Xor]

end FlippedRuns

/-! ## The containers -/

/-- What a range operation returns: a valid container of the changed set, which is the empty handle
when it holds nothing. -/
structure RangeOutcome (op : RangeOperation) (first last : Nat)
    (container result : ContainerHandle) : Prop where
  valid : result.Valid
  mem : ∀ v, v ∈ result.values ↔ op.holds (v ∈ container.values) (first ≤ v ∧ v ≤ last)
  empty : result.values = [] → result = .makeArrayFromSorted []

section Containers

variable {container : ContainerHandle} {first last : Nat} {op : RangeOperation}

theorem RangeOutcome.of_holds {result : ContainerHandle} {vs : List Nat} (h : result.Holds vs)
    (hmem : ∀ v, v ∈ vs ↔ op.holds (v ∈ container.values) (first ≤ v ∧ v ≤ last))
    (hempty : vs = [] → result = .makeArrayFromSorted []) :
    RangeOutcome op first last container result := by
  refine ⟨h.valid, ?_, ?_⟩
  · rw [h.values_eq]
    exact hmem
  · rw [h.values_eq]
    exact hempty

/-- Words of the changed set become a container of it. -/
theorem throughWords_outcome (hv : container.Valid) (op : RangeOperation) (hle : first ≤ last)
    (hlt : last < lowDomainSize) (eager : Bool) (bitsetThreshold : Nat) :
    RangeOutcome op first last container
      (makeContainerFromWords eager (applyRangeToWords (wordsFromContainer container) first last op)
        bitsetThreshold) := by
  refine .of_holds (makeContainerFromWords_holds eager _ bitsetThreshold) (fun v ↦ ?_)
    makeContainerFromWords_empty
  rw [Words.mem_values, contains_applyRangeToWords hle hlt, contains_wordsFromContainer hv]

theorem syncRunHeader_holds {runs : List Run} (hc : Canonical runs) :
    (syncRunHeader runs).Holds (runValues runs) :=
  ContainerHandle.holds_run hc rfl

/-- Values that are cleared are held no more. -/
theorem contains_foldl_erase {words : Words wordCount} {vs : List Nat}
    (hbounded : ∀ u ∈ vs, u < lowDomainSize) {v : Nat} :
    (vs.foldl Words.erase words).contains v = true ↔ words.contains v = true ∧ v ∉ vs := by
  induction vs generalizing words with
  | nil => simp
  | cons u us ih =>
    rw [List.foldl_cons, ih fun w hw ↦ hbounded w (List.mem_cons_of_mem u hw),
      Words.contains_erase _ (hbounded u List.mem_cons_self),
      Bool.and_eq_true, Bool.not_eq_true', decide_eq_false_iff_not, List.mem_cons, not_or,
        and_assoc]

theorem contains_filledWords {v : Nat} : filledWords.contains v = true ↔ v < lowDomainSize := by
  have hdomain : lowDomainSize = 64 * wordCount := by decide
  by_cases hv : v / 64 < wordCount
  · rw [Words.contains, Words.word_eq_getElem _ hv, filledWords, Vector.getElem_replicate,
      BitVec.getLsbD_allOnes, decide_eq_true_eq]
    have hbit : v % 64 < 64 := Nat.mod_lt _ (by decide)
    exact ⟨fun _ ↦ by omega, fun _ ↦ hbit⟩
  · rw [Words.contains, Words.word_of_le _ (not_lt.1 hv), BitVec.getLsbD_zero]
    exact ⟨fun h ↦ absurd h Bool.false_ne_true, fun h ↦ by omega⟩

/-- Runs that are not empty settle in one of the forms. -/
theorem settleRuns_outcome {runs : List Run} (op : RangeOperation) (hc : Canonical runs)
    (hne : runValues runs ≠ [])
    (hmem : ∀ v, v ∈ runValues runs ↔ op.holds (v ∈ container.values) (first ≤ v ∧ v ≤ last))
    (bitsetThreshold : Nat) :
    ∃ result, settleRunResult (syncRunHeader runs) bitsetThreshold = some result ∧
      RangeOutcome op first last container result := by
  have hholds := syncRunHeader_holds hc
  obtain ⟨result, hsettle, hresult, -⟩ := settleRunResult_spec hholds.valid rfl bitsetThreshold
  rw [hholds.values_eq] at hresult
  exact ⟨result, hsettle, .of_holds hresult hmem fun hnil ↦ absurd hnil hne⟩

/-- The array's flip: every form holds the flipped values. -/
theorem flipArrayRange_outcome (hv : container.Valid) (hle : first ≤ last)
    (hlt : last < lowDomainSize) (bitsetThreshold : Nat) :
    ∃ result, flipArrayRange container first last bitsetThreshold = some result ∧
      RangeOutcome .flip first last container result := by
  have hasc := hv.values_ascending
  have hbounded := hv.values_lt
  have hmem : ∀ v, v ∈ flippedValues container.values first last ↔
      RangeOperation.flip.holds (v ∈ container.values) (first ≤ v ∧ v ≤ last) :=
        fun v ↦ mem_flippedValues hasc hle
  have hflipped := flippedValues_ascending hasc hle
  have hlength := length_flippedValues hasc hle
  have hflippedLt : ∀ v ∈ flippedValues container.values first last, v < lowDomainSize := by
    intro v hv
    rcases (mem_flippedValues hasc hle).1 hv with ⟨h, -⟩ | ⟨h, -⟩
    · exact hbounded v h
    · exact h.2.trans_lt hlt
  -- words that hold the flipped values, with their count
  have hwords : ∀ words : Words wordCount,
      (∀ v, words.contains v = true ↔ Xor (v ∈ container.values) (first ≤ v ∧ v ≤ last)) →
      words.values = flippedValues container.values first last := by
    intro words hcontains
    refine List.Pairwise.eq_of_mem_iff (r := (· < ·)) words.values_ascending hflipped fun v ↦ ?_
    rw [Words.mem_values, hcontains, mem_flippedValues hasc hle]
  rw [flipArrayRange]
  simp only
  rw [← hlength]
  have hinside : (valuesInside container.values first last).length ≤ container.values.length := by
    rw [valuesInside]
    exact (List.takeWhile_sublist _).length_le.trans (List.dropWhile_sublist _).length_le
  split
  · rename_i hruns
    obtain ⟨runs, hrun, hcanonical, -, hvalues⟩ := flipArrayRuns_spec hasc hbounded hle hlt
    rw [hrun]
    have hholds := syncRunHeader_holds hcanonical
    rw [hvalues] at hholds
    refine ⟨_, rfl, .of_holds hholds hmem fun hnil ↦ ?_⟩
    rw [hnil, List.length_nil] at hlength
    have hspan := hruns.1
    omega
  · split
    · rename_i hbitset
      have hpos := pos_of_isBitsetCardinality hbitset
      have hne : flippedValues container.values first last ≠ [] := List.ne_nil_of_length_pos hpos
      split
      · rename_i hall
        obtain ⟨rfl, rfl⟩ := hall
        refine ⟨_, rfl, ?_⟩
        have hvalues := hwords (container.values.foldl Words.erase filledWords) fun v ↦ by
          rw [contains_foldl_erase hbounded, contains_filledWords, Xor]
          have hin := hbounded v
          have hlast : v ≤ lowDomainSize - 1 ↔ v < lowDomainSize :=
            Nat.le_sub_one_iff_lt (by decide)
          rw [hlast]
          constructor
          · rintro ⟨h, hno⟩
            exact .inr ⟨⟨Nat.zero_le v, h⟩, hno⟩
          · rintro (⟨h, hno⟩ | ⟨h, hno⟩)
            · exact absurd ⟨Nat.zero_le v, hin h⟩ hno
            · exact ⟨h.2, hno⟩
        have hholds := makeBitsetFrom_holds (container.values.foldl Words.erase filledWords)
        rw [Words.count_eq_length_values, hvalues] at hholds
        exact .of_holds hholds hmem fun hnil ↦ absurd hnil hne
      · refine ⟨_, rfl, ?_⟩
        have hvalues :=
            hwords (applyRangeToWords ((Words.zeroed wordCount).scatter container.values) first last
            .flip) fun v ↦ by
          rw [contains_applyRangeToWords hle hlt, Words.contains_scatter _ hbounded,
            Words.contains_zeroed, Bool.or_false,
            decide_eq_true_eq]
          rfl
        have hcount :=
          Words.count_eq_length_values
          (applyRangeToWords ((Words.zeroed wordCount).scatter container.values) first last .flip)
        rw [hvalues] at hcount
        have hholds :=
            ContainerHandle.holds_words (h := { bitsetHandleFromSortedValues container.values with
          payload := .bitset
            (applyRangeToWords ((Words.zeroed wordCount).scatter container.values) first last .flip)
          cardinality := (flippedValues container.values first last).length
          endpointsStale := true }) rfl rfl hcount.symm rfl
        rw [hvalues] at hholds
        exact .of_holds hholds hmem fun hnil ↦ absurd hnil hne
    · split
      · rename_i hzero
        have hnil : flippedValues container.values first last = [] :=
          List.eq_nil_of_length_eq_zero hzero
        rw [hnil] at hmem
        exact ⟨_, rfl, .of_holds ContainerHandle.holds_empty hmem fun _ ↦ rfl⟩
      · rename_i hsome
        rw [← flippedValues, if_pos rfl]
        refine ⟨_, rfl, .of_holds (ContainerHandle.holds_array hflipped hflippedLt) hmem
          fun hnil ↦ ?_⟩
        rw [hnil] at hsome
        exact absurd rfl hsome

/-- The runs' flip: nothing, or runs that settle. -/
theorem flipRunRange_outcome {source : List Run} (hv : container.Valid)
    (hrun : container.payload = .run source) (hle : first ≤ last)
    (hlt : last < lowDomainSize) (bitsetThreshold : Nat) :
    ∃ result, flipRunRange source first last bitsetThreshold = some result ∧
      RangeOutcome .flip first last container result := by
  obtain ⟨runs, hflip, hcanonical, -, hmem⟩ := flipRuns_spec (hv.canonical hrun) hle hlt
  rw [← ContainerHandle.values_run hrun] at hmem
  rw [flipRunRange, hflip, Option.bind_eq_bind, Option.bind_some]
  split
  · rename_i hnil
    rw [hnil] at hmem
    exact ⟨_, rfl, .of_holds ContainerHandle.holds_empty hmem fun _ ↦ rfl⟩
  · rename_i hne
    exact settleRuns_outcome .flip hcanonical (hcanonical.values_ne_nil hne) hmem bitsetThreshold

/-- The words' flip: nothing, an array of the set bits, or the words themselves. -/
theorem flipBitsetRange_outcome {words : Words wordCount}
    (hbitset : container.payload = .bitset words)
    (hle : first ≤ last) (hlt : last < lowDomainSize) (bitsetThreshold : Nat) :
    RangeOutcome .flip first last container
      (flipBitsetRange container words first last bitsetThreshold) := by
  have hmem : ∀ v, v ∈ (applyRangeToWords words first last .flip).values ↔
      RangeOperation.flip.holds (v ∈ container.values) (first ≤ v ∧ v ≤ last) := by
    intro v
    rw [Words.mem_values, contains_applyRangeToWords hle hlt, ContainerHandle.values_bitset hbitset,
      Words.mem_values]
  rw [flipBitsetRange]
  generalize applyRangeToWords words first last .flip = flipped at hmem ⊢
  split
  · rename_i hzero
    rw [count_eq_zero_iff] at hzero
    rw [hzero] at hmem
    exact .of_holds ContainerHandle.holds_empty hmem fun _ ↦ rfl
  · rename_i hsome
    have hne : flipped.values ≠ [] := fun hnil ↦ hsome ((count_eq_zero_iff flipped).2 hnil)
    split
    · rw [valuesFromWords_eq]
      have hholds := ContainerHandle.holds_array flipped.values_ascending fun v hv ↦
        Words.lt_of_mem_values hv
      exact .of_holds hholds hmem fun hnil ↦ absurd hnil hne
    · have hholds := @ContainerHandle.holds_words { container with
        payload := .bitset flipped
        cardinality := flipped.count
        cardinalityStale := false
        endpointsStale := true } flipped rfl rfl (by dsimp only) rfl
      exact .of_holds hholds hmem fun hnil ↦ absurd hnil hne

/-- Clipped runs: the container itself, nothing, or runs that settle. -/
theorem clipRunRange_outcome {runs : List Run} (hv : container.Valid)
    (hrun : container.payload = .run runs)
    (hsome : container.cardinality ≠ 0) (hle : first ≤ last) (bitsetThreshold : Nat) :
    ∃ result, clipRunRange container runs first last bitsetThreshold = some result ∧
      RangeOutcome .remove first last container result := by
  have hc := hv.canonical hrun
  have hvalues := ContainerHandle.values_run hrun
  rw [clipRunRange]
  split
  · rename_i hnone
    have hclear : ∀ v ∈ container.values, ¬ (first ≤ v ∧ v ≤ last) := by
      intro v hmem hin
      rw [hvalues] at hmem
      have hany := (any_runsReaching_iff hc hle).2 ⟨v, hmem, hin⟩
      cases hreach : ContainerHandle.runsReaching runs first with
      | nil =>
        rw [hreach] at hany
        cases hany
      | cons r rs =>
        rw [hreach] at hany hnone
        simp only [List.head?_cons, Option.any_some, Option.all_some,
          decide_eq_true_eq] at hany hnone
        omega
    refine ⟨container, rfl, .of_holds ⟨hv, rfl⟩ (fun v ↦ ⟨fun h ↦ ⟨h, hclear v h⟩, And.left⟩)
      fun hnil ↦ ?_⟩
    exact absurd (hv.cardinality.trans (congrArg List.length hnil)) hsome
  · obtain ⟨hcanonical, hmem⟩ : Canonical (runRemoveClosedRange runs first last) ∧
        ∀ v, v ∈ runValues (runRemoveClosedRange runs first last) ↔ v ∈ runValues runs ∧
          ¬ (first ≤ v ∧ v ≤ last) :=
      runRemoveClosedRange_spec hc
    rw [← hvalues] at hmem
    generalize runRemoveClosedRange runs first last = clipped at hcanonical hmem
    have hcard : (syncRunHeader clipped).cardinality = (runValues clipped).length :=
      (syncRunHeader_holds hcanonical).cardinality
    simp only
    rw [hcard]
    split
    · rename_i hzero
      rw [List.eq_nil_of_length_eq_zero hzero] at hmem
      exact ⟨_, rfl, .of_holds ContainerHandle.holds_empty hmem fun _ ↦ rfl⟩
    · rename_i hrest
      exact settleRuns_outcome .remove hcanonical (fun hnil ↦ hrest (congrArg List.length hnil))
        hmem bitsetThreshold

/-- The range itself, where there was nothing. -/
theorem rangeOfOnes_outcome (hnil : container.values = []) (hle : first ≤ last)
    (hlt : last < lowDomainSize) :
    RangeOutcome .flip first last container (rangeOfOnes first last) := by
  have hmem : ∀ v, RangeOperation.flip.holds (v ∈ container.values) (first ≤ v ∧ v ≤ last) ↔
      first ≤ v ∧ v ≤ last := by
    intro v
    rw [hnil]
    simp [RangeOperation.holds, Xor]
  rw [rangeOfOnes]
  split
  · rename_i hfew
    split
    · rename_i hone
      have hholds := ContainerHandle.holds_array (List.pairwise_singleton (· < ·) first)
          fun v hv ↦ by
        rw [List.mem_singleton.1 hv]
        omega
      refine .of_holds hholds (fun v ↦ ?_) fun h ↦ absurd h (List.cons_ne_nil _ _)
      rw [hmem, List.mem_singleton]
      omega
    · rename_i htwo
      have hasc : [first, last].Pairwise (· < ·) := by
        rw [List.pairwise_pair]
        omega
      have hholds := ContainerHandle.holds_array hasc fun v hv ↦ by
        rcases List.mem_pair.1 hv with rfl | rfl <;> omega
      refine .of_holds hholds (fun v ↦ ?_) fun h ↦ absurd h (List.cons_ne_nil _ _)
      rw [hmem, List.mem_pair]
      omega
  · refine .of_holds (syncRunHeader_holds (canonical_singleton hle hlt)) (fun v ↦ ?_) fun h ↦ ?_
    · rw [hmem, runValues_cons, runValues_nil, List.append_nil, Run.mem_values]
    · have hin : first ∈ runValues [⟨first, last⟩] :=
        mem_runValues.2 ⟨_, List.mem_cons_self, le_rfl, hle⟩
      rw [h] at hin
      exact absurd hin List.not_mem_nil

theorem applyRangeToContainer_outcome (hv : container.Valid) (hle : first ≤ last)
    (hlt : last < lowDomainSize) (eager : Bool) (op : RangeOperation) (bitsetThreshold : Nat) :
    ∃ result, applyRangeToContainer eager container first last op bitsetThreshold = some result ∧
      RangeOutcome op first last container result := by
  rw [applyRangeToContainer]
  split
  · rename_i hflip
    subst hflip
    split
    · rename_i hzero
      have hnil : container.values = [] :=
        List.eq_nil_of_length_eq_zero (hv.cardinality.symm.trans hzero)
      exact ⟨_, rfl, rangeOfOnes_outcome hnil hle hlt⟩
    · split
      · exact flipArrayRange_outcome hv hle hlt bitsetThreshold
      · rename_i source hrun
        exact flipRunRange_outcome hv hrun hle hlt bitsetThreshold
      · rename_i words hbitset
        exact ⟨_, rfl, flipBitsetRange_outcome hbitset hle hlt bitsetThreshold⟩
  · have hwords := throughWords_outcome hv op hle hlt eager bitsetThreshold
    split
    · rename_i runs hrun
      split
      · rename_i hclip
        obtain ⟨rfl, hsome⟩ := hclip
        exact clipRunRange_outcome hv hrun hsome hle bitsetThreshold
      · exact ⟨_, rfl, hwords⟩
    · exact ⟨_, rfl, hwords⟩

end Containers

/-! ## Range operations do not depend on the form -/

/-- The set behind a range operation. -/
def RangeOperation.onSets : RangeOperation → Set Nat → Set Nat → Set Nat
  | .add, held, range => held ∪ range
  | .remove, held, range => held \ range
  | .flip, held, range => symmDiff held range

theorem RangeOperation.mem_onSets (op : RangeOperation) {held range : Set Nat} {v : Nat} :
    v ∈ op.onSets held range ↔ op.holds (v ∈ held) (v ∈ range) := by
  cases op <;> rfl

/-- Every operation on every kind of container, at every threshold and under either policy, returns
a valid container of the changed set, the empty handle if that is empty; the runs of a flip stay in
the payload that was sized for them. -/
theorem applyRangeToContainer_spec {container : ContainerHandle} (hv : container.Valid)
    {first last : Nat} (hle : first ≤ last)
    (hlt : last < lowDomainSize) (eager : Bool) (op : RangeOperation) (bitsetThreshold : Nat) :
    (∃ result, applyRangeToContainer eager container first last op bitsetThreshold = some result ∧
      result.Valid ∧
      {v | v ∈ result.values} = op.onSets {v | v ∈ container.values} (Set.Icc first last) ∧
      result.cardinality = (op.onSets {v | v ∈ container.values} (Set.Icc first last)).ncard ∧
      (op.onSets {v | v ∈ container.values} (Set.Icc first last) = ∅ →
        result = .makeArrayFromSorted [])) ∧
    (∀ values, container.payload = .array values →
      ∃ runs, flipArrayRuns (values.length + 1) values first last = some runs ∧
        runs.length ≤ values.length + 1) ∧
    ∀ runs, container.payload = .run runs →
      ∃ out, flipRuns (runs.length + 1) runs first last = some out ∧
        out.length ≤ runs.length + 1 := by
  refine ⟨?_, fun values harray ↦ ?_, fun runs hrun ↦ ?_⟩
  · obtain ⟨result, hresult, hout⟩ :=
      applyRangeToContainer_outcome hv hle hlt eager op bitsetThreshold
    have hset : {v | v ∈ result.values} = op.onSets {v | v ∈ container.values}
        (Set.Icc first last) := by
      ext v
      rw [op.mem_onSets]
      exact hout.mem v
    refine ⟨result, hresult, hout.valid, hset, ?_, fun hempty ↦ hout.empty ?_⟩
    · have hnodup : result.values.Nodup := hout.valid.values_ascending.imp ne_of_lt
      rw [← hset, hout.valid.cardinality, ← List.coe_toFinset, Set.ncard_coe_finset,
        List.toFinset_card_of_nodup hnodup]
    · rw [List.eq_nil_iff_forall_not_mem]
      intro v hmem
      have hin : v ∈ {v | v ∈ result.values} := hmem
      rw [hset, hempty] at hin
      exact hin
  · obtain ⟨runs, hrun, -, hfits, -⟩ :=
      flipArrayRuns_spec (ContainerHandle.values_array harray ▸ hv.values_ascending)
      (ContainerHandle.values_array harray ▸ hv.values_lt) hle hlt
    exact ⟨runs, hrun, hfits⟩
  · obtain ⟨out, hflip, -, hfits, -⟩ := flipRuns_spec (hv.canonical hrun) hle hlt
    exact ⟨out, hflip, hfits⟩

/-- A range that begins inside the only run. -/
theorem applyRangeToContainer_spec_insideRun :
    ∃ result, applyRangeToContainer true (syncRunHeader [⟨2, 9⟩]) 5 12 .flip 4096 = some result ∧
      result.Valid ∧
      {v | v ∈ result.values} = symmDiff {v | v ∈ runValues [⟨2, 9⟩]} (Set.Icc 5 12) := by
  have hv : (syncRunHeader [⟨2, 9⟩]).Valid :=
    (syncRunHeader_holds (canonical_singleton (by decide) (by decide))).valid
  obtain ⟨⟨result, hrun, hvalid, hset, -⟩, -⟩ :=
    applyRangeToContainer_spec hv (show 5 ≤ 12 by decide) (show 12 < lowDomainSize by decide) true
      .flip 4096
  exact ⟨result, hrun, hvalid, hset⟩

end Roaring
