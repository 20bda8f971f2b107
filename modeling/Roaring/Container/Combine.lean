import Mathlib
import Roaring.Container.ArrayRunFilter
import Roaring.Container.BitsetInPlace

/-!
# Two containers combined

A set operation on two containers goes to the kernel for their kinds, and the result is
put into a form by its cardinality and its runs.  Whichever kernel that is and whichever
form is chosen, the result is a valid container of what the operation makes of the values
of the two.

An exclusive-or does not come here.
-/

namespace Roaring

open Lib

/-! ## Arrays filtered by a bitset -/

/-- `( words[ value >> 6 ] & ( 1 << ( value & 63 ) ) ) != 0`. -/
def probeBit (words : Words wordCount) (value : Nat) : Bool :=
  words.word (value / 64) &&& 1#64 <<< (value % 64) ≠ 0#64

/-- The branchless probe: every value is stored, and the cursor moves on behind those that are
kept. -/
def probeValues (kept : Nat → Bool) : List Nat → (cursor : Nat) → (out : List Nat) →
    Option (Nat × List Nat)
  | [], cursor, out => some (cursor, out)
  | value :: values, cursor, out =>
    (store out cursor value).bind fun out ↦
      probeValues kept values (if kept value then cursor + 1 else cursor) out

/-- The walk of the spans of values that share a word: a word of zeros or of ones settles its whole
span. -/
def walkSpans (words : Words wordCount) : List Nat → (written : Nat) → (out : List Nat) →
    Option (Nat × List Nat)
  | [], written, out => some (written, out)
  | value :: values, written, out =>
    let word := words.word (value / 64)
    let nextBase := 64 * (value / 64 + 1)
    let span := value :: values.takeWhile (· < nextBase)
    let done := if word = 0#64 then some (written, out)
      else if word = BitVec.allOnes 64 then storeAll span written out
      else probeValues (fun v ↦ (word >>> (v % 64)) &&& 1#64 = 1#64) span written out
    done.bind fun done ↦ walkSpans words (values.dropWhile (· < nextBase)) done.1 done.2
termination_by values => values.length
decreasing_by exact Nat.lt_succ_of_le (List.dropWhile_sublist _).length_le

/-- `filter_array_bitset_into`: what `result` holds afterwards. -/
def filterArrayBitsetInto (aarch64 : Bool) (unknown : Nat → Nat) (keys : List Nat)
    (words : Words wordCount) (keepMatches : Bool) (result : List Nat) : Option (List Nat) :=
  let out := resizeUninitialized unknown keys.length result
  if keys.length = 0 then some out
  else if aarch64 ∧ keepMatches then cut (walkSpans words keys 0 out)
  else cut (probeValues (fun v ↦ if keepMatches then probeBit words v else !probeBit words v)
    keys 0 out)

/-! ## Words -/

/-- `combine_bitset_array_words`. -/
def combineBitsetArrayWords (bitset : Words wordCount) (values : List Nat) (op : SetOperation) :
    Words wordCount :=
  values.foldl (fun words v ↦
    let mask := 1#64 <<< (v % 64)
    let word := words.word (v / 64)
    words.setWord (v / 64) (match op with
      | .bitOr => word ||| mask
      | .bitAnd => word ||| (bitset.word (v / 64) &&& mask)
      | .bitAndnot => word &&& ~~~mask
      | .bitXor => word ^^^ mask)) (if op = .bitAnd then Words.zeroed wordCount else bitset)

/-- The mask of a run in a word that it reaches. -/
def runMask (r : Run) (i : Nat) : Word :=
  let mask := BitVec.allOnes 64
  let mask := if i = r.first / 64 then mask &&& BitVec.allOnes 64 <<< (r.first % 64) else mask
  if i = r.last / 64 ∧ r.last % 64 ≠ 63 then mask &&& (1#64 <<< (r.last % 64 + 1) - 1#64) else mask

/-- `combine_run`: what the operation keeps of the bits under a run is added to the words. -/
def combineRun (combineWord : Word → Word → Word) (bitset words : Words wordCount) (r : Run) :
    Words wordCount :=
  (Words.touched r.first r.last).foldl
    (fun words i ↦ words.setWord i (words.word i ||| combineWord (bitset.word i) (runMask r i)))
    words

/-- `combine_run_bitset_words`. -/
def combineRunBitsetWords (runs : List Run) (bitset : Words wordCount) (op : SetOperation) :
    Words wordCount :=
  if op = .bitOr then runs.foldl (fun words r ↦ applyRangeToWords words r.first r.last .add) bitset
  else if op = .bitAnd then
    runs.foldl (combineRun (fun bits mask ↦ bits &&& mask) bitset) (Words.zeroed wordCount)
  else runs.foldl (combineRun (fun bits mask ↦ ~~~bits &&& mask) bitset) (Words.zeroed wordCount)

/-- `combine_bitset_bitset`, into a fresh handle. -/
def combineBitsetBitset (lhs rhs : Words wordCount) (op : SetOperation) : ContainerHandle :=
  let words := Words.combine op.onWords lhs rhs
  if words.count = 0 then .makeArrayFromSorted [] else .makeBitsetFrom words words.count

/-! ## Runs -/

/-- `make_container_from_runs`; nothing is returned when an array is not just filled. -/
def makeContainerFromRuns (runs : List Run) (cardinality bitsetThreshold : Nat) :
    Option ContainerHandle :=
  if cardinality = 0 then some (.makeArrayFromSorted [])
  else match chooseRunContainerKind cardinality runs.length bitsetThreshold with
    | .bitset =>
      some (makeContainerFromWords true
        (runs.foldl (fun words r ↦ applyRangeToWords words r.first r.last .add)
          (Words.zeroed wordCount)) bitsetThreshold)
    | .run => some (.makeRunFrom runs cardinality)
    | .array =>
      let values := runs.flatMap Run.values
      if values.length = cardinality then some (.syncHeader values) else none

/-- The end of a difference: the runs that were written into `capacity` places, settled. -/
def settleDifference (capacity : Nat) (runs : List Run) (bitsetThreshold : Nat) :
    Option ContainerHandle :=
  if capacity < runs.length then none
  else if runs = [] then some (.makeArrayFromSorted [])
  else settleRunResult (syncRunHeader runs) bitsetThreshold

/-- `difference_run_array`: the places are those of `difference_run_values`. -/
def differenceRunArrayHandle (runs : List Run) (values : List Nat) (bitsetThreshold : Nat) :
    Option ContainerHandle :=
  settleDifference (min (runs.length + values.length) (lowDomainSize / 2))
    (differenceRunValues runs values) bitsetThreshold

/-- `difference_run_run`, with its handle. -/
def differenceRunRunHandle (ls rs : List Run) (bitsetThreshold : Nat) : Option ContainerHandle :=
  settleDifference (ls.length + rs.length) (differenceRunRun ls rs) bitsetThreshold

/-! ## The choice of the kernel -/

/-- What the kernels find: the machine, and what fresh memory holds. -/
structure KernelContext where
  support : VectorSupport
  aarch64 : Bool
  unknown : Nat → Nat
  uninitialized : Words wordCount
  eager : Bool
  bitsetThreshold : Nat

/-- `intersect_array_run` and `difference_array_run`, put into a container. -/
def filterRunsIntoContainer (c : KernelContext) (values : List Nat) (keep : Bool)
    (runs : List Run) : Option ContainerHandle :=
  (filterArrayRunInto values keep runs (resizeUninitialized c.unknown values.length [])).map
    fun out ↦ makeContainerFromSortedValues c.eager out c.bitsetThreshold

/-- `filter_into_container`. -/
def filterIntoContainer (c : KernelContext) (values : List Nat) (words : Words wordCount)
    (keepMatches : Bool) : Option ContainerHandle :=
  (filterArrayBitsetInto c.aarch64 c.unknown values words keepMatches []).map fun out ↦
    if out = [] then .makeArrayFromSorted []
    else makeContainerFromFilledArray c.eager (.syncHeader out) c.bitsetThreshold

/-- The arms of `combine_containers`, by the kinds of the two sides. -/
def combinePayloads (c : KernelContext) (op : SetOperation) : Payload → Payload →
    Option ContainerHandle
  | .array xs, .array ys =>
    (combineArrayArray c.support c.unknown op xs ys).map fun out ↦
      makeContainerFromSortedValues c.eager out c.bitsetThreshold
  | .array xs, .run rs =>
    if op = .bitOr then
      makeContainerFromRuns (unionRunArray rs xs).runs (unionRunArray rs xs).cardinality
        c.bitsetThreshold
    else if op = .bitAnd then filterRunsIntoContainer c xs true rs
    else filterRunsIntoContainer c xs false rs
  | .run ls, .array ys =>
    if op = .bitOr then
      makeContainerFromRuns (unionRunArray ls ys).runs (unionRunArray ls ys).cardinality
        c.bitsetThreshold
    else if op = .bitAnd then filterRunsIntoContainer c ys true ls
    else differenceRunArrayHandle ls ys c.bitsetThreshold
  | .array xs, .bitset bits =>
    if op = .bitOr then some (makeBitsetContainerFromWords (combineBitsetArrayWords bits xs op))
    else if op = .bitAnd then filterIntoContainer c xs bits true
    else filterIntoContainer c xs bits false
  | .bitset bits, .array ys =>
    if op = .bitOr ∨ op = .bitAndnot then
      some (makeBitsetContainerFromWords (combineBitsetArrayWords bits ys op))
    else filterIntoContainer c ys bits true
  | .run ls, .bitset bits =>
    if op = .bitAndnot then differenceRunBitset c.uninitialized ls bits c.bitsetThreshold
    else some (makeBitsetContainerFromWords (combineRunBitsetWords ls bits op))
  | .bitset bits, .run rs =>
    if op = .bitAndnot then
      some (makeBitsetContainerFromWords
        (rs.foldl (fun words r ↦ applyRangeToWords words r.first r.last .remove) bits))
    else some (makeBitsetContainerFromWords (combineRunBitsetWords rs bits op))
  | .bitset lbits, .bitset rbits => some (combineBitsetBitset lbits rbits op)
  | .run ls, .run rs =>
    if op = .bitAnd then
      (intersectRunRun ls rs).bind fun result ↦
        makeContainerFromRuns result.runs result.cardinality c.bitsetThreshold
    else if op = .bitOr then
      makeContainerFromRuns (unionRunRun ls rs).runs (unionRunRun ls rs).cardinality
        c.bitsetThreshold
    else differenceRunRunHandle ls rs c.bitsetThreshold

/-- `combine_containers`.  An exclusive-or fails the assertion. -/
def combineContainers (c : KernelContext) (lhs rhs : ContainerHandle) (op : SetOperation) :
    Option ContainerHandle :=
  if op = .bitXor then none else combinePayloads c op lhs.payload rhs.payload

/-! ## The filters -/

section Filters

variable {p : Nat → Bool} {words : Words wordCount} {keys vs ws out : List Nat} {size : Nat}

/-- The probe leaves the kept values behind those in front; a store that is not kept is written
over. -/
theorem probeValues_spec (h : Filled size ws out) (hfit : ws.length + vs.length ≤ size) :
    ∃ out', probeValues p vs ws.length out = some ((ws ++ vs.filter p).length, out') ∧
      Filled size (ws ++ vs.filter p) out' := by
  induction vs generalizing ws out with
  | nil =>
    rw [List.filter_nil, List.append_nil]
    exact ⟨out, rfl, h⟩
  | cons v vs ih =>
    rw [List.length_cons] at hfit
    obtain ⟨mid, hstore, hmid⟩ := h.store (by omega) v
    rw [probeValues, hstore, Option.bind_some]
    cases hkept : p v with
    | true =>
      have hlen : ws.length + 1 = (ws ++ [v]).length := by
        rw [List.length_append, List.length_singleton]
      rw [if_pos rfl, hlen, List.filter_cons_of_pos hkept, List.append_cons ws v (vs.filter p)]
      exact ih hmid (by rw [← hlen]; omega)
    | false =>
      rw [if_neg Bool.false_ne_true,
        List.filter_cons_of_neg (by rw [hkept]; exact Bool.false_ne_true)]
      exact ih hmid.of_append (by omega)

/-- The values of a span lie in the word of its first value. -/
theorem div_of_mem_span {v u : Nat} (hasc : (v :: vs).Pairwise (· < ·))
    (hu : u ∈ v :: vs.takeWhile (· < 64 * (v / 64 + 1))) :
    u / 64 = v / 64 := by
  rcases List.mem_cons.1 hu with rfl | hu
  · rfl
  · have hlt : u < 64 * (v / 64 + 1) := by
      simpa only [decide_eq_true_eq] using List.mem_takeWhile_imp hu
    have hle := List.rel_of_pairwise_cons hasc ((List.takeWhile_sublist _).subset hu)
    omega

theorem decide_bit (word : Word) (k : Nat) : decide ((word >>> k) &&& 1#64 = 1#64) =
    word.getLsbD k := by
  have hbit := shiftRight_and_one word k
  cases hheld : word.getLsbD k with
  | true =>
    rw [hheld, if_pos rfl] at hbit
    exact decide_eq_true (BitVec.eq_of_toNat_eq hbit)
  | false =>
    rw [hheld, if_neg Bool.false_ne_true] at hbit
    refine decide_eq_false fun hone ↦ ?_
    rw [hone] at hbit
    exact absurd hbit (by decide)

/-- Each way of settling a span keeps its set values. -/
theorem span_spec {word : Word} (hword : ∀ u ∈ vs, words.contains u = word.getLsbD (u % 64))
    (h : Filled size ws out) (hfit : ws.length + vs.length ≤ size) :
    ∃ mid, (if word = 0#64 then some (ws.length, out) else if word = BitVec.allOnes 64 then
      storeAll vs ws.length out
      else probeValues (fun u ↦ (word >>> (u % 64)) &&& 1#64 = 1#64) vs ws.length out) =
        some ((ws ++ vs.filter words.contains).length, mid) ∧
          Filled size (ws ++ vs.filter words.contains) mid := by
  split_ifs with hzero hones
  · have hnone : vs.filter words.contains = [] := by
      refine List.filter_eq_nil_iff.2 fun u hu ↦ ?_
      rw [hword u hu, hzero, BitVec.getLsbD_zero]
      exact Bool.false_ne_true
    rw [hnone, List.append_nil]
    exact ⟨out, rfl, h⟩
  · have hall : vs.filter words.contains = vs := by
      refine List.filter_eq_self.2 fun u hu ↦ ?_
      rw [hword u hu, hones, BitVec.getLsbD_allOnes]
      exact decide_eq_true (Nat.mod_lt u (by decide))
    rw [hall, List.length_append]
    exact storeAll_spec h hfit
  · have hsame : vs.filter words.contains = vs.filter fun u ↦ (word >>> (u % 64)) &&& 1#64 =
        1#64 := by
      refine List.filter_congr fun u hu ↦ ?_
      rw [hword u hu, decide_bit]
    rw [hsame]
    exact probeValues_spec h hfit

/-- The walk keeps the set values, span by span. -/
theorem walkSpans_spec (hasc : keys.Pairwise (· < ·)) (h : Filled size ws out)
    (hfit : ws.length + keys.length ≤ size) :
    ∃ out', walkSpans words keys ws.length out =
      some ((ws ++ keys.filter words.contains).length, out') ∧
      Filled size (ws ++ keys.filter words.contains) out' := by
  induction hn : keys.length using Nat.strong_induction_on generalizing keys ws out with
  | _ n ih =>
    cases keys with
    | nil =>
      rw [List.filter_nil, List.append_nil, walkSpans]
      exact ⟨out, rfl, h⟩
    | cons v vs =>
      set span := v :: vs.takeWhile (· < 64 * (v / 64 + 1)) with hspan
      set rest := vs.dropWhile (· < 64 * (v / 64 + 1)) with hrest
      have hkeys : v :: vs = span ++ rest :=
        congrArg (v :: ·) (List.takeWhile_append_dropWhile).symm
      have hsplit : (v :: vs).filter words.contains = span.filter words.contains ++ rest.filter
          words.contains := by
        rw [hkeys, List.filter_append]
      have hlength : span.length + rest.length = n := by
        rw [← hn, hkeys, List.length_append]
      have hcontains : ∀ u ∈ span, words.contains u = (words.word (v / 64)).getLsbD (u % 64) := by
        intro u hu
        rw [Words.contains, div_of_mem_span hasc hu]
      have hfits : ws.length + span.length ≤ size := by
        rw [hn] at hfit
        omega
      obtain ⟨mid, hrun, hmid⟩ := span_spec hcontains h hfits
      have hascRest : rest.Pairwise (· < ·) := by
        rw [hkeys] at hasc
        exact (List.pairwise_append.1 hasc).2.1
      have hkept : (span.filter words.contains).length ≤ span.length := List.length_filter_le ..
      have hpos : 0 < span.length := Nat.succ_pos _
      obtain ⟨out', hlast, hfilled⟩ := ih rest.length (by omega) hascRest hmid (by
        rw [List.length_append]
        rw [hn] at hfit
        omega) rfl
      rw [hsplit, ← List.append_assoc]
      refine ⟨out', ?_, hfilled⟩
      rw [walkSpans, ← hspan, ← hrest, hrun, Option.bind_some]
      exact hlast

/-- A buffer that is filled to the cursor is cut down to what was kept. -/
theorem cut_filled {r : Option (Nat × List Nat)}
    (h : ∃ out', r = some (vs.length, out') ∧ Filled size vs out') : cut r = some vs := by
  obtain ⟨out', hr, hfilled⟩ := h
  refine cut_spec hfilled.length_le ⟨out', hr, hfilled.length, ?_⟩
  exact (List.prefix_iff_eq_take.1 hfilled.front).symm

/-- The filter keeps the values that are set, or those that are not, on either machine. -/
theorem filterArrayBitsetInto_spec (aarch64 : Bool) (unknown : Nat → Nat) (words : Words wordCount)
    (keepMatches : Bool) (result : List Nat) (hasc : keys.Pairwise (· < ·)) :
    filterArrayBitsetInto aarch64 unknown keys words keepMatches result =
      some (keys.filter fun v ↦ words.contains v == keepMatches) := by
  have hlength := length_resizeUninitialized unknown keys.length result
  have hfilled : Filled keys.length [] (resizeUninitialized unknown keys.length result) :=
    ⟨hlength, List.nil_prefix⟩
  have hfit : ([] : List Nat).length + keys.length ≤ keys.length := (Nat.zero_add _).le
  have hprobe : ∀ v, probeBit words v = words.contains v := by
    intro v
    have hbit := and_bit_eq_zero (words.word (v / 64)) (Nat.mod_lt v (show 0 < 64 by decide))
    rw [probeBit, Words.contains, Bool.eq_iff_iff, decide_eq_true_iff, ne_eq, hbit,
      Bool.not_eq_false]
  rw [filterArrayBitsetInto]
  by_cases hnone : keys.length = 0
  · obtain rfl := List.eq_nil_of_length_eq_zero hnone
    rw [if_pos hnone, List.filter_nil, List.eq_nil_of_length_eq_zero hlength]
  rw [if_neg hnone]
  by_cases hspans : aarch64 = true ∧ keepMatches = true
  · rw [if_pos hspans]
    obtain ⟨-, rfl⟩ := hspans
    have hsame : (fun v ↦ words.contains v == true) = words.contains := funext fun v ↦ beq_true _
    rw [hsame]
    exact cut_filled (walkSpans_spec hasc hfilled hfit)
  · rw [if_neg hspans]
    have hsame : (fun v ↦ words.contains v == keepMatches) = fun v ↦ if keepMatches = true then
        probeBit words v else !probeBit words v := by
      funext v
      rw [hprobe]
      cases keepMatches <;> cases words.contains v <;> rfl
    rw [hsame]
    exact cut_filled (probeValues_spec hfilled hfit)

end Filters

/-! ## The words -/

section Words

variable {bitset words : Words wordCount} {runs rs : List Run} {r : Run} {v i : Nat} {vs : List Nat}
  {op : SetOperation}

theorem contains_combineBitsetArrayWords (hlow : ∀ v ∈ vs, v < lowDomainSize)
    (hop : op = .bitOr ∨ op = .bitAndnot) :
    (combineBitsetArrayWords bitset vs op).contains v = true ↔
      op.Holds (bitset.contains v = true) (v ∈ vs) := by
  rcases hop with rfl | rfl
  · have hscatter : combineBitsetArrayWords bitset vs .bitOr = bitset.scatter vs := rfl
    rw [hscatter, Words.contains_scatter bitset hlow, Bool.or_eq_true, decide_eq_true_iff, or_comm]
    rfl
  · have herase : combineBitsetArrayWords bitset vs .bitAndnot = vs.foldl Words.erase bitset := rfl
    rw [herase, contains_foldl_erase hlow]
    rfl

/-- The mask of a run covers what the run covers. -/
theorem getLsbD_runMask {k : Nat} (hk : k < 64) (hfirst : r.first / 64 ≤ i)
    (hlast : i ≤ r.last / 64) :
    (runMask r i).getLsbD k = decide (r.first ≤ 64 * i + k ∧ 64 * i + k ≤ r.last) := by
  have hfrom : (if i = r.first / 64 then BitVec.allOnes 64 &&& BitVec.allOnes 64 <<< (r.first % 64)
      else BitVec.allOnes 64).getLsbD k =
      decide (r.first ≤ 64 * i + k) := by
    split
    · rw [BitVec.getLsbD_and, BitVec.getLsbD_allOnes, decide_eq_true hk, Bool.true_and]
      exact (getLsbD_maskFrom hk).trans (decide_eq_decide.2 (by omega))
    · rw [BitVec.getLsbD_allOnes]
      exact decide_eq_decide.2 (by omega)
  rw [runMask]
  split
  · rename_i hends
    have htop : r.last % 64 < 63 := by omega
    have hpower : 1#64 <<< (r.last % 64 + 1) = 2#64 <<< (r.last % 64) := by
      rw [Nat.add_comm, BitVec.shiftLeft_add]
      rfl
    rw [BitVec.getLsbD_and, hfrom, hpower, getLsbD_two_shiftLeft_sub_one htop, ← Bool.decide_and]
    exact decide_eq_decide.2 (by omega)
  · rw [hfrom]
    exact decide_eq_decide.2 (by omega)

/-- Words that are added to at some places, each once. -/
theorem word_foldl_or {is : List Nat} (hnodup : is.Nodup) (hin : ∀ i ∈ is, i < wordCount)
    (f : Nat → Word) (j : Nat) :
    (is.foldl (fun words i ↦ words.setWord i (words.word i ||| f i)) words).word j =
      if j ∈ is then words.word j ||| f j else words.word j := by
  induction is generalizing words with
  | nil => rw [List.foldl_nil, if_neg List.not_mem_nil]
  | cons i is ih =>
    have hnot := (List.nodup_cons.1 hnodup).1
    rw [List.foldl_cons, ih hnodup.of_cons fun k hk ↦ hin k (List.mem_cons_of_mem i hk),
      Words.word_setWord words _ (hin i List.mem_cons_self)]
    rcases eq_or_ne j i with rfl | hne
    · rw [if_neg hnot, if_pos rfl, if_pos List.mem_cons_self]
    · simp only [List.mem_cons, hne, false_or, if_false]

variable {f : Word → Word → Word} {g : Bool → Bool}

/-- One run adds what the operation keeps of the bits under it. -/
theorem contains_combineRun
    (hf : ∀ w m k, k < 64 → (f w m).getLsbD k = (g (w.getLsbD k) && m.getLsbD k))
    (hr : r.first ≤ r.last) (hlast : r.last < lowDomainSize) :
    (combineRun f bitset words r).contains v =
      (words.contains v || (g (bitset.contains v) && decide (r.first ≤ v ∧ v ≤ r.last))) := by
  have hbit : v % 64 < 64 := Nat.mod_lt v (by decide)
  have hcount : r.last / 64 < wordCount := run_inside hlast
  have hnodup : (Words.touched r.first r.last).Nodup := List.nodup_range' ..
  have hin : ∀ i ∈ Words.touched r.first r.last, i < wordCount :=
    fun i hi ↦ ((Words.mem_touched hr).1 hi).2.trans_lt hcount
  rw [Words.contains, combineRun, word_foldl_or hnodup hin fun i ↦ f (bitset.word i) (runMask r i)]
  split
  · rename_i htouched
    obtain ⟨hlow, hhigh⟩ := (Words.mem_touched hr).1 htouched
    rw [BitVec.getLsbD_or, hf _ _ _ hbit, getLsbD_runMask hbit hlow hhigh, Nat.div_add_mod]
    rfl
  · rename_i haway
    have hout : ¬ (r.first ≤ v ∧ v ≤ r.last) := fun hv ↦ haway (Words.touched_of_mem hv.1 hv.2)
    rw [decide_eq_false hout, Bool.and_false, Bool.or_false]
    rfl

theorem contains_foldl_combineRun
    (hf : ∀ w m k, k < 64 → (f w m).getLsbD k = (g (w.getLsbD k) && m.getLsbD k))
    (hc : Canonical runs) :
    (runs.foldl (combineRun f bitset) words).contains v =
      (words.contains v || (g (bitset.contains v) && decide (v ∈ runValues runs))) := by
  induction runs generalizing words with
  | nil => simp
  | cons r rs ih =>
    rw [List.foldl_cons, ih hc.tail,
      contains_combineRun hf hc.head_le (hc.bounded r List.mem_cons_self),
      Bool.or_assoc, ← Bool.and_or_distrib_left,
      ← Bool.decide_or]
    congr 3
    rw [runValues_cons, List.mem_append, Run.mem_values]

theorem contains_combineRunBitsetWords (hc : Canonical runs) (hop : op ≠ .bitXor) :
    (combineRunBitsetWords runs bitset op).contains v = true ↔
      op.Holds (v ∈ runValues runs) (bitset.contains v = true) := by
  cases op with
  | bitOr =>
    rw [combineRunBitsetWords, if_pos rfl, contains_foldl_add hc.forward hc.bounded]
    exact or_comm
  | bitAnd =>
    rw [combineRunBitsetWords, if_neg (by decide), if_pos rfl,
      contains_foldl_combineRun (g := id) (fun w m k _ ↦ BitVec.getLsbD_and) hc,
      Words.contains_zeroed, Bool.false_or, Bool.and_eq_true, decide_eq_true_iff]
    exact and_comm
  | bitAndnot =>
    have hf : ∀ w m : Word, ∀ k, k < 64 →
        (~~~w &&& m).getLsbD k = (!w.getLsbD k && m.getLsbD k) := by
      intro w m k hk
      rw [BitVec.getLsbD_and, BitVec.getLsbD_not, decide_eq_true hk, Bool.true_and]
    rw [combineRunBitsetWords, if_neg (by decide), if_neg (by decide),
      contains_foldl_combineRun hf hc, Words.contains_zeroed, Bool.false_or,
      Bool.and_eq_true, decide_eq_true_iff, Bool.not_eq_true', ← Bool.not_eq_true]
    exact and_comm
  | bitXor => exact absurd rfl hop

theorem combineBitsetBitset_holds (lhs rhs : Words wordCount) (op : SetOperation) :
    (combineBitsetBitset lhs rhs op).Holds (Words.combine op.onWords lhs rhs).values :=
  makeBitsetContainerFromWords_holds _

end Words

/-! ## The runs -/

section Runs

variable {runs rs ls : List Run} {vs : List Nat} {cardinality bitsetThreshold capacity : Nat}

theorem makeContainerFromRuns_holds (hc : Canonical runs)
    (hcard : cardinality = runCardinality runs) (bitsetThreshold : Nat) :
    ∃ h, makeContainerFromRuns runs cardinality bitsetThreshold = some h ∧
      h.Holds (runValues runs) := by
  obtain rfl := hcard
  rw [makeContainerFromRuns]
  split
  · rename_i hzero
    rw [← hc.length_values, List.length_eq_zero_iff] at hzero
    rw [hzero]
    exact ⟨_, rfl, ContainerHandle.holds_empty⟩
  · cases chooseRunContainerKind (runCardinality runs) runs.length bitsetThreshold with
    | bitset =>
      have hvalues := (makeBitsetContainerFromWords_holds _).values_eq.symm.trans
        (bitsetHandleFromRuns_holds hc).values_eq
      have hholds := makeContainerFromWords_holds true
        (runs.foldl (fun words r ↦ applyRangeToWords words r.first r.last .add)
          (Words.zeroed wordCount)) bitsetThreshold
      rw [hvalues] at hholds
      exact ⟨_, rfl, hholds⟩
    | run => exact ⟨_, rfl, ContainerHandle.holds_run hc rfl⟩
    | array =>
      refine ⟨.syncHeader (runValues runs), if_pos hc.length_values, ?_⟩
      exact ContainerHandle.holds_array hc.values_ascending hc.values_lt

theorem settleDifference_holds (hc : Canonical runs) (hfit : runs.length ≤ capacity)
    (bitsetThreshold : Nat) :
    ∃ h, settleDifference capacity runs bitsetThreshold = some h ∧ h.Holds (runValues runs) := by
  rw [settleDifference, if_neg hfit.not_gt]
  split
  · rename_i hnone
    rw [hnone]
    exact ⟨_, rfl, ContainerHandle.holds_empty⟩
  · have hvalid : (syncRunHeader runs).Valid := ContainerHandle.makeRunFrom_valid hc rfl
    obtain ⟨h, hrun, hholds, -⟩ := settleRunResult_spec hvalid rfl bitsetThreshold
    exact ⟨h, hrun, hholds⟩

/-- A value that is taken out splits one run at most. -/
theorem length_cutRun_le (last current : Nat) (vs : List Nat) :
    (cutRun last current vs).1.length + (cutRun last current vs).2.length ≤ vs.length + 1 := by
  have htail : ∀ current, (runTail current last).length ≤ 1 := by
    intro current
    rw [runTail]
    split
    · exact le_rfl
    · exact Nat.zero_le _
  induction vs generalizing current with
  | nil =>
    rw [cutRun]
    exact Nat.add_le_add_right (htail current) 0
  | cons v vs ih =>
    have hpiece : (if current < v then [(⟨current, v - 1⟩ : Run)] else []).length ≤ 1 := by
      split
      · exact le_rfl
      · exact Nat.zero_le _
    rw [cutRun]
    generalize (if current < v then [(⟨current, v - 1⟩ : Run)] else []) = piece at hpiece ⊢
    split
    · split
      · dsimp only
        omega
      · have hrest := ih (v + 1)
        dsimp only
        rw [List.length_append, List.length_cons]
        omega
    · have hone := htail current
      rw [List.length_cons]
      dsimp only
      omega

theorem length_differenceRunValues_le (runs : List Run) (vs : List Nat) :
    (differenceRunValues runs vs).length ≤ runs.length + vs.length := by
  induction runs generalizing vs with
  | nil => exact Nat.zero_le _
  | cons r rs ih =>
    have hdrop : (vs.dropWhile fun v ↦ decide (v < r.first)).length ≤ vs.length :=
      (List.dropWhile_sublist _).length_le
    have hcut := length_cutRun_le r.last r.first (vs.dropWhile fun v ↦ decide (v < r.first))
    have hrest := ih (cutRun r.last r.first (vs.dropWhile fun v ↦ decide (v < r.first))).2
    rw [differenceRunValues, List.length_append, List.length_cons]
    omega

theorem Canonical.length_le_half (hc : Canonical runs) : runs.length ≤ lowDomainSize / 2 := by
  have hmost := hc.two_mul_length_le 0 (fun _ _ ↦ Nat.zero_le _) (by decide)
  rw [lowDomainSize] at hmost ⊢
  omega

theorem differenceRunArrayHandle_holds (hc : Canonical runs) (hasc : vs.Pairwise (· < ·))
    (bitsetThreshold : Nat) :
    ∃ h, differenceRunArrayHandle runs vs bitsetThreshold = some h ∧
      h.Holds (runValues (differenceRunValues runs vs)) := by
  have hcanonical := (differenceRunValues_spec hc hasc).1
  exact settleDifference_holds hcanonical
    (le_min (length_differenceRunValues_le runs vs) hcanonical.length_le_half) bitsetThreshold

theorem differenceRunRunHandle_holds (hl : Canonical ls) (hr : Canonical rs)
    (bitsetThreshold : Nat) :
    ∃ h, differenceRunRunHandle ls rs bitsetThreshold = some h ∧
      h.Holds (runValues (differenceRunRun ls rs)) :=
  settleDifference_holds (differenceRunRun_spec hl hr).1 (differenceRunRun_answers hl hr).fits
    bitsetThreshold

end Runs

/-! ## Every pair of kinds -/

/-- A container is returned that holds just the values with a property. -/
def Denotes (result : Option ContainerHandle) (p : Nat → Prop) : Prop :=
  ∃ h, result = some h ∧ h.Valid ∧ ∀ v, v ∈ h.values ↔ p v

/-- No operation makes a value that neither side holds. -/
theorem SetOperation.left_or_right {op : SetOperation} {p q : Prop} (h : op.Holds p q) : p ∨ q := by
  cases op with
  | bitOr => exact h
  | bitAnd => exact .inl h.1
  | bitAndnot => exact .inl h.1
  | bitXor => exact h.imp And.left And.right

/-- All but the difference take the sides in either order. -/
theorem SetOperation.holds_comm {op : SetOperation} {p q : Prop} (hop : op ≠ .bitAndnot) :
    op.Holds p q ↔ op.Holds q p := by
  cases op with
  | bitOr => exact or_comm
  | bitAnd => exact and_comm
  | bitAndnot => exact absurd rfl hop
  | bitXor =>
    simp only [SetOperation.Holds]
    tauto

/-- What a filter keeps, by its polarity. -/
theorem SetOperation.holds_bitAnd {p q : Prop} : p ∧ (q ↔ true = true) ↔
    SetOperation.bitAnd.Holds p q :=
  and_congr_right fun _ ↦ iff_true_right rfl

theorem SetOperation.holds_bitAndnot {p q : Prop} : p ∧ (q ↔ false = true) ↔
    SetOperation.bitAndnot.Holds p q :=
  and_congr_right fun _ ↦ iff_false_right Bool.false_ne_true

section Combine

variable {c : KernelContext} {lhs rhs : ContainerHandle} {op : SetOperation} {p : Nat → Prop}
  {vs values : List Nat} {runs : List Run}
  {words : Words wordCount}

theorem denotes_of_holds {h : ContainerHandle} (hholds : h.Holds vs) (hmem : ∀ v, v ∈ vs ↔ p v) :
    Denotes (some h) p :=
  ⟨h, rfl, hholds.valid, fun v ↦ hholds.values_eq ▸ hmem v⟩

theorem denotes_of_spec {result : Option ContainerHandle}
    (hspec : ∃ h, result = some h ∧ h.Holds vs) (hmem : ∀ v, v ∈ vs ↔ p v) :
    Denotes result p := by
  obtain ⟨h, rfl, hholds⟩ := hspec
  exact denotes_of_holds hholds hmem

theorem denotes_words (hmem : ∀ v, words.contains v = true ↔ p v) :
    Denotes (some (makeBitsetContainerFromWords words)) p :=
  denotes_of_holds (makeBitsetContainerFromWords_holds words) fun v ↦ Words.mem_values.trans
    (hmem v)

theorem denotes_filterRuns (hvalues : (Payload.array values).WellFormed) (hc : Canonical runs)
    (keep : Bool) (hmem : ∀ v, v ∈ values ∧ (v ∈ runValues runs ↔ keep = true) ↔ p v) :
    Denotes (filterRunsIntoContainer c values keep runs) p := by
  have hkept : ∀ v, v ∈ values.filter (keeps runs keep) ↔ p v := by
    intro v
    rw [← hmem]
    cases keep <;> simp [keeps]
  have hasc : values.Pairwise (· < ·) := hvalues.values_ascending
  have hfilter :=
    filterArrayRunIntoWith_eq hasc hc keep (stretchFormFor keep values.length runs.length)
    (length_resizeUninitialized c.unknown values.length [])
  rw [filterRunsIntoContainer, filterArrayRunInto, hfilter, Option.map_some]
  exact denotes_of_holds (makeContainerFromSortedValues_holds (hasc.filter _) fun v hv ↦
    hvalues.values_lt v (List.mem_of_mem_filter hv)) hkept

theorem makeContainerFromFilledArray_holds (eager : Bool) (hasc : vs.Pairwise (· < ·))
    (hlow : ∀ v ∈ vs, v < lowDomainSize) (bitsetThreshold : Nat) :
    (makeContainerFromFilledArray eager (.syncHeader vs) bitsetThreshold).Holds vs :=
  makeContainerFromSortedValues_holds hasc hlow

theorem denotes_filter (hvalues : (Payload.array values).WellFormed) (keepMatches : Bool)
    (hmem : ∀ v, v ∈ values ∧ (v ∈ words.values ↔ keepMatches = true) ↔ p v) :
    Denotes (filterIntoContainer c values words keepMatches) p := by
  have hin : ∀ v, v ∈ values.filter (fun v ↦ words.contains v == keepMatches) ↔ p v := by
    intro v
    rw [← hmem, List.mem_filter, Words.mem_values, beq_iff_eq, Bool.eq_iff_iff]
  have hasc : values.Pairwise (· < ·) := hvalues.values_ascending
  have hfilter := filterArrayBitsetInto_spec c.aarch64 c.unknown words keepMatches [] hasc
  rw [filterIntoContainer, hfilter, Option.map_some]
  generalize hkept : values.filter (fun v ↦ words.contains v == keepMatches) = out at hin
  have hout : out.Pairwise (· < ·) := hkept ▸ hasc.filter _
  have hlow : ∀ v ∈ out, v < lowDomainSize := by
    intro v hv
    rw [← hkept] at hv
    exact hvalues.values_lt v (List.mem_of_mem_filter hv)
  split
  · rename_i hnone
    rw [hnone] at hin
    exact denotes_of_holds ContainerHandle.holds_empty hin
  · exact denotes_of_holds (makeContainerFromFilledArray_holds c.eager hout hlow c.bitsetThreshold)
      hin

theorem denotes_runs {capacity cardinality : Nat} {held : Set Nat}
    (h : RunAnswer capacity held runs cardinality) (hmem : ∀ v, v ∈ held ↔ p v) :
    Denotes (makeContainerFromRuns runs cardinality c.bitsetThreshold) p := by
  have hcard : cardinality = runCardinality runs := by
    rw [h.counted, ← h.denotes, h.canonical.ncard_runSet]
  refine denotes_of_spec (makeContainerFromRuns_holds h.canonical hcard c.bitsetThreshold)
    fun v ↦ ?_
  rw [← hmem, ← h.denotes]
  rfl

/-- An array on the left. -/
theorem denotes_array {xs : List Nat} {right : Payload} (hxs : (Payload.array xs).WellFormed)
    (hright : right.WellFormed) (hop : op ≠ .bitXor) :
    Denotes (combinePayloads c op (.array xs) right) fun v ↦
      op.Holds (v ∈ xs) (v ∈ right.values) := by
  have xasc : xs.Pairwise (· < ·) := hxs.values_ascending
  have xlow : ∀ v ∈ xs, v < lowDomainSize := hxs.values_lt
  cases hright with
  | @array ys yasc ylow =>
    have hmerge : combineArrayArray c.support c.unknown op xs ys =
        some (plainMerge op.rule xs ys) :=
      combineArrayArrayInto_spec xasc yasc xlow hop []
    have hmem : ∀ v, v ∈ plainMerge op.rule xs ys ↔ op.Holds (v ∈ xs) (v ∈ ys) :=
      fun v ↦ (mem_plainMerge xasc yasc).trans (op.keeps_rule _ _)
    have hlow : ∀ v ∈ plainMerge op.rule xs ys, v < lowDomainSize := by
      intro v hv
      rcases SetOperation.left_or_right ((hmem v).1 hv) with hin | hin
      · exact xlow v hin
      · exact ylow v hin
    rw [combinePayloads, hmerge, Option.map_some]
    exact denotes_of_holds (makeContainerFromSortedValues_holds (plainMerge_ascending xasc yasc)
      hlow) hmem
  | @run rs hc =>
    cases op with
    | bitOr => exact denotes_runs (unionRunArray_answers hc xasc xlow) fun v ↦ or_comm
    | bitAnd => exact denotes_filterRuns hxs hc true fun v ↦ SetOperation.holds_bitAnd
    | bitAndnot => exact denotes_filterRuns hxs hc false fun v ↦ SetOperation.holds_bitAndnot
    | bitXor => exact absurd rfl hop
  | bitset bits =>
    cases op with
    | bitOr =>
      refine denotes_words fun v ↦ (contains_combineBitsetArrayWords xlow (.inl rfl)).trans ?_
      rw [← Words.mem_values]
      exact or_comm
    | bitAnd => exact denotes_filter hxs true fun v ↦ SetOperation.holds_bitAnd
    | bitAndnot => exact denotes_filter hxs false fun v ↦ SetOperation.holds_bitAndnot
    | bitXor => exact absurd rfl hop

/-- Runs on the left. -/
theorem denotes_run {ls : List Run} {right : Payload} (hl : Canonical ls)
    (hright : right.WellFormed) (hop : op ≠ .bitXor) :
    Denotes (combinePayloads c op (.run ls) right) fun v ↦ op.Holds (v ∈ runValues ls)
    (v ∈ right.values) := by
  cases hright with
  | @array ys yasc ylow =>
    cases op with
    | bitOr => exact denotes_runs (unionRunArray_answers hl yasc ylow) fun v ↦ Iff.rfl
    | bitAnd =>
      exact denotes_filterRuns (.array yasc ylow) hl true
        fun v ↦ SetOperation.holds_bitAnd.trans and_comm
    | bitAndnot =>
      exact denotes_of_spec (differenceRunArrayHandle_holds hl yasc c.bitsetThreshold)
        (differenceRunValues_spec hl yasc).2.1
    | bitXor => exact absurd rfl hop
  | @run rs hr =>
    cases op with
    | bitOr => exact denotes_runs (unionRunRun_answers hl hr) fun v ↦ Iff.rfl
    | bitAnd =>
      obtain ⟨new, hnew, hmeets⟩ := intersectRunRun_spec hl hr
      rw [combinePayloads, if_pos rfl, hnew, Option.bind_some]
      exact denotes_of_spec (makeContainerFromRuns_holds hmeets.canonical rfl c.bitsetThreshold)
        hmeets.mem
    | bitAndnot =>
      exact denotes_of_spec (differenceRunRunHandle_holds hl hr c.bitsetThreshold)
        (differenceRunRun_spec hl hr).2.1
    | bitXor => exact absurd rfl hop
  | bitset bits =>
    rw [combinePayloads]
    split
    · rename_i hdifference
      obtain rfl := hdifference
      refine denotes_of_spec (differenceRunBitset_holds bits c.uninitialized hl c.bitsetThreshold)
        fun v ↦ ?_
      rw [mem_survivorValues, ← Bool.not_eq_true, ← Words.mem_values]
      rfl
    · refine denotes_words fun v ↦ (contains_combineRunBitsetWords hl hop).trans ?_
      rw [← Words.mem_values]
      rfl

/-- A bitset on the left. -/
theorem denotes_bitset {bits : Words wordCount} {right : Payload} (hright : right.WellFormed)
    (hop : op ≠ .bitXor) :
    Denotes (combinePayloads c op (.bitset bits) right) fun v ↦ op.Holds (v ∈ bits.values)
    (v ∈ right.values) := by
  cases hright with
  | @array ys yasc ylow =>
    rw [combinePayloads]
    split
    · rename_i hdense
      refine denotes_words fun v ↦ (contains_combineBitsetArrayWords ylow hdense).trans ?_
      rw [← Words.mem_values]
      rfl
    · rename_i hsparse
      cases op with
      | bitAnd =>
        exact denotes_filter (.array yasc ylow) true
          fun v ↦ SetOperation.holds_bitAnd.trans and_comm
      | bitOr => exact absurd (.inl rfl) hsparse
      | bitAndnot => exact absurd (.inr rfl) hsparse
      | bitXor => exact absurd rfl hop
  | @run rs hr =>
    rw [combinePayloads]
    split
    · rename_i hdifference
      obtain rfl := hdifference
      refine denotes_words fun v ↦ (contains_foldl_applyRange .remove hr bits v).trans ?_
      rw [← Words.mem_values]
      rfl
    · rename_i hother
      refine denotes_words fun v ↦ (contains_combineRunBitsetWords hr hop).trans ?_
      rw [← Words.mem_values]
      exact SetOperation.holds_comm hother
  | bitset rbits =>
    refine denotes_of_holds (combineBitsetBitset_holds bits rbits op) fun v ↦ ?_
    rw [Words.mem_values, contains_combine_onWords, ← Words.mem_values, ← Words.mem_values]
    rfl

/-- Whichever kinds the two containers have, whichever kernel that chooses on the machine, and
whichever form the result is put into, the result is a valid container of what the operation makes
of the values of the two. -/
theorem combineContainers_denotes (c : KernelContext) (hl : lhs.Valid) (hr : rhs.Valid)
    (hop : op ≠ .bitXor) :
    ∃ h, combineContainers c lhs rhs op = some h ∧ h.Valid ∧ ∀ v, v ∈ h.values ↔
      op.Holds (v ∈ lhs.values) (v ∈ rhs.values) := by
  have hleft := hl.payload
  rw [combineContainers, if_neg hop]
  simp only [ContainerHandle.values]
  generalize lhs.payload = left at hleft ⊢
  cases hleft with
  | array ascending bounded => exact denotes_array (.array ascending bounded) hr.payload hop
  | run canonical => exact denotes_run canonical hr.payload hop
  | bitset words => exact denotes_bitset hr.payload hop

/-- A portable machine, with the default threshold. -/
def portableContext : KernelContext where
  support := ⟨false, false, false, false⟩
  aarch64 := false
  unknown := fun _ ↦ 0
  uninitialized := Words.zeroed wordCount
  eager := true
  bitsetThreshold := 4096

/-- An array without the runs of another container. -/
theorem combineContainers_denotes_arrayRun :
    ∃ h, combineContainers portableContext (.makeArrayFromSorted [3, 9])
    (handleFromRunContainer [⟨2, 5⟩]) .bitAndnot = some h ∧ h.Valid ∧
      ∀ v, v ∈ h.values ↔
        SetOperation.bitAndnot.Holds (v ∈ (ContainerHandle.makeArrayFromSorted [3, 9]).values)
        (v ∈ (handleFromRunContainer [⟨2, 5⟩]).values) :=
  combineContainers_denotes portableContext
    (ContainerHandle.holds_array (by decide) (by decide)).valid
    (ContainerHandle.holds_run (canonical_singleton (by decide) (by decide)) rfl).valid (by decide)

end Combine

end Roaring
