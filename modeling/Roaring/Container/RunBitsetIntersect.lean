import Mathlib
import Roaring.Lib.Slots
import Roaring.Container.RunBitset

/-!
# What runs and a bitset have in common

Four kernels build it, and which one is called depends on how much the runs cover:
one fills words with the bits under the runs, one copies the bitset and clears the
gaps between the runs and then counts, one does the same and subtracts what it
clears, and one stores the bits under the runs as the values of an array.  Where the
result is a bitset, it is written over the words of a payload that another result
left behind, or that were never written.
-/

namespace Roaring

open Lib

/-! ## The masks -/

/-- The bits up to `lastBit`, where a shift by 64 has to be avoided. -/
def lastMaskOf (lastBit : Nat) : Word :=
  if lastBit = 63 then BitVec.allOnes 64 else (1#64 <<< (lastBit + 1)) - 1#64

theorem lastMaskOf_eq {k : Nat} (hk : k < 64) : lastMaskOf k = maskTo k := by
  have hall : ∀ k < 64, lastMaskOf k = maskTo k := by decide
  exact hall k hk

theorem zero_sub_shiftLeft {k : Nat} (hk : k < 64) : 0#64 - 1#64 <<< k = maskFrom k := by
  have hall : ∀ k < 64, 0#64 - 1#64 <<< k = maskFrom k := by decide
  exact hall k hk

theorem two_shiftLeft_sub {k : Nat} (hk : k < 64) : 2#64 <<< k - 1#64 = maskTo k := by
  have hall : ∀ k < 64, 2#64 <<< k - 1#64 = maskTo k := by decide
  exact hall k hk

/-! ## The fills -/

/-- The words from `a` on, `count` of them, copied with their bits counted. -/
def copyWords (src out : Words wordCount) (a count cardinality : Nat) : Words wordCount × Nat :=
  (List.range' a count).foldl (fun (out, cardinality) i ↦
    (out.setWord i (src.word i), cardinality + popcount (src.word i))) (out, cardinality)

/-- A run of `fill_run_bitset_words_of_many_runs`, into words that are zero where no run has
been. -/
def fillManyRun (src : Words wordCount) (state : Words wordCount × Nat) (r : Run) :
    Words wordCount × Nat :=
  let (out, cardinality) := state
  let firstWord := r.first / 64
  let lastWord := r.last / 64
  let firstMask := 0#64 - 1#64 <<< (r.first % 64)
  let lastMask := 2#64 <<< (r.last % 64) - 1#64
  if firstWord = lastWord then
    let masked := src.word firstWord &&& firstMask &&& lastMask
    (out.setWord firstWord (out.word firstWord ||| masked), cardinality + popcount masked)
  else
    let firstMasked := src.word firstWord &&& firstMask
    let out := out.setWord firstWord (out.word firstWord ||| firstMasked)
    let cardinality := cardinality + popcount firstMasked
    let (out, cardinality) := copyWords src out (firstWord + 1) (lastWord - (firstWord + 1))
      cardinality
    let lastMasked := src.word lastWord &&& lastMask
    (out.setWord lastWord lastMasked, cardinality + popcount lastMasked)

def fillRunBitsetWordsOfManyRuns (runs : List Run) (src out : Words wordCount) :
    Words wordCount × Nat :=
  runs.foldl (fillManyRun src) (out, 0)

/-- The words so far, the first one not yet written, and the bits counted. -/
structure GapFill where
  out : Words wordCount
  nextUnwritten : Nat := 0
  cardinality : Nat := 0

/-- A run of the fill for few runs: the gap in front of it is zeroed, and a word it
shares with the run before is merged. -/
def fillFewRun (src : Words wordCount) (s : GapFill) (r : Run) : GapFill :=
  let firstWord := r.first / 64
  let lastWord := r.last / 64
  let out :=
    if s.nextUnwritten < firstWord then
      fillWords (fun _ ↦ 0#64) s.out s.nextUnwritten (firstWord - s.nextUnwritten)
    else s.out
  let firstMask := maskFrom (r.first % 64)
  let lastMask := lastMaskOf (r.last % 64)
  if firstWord = lastWord then
    let masked := src.word firstWord &&& firstMask &&& lastMask
    { out := out.setWord firstWord
        (if firstWord < s.nextUnwritten then out.word firstWord ||| masked else masked)
      nextUnwritten := lastWord + 1
      cardinality := s.cardinality + popcount masked }
  else
    let firstMasked := src.word firstWord &&& firstMask
    let out := out.setWord firstWord
      (if firstWord < s.nextUnwritten then out.word firstWord ||| firstMasked else firstMasked)
    let (out, cardinality) := copyWords src out (firstWord + 1) (lastWord - (firstWord + 1))
      (s.cardinality + popcount firstMasked)
    let lastMasked := src.word lastWord &&& lastMask
    { out := out.setWord lastWord lastMasked
      nextUnwritten := lastWord + 1
      cardinality := cardinality + popcount lastMasked }

/-! ## The kernels -/

/-- `reuse` where it holds a bitset, else `make_bitset_uninitialized`. -/
def resultBitset (reuse : ContainerHandle) (uninitialized : Words wordCount) :
    ContainerHandle × Words wordCount :=
  match reuse.payload with
  | .bitset words => (reuse, words)
  | _ => ({ payload := .bitset uninitialized, endpointsStale := true }, uninitialized)

/-- The result with its words and count, or an empty one: `set_cardinality` makes a stale count
exact. -/
def finishBitset (result : ContainerHandle) (out : Words wordCount) (cardinality : Nat) :
    ContainerHandle :=
  if cardinality = 0 then .makeArrayFromSorted []
  else { result with payload := .bitset out, cardinality := cardinality, cardinalityStale := false }

/-- From this many runs on, all of the words are zeroed first. -/
def manyShortRuns : Nat := 32

/-- `intersect_run_bitset`. -/
def intersectRunBitset (runs : List Run) (bitset : Words wordCount) (reuse : ContainerHandle)
    (uninitialized : Words wordCount) :
    ContainerHandle :=
  let (result, out) := resultBitset reuse uninitialized
  if manyShortRuns < runs.length then
    let (out, cardinality) :=
      fillRunBitsetWordsOfManyRuns runs bitset (fillWords (fun _ ↦ 0#64) out 0 wordCount)
    finishBitset result out cardinality
  else
    let s := runs.foldl (fillFewRun bitset) { out := out }
    finishBitset result
      (fillWords (fun _ ↦ 0#64) s.out s.nextUnwritten (wordCount - s.nextUnwritten)) s.cardinality

/-- `clear_bits` of the clone that is recounted. -/
def clearBits (out : Words wordCount) (first last : Nat) : Words wordCount :=
  let firstWord := first / 64
  let lastWord := last / 64
  let firstMask := maskFrom (first % 64)
  let lastMask := lastMaskOf (last % 64)
  if firstWord = lastWord then
    out.setWord firstWord (out.word firstWord &&& ~~~(firstMask &&& lastMask))
  else
    let out := out.setWord firstWord (out.word firstWord &&& ~~~firstMask)
    let out := fillWords (fun _ ↦ 0#64) out (firstWord + 1) (lastWord - (firstWord + 1))
    out.setWord lastWord (out.word lastWord &&& ~~~lastMask)

/-- Words zeroed one after the other, with their bits counted. -/
def removeWords (out : Words wordCount) (a count removed : Nat) : Words wordCount × Nat :=
  (List.range' a count).foldl
    (fun (out, removed) i ↦ (out.setWord i 0#64, removed + popcount (out.word i))) (out, removed)

/-- `clear_bits` of the clone that subtracts what it clears. -/
def removeBits (state : Words wordCount × Nat) (first last : Nat) : Words wordCount × Nat :=
  let (out, removed) := state
  let firstWord := first / 64
  let lastWord := last / 64
  let firstMask := maskFrom (first % 64)
  let lastMask := lastMaskOf (last % 64)
  if firstWord = lastWord then
    let mask := firstMask &&& lastMask
    (out.setWord firstWord (out.word firstWord &&& ~~~mask),
      removed + popcount (out.word firstWord &&& mask))
  else
    let removed := removed + popcount (out.word firstWord &&& firstMask)
    let out := out.setWord firstWord (out.word firstWord &&& ~~~firstMask)
    let (out, removed) := removeWords out (firstWord + 1) (lastWord - (firstWord + 1)) removed
    (out.setWord lastWord (out.word lastWord &&& ~~~lastMask),
      removed + popcount (out.word lastWord &&& lastMask))

/-- The gaps between the runs, from `next` to the end of the domain, each cleared by `clear`. -/
def clearGaps {σ : Type} (clear : σ → Nat → Nat → σ) : (next : Nat) → (runs : List Run) → σ → σ
  | next, [], s => if next < lowDomainSize then clear s next (lowDomainSize - 1) else s
  | next, r :: rs, s =>
    clearGaps clear (r.last + 1) rs (if next < r.first then clear s next (r.first - 1) else s)

/-- `intersect_run_bitset_clone_and_recount`. -/
def intersectRunBitsetCloneAndRecount (runs : List Run) (bitset : Words wordCount)
    (reuse : ContainerHandle) (uninitialized : Words wordCount) : ContainerHandle :=
  let (result, out) := resultBitset reuse uninitialized
  let out := clearGaps clearBits 0 runs (fillWords bitset.word out 0 wordCount)
  finishBitset result out out.count

/-- `intersect_run_bitset_dense_runs`. -/
def intersectRunBitsetDenseRuns (runs : List Run) (bitset : Words wordCount)
    (bitsetCardinality : Nat) (reuse : ContainerHandle)
    (uninitialized : Words wordCount) : ContainerHandle :=
  let (result, out) := resultBitset reuse uninitialized
  let (out, removed) := clearGaps removeBits 0 runs (fillWords bitset.word out 0 wordCount, 0)
  finishBitset result out (bitsetCardinality - removed)

/-- `static_cast<low_type>`. -/
def lowCast (v : Nat) : Nat := v % lowDomainSize

/-- The bits of the bitset under one run, by `emit_word`. -/
def emitRun (src : Words wordCount) (r : Run) (state : Nat × List Nat) : Option (Nat × List Nat) :=
  let firstWord := r.first / 64
  let lastWord := r.last / 64
  let firstMask := maskFrom (r.first % 64)
  let lastMask := lastMaskOf (r.last % 64)
  if firstWord = lastWord then
    storeSetBits lowCast (64 * firstWord) (src.word firstWord &&& firstMask &&& lastMask)
      state.1 state.2
  else do
    let state ← storeSetBits lowCast (64 * firstWord) (src.word firstWord &&& firstMask)
      state.1 state.2
    let state ← storeWords lowCast src.word
      (List.range' (firstWord + 1) (lastWord - (firstWord + 1))) state
    storeSetBits lowCast (64 * lastWord) (src.word lastWord &&& lastMask) state.1 state.2

/-- `intersect_run_bitset_sparse`: the values are stored into `slots`, as many as the
bound says, and the array is cut down to those that were. -/
def intersectRunBitsetSparse (runs : List Run) (bitset : Words wordCount) (slots : List Nat) :
    Option ContainerHandle := do
  let (written, out) ← runs.foldlM (fun state r ↦ emitRun bitset r state) (0, slots)
  return if written = 0 then .makeArrayFromSorted [] else .syncHeader (out.take written)

/-! ## What is to be found -/

/-- The values of the runs that the bitset holds. -/
def intersectionValues (bits : Words wordCount) (runs : List Run) : List Nat :=
  (runValues runs).filter bits.contains

/-- A result that holds `vs` with their exact number. -/
structure ContainerHandle.Counted (h : ContainerHandle) (vs : List Nat) : Prop where
  values : h.values = vs
  cardinality : h.cardinality = vs.length
  exact : h.cardinalityStale = false

section Intersection

variable {bits : Words wordCount} {rs done : List Run} {r : Run} {v : Nat}

theorem mem_intersectionValues : v ∈ intersectionValues bits rs ↔ v ∈ runValues rs ∧
    bits.contains v = true := List.mem_filter

theorem intersectionValues_ascending (hc : Canonical rs) :
    (intersectionValues bits rs).Pairwise (· < ·) :=
  hc.values_ascending.filter _

/-- A block with the bits under the runs holds the intersection. -/
theorem values_eq_intersection {out : Words wordCount} (hc : Canonical rs)
    (h : ∀ v < lowDomainSize, out.contains v = (bits.contains v && decide (v ∈ runValues rs))) :
    out.values = intersectionValues bits rs := by
  refine List.Pairwise.eq_of_mem_iff (r := (· < ·)) out.values_ascending
    (intersectionValues_ascending hc) fun v ↦ ?_
  rw [mem_intersectionValues, Words.mem_values]
  constructor
  · intro hv
    have hlt : v < lowDomainSize := Words.lt_of_mem_values (Words.mem_values.2 hv)
    rw [h v hlt, Bool.and_eq_true, decide_eq_true_iff] at hv
    exact hv.symm
  · rintro ⟨hrun, hbit⟩
    rw [h v (hc.values_lt v hrun), hbit, decide_eq_true hrun]
    rfl

theorem finishBitset_counted {result : ContainerHandle} {out : Words wordCount} {cardinality : Nat}
    {vs : List Nat} (hvalues : out.values = vs) (hcard : cardinality = vs.length) :
    (finishBitset result out cardinality).Counted vs := by
  rw [finishBitset]
  split
  · rename_i hzero
    obtain rfl := List.eq_nil_of_length_eq_zero (hcard.symm.trans hzero)
    exact ⟨rfl, rfl, rfl⟩
  · exact ⟨hvalues, hcard, rfl⟩

/-! ## One run -/

theorem run_inside (hlast : r.last < lowDomainSize) : r.last / 64 < wordCount := by
  rw [lowDomainSize] at hlast
  rw [wordCount]
  omega

/-- What a run has in common with a bitset. -/
theorem values_filter_run (bits : Words wordCount) (r : Run) :
    r.values.filter bits.contains = bits.values.filter fun v ↦ decide
      (r.first ≤ v ∧ v ≤ r.last) := by
  refine List.Pairwise.eq_of_mem_iff (r := (· < ·)) (r.values_ascending.filter _)
    (bits.values_ascending.filter _) fun v ↦ ?_
  rw [List.mem_filter, List.mem_filter, Run.mem_values, Words.mem_values, decide_eq_true_iff]
  exact and_comm

theorem countRange_run (bits : Words wordCount) (hle : r.first ≤ r.last) :
    bits.countRange r.first r.last = (r.values.filter bits.contains).length := by
  rw [Words.countRange_eq _ hle, values_filter_run]

theorem intersectionValues_append (done : List Run) (r : Run) :
    intersectionValues bits (done ++ [r]) = intersectionValues bits done ++ r.values.filter
      bits.contains := by
  rw [intersectionValues, runValues_append, List.filter_append, runValues_cons, runValues_nil,
    List.append_nil]
  rfl

theorem copyWords_eq (src out : Words wordCount) (a count cardinality : Nat) :
    copyWords src out a count cardinality =
      (fillWords src.word out a count,
        cardinality + ((List.range' a count).map fun i ↦ popcount (src.word i)).sum) := by
  induction count generalizing a out cardinality with
  | zero => rfl
  | succ count ih =>
    have hcopy : copyWords src out a (count + 1) cardinality =
        copyWords src (out.setWord a (src.word a)) (a + 1) count
          (cardinality + popcount (src.word a)) := by
      rw [copyWords, List.range'_succ]
      rfl
    rw [hcopy, ih, fillWords, fillWords, List.range'_succ, List.foldl_cons, List.map_cons,
      List.sum_cons, Nat.add_assoc]

/-! ## The fill for many runs -/

/-- The first word and the last one of a run are set, and those between are copied. -/
theorem word_spread (src out : Words wordCount) (x y : Word) {f l : Nat} (hfl : f < l)
    (hl : l < wordCount) (j : Nat) :
    ((fillWords src.word (out.setWord f x) (f + 1) (l - (f + 1))).setWord l y).word j =
      if j = l then y else if f < j ∧ j < l then src.word j else if j = f then x
      else out.word j := by
  rw [Words.word_setWord _ _ hl]
  split
  · rfl
  · rename_i hne
    rw [word_fillWords _ _ (by omega), Words.word_setWord _ _ (hfl.trans hl)]
    exact if_congr (by omega) rfl rfl

/-- A run adds the bits under it, and their number, where no word behind its first one has any. -/
theorem fillManyRun_spec (bits : Words wordCount) {out : Words wordCount} (cardinality : Nat)
    (hle : r.first ≤ r.last) (hlast : r.last < lowDomainSize)
    (hempty : ∀ j, r.first / 64 < j → out.word j = 0#64) :
    (fillManyRun bits (out, cardinality) r).2 = cardinality + bits.countRange r.first r.last ∧
      ∀ j, (fillManyRun bits (out, cardinality) r).1.word j =
        if r.first / 64 ≤ j ∧ j ≤ r.last / 64 then
          out.word j ||| bits.word j &&& Words.rangeMask r.first r.last j
        else out.word j := by
  have hl := run_inside hlast
  have hfirst : r.first % 64 < 64 := Nat.mod_lt _ (by decide)
  have hmod : r.last % 64 < 64 := Nat.mod_lt _ (by decide)
  rw [fillManyRun, Words.countRange]
  simp only [zero_sub_shiftLeft hfirst, two_shiftLeft_sub hmod]
  by_cases heq : r.first / 64 = r.last / 64
  · rw [if_pos heq, if_pos heq]
    refine ⟨rfl, fun j ↦ ?_⟩
    rw [Words.word_setWord _ _ (heq ▸ hl)]
    by_cases hj : j = r.first / 64
    · rw [if_pos hj, if_pos (by omega), hj, Words.and_rangeMask_only heq]
    · rw [if_neg hj, if_neg (by omega)]
  · have hlt : r.first / 64 < r.last / 64 := Nat.lt_of_le_of_ne (Nat.div_le_div_right hle) heq
    rw [if_neg heq, if_neg heq, copyWords_eq]
    constructor
    · simp only [Nat.add_assoc]
    · intro j
      simp only
      rw [word_spread _ _ _ _ hlt hl]
      by_cases hjl : j = r.last / 64
      · rw [if_pos hjl, if_pos (by omega), hjl, Words.and_rangeMask_last hlt, hempty _ hlt,
          BitVec.zero_or]
      · rw [if_neg hjl]
        by_cases hin : r.first / 64 < j ∧ j < r.last / 64
        · rw [if_pos hin, if_pos (by omega), Words.and_rangeMask_of_inside hin.1 hin.2,
            hempty _ hin.1, BitVec.zero_or]
        · rw [if_neg hin]
          by_cases hjf : j = r.first / 64
          · rw [if_pos hjf, if_pos (by omega), hjf, Words.and_rangeMask_first hlt]
          · rw [if_neg hjf, if_neg (by omega)]

/-- The runs `done` are filled in, over words that were zero. -/
structure FilledIn (bits : Words wordCount) (done : List Run) (state : Words wordCount × Nat) :
    Prop where
  contains : ∀ v < lowDomainSize,
    state.1.contains v = (bits.contains v && decide (v ∈ runValues done))
  cardinality : state.2 = (intersectionValues bits done).length

theorem FilledIn.empty_behind {state : Words wordCount × Nat} (h : FilledIn bits done state)
    (hc : Canonical (done ++ r :: rs))
    (j : Nat) (hj : r.first / 64 < j) : state.1.word j = 0#64 := by
  apply BitVec.eq_of_getLsbD_eq
  intro i hi
  rw [BitVec.getLsbD_zero, ← Words.contains_add _ hi]
  by_cases hlt : 64 * j + i < lowDomainSize
  · have hnot : 64 * j + i ∉ runValues done := by
      intro hv
      have hbelow := hc.around.1 _ hv
      omega
    rw [h.contains _ hlt, decide_eq_false hnot, Bool.and_false]
  · exact Words.contains_of_le _ (not_lt.1 hlt)

theorem FilledIn.step {state : Words wordCount × Nat} (h : FilledIn bits done state)
    (hc : Canonical (done ++ r :: rs)) :
    FilledIn bits (done ++ [r]) (fillManyRun bits state r) := by
  obtain ⟨-, hle, hlast, -⟩ := hc.around
  obtain ⟨hcount, hword⟩ := fillManyRun_spec bits state.2 hle hlast (h.empty_behind hc)
  constructor
  · intro v hv
    have hi : v % 64 < 64 := Nat.mod_lt _ (by decide)
    have hsum : 64 * (v / 64) + v % 64 = v := Nat.div_add_mod v 64
    have hold := h.contains v hv
    rw [Words.contains] at hold
    have hmem : (v ∈ runValues (done ++ [r])) ↔ v ∈ runValues done ∨
        (r.first ≤ v ∧ v ≤ r.last) := by
      rw [runValues_append, List.mem_append, runValues_cons, runValues_nil, List.append_nil,
        Run.mem_values]
    rw [Words.contains, hword]
    split
    · rename_i hin
      rw [BitVec.getLsbD_or, hold, BitVec.getLsbD_and, Words.getLsbD_rangeMask hi hin.1 hin.2, hsum,
        decide_eq_decide.2 hmem, Bool.decide_or, Bool.and_or_distrib_left]
      rfl
    · rename_i hout
      have hnot : ¬ (r.first ≤ v ∧ v ≤ r.last) :=
        fun hr ↦ hout ⟨Nat.div_le_div_right hr.1, Nat.div_le_div_right hr.2⟩
      rw [hold, decide_eq_decide.2 hmem, Bool.decide_or, decide_eq_false hnot, Bool.or_false]
  · rw [intersectionValues_append, List.length_append, ← countRange_run bits hle, ← h.cardinality]
    exact hcount

theorem fillManyRuns_spec (bits : Words wordCount) {out : Words wordCount} (hc : Canonical rs)
    (hzero : ∀ j < wordCount, out.word j = 0#64) :
    FilledIn bits rs (fillRunBitsetWordsOfManyRuns rs bits out) := by
  have hstart : FilledIn bits [] (out, 0) := by
    refine ⟨fun v hv ↦ ?_, rfl⟩
    have hword : v / 64 < wordCount := by
      rw [lowDomainSize] at hv
      rw [wordCount]
      omega
    rw [Words.contains, hzero _ hword, BitVec.getLsbD_zero, runValues_nil,
      decide_eq_false List.not_mem_nil, Bool.and_false]
  exact hc.foldl (fun hc h ↦ h.step hc) hstart

/-! ## The fill for few runs -/

/-- The fill over words that hold anything follows the one over zeros: they agree up to
the first word not yet written. -/
structure FollowsFill (few : GapFill) (many : Words wordCount × Nat) : Prop where
  written : ∀ j < few.nextUnwritten, few.out.word j = many.1.word j
  unwritten : ∀ j, few.nextUnwritten ≤ j → many.1.word j = 0#64
  within : few.nextUnwritten ≤ wordCount
  cardinality : few.cardinality = many.2

/-- The words in front of a run, and its own: those behind are not read. -/
theorem fillFewRun_spec (bits : Words wordCount) {few : GapFill} {many : Words wordCount × Nat}
    (h : FollowsFill few many) (hle : r.first ≤ r.last)
    (hlast : r.last < lowDomainSize) (hnext : few.nextUnwritten ≤ r.first / 64 + 1) :
    FollowsFill (fillFewRun bits few r) (fillManyRun bits many r) := by
  have hl := run_inside hlast
  have hdiv : r.first / 64 ≤ r.last / 64 := Nat.div_le_div_right hle
  have hfirst : r.first % 64 < 64 := Nat.mod_lt _ (by decide)
  have hmod : r.last % 64 < 64 := Nat.mod_lt _ (by decide)
  have hempty : ∀ j, r.first / 64 < j → many.1.word j = 0#64 := fun j hj ↦ h.unwritten j (by omega)
  -- the gap is zeroed
  set out := if few.nextUnwritten < r.first / 64 then
      fillWords (fun _ ↦ 0#64) few.out few.nextUnwritten (r.first / 64 - few.nextUnwritten)
        else few.out with hout
  have hgap : ∀ j < r.first / 64, out.word j = many.1.word j := by
    intro j hj
    rw [hout]
    split
    · rw [word_fillWords _ _ (by omega)]
      split
      · rename_i hin
        exact (h.unwritten j hin.1).symm
      · exact h.written j (by omega)
    · exact h.written j (by omega)
  -- what is put into the first word, merged or not
  have hmerge : ∀ masked : Word,
      (if r.first / 64 < few.nextUnwritten then out.word (r.first / 64) ||| masked else masked) =
        many.1.word (r.first / 64) ||| masked := by
    intro masked
    split
    · rename_i hshared
      rw [hout, if_neg (by omega), h.written _ hshared]
    · rename_i hbeyond
      rw [h.unwritten _ (not_lt.1 hbeyond), BitVec.zero_or]
  have hzero := (fillManyRun_spec bits many.2 hle hlast hempty).2
  rw [fillFewRun]
  simp only [← hout, hmerge, lastMaskOf_eq hmod]
  rw [fillManyRun] at hzero ⊢
  simp only [zero_sub_shiftLeft hfirst, two_shiftLeft_sub hmod] at hzero ⊢
  by_cases heq : r.first / 64 = r.last / 64
  · rw [if_pos heq] at hzero ⊢
    rw [if_pos heq]
    refine ⟨fun j hj ↦ ?_, fun j hj ↦ ?_, hl, by rw [h.cardinality]⟩
    · change j < r.last / 64 + 1 at hj
      rw [Words.word_setWord _ _ (heq ▸ hl), Words.word_setWord _ _ (heq ▸ hl)]
      split
      · rfl
      · exact hgap j (by omega)
    · change r.last / 64 + 1 ≤ j at hj
      rw [hzero, if_neg (by omega)]
      exact hempty j (by omega)
  · have hlt : r.first / 64 < r.last / 64 := Nat.lt_of_le_of_ne hdiv heq
    rw [if_neg heq] at hzero ⊢
    rw [if_neg heq]
    simp only [copyWords_eq] at hzero ⊢
    refine ⟨fun j hj ↦ ?_, fun j hj ↦ ?_, hl, by rw [h.cardinality]⟩
    · change j < r.last / 64 + 1 at hj
      rw [word_spread _ _ _ _ hlt hl, word_spread _ _ _ _ hlt hl]
      split
      · rfl
      · split
        · rfl
        · split
          · rfl
          · exact hgap j (by omega)
    · change r.last / 64 + 1 ≤ j at hj
      rw [hzero, if_neg (by omega)]
      exact hempty j (by omega)

theorem nextUnwritten_fillFewRun (few : GapFill) (r : Run) :
    (fillFewRun bits few r).nextUnwritten = r.last / 64 + 1 := by
  rw [fillFewRun]
  dsimp only
  split <;> rfl

/-- Both fills, over the runs so far, and where the last of these ends. -/
theorem fillFewRuns_spec (bits : Words wordCount) {few : GapFill} {many : Words wordCount × Nat}
    (hc : Canonical rs) (h : FollowsFill few many) (hnext : few.nextUnwritten = 0) :
    FollowsFill (rs.foldl (fillFewRun bits) few) (rs.foldl (fillManyRun bits) many) := by
  have hrun : ∀ (rs : List Run) (few : GapFill) (many : Words wordCount × Nat), Canonical rs →
      FollowsFill few many →
      (∀ r ∈ rs, few.nextUnwritten ≤ r.first / 64 + 1) →
      FollowsFill (rs.foldl (fillFewRun bits) few) (rs.foldl (fillManyRun bits) many) := by
    intro rs
    induction rs with
    | nil =>
      intro few many _ h _
      exact h
    | cons r rs ih =>
      intro few many hc h hnext
      refine ih _ _ hc.tail (fillFewRun_spec bits h hc.head_le (hc.bounded r List.mem_cons_self)
        (hnext r List.mem_cons_self)) ?_
      intro s hs
      have hapart := hc.head_apart hs
      rw [nextUnwritten_fillFewRun]
      omega
  refine hrun rs few many hc h fun r _ ↦ ?_
  rw [hnext]
  exact Nat.zero_le _

/-! ## The gaps -/

/-- `clear_bits` clears the range and nothing else. -/
theorem clearBits_eq (out : Words wordCount) (first last : Nat) :
    clearBits out first last = out.applyRange (fun w m ↦ w &&& ~~~m) first last := by
  have hzero : ∀ (out : Words wordCount) (a count : Nat),
      fillWords (fun _ ↦ 0#64) out a count = out.applyWhole (fun w m ↦ w &&& ~~~m) a count := by
    intro out a count
    have hclear : ∀ w : Word, w &&& ~~~BitVec.allOnes 64 = 0#64 := by
      intro w
      rw [BitVec.not_allOnes, BitVec.and_zero]
    simp only [fillWords, Words.applyWhole, hclear]
  rw [clearBits, Words.applyRange]
  simp only [lastMaskOf_eq (Nat.mod_lt last (by decide)), hzero]

theorem contains_clearBits (out : Words wordCount) {first last : Nat} (hle : first ≤ last)
    (hlast : last < lowDomainSize) (v : Nat) : (clearBits out first last).contains v =
      (out.contains v && !decide (first ≤ v ∧ v ≤ last)) := by
  rw [clearBits_eq]
  refine Words.contains_applyRange out (g := fun b m ↦ b && !m) ?_ ?_ hle hlast v
  · intro w m i hi
    rw [BitVec.getLsbD_and, BitVec.getLsbD_not, decide_eq_true hi, Bool.true_and]
  · intro b
    rw [Bool.not_false, Bool.and_true]

/-- With its gaps cleared, a block has the bits under the runs. -/
theorem contains_clearGaps (out : Words wordCount) {next : Nat} (hc : Canonical rs)
    (hnext : ∀ r ∈ rs, next ≤ r.first) (v : Nat) (hv : v < lowDomainSize) :
    (clearGaps clearBits next rs out).contains v =
      (out.contains v && decide (v < next ∨ v ∈ runValues rs)) := by
  induction rs generalizing next out with
  | nil =>
    rw [clearGaps, runValues_nil]
    split
    · rename_i hopen
      rw [contains_clearBits _ (Nat.le_sub_one_of_lt hopen)
        (Nat.sub_lt (by decide) Nat.one_pos), ← decide_not]
      congr 1
      refine decide_eq_decide.2 ?_
      rw [or_iff_left List.not_mem_nil]
      omega
    · rename_i hclosed
      rw [decide_eq_true (.inl (hv.trans_le (not_lt.1 hclosed))), Bool.and_true]
  | cons r rs ih =>
    have hle := hc.head_le
    have hfirst := hnext r List.mem_cons_self
    have hlast := hc.bounded r List.mem_cons_self
    have hbehind : ∀ s ∈ rs, r.last + 1 ≤ s.first := fun s hs ↦ (hc.head_apart hs).le
    have hmem : v ∈ runValues rs → r.last < v := by
      intro hm
      obtain ⟨s, hs, hin, -⟩ := mem_runValues.1 hm
      have hapart := hbehind s hs
      omega
    have hclear : (if next < r.first then clearBits out next (r.first - 1) else out).contains v =
        (out.contains v && !decide (next ≤ v ∧ v < r.first)) := by
      split
      · rename_i hgap
        rw [contains_clearBits _ (Nat.le_sub_one_of_lt hgap) (by omega)]
        congr 2
        exact decide_eq_decide.2 (by omega)
      · rw [decide_eq_false (by omega), Bool.not_false, Bool.and_true]
    rw [clearGaps, ih _ hc.tail hbehind, hclear, Bool.and_assoc, ← decide_not, ← Bool.decide_and,
      runValues_cons]
    congr 1
    refine decide_eq_decide.2 ?_
    rw [List.mem_append, Run.mem_values]
    by_cases hm : v ∈ runValues rs
    · have hbelow := hmem hm
      simp only [hm, or_true, and_true, iff_true]
      omega
    · simp only [hm, or_false]
      omega

/-- A copy of the bitset, cleared between the runs, holds the intersection. -/
theorem clearGaps_values (bits : Words wordCount) (hc : Canonical rs) (out : Words wordCount) :
    (clearGaps clearBits 0 rs (fillWords bits.word out 0 wordCount)).values = intersectionValues
      bits rs := by
  apply values_eq_intersection hc
  intro v hv
  have hcopy : (fillWords bits.word out 0 wordCount).contains v = bits.contains v := by
    have hword : v / 64 < wordCount := by
      rw [lowDomainSize] at hv
      rw [wordCount]
      omega
    rw [Words.contains, word_fillWords _ _ (Nat.zero_add _).le,
      if_pos ⟨Nat.zero_le _, by rwa [Nat.zero_add]⟩]
    rfl
  rw [contains_clearGaps _ hc (fun r _ ↦ Nat.zero_le _) v hv, hcopy]
  congr 1
  exact decide_eq_decide.2 (or_iff_right (Nat.not_lt_zero v))

theorem removeWords_eq (out : Words wordCount) {a count : Nat} (hle : a + count ≤ wordCount)
    (removed : Nat) :
    removeWords out a count removed =
      (fillWords (fun _ ↦ 0#64) out a count,
        removed + ((List.range' a count).map fun i ↦ popcount (out.word i)).sum) := by
  induction count generalizing a out removed with
  | zero => rfl
  | succ count ih =>
    have hremove : removeWords out a (count + 1) removed =
        removeWords (out.setWord a 0#64) (a + 1) count (removed + popcount (out.word a)) := by
      rw [removeWords, List.range'_succ]
      rfl
    have hrest : (List.range' (a + 1) count).map (fun i ↦ popcount ((out.setWord a 0#64).word i)) =
        (List.range' (a + 1) count).map fun i ↦ popcount (out.word i) := by
      apply List.map_congr_left
      intro i hi
      rw [List.mem_range'_1] at hi
      rw [Words.word_setWord _ _ (by omega), if_neg (by omega)]
    rw [hremove, ih _ (by omega), hrest, fillWords, fillWords, List.range'_succ, List.foldl_cons,
      List.map_cons,
      List.sum_cons, Nat.add_assoc]

/-- The subtracting form clears the same bits, and counts those there were. -/
theorem removeBits_eq (out : Words wordCount) (removed : Nat) {first last : Nat}
    (hle : first ≤ last) (hlast : last < lowDomainSize) :
    removeBits (out, removed) first last =
      (clearBits out first last, removed + out.countRange first last) := by
  have hmod : last % 64 < 64 := Nat.mod_lt _ (by decide)
  have hl : last / 64 < wordCount := by
    rw [lowDomainSize] at hlast
    rw [wordCount]
    omega
  rw [removeBits, clearBits, Words.countRange]
  simp only [lastMaskOf_eq hmod]
  by_cases heq : first / 64 = last / 64
  · rw [if_pos heq, if_pos heq, if_pos heq, BitVec.and_assoc]
  · have hlt : first / 64 < last / 64 := Nat.lt_of_le_of_ne (Nat.div_le_div_right hle) heq
    rw [if_neg heq, if_neg heq, if_neg heq, removeWords_eq _ (by omega)]
    have hsame : ∀ j, first / 64 < j →
        (out.setWord (first / 64) (out.word (first / 64) &&& ~~~maskFrom (first % 64))).word j =
        out.word j := by
      intro j hj
      rw [Words.word_setWord _ _ (hlt.trans hl), if_neg hj.ne']
    have hinside : (List.range' (first / 64 + 1) (last / 64 - (first / 64 + 1))).map (fun i ↦
        popcount ((out.setWord (first / 64)
          (out.word (first / 64) &&& ~~~maskFrom (first % 64))).word i)) =
        (List.range' (first / 64 + 1) (last / 64 - (first / 64 + 1))).map fun i ↦
          popcount (out.word i) := by
      apply List.map_congr_left
      intro i hi
      rw [List.mem_range'_1] at hi
      rw [hsame i (by omega)]
    simp only [hinside]
    rw [word_fillWords _ _ (by omega), if_neg (by omega), hsame _ hlt]
    simp only [Nat.add_assoc]

/-- What a clear takes away and what it leaves make up what there was. -/
theorem count_clearBits (out : Words wordCount) {first last : Nat} (hle : first ≤ last)
    (hlast : last < lowDomainSize) :
    out.countRange first last + (clearBits out first last).count = out.count := by
  have hleft : (clearBits out first last).values = out.values.filter fun v ↦ !decide
      (first ≤ v ∧ v ≤ last) := by
    refine List.Pairwise.eq_of_mem_iff (r := (· < ·)) (Words.values_ascending _)
      (out.values_ascending.filter _) fun v ↦ ?_
    rw [Words.mem_values, contains_clearBits out hle hlast, List.mem_filter, Words.mem_values,
      Bool.and_eq_true]
  rw [Words.countRange_eq _ hle, Words.count_eq_length_values (clearBits out first last), hleft,
    Words.count_eq_length_values out]
  exact (List.length_eq_length_filter_add _).symm

/-- The subtracting form goes through the gaps as the other does, and loses no bit from sight. -/
theorem clearGaps_removeBits (out : Words wordCount) (removed : Nat) {next : Nat}
    (hc : Canonical rs) (hnext : ∀ r ∈ rs, next ≤ r.first) :
    (clearGaps removeBits next rs (out, removed)).1 = clearGaps clearBits next rs out ∧
      (clearGaps removeBits next rs (out, removed)).2 + (clearGaps clearBits next rs out).count =
        removed + out.count := by
  induction rs generalizing next out removed with
  | nil =>
    rw [clearGaps, clearGaps]
    split
    · rename_i hopen
      have hle : next ≤ lowDomainSize - 1 := Nat.le_sub_one_of_lt hopen
      have hlast : lowDomainSize - 1 < lowDomainSize := Nat.sub_lt (by decide) Nat.one_pos
      rw [removeBits_eq _ _ hle hlast]
      refine ⟨rfl, ?_⟩
      change removed + _ + _ = _
      rw [Nat.add_assoc, count_clearBits _ hle hlast]
    · exact ⟨rfl, rfl⟩
  | cons r rs ih =>
    have hlast := hc.bounded r List.mem_cons_self
    have hle := hc.head_le
    have hbehind : ∀ s ∈ rs, r.last + 1 ≤ s.first := fun s hs ↦ (hc.head_apart hs).le
    rw [clearGaps, clearGaps]
    split
    · rename_i hgap
      have hfits : next ≤ r.first - 1 := Nat.le_sub_one_of_lt hgap
      have hbound : r.first - 1 < lowDomainSize := by omega
      rw [removeBits_eq _ _ hfits hbound]
      obtain ⟨hsame, hcount⟩ :=
        ih (clearBits out next (r.first - 1)) (removed + out.countRange next (r.first - 1))
        hc.tail hbehind
      refine ⟨hsame, ?_⟩
      rw [hcount, Nat.add_assoc, count_clearBits _ hfits hbound]
    · exact ih out removed hc.tail hbehind

/-! ## The values of one run after the other -/

theorem map_lowCast {vs : List Nat} (h : ∀ v ∈ vs, v < lowDomainSize) : vs.map lowCast = vs := by
  conv_rhs => rw [← List.map_id vs]
  apply List.map_congr_left
  intro v hv
  exact Nat.mod_eq_of_lt (h v hv)

theorem emitRun_eq (hle : r.first ≤ r.last) (state : Nat × List Nat) :
    emitRun bits r state =
      storeWords lowCast (fun j ↦ bits.word j &&& Words.rangeMask r.first r.last j)
      (Words.touched r.first r.last) state := by
  have hmod : r.last % 64 < 64 := Nat.mod_lt _ (by decide)
  rw [emitRun]
  simp only [lastMaskOf_eq hmod]
  by_cases heq : r.first / 64 = r.last / 64
  · rw [if_pos heq, Words.touched, ← heq, Nat.add_sub_cancel_left, List.range'_one, storeWords_cons,
      Words.and_rangeMask_only heq]
    exact (Option.bind_fun_some _).symm
  · have hlt : r.first / 64 < r.last / 64 := Nat.lt_of_le_of_ne (Nat.div_le_div_right hle) heq
    have hinside : ∀ i ∈ List.range' (r.first / 64 + 1) (r.last / 64 - (r.first / 64 + 1)),
        bits.word i = bits.word i &&& Words.rangeMask r.first r.last i := by
      intro i hi
      rw [List.mem_range'_1] at hi
      exact (Words.and_rangeMask_of_inside (by omega) (by omega) _).symm
    rw [if_neg heq, Words.touched_eq hlt, List.cons_append, storeWords_cons,
      Words.and_rangeMask_first hlt]
    congr 1
    funext state
    rw [storeWords_congr hinside, storeWords_append]
    congr 1
    funext state
    rw [storeWords_cons, Words.and_rangeMask_last hlt]
    exact (Option.bind_fun_some _).symm

theorem emitRun_spec (bits : Words wordCount) {size : Nat} {vs out : List Nat}
    (hle : r.first ≤ r.last) (h : Filled size vs out)
    (hfit : vs.length + (r.values.filter bits.contains).length ≤ size) :
    ∃ out', emitRun bits r (vs.length, out) =
      some (vs.length + (r.values.filter bits.contains).length, out') ∧
      Filled size (vs ++ r.values.filter bits.contains) out' := by
  have hvalues := values_filter_run bits r
  have hlow : ∀ v ∈ r.values.filter bits.contains, v < lowDomainSize := by
    intro v hv
    exact Words.lt_of_mem_values (Words.mem_values.2 (List.mem_filter.1 hv).2)
  rw [Words.values_filter_range bits hle] at hvalues
  rw [hvalues] at hfit hlow ⊢
  obtain ⟨out', hrun, hfilled⟩ := storeWords_spec h hfit
  rw [map_lowCast hlow] at hfilled
  exact ⟨out', by rw [emitRun_eq hle]; exact hrun, hfilled⟩

/-- All of the runs are stored where their values fit. -/
theorem emitRuns_spec (bits : Words wordCount) {size : Nat} {vs out : List Nat} (hc : Canonical rs)
    (h : Filled size vs out) (hfit : vs.length + (intersectionValues bits rs).length ≤ size) :
    ∃ out', rs.foldlM (fun state r ↦ emitRun bits r state) (vs.length, out) =
        some (vs.length + (intersectionValues bits rs).length, out') ∧
      Filled size (vs ++ intersectionValues bits rs) out' := by
  induction rs generalizing vs out with
  | nil =>
    refine ⟨out, rfl, ?_⟩
    rwa [intersectionValues, runValues_nil, List.filter_nil, List.append_nil]
  | cons r rs ih =>
    have hsplit : intersectionValues bits (r :: rs) = r.values.filter bits.contains ++
        intersectionValues bits rs := by
      rw [intersectionValues, runValues_cons, List.filter_append]
      rfl
    rw [hsplit, List.length_append] at hfit ⊢
    obtain ⟨mid, hrun, hmid⟩ := emitRun_spec bits hc.head_le h (by omega)
    have hlen : (vs ++ r.values.filter bits.contains).length =
        vs.length + (r.values.filter bits.contains).length :=
      List.length_append
    obtain ⟨out', hrest, hfilled⟩ := ih hc.tail hmid (by rw [hlen]; omega)
    rw [hlen] at hrest
    refine ⟨out', ?_, ?_⟩
    · rw [List.foldlM_cons, hrun, Option.bind_eq_bind, Option.bind_some, hrest, Nat.add_assoc]
    · rwa [← List.append_assoc]

/-! ## The kernels agree -/

theorem intersectRunBitset_counted (hc : Canonical rs) (bits : Words wordCount)
    (reuse : ContainerHandle) (uninitialized : Words wordCount) :
    (intersectRunBitset rs bits reuse uninitialized).Counted (intersectionValues bits rs) := by
  have hzero : ∀ (out : Words wordCount) j, j < wordCount →
      (fillWords (fun _ ↦ 0#64) out 0 wordCount).word j = 0#64 := by
    intro out j hj
    have hin : 0 ≤ j ∧ j < 0 + wordCount := ⟨Nat.zero_le _, hj.trans_eq (Nat.zero_add _).symm⟩
    rw [word_fillWords _ _ (Nat.zero_add _).le, if_pos hin]
  rw [intersectRunBitset]
  generalize resultBitset reuse uninitialized = start
  obtain ⟨result, out⟩ := start
  have hfilled := fillManyRuns_spec bits hc (hzero out)
  dsimp only
  split
  · exact finishBitset_counted (values_eq_intersection hc hfilled.contains) hfilled.cardinality
  · have hstart : FollowsFill { out := out } (fillWords (fun _ ↦ 0#64) out 0 wordCount, 0) := by
      refine ⟨nofun, fun j _ ↦ ?_, Nat.zero_le _, rfl⟩
      dsimp only
      by_cases hj : j < wordCount
      · exact hzero out j hj
      · have hbeyond : wordCount ≤ j := not_lt.1 hj
        exact Words.word_of_le _ hbeyond
    have hfollows := fillFewRuns_spec bits hc hstart rfl
    rw [fillRunBitsetWordsOfManyRuns] at hfilled
    generalize rs.foldl (fillFewRun bits) { out := out } = few at hfollows ⊢
    generalize rs.foldl (fillManyRun bits) (fillWords (fun _ ↦ 0#64) out 0 wordCount, 0) =
      many at hfollows hfilled
    have hwords : fillWords (fun _ ↦ 0#64) few.out few.nextUnwritten
        (wordCount - few.nextUnwritten) = many.1 := by
      refine Words.ext_word fun j hj ↦ ?_
      have hwithin := hfollows.within
      rw [word_fillWords _ _ (by omega)]
      split
      · rename_i hin
        exact (hfollows.unwritten j hin.1).symm
      · exact hfollows.written j (by omega)
    rw [hwords, hfollows.cardinality]
    exact finishBitset_counted (values_eq_intersection hc hfilled.contains) hfilled.cardinality

theorem intersectRunBitsetCloneAndRecount_counted (hc : Canonical rs) (bits : Words wordCount)
    (reuse : ContainerHandle) (uninitialized : Words wordCount) :
    (intersectRunBitsetCloneAndRecount rs bits reuse uninitialized).Counted
      (intersectionValues bits rs) := by
  rw [intersectRunBitsetCloneAndRecount]
  have hvalues := clearGaps_values bits hc (resultBitset reuse uninitialized).2
  exact finishBitset_counted hvalues
    ((Words.count_eq_length_values _).trans (congrArg List.length hvalues))

theorem intersectRunBitsetDenseRuns_counted (hc : Canonical rs) (bits : Words wordCount)
    {bitsetCardinality : Nat} (hcard : bitsetCardinality = bits.count) (reuse : ContainerHandle)
    (uninitialized : Words wordCount) :
    (intersectRunBitsetDenseRuns rs bits bitsetCardinality reuse uninitialized).Counted
      (intersectionValues bits rs) := by
  rw [intersectRunBitsetDenseRuns]
  generalize resultBitset reuse uninitialized = start
  obtain ⟨result, out⟩ := start
  have hcopy : fillWords bits.word out 0 wordCount = bits := by
    refine Words.ext_word fun j hj ↦ ?_
    have hin : 0 ≤ j ∧ j < 0 + wordCount := ⟨Nat.zero_le _, hj.trans_eq (Nat.zero_add _).symm⟩
    rw [word_fillWords _ _ (Nat.zero_add _).le, if_pos hin]
  have hvalues := clearGaps_values bits hc out
  obtain ⟨hsame, hcount⟩ := clearGaps_removeBits (fillWords bits.word out 0 wordCount) 0 hc
    fun r _ ↦ Nat.zero_le r.first
  dsimp only
  rw [hsame]
  refine finishBitset_counted hvalues ?_
  rw [hcopy] at hcount hvalues ⊢
  rw [← hvalues, ← Words.count_eq_length_values]
  omega

theorem intersectRunBitsetSparse_counted (hc : Canonical rs) (bits : Words wordCount)
    {slots : List Nat} (hfit : (intersectionValues bits rs).length ≤ slots.length) :
    ∃ h, intersectRunBitsetSparse rs bits slots = some h ∧
      h.Counted (intersectionValues bits rs) := by
  obtain ⟨out, hrun, hfilled⟩ :=
    emitRuns_spec bits hc (Filled.nil slots) (by rwa [List.length_nil, Nat.zero_add])
  rw [List.length_nil, Nat.zero_add] at hrun
  refine ⟨_, by rw [intersectRunBitsetSparse, hrun]; rfl, ?_⟩
  split
  · rename_i hzero
    obtain hnil := List.eq_nil_of_length_eq_zero hzero
    rw [hnil]
    exact ⟨rfl, rfl, rfl⟩
  · have htake : out.take (intersectionValues bits rs).length = intersectionValues bits rs :=
      (List.prefix_iff_eq_take.1 hfilled.front).symm
    rw [htake]
    exact ⟨rfl, rfl, rfl⟩

/-- For every list of canonical runs and every bitset with its exact number of bits,
whatever a reused payload, a fresh one or the slots of an array hold, the four
kernels produce the intersection under its exact number; the fourth within as many
slots as it is given, where these are enough. -/
theorem intersectRunBitset_spec (hc : Canonical rs) (bits : Words wordCount)
    (bitsetCardinality : Nat) (hcard : bitsetCardinality = bits.count) (reuse : ContainerHandle)
    (uninitialized : Words wordCount)
    (slots : List Nat) (hfit : (intersectionValues bits rs).length ≤ slots.length) :
    (intersectRunBitset rs bits reuse uninitialized).Counted (intersectionValues bits rs) ∧
      (intersectRunBitsetCloneAndRecount rs bits reuse uninitialized).Counted
        (intersectionValues bits rs) ∧
      (intersectRunBitsetDenseRuns rs bits bitsetCardinality reuse uninitialized).Counted
        (intersectionValues bits rs) ∧
      ∃ h, intersectRunBitsetSparse rs bits slots = some h ∧
        h.Counted (intersectionValues bits rs) :=
  ⟨intersectRunBitset_counted hc bits reuse uninitialized,
    intersectRunBitsetCloneAndRecount_counted hc bits reuse uninitialized,
    intersectRunBitsetDenseRuns_counted hc bits hcard reuse uninitialized,
    intersectRunBitsetSparse_counted hc bits hfit⟩

/-- Two runs that share a word, with bits under both and one between them, into words that are
dirty. -/
theorem intersectRunBitset_spec_sharedWord :
    let runs : List Run := [⟨1, 3⟩, ⟨9, 70⟩]
    let bits := ((((Words.zeroed wordCount).insert 2).insert 5).insert 10).insert 65
    let reuse := ContainerHandle.makeBitsetFrom (.ofFn wordCount fun _ ↦ 5#64) 2048
    let dirty : Words wordCount := .ofFn wordCount fun _ ↦ BitVec.allOnes 64
    (intersectRunBitset runs bits reuse dirty).Counted [2, 10, 65] ∧
      (intersectRunBitsetCloneAndRecount runs bits reuse dirty).Counted [2, 10, 65] ∧
      (intersectRunBitsetDenseRuns runs bits bits.count (.makeArrayFromSorted [7]) dirty).Counted
        [2, 10, 65] ∧
      ∃ h, intersectRunBitsetSparse runs bits [7, 7, 7, 7] = some h ∧ h.Counted [2, 10, 65] := by
  intro runs bits reuse dirty
  have hc : Canonical runs := ⟨by decide, by decide, by decide⟩
  have hbits : ∀ v, bits.contains v =
      (decide (v = 65) || (decide (v = 10) || (decide (v = 5) || (decide (v = 2) || false)))) :=
        fun v ↦ by
    simp only [bits]
    rw [Words.contains_insert _ (by decide), Words.contains_insert _ (by decide),
      Words.contains_insert _ (by decide), Words.contains_insert _ (by decide),
        Words.contains_zeroed]
  have hvalues : intersectionValues bits runs = [2, 10, 65] := by
    rw [intersectionValues, List.filter_congr fun v _ ↦ hbits v]
    decide
  have hfit : (intersectionValues bits runs).length ≤ [7, 7, 7, 7].length := by
    rw [hvalues]
    decide
  have hreused := intersectRunBitset_spec hc bits bits.count rfl reuse dirty [7, 7, 7, 7] hfit
  have hfresh := intersectRunBitset_spec hc bits bits.count rfl 
    (.makeArrayFromSorted [7]) dirty [7, 7, 7, 7] hfit
  rw [hvalues] at hreused hfresh
  exact ⟨hreused.1, hreused.2.1, hfresh.2.2.1, hreused.2.2.2⟩

end Intersection

end Roaring
