import Mathlib
import Roaring.Lib.Search
import Roaring.Lib.Blocks
import Roaring.Lib.Slots
import Roaring.Container.Handle

/-!
# An array filtered by runs

The values of an array that lie in a run list, or that do not, are found by one walk
over the array: each value is tested against the run that reaches it, and the run
cursor moves only when a value has passed it.  The walk has several forms, which
cross the values before a run and those inside it one by one, in a loop, or by a
gallop and one copy; the lengths of both lists choose one.  It writes another buffer
or the array's own, where what is written trails what is read.
-/

namespace Roaring

open Lib

/-! ## Searches -/

/-- `gallop_forward` over the keys of an array: past those that are not above the
limit, or below it. -/
def gallopKeys (greater : Bool) (keys : List Nat) (lo hi limit : Nat) : Nat :=
  gallopForward (fun i ↦ if greater then decide (keys.getD i 0 ≤ limit)
    else decide (keys.getD i 0 < limit)) lo hi

def linearRunSteps : Nat := 16

def runsPerStride : Nat := 8

def stridesBeforeDoubling : Nat := 2

section RunSearch

variable (runs : List Run)

/-- `runs[ i ].end`. -/
def runEnd (i : Nat) : Nat := ((runs[i]?).map Run.last).getD 0

/-- One run after the other, up to `size`, to the first that reaches the value. -/
def stepRuns (value index size : Nat) : Nat :=
  if index < size ∧ runEnd runs index < value then stepRuns value (index + 1) size else index
termination_by size - index

/-- The strides that double, to the last of them and its length. -/
def doubleStrides (value size index step : Nat) : Nat × Nat :=
  if 0 < step ∧ step < size - index ∧ runEnd runs (index + step - 1) < value then
    doubleStrides value size (index + step) (step * 2)
  else (index, step)
termination_by size - index

/-- `stride_to_run_reaching`, with `strides` blocks of runs still to be tried. -/
def strideToRunReaching (value size : Nat) : (strides index : Nat) → Nat
  | 0, index =>
      let stride := doubleStrides runs value size index (2 * runsPerStride)
      partitionPointIn (fun i ↦ decide (runEnd runs i < value)) stride.1
        (min (stride.1 + stride.2) size)
  | strides + 1, index =>
      if size - index < runsPerStride then stepRuns runs value index size
      else if value ≤ runEnd runs (index + runsPerStride - 1) then
        -- the last run of the block ends these steps
        stepRuns runs value index (index + runsPerStride)
      else strideToRunReaching value size strides (index + runsPerStride)

/-- `run_reaching`, after `steps` linear steps. -/
def runReaching (value size index steps : Nat) : Nat :=
  if runEnd runs index < value then
    if size ≤ index + 1 then size
    else if linearRunSteps ≤ steps + 1 then
      strideToRunReaching runs value size stridesBeforeDoubling (index + 1)
    else runReaching value size (index + 1) (steps + 1)
  else index
termination_by size - index

end RunSearch

/-! ## The filter into another buffer -/

/-- `stretch_form`. -/
inductive StretchForm where
  | perValue
  | stepped
  | whole
deriving DecidableEq, Repr

/-- Where the walk stands: the next value of the array, the run it was last tested
against, and what has been written. -/
structure ArrayWalk where
  ap : Nat := 0
  runIndex : Nat := 0
  written : Nat := 0
  out : List Nat

section Filter

variable (keys : List Nat)

/-- `out[ written++ ] = keys[ ap++ ]`. -/
def ArrayWalk.take (s : ArrayWalk) : Option ArrayWalk := do
  let out ← store s.out s.written (keys.getD s.ap 0)
  return { s with ap := s.ap + 1, written := s.written + 1, out := out }

/-- `do out[ written++ ] = keys[ ap++ ]; while ( ap < card && keys[ ap ] < limit )`. -/
def ArrayWalk.takeWhileBelow (limit : Nat) : (fuel : Nat) → ArrayWalk → Option ArrayWalk
  | 0, _ => none
  | fuel + 1, s => do
      let s ← s.take keys
      if s.ap < keys.length ∧ keys.getD s.ap 0 < limit then ArrayWalk.takeWhileBelow limit fuel s
      else return s

def coveredStepsBeforeGallop : Nat := 8

/-- The covered values that the stepped form passes, the first few one by one. -/
def passCovered (limit : Nat) : (steps ap : Nat) → Nat
  | 0, ap => gallopKeys true keys ap keys.length limit
  | steps + 1, ap =>
      if ap + 1 < keys.length ∧ keys.getD (ap + 1) 0 ≤ limit then
        if steps = 0 then gallopKeys true keys (ap + 1) keys.length limit
        else passCovered limit steps (ap + 1)
      else ap + 1

variable (keep : Bool) (form : StretchForm)

/-- A step of the walk at a value the run covers. -/
def ArrayWalk.covered (run : Run) (s : ArrayWalk) : Option ArrayWalk :=
  if keep then
    if form = .whole then s.takeWhileBelow keys (run.last + 1) keys.length else s.take keys
  else if form = .stepped then
    some { s with ap := passCovered keys run.last coveredStepsBeforeGallop s.ap }
  else some { s with ap := gallopKeys true keys s.ap keys.length run.last }

/-- A step of the walk at a value in front of the run. -/
def ArrayWalk.before (run : Run) (s : ArrayWalk) : Option ArrayWalk :=
  if keep then some { s with ap := gallopKeys false keys s.ap keys.length run.first }
  else match form with
    | .whole => do
      let stretchEnd := gallopKeys false keys s.ap keys.length run.first
      let (written, out) ← storeAll ((keys.drop s.ap).take (stretchEnd - s.ap)) s.written s.out
      return { s with ap := stretchEnd, written := written, out := out }
    | .stepped => s.takeWhileBelow keys run.first keys.length
    | .perValue => s.take keys

/-- `finish`: past the last run every value misses. -/
def ArrayWalk.finish (s : ArrayWalk) : Option (List Nat) :=
  if keep then some (s.out.take s.written)
  else do
    let (written, out) ← storeAll (keys.drop s.ap) s.written s.out
    return out.take written

/-- The loop; every turn passes a value, so that as many turns as there are values are enough. -/
def ArrayWalk.run (runs : List Run) : (fuel : Nat) → ArrayWalk → Option (List Nat)
  | fuel, s =>
    if s.ap < keys.length then
      match fuel with
      | 0 => none
      | fuel + 1 =>
        let value := keys.getD s.ap 0
        let s := { s with runIndex := runReaching runs value runs.length s.runIndex 0 }
        match runs[s.runIndex]? with
        | none => s.finish keys keep
        | some run =>
            (if run.first ≤ value then s.covered keys keep form run
              else s.before keys keep form run).bind (ArrayWalk.run runs fuel)
    else some (s.out.take s.written)

/-- `filter_array_run_into_with`, into a buffer of as many slots as the array has values. -/
def filterArrayRunIntoWith (runs : List Run) (out : List Nat) : Option (List Nat) :=
  if runs.length = 0 then ArrayWalk.finish keys keep { out := out }
  else ArrayWalk.run keys keep form runs keys.length { out := out }

def valuesPerRunForStretchCopy : Nat := 16

def valuesPerRunForDifferenceSteps : Nat := 8

def valuesPerRunForDifferenceWhole : Nat := 32

/-- The form that the lengths choose. -/
def stretchFormFor (values runs : Nat) : StretchForm :=
  if keep then if runs * valuesPerRunForStretchCopy ≤ values then .whole else .perValue
  else if runs * valuesPerRunForDifferenceWhole ≤ values then .whole
  else if runs * valuesPerRunForDifferenceSteps ≤ values then .stepped
  else .perValue

/-- `filter_array_run_into`. -/
def filterArrayRunInto (runs : List Run) (out : List Nat) : Option (List Nat) :=
  filterArrayRunIntoWith keys keep (stretchFormFor keep keys.length runs.length) runs out

end Filter

/-! ## The filter in the array's own payload -/

/-- Where the walk stands in the array it writes. -/
structure OwnWalk where
  base : List Nat
  inp : Nat := 0
  out : Nat := 0
  runIndex : Nat := 0

section OwnFilter

/-- `base[ out++ ] = base[ in++ ]`. -/
def OwnWalk.take (s : OwnWalk) : Option OwnWalk := do
  let base ← store s.base s.out (s.base.getD s.inp 0)
  return { s with base := base, inp := s.inp + 1, out := s.out + 1 }

def OwnWalk.takeWhileBelow (limit : Nat) : (fuel : Nat) → OwnWalk → Option OwnWalk
  | 0, _ => none
  | fuel + 1, s => do
      let s ← s.take
      if s.inp < s.base.length ∧ s.base.getD s.inp 0 < limit then
        OwnWalk.takeWhileBelow limit fuel s
      else return s

variable (keep longStretches : Bool)

/-- A step of the walk at a value the filter keeps or drops. -/
def OwnWalk.step (run : Run) (s : OwnWalk) : Option OwnWalk :=
  let inRun := decide (run.first ≤ s.base.getD s.inp 0)
  if inRun = keep then
    if longStretches then s.takeWhileBelow (if keep then run.last + 1 else run.first) s.base.length
    else s.take
  else if inRun then some { s with inp := gallopKeys true s.base s.inp s.base.length run.last }
  else some { s with inp := gallopKeys false s.base s.inp s.base.length run.first }

/-- `finish`: past the last run every value misses. -/
def OwnWalk.finish (s : OwnWalk) : List Nat :=
  if keep then s.base.take s.out
  else (memmove s.base s.out s.inp (s.base.length - s.inp)).take (s.out + (s.base.length - s.inp))

def OwnWalk.run (runs : List Run) : (fuel : Nat) → OwnWalk → Option (List Nat)
  | fuel, s =>
    if s.inp < s.base.length then
      match fuel with
      | 0 => none
      | fuel + 1 =>
        let s :=
          { s with runIndex := runReaching runs (s.base.getD s.inp 0) runs.length s.runIndex 0 }
        match runs[s.runIndex]? with
        | none => some (s.finish keep)
        | some run => (s.step keep longStretches run).bind (OwnWalk.run runs fuel)
    else some (s.finish keep)

/-- `filter_array_run_inplace_with`. -/
def filterArrayRunInplaceWith (runs : List Run) (arr : List Nat) : Option (List Nat) :=
  if runs.length = 0 then some (OwnWalk.finish keep { base := arr })
  else OwnWalk.run keep longStretches runs arr.length { base := arr }

/-- `filter_array_run_inplace`. -/
def filterArrayRunInplace (runs : List Run) (arr : List Nat) : Option (List Nat) :=
  filterArrayRunInplaceWith keep (decide (runs.length * valuesPerRunForStretchCopy ≤ arr.length))
    runs arr

end OwnFilter

/-! ## Where the searches end -/

section RunSearch

variable {runs : List Run} {value size index k : Nat}

theorem stepRuns_eq (hbelow : ∀ i, index ≤ i → i < k → runEnd runs i < value)
    (hnot : k < size → ¬ runEnd runs k < value)
    (hle : index ≤ k) (hk : k ≤ size) : stepRuns runs value index size = k := by
  induction index using stepRuns.induct runs value size with
  | case1 index h ih =>
    rw [stepRuns, if_pos h]
    apply ih
    · intro i hi
      exact hbelow i (Nat.le_of_succ_le hi)
    · by_contra hlt
      obtain rfl : index = k := by omega
      exact hnot h.1 h.2
  | case2 index h =>
    rw [stepRuns, if_neg h]
    by_contra hne
    have hlt : index < k := by omega
    exact h ⟨hlt.trans_le hk, hbelow index le_rfl hlt⟩

/-- The strides stay in front of the run looked for, and the last of them reaches it. -/
theorem doubleStrides_spec (hbelow : ∀ i, index ≤ i → i < k → runEnd runs i < value)
    (hnot : ∀ i, k ≤ i → i < size → ¬ runEnd runs i < value) (hle : index ≤ k) (hk : k ≤ size)
    {step : Nat} (hstep : 0 < step) :
    index ≤ (doubleStrides runs value size index step).1 ∧
      (doubleStrides runs value size index step).1 ≤ k ∧
      k ≤ min ((doubleStrides runs value size index step).1 +
        (doubleStrides runs value size index step).2) size := by
  induction index, step using doubleStrides.induct runs value size with
  | case1 index step h ih =>
    rw [doubleStrides, if_pos h]
    have hin : index + step ≤ k := by
      by_contra hlt
      exact hnot (index + step - 1) (by omega) (by omega) h.2.2
    obtain ⟨hmono, hrest⟩ := ih (fun i hi ↦ hbelow i ((Nat.le_add_right _ _).trans hi)) hin
      (by omega)
    exact ⟨(Nat.le_add_right _ _).trans hmono, hrest⟩
  | case2 index step h =>
    rw [doubleStrides, if_neg h]
    refine ⟨le_rfl, hle, le_min ?_ hk⟩
    by_contra hgt
    exact h ⟨hstep, by omega, hbelow _ (by omega) (by omega)⟩

theorem strideToRunReaching_eq {strides : Nat}
    (hbelow : ∀ i, index ≤ i → i < k → runEnd runs i < value)
    (hnot : ∀ i, k ≤ i → i < size → ¬ runEnd runs i < value) (hle : index ≤ k) (hk : k ≤ size) :
    strideToRunReaching runs value size strides index = k := by
  induction strides generalizing index with
  | zero =>
    have hstride : 0 < 2 * runsPerStride := by decide
    obtain ⟨hmono, hbefore, hwithin⟩ := doubleStrides_spec hbelow hnot hle hk hstride
    apply partitionPointIn_eq hbefore hwithin
    · intro i hi hik
      exact decide_eq_true (hbelow i (hmono.trans hi) hik)
    · intro i hi hik
      exact decide_eq_false (hnot i hi (hik.trans_le (min_le_right _ _)))
  | succ strides ih =>
    have hpos : 0 < runsPerStride := by decide
    rw [strideToRunReaching]
    split
    · exact stepRuns_eq hbelow (hnot k le_rfl) hle hk
    · rename_i hroom
      split
      · rename_i hreach
        have hin : k ≤ index + runsPerStride - 1 := by
          by_contra hgt
          exact absurd (hbelow _ (by omega) (not_le.1 hgt)) (not_lt.2 hreach)
        exact stepRuns_eq hbelow (fun hlt ↦ hnot k le_rfl (by omega)) hle (by omega)
      · rename_i hpass
        have hbeyond : index + runsPerStride ≤ k := by
          by_contra hlt
          exact hnot (index + runsPerStride - 1) (by omega) (by omega) (not_le.1 hpass)
        exact ih (fun i hi ↦ hbelow i ((Nat.le_add_right _ _).trans hi)) hbeyond

/-- The linear steps, the strides and the strides that double all end at the same run. -/
theorem runReaching_eq {steps : Nat} (hbelow : ∀ i, index ≤ i → i < k → runEnd runs i < value)
    (hnot : ∀ i, k ≤ i → i < size → ¬ runEnd runs i < value) (hle : index ≤ k) (hk : k ≤ size)
    (hindex : index < size) :
    runReaching runs value size index steps = k := by
  induction index, steps using runReaching.induct runs value size with
  | case1 index steps hpass hend =>
    rw [runReaching, if_pos hpass, if_pos hend]
    by_contra hne
    exact hnot index (by omega) hindex hpass
  | case2 index steps hpass hmore hmany =>
    rw [runReaching, if_pos hpass, if_neg hmore, if_pos hmany]
    apply strideToRunReaching_eq (fun i hi ↦ hbelow i (Nat.le_of_succ_le hi)) hnot _ hk
    by_contra hlt
    exact hnot index (by omega) hindex hpass
  | case3 index steps hpass hmore hfew ih =>
    rw [runReaching, if_pos hpass, if_neg hmore, if_neg hfew]
    apply ih (fun i hi ↦ hbelow i (Nat.le_of_succ_le hi)) _ (not_le.1 hmore)
    by_contra hlt
    exact hnot index (by omega) hindex hpass
  | case4 index steps hreach =>
    rw [runReaching, if_neg hreach]
    by_contra hne
    exact hreach (hbelow index le_rfl (Nat.lt_of_le_of_ne hle hne))

end RunSearch

theorem runEnd_eq {runs : List Run} {i : Nat} (hi : i < runs.length) :
    runEnd runs i = runs[i].last := by
  rw [runEnd, List.getElem?_eq_getElem hi]
  rfl

/-- The first position from `lo` on that is not below, or `hi`. -/
structure FirstFrom (p : Nat → Prop) (lo hi k : Nat) : Prop where
  le : lo ≤ k
  fits : k ≤ hi
  below : ∀ i, lo ≤ i → i < k → p i
  reached : k < hi → ¬ p k

section FirstFrom

variable {p : Nat → Prop} {lo hi k : Nat}

/-- Where nothing behind a position that is not below is, no position from the first on is. -/
theorem FirstFrom.beyond (h : FirstFrom p lo hi k)
    (hanti : ∀ i j, lo ≤ i → i ≤ j → j < hi → p j → p i) {i : Nat}
    (hki : k ≤ i) (hin : i < hi) : ¬ p i :=
  fun hb ↦ h.reached (hki.trans_lt hin) (hanti k i h.le hki hin hb)

theorem exists_firstFrom (hle : lo ≤ hi) (hanti : ∀ i j, lo ≤ i → i ≤ j → j < hi → p j → p i) :
    ∃ k, FirstFrom p lo hi k := by
  have hshift : ∀ i j, i ≤ j → j < hi - lo → p (lo + j) → p (lo + i) :=
    fun i j hij hj ↦ hanti _ _ (Nat.le_add_right _ _) (Nat.add_le_add_left hij lo) (by omega)
  obtain ⟨d, hd⟩ := PartitionPoint.exists_of_antitone hshift
  have hfits := hd.le
  refine ⟨lo + d, Nat.le_add_right _ _, by
    omega, fun i hlo hid ↦ ?_, fun hlt ↦ hd.not_of_le d le_rfl (by omega)⟩
  have hbelow := hd.of_lt (i - lo) (by omega)
  rwa [Nat.add_sub_cancel' hlo] at hbelow

end FirstFrom

/-- The runs that end below a value are the front ones. -/
theorem runEnd_mono {runs : List Run} (hc : Canonical runs) {i j : Nat} (hij : i ≤ j)
    (hj : j < runs.length) :
    runEnd runs i ≤ runEnd runs j := by
  have hi := hij.trans_lt hj
  rw [runEnd_eq hi, runEnd_eq hj]
  rcases Nat.lt_or_eq_of_le hij with hlt | rfl
  · have hapart := List.pairwise_iff_getElem.1 hc.apart i j hi hj hlt
    have hforward := hc.forward _ (List.getElem_mem hj)
    omega
  · exact le_rfl

/-- The search of the runs returns the first that is not below the value. -/
theorem runReaching_first {runs : List Run} {index : Nat} (hc : Canonical runs)
    (hindex : index < runs.length) (value : Nat) :
    FirstFrom (fun i ↦ runEnd runs i < value) index runs.length
      (runReaching runs value runs.length index 0) := by
  have hanti : ∀ i j, index ≤ i → i ≤ j → j < runs.length → runEnd runs j < value →
      runEnd runs i < value :=
    fun i j _ hij hj hlt ↦ (runEnd_mono hc hij hj).trans_lt hlt
  obtain ⟨k, hk⟩ := exists_firstFrom hindex.le hanti
  rwa [runReaching_eq hk.below (fun i hi hin ↦ hk.beyond hanti hi hin) hk.le hk.fits hindex]

/-- The gallop returns the first position whose key is not below, or above, the limit. -/
theorem gallopKeys_first {keys : List Nat} {lo hi : Nat} (hasc : keys.Pairwise (· < ·))
    (greater : Bool) (hlo : lo ≤ hi) (hhi : hi ≤ keys.length) (limit : Nat) :
    FirstFrom (fun i ↦ if greater then keys.getD i 0 ≤ limit else keys.getD i 0 < limit) lo hi
      (gallopKeys greater keys lo hi limit) := by
  have hanti : ∀ i j, lo ≤ i → i ≤ j → j < hi →
      (if greater then keys.getD j 0 ≤ limit else keys.getD j 0 < limit) →
      if greater then keys.getD i 0 ≤ limit else keys.getD i 0 < limit := by
    intro i j _ hij hj
    have hmono := getD_mono hasc hij (hj.trans_le hhi)
    cases greater with
    | true => exact hmono.trans
    | false => exact hmono.trans_lt
  obtain ⟨k, hk⟩ := exists_firstFrom hlo hanti
  have hdecide :
      ∀ i, (if greater then decide (keys.getD i 0 ≤ limit) else decide (keys.getD i 0 < limit)) =
      decide (if greater then keys.getD i 0 ≤ limit else keys.getD i 0 < limit) := by
    intro i
    cases greater <;> rfl
  rw [gallopKeys, funext hdecide, gallopForward_eq hk.le hk.fits]
  · exact hk
  · exact fun i hi hik ↦ decide_eq_true (hk.below i hi hik)
  · exact fun i hi hin ↦ decide_eq_false (hk.beyond hanti hi hin)

/-- From `lo` on, the values of a list that are below `b` end at position `k`. -/
structure Cut (l : List Nat) (lo k b : Nat) : Prop where
  le : lo ≤ k
  fits : k ≤ l.length
  below : ∀ i, lo ≤ i → i < k → l.getD i 0 < b
  above : ∀ i, k ≤ i → i < l.length → b ≤ l.getD i 0

section Cut

variable {l l' : List Nat} {lo k b limit : Nat}

/-- An ascending list is cut where its front below the bound ends. -/
theorem Cut.of_ascending (hasc : l.Pairwise (· ≤ ·)) (hlo : lo ≤ l.length) (b : Nat) :
    Cut l lo (lo + ((l.drop lo).takeWhile fun v ↦ decide (v < b)).length) b := by
  have hpoint := partitionPoint_takeWhile (hasc.sublist (List.drop_sublist lo l)) b
  have hget : ∀ i, lo ≤ i → (l.drop lo).getD (i - lo) 0 = l.getD i 0 := by
    intro i hi
    rw [List.getD_eq_getElem?_getD, List.getElem?_drop,
      Nat.add_sub_cancel' hi, ← List.getD_eq_getElem?_getD]
  generalize ((l.drop lo).takeWhile fun v ↦ decide (v < b)).length = d at hpoint ⊢
  have hd := hpoint.le
  rw [List.length_drop] at hd
  refine ⟨Nat.le_add_right _ _, by omega, fun i hi hik ↦ ?_, fun i hi hik ↦ ?_⟩
  · rw [← hget i hi]
    exact hpoint.of_lt _ (by omega)
  · rw [← hget i (by omega), ← not_lt]
    exact hpoint.not_of_le _ (by omega) (by rw [List.length_drop]; omega)

/-- A list is cut by what stands from `lo` on. -/
theorem Cut.congr (h : Cut l lo k b) (hlen : l'.length = l.length)
    (hsame : ∀ i, lo ≤ i → l'.getD i 0 = l.getD i 0) :
    Cut l' lo k b := by
  refine ⟨h.le, hlen ▸ h.fits, fun i hi hik ↦ ?_, fun i hi hik ↦ ?_⟩
  · rw [hsame i hi]
    exact h.below i hi hik
  · rw [hsame i (h.le.trans hi)]
    exact h.above i hi (hlen ▸ hik)

theorem Cut.next (h : Cut l lo k b) (hlt : lo < k) : Cut l (lo + 1) k b :=
  ⟨hlt, h.fits, fun i hi ↦ h.below i (Nat.le_of_succ_le hi), h.above⟩

theorem Cut.lt (h : Cut l lo k b) (hlo : lo < l.length) (hb : l.getD lo 0 < b) : lo < k := by
  by_contra hge
  exact absurd (h.above lo (not_lt.1 hge) hlo) (not_le.2 hb)

theorem Cut.gallop_true (h : Cut l lo k (limit + 1)) : gallopKeys true l lo l.length limit = k := by
  refine gallopForward_eq h.le h.fits (fun i hi hik ↦ ?_) (fun i hi hik ↦ ?_)
  · exact decide_eq_true (Nat.le_of_lt_succ (h.below i hi hik))
  · exact decide_eq_false (not_le.2 (h.above i hi hik))

theorem Cut.gallop_false (h : Cut l lo k limit) : gallopKeys false l lo l.length limit = k := by
  refine gallopForward_eq h.le h.fits (fun i hi hik ↦ ?_) (fun i hi hik ↦ ?_)
  · exact decide_eq_true (h.below i hi hik)
  · exact decide_eq_false (not_lt.2 (h.above i hi hik))

/-- The covered values, stepped over or galloped past. -/
theorem Cut.passCovered {steps : Nat} (h : Cut l lo k (limit + 1)) (hlt : lo < k) :
    passCovered l limit steps lo = k := by
  induction steps generalizing lo with
  | zero => exact h.gallop_true
  | succ steps ih =>
    rw [Roaring.passCovered]
    split
    · rename_i hmore
      have hin : lo + 1 < k := (h.next hlt).lt hmore.1 (Nat.lt_succ_of_le hmore.2)
      split
      · exact (h.next hlt).gallop_true
      · exact ih (h.next hlt) hin
    · rename_i hend
      by_contra hne
      have hin : lo + 1 < k := by omega
      exact hend ⟨hin.trans_le h.fits, Nat.le_of_lt_succ (h.below _ (Nat.le_succ lo) hin)⟩

end Cut

/-- A store leaves the other slots. -/
theorem getD_store {out out' : List Nat} {i j v : Nat} (h : store out i v = some out')
    (hne : i ≠ j) :
    out'.getD j 0 = out.getD j 0 := by
  rw [store] at h
  split at h
  · obtain rfl := Option.some.inj h
    rw [List.getD_eq_getElem?_getD, List.getElem?_set_ne hne, List.getD_eq_getElem?_getD]
  · cases h

/-! ## What a stretch adds -/

/-- The values the filter keeps: those inside the runs, or those outside. -/
def keeps (runs : List Run) (keep : Bool) (v : Nat) : Bool := decide (v ∈ runValues runs) == keep

/-- The values of the array from `a` up to `b`. -/
def stretch (keys : List Nat) (a b : Nat) : List Nat := (keys.drop a).take (b - a)

section Stretch

variable {keys : List Nat} {p : Nat → Bool} {a b : Nat}

theorem length_stretch (hb : b ≤ keys.length) : (stretch keys a b).length = b - a := by
  rw [stretch, List.length_take, List.length_drop]
  omega

theorem take_append_stretch (hle : a ≤ b) : keys.take a ++ stretch keys a b = keys.take b := by
  rw [stretch, ← List.take_add, Nat.add_sub_cancel' hle]

theorem stretch_cons (hlt : a < b) (hb : b ≤ keys.length) :
    stretch keys a b = keys.getD a 0 :: stretch keys (a + 1) b := by
  have ha := hlt.trans_le hb
  have hlen : b - a = (b - (a + 1)) + 1 := by omega
  rw [stretch, stretch, List.drop_eq_getElem_cons ha, hlen, List.take_succ_cons,
    List.getD_eq_getElem _ _ ha]

theorem mem_stretch {v : Nat} (hb : b ≤ keys.length) (hv : v ∈ stretch keys a b) : ∃ i, a ≤ i ∧
    i < b ∧ keys.getD i 0 = v := by
  obtain ⟨i, hi, rfl⟩ := List.mem_iff_getElem.1 hv
  rw [length_stretch hb] at hi
  refine ⟨a + i, Nat.le_add_right _ _, by omega, ?_⟩
  rw [List.getD_eq_getElem _ _ (by omega)]
  simp only [stretch, List.getElem_take, List.getElem_drop]

/-- A stretch that is kept. -/
theorem filter_take_kept (hle : a ≤ b) (hb : b ≤ keys.length)
    (h : ∀ i, a ≤ i → i < b → p (keys.getD i 0) = true) :
    (keys.take b).filter p = (keys.take a).filter p ++ stretch keys a b := by
  rw [← take_append_stretch hle, List.filter_append]
  congr 1
  rw [List.filter_eq_self]
  intro v hv
  obtain ⟨i, hai, hib, rfl⟩ := mem_stretch hb hv
  exact h i hai hib

/-- A stretch that is dropped. -/
theorem filter_take_dropped (hle : a ≤ b) (hb : b ≤ keys.length)
    (h : ∀ i, a ≤ i → i < b → p (keys.getD i 0) = false) :
    (keys.take b).filter p = (keys.take a).filter p := by
  rw [← take_append_stretch hle, List.filter_append]
  have hnil : (stretch keys a b).filter p = [] := by
    rw [List.filter_eq_nil_iff]
    intro v hv
    obtain ⟨i, hai, hib, rfl⟩ := mem_stretch hb hv
    rw [h i hai hib]
    exact Bool.false_ne_true
  rw [hnil, List.append_nil]

theorem length_filter_take_le (keys : List Nat) (p : Nat → Bool) (a : Nat) :
    ((keys.take a).filter p).length ≤ a :=
  (List.length_filter_le _ _).trans (List.length_take_le _ _)

end Stretch

/-! ## The run that a value is tested against -/

section Tested

variable {keys : List Nat} {runs : List Run} {keep : Bool} {ap runIndex : Nat}

/-- The runs in front of the run cursor end below every value that is left. -/
def Passed (keys : List Nat) (runs : List Run) (ap runIndex : Nat) : Prop :=
  ∀ i, i < runIndex → i < runs.length → ∀ j, ap ≤ j → j < keys.length →
    runEnd runs i < keys.getD j 0

theorem Passed.later {ap' : Nat} (h : Passed keys runs ap runIndex) (hle : ap ≤ ap') :
    Passed keys runs ap' runIndex :=
  fun i hi hin j hj hjn ↦ h i hi hin j (hle.trans hj) hjn

/-- The search finds the run that the value has to be tested against. -/
theorem runReaching_passed (hasc : keys.Pairwise (· < ·)) (hc : Canonical runs)
    (hrun : runIndex < runs.length) (h : Passed keys runs ap runIndex) :
    let r := runReaching runs (keys.getD ap 0) runs.length runIndex 0
    r ≤ runs.length ∧ Passed keys runs ap r ∧
      (r < runs.length → keys.getD ap 0 ≤ runEnd runs r) := by
  have hfirst := runReaching_first hc hrun (keys.getD ap 0)
  refine ⟨hfirst.fits, fun i hi hin j hj hjn ↦ ?_, fun hr ↦ not_lt.1 (hfirst.reached hr)⟩
  rcases Nat.lt_or_ge i runIndex with hold | hnew
  · exact h i hold hin j hj hjn
  · exact (hfirst.below i hnew hi).trans_le (getD_mono hasc hj hjn)

/-- A value in front of the run it is tested against is in none. -/
theorem not_mem_of_before (hc : Canonical runs) (h : Passed keys runs ap runIndex) {j : Nat}
    (hj : ap ≤ j) (hjn : j < keys.length)
    (hbefore : ∀ r, runs[runIndex]? = some r → keys.getD j 0 < r.first) :
    keys.getD j 0 ∉ runValues runs := by
  intro hv
  obtain ⟨r, hr, hfirst, hlast⟩ := mem_runValues.1 hv
  obtain ⟨i, hi, rfl⟩ := List.mem_iff_getElem.1 hr
  rcases Nat.lt_trichotomy i runIndex with hlt | rfl | hgt
  · have hpassed := h i hlt hi j hj hjn
    rw [runEnd_eq hi] at hpassed
    omega
  · have hlow := hbefore _ (List.getElem?_eq_getElem hi)
    omega
  · have hin := hgt.trans hi
    have hapart := List.pairwise_iff_getElem.1 hc.apart runIndex i hin hi hgt
    have hforward := hc.forward _ (List.getElem_mem hin)
    have hlow := hbefore _ (List.getElem?_eq_getElem hin)
    omega

theorem keeps_of_mem {v : Nat} (hv : v ∈ runValues runs) : keeps runs keep v = keep := by
  rw [keeps, decide_eq_true hv]
  cases keep <;> rfl

theorem keeps_of_not_mem {v : Nat} (hv : v ∉ runValues runs) : keeps runs keep v = !keep := by
  rw [keeps, decide_eq_false hv]
  cases keep <;> rfl

/-- The stretch of the array inside the run that the next value lies in. -/
theorem keeps_covered (hasc : keys.Pairwise (· < ·)) {r : Run} {k : Nat}
    (hr : runs[runIndex]? = some r)
    (hfirst : r.first ≤ keys.getD ap 0) (hcut : Cut keys ap k (r.last + 1)) {j : Nat} (hj : ap ≤ j)
    (hjk : j < k) :
    keeps runs keep (keys.getD j 0) = keep := by
  apply keeps_of_mem
  have hmono := getD_mono hasc hj (hjk.trans_le hcut.fits)
  exact mem_runValues.2
    ⟨r, List.mem_of_getElem? hr, hfirst.trans hmono, Nat.le_of_lt_succ (hcut.below j hj hjk)⟩

/-- The stretch of the array in front of that run. -/
theorem keeps_before (hc : Canonical runs) (h : Passed keys runs ap runIndex) {r : Run} {k : Nat}
    (hr : runs[runIndex]? = some r)
    (hcut : Cut keys ap k r.first) {j : Nat} (hj : ap ≤ j) (hjk : j < k) :
    keeps runs keep (keys.getD j 0) = !keep := by
  apply keeps_of_not_mem
  apply not_mem_of_before hc h hj (hjk.trans_le hcut.fits)
  intro r' hr'
  obtain rfl : r = r' := Option.some.inj (hr.symm.trans hr')
  exact hcut.below j hj hjk

end Tested

/-! ## The walk into another buffer -/

/-- The values in front of the walk have been filtered, and the runs behind it are passed. -/
structure ArrayWalk.Walking (keys : List Nat) (runs : List Run) (keep : Bool) (s : ArrayWalk) :
    Prop where
  ap : s.ap ≤ keys.length
  filled : Filled keys.length ((keys.take s.ap).filter (keeps runs keep)) s.out
  written : s.written = ((keys.take s.ap).filter (keeps runs keep)).length
  runIndex : s.runIndex < runs.length
  passed : Passed keys runs s.ap s.runIndex

namespace ArrayWalk

variable {keys : List Nat} {runs : List Run} {keep : Bool} {form : StretchForm} {s : ArrayWalk}
  {k limit : Nat}

theorem take_spec {vs : List Nat} (h : Filled keys.length vs s.out)
    (hwritten : s.written = vs.length) (hroom : vs.length < keys.length) :
    ∃ out', s.take keys =
      some { s with ap := s.ap + 1, written := (vs ++ [keys.getD s.ap 0]).length, out := out' } ∧
      Filled keys.length (vs ++ [keys.getD s.ap 0]) out' := by
  obtain ⟨out', hstore, hfilled⟩ := h.store hroom (keys.getD s.ap 0)
  refine ⟨out', ?_, hfilled⟩
  rw [ArrayWalk.take, hwritten, hstore, List.length_append, List.length_singleton]
  rfl

/-- The loop stores the whole stretch below the limit. -/
theorem takeWhileBelow_spec {vs : List Nat} {fuel : Nat} (h : Filled keys.length vs s.out)
    (hwritten : s.written = vs.length)
    (hcut : Cut keys s.ap k limit) (hlt : s.ap < k) (hroom : vs.length ≤ s.ap)
    (hfuel : k - s.ap ≤ fuel) :
    ∃ out', s.takeWhileBelow keys limit fuel =
        some { s with ap := k, written := (vs ++ stretch keys s.ap k).length, out := out' } ∧
      Filled keys.length (vs ++ stretch keys s.ap k) out' := by
  induction fuel generalizing s vs with
  | zero => omega
  | succ fuel ih =>
    have hfits := hcut.fits
    obtain ⟨mid, htake, hmid⟩ := take_spec h hwritten (by omega)
    have hfirst : vs ++ stretch keys s.ap k = (vs ++ [keys.getD s.ap 0]) ++ stretch keys
        (s.ap + 1) k := by
      rw [stretch_cons hlt hfits, List.append_cons]
    rw [takeWhileBelow, htake, Option.bind_eq_bind, Option.bind_some, hfirst]
    dsimp only
    split
    · rename_i hmore
      have hin := (hcut.next hlt).lt hmore.1 hmore.2
      have hlen : (vs ++ [keys.getD s.ap 0]).length ≤ s.ap + 1 := by
        rw [List.length_append, List.length_singleton]
        omega
      have hrest :=
        ih (s :=
        { s with ap := s.ap + 1, written := (vs ++ [keys.getD s.ap 0]).length, out := mid })
        hmid rfl
        (hcut.next hlt) hin hlen (by dsimp only; omega)
      exact hrest
    · rename_i hend
      obtain rfl : k = s.ap + 1 := by
        by_contra hne
        have hin : s.ap + 1 < k := by omega
        exact hend ⟨hin.trans_le hfits, hcut.below _ (Nat.le_succ _) hin⟩
      have hnil : stretch keys (s.ap + 1) (s.ap + 1) = [] := by
        rw [stretch, Nat.sub_self, List.take_zero]
      rw [hnil, List.append_nil]
      exact ⟨mid, rfl, hmid⟩

/-- The walk behind a stretch that it kept. -/
theorem Walking.kept {out : List Nat} (h : s.Walking keys runs keep) (hlt : s.ap < k)
    (hk : k ≤ keys.length) (hkeeps : ∀ j, s.ap ≤ j → j < k → keeps runs keep (keys.getD j 0) = true)
    (hfilled : Filled keys.length ((keys.take s.ap).filter (keeps runs keep) ++ stretch keys s.ap k)
      out) :
    Walking keys runs keep { s with
      ap := k
      written := ((keys.take s.ap).filter (keeps runs keep) ++ stretch keys s.ap k).length
      out := out } := by
  have hfilter := filter_take_kept (p := keeps runs keep) hlt.le hk hkeeps
  refine ⟨hk, ?_, ?_, h.runIndex, h.passed.later hlt.le⟩
  · rwa [hfilter]
  · rw [hfilter]

/-- The walk behind a stretch that it dropped. -/
theorem Walking.dropped (h : s.Walking keys runs keep) (hlt : s.ap < k) (hk : k ≤ keys.length)
    (hkeeps : ∀ j, s.ap ≤ j → j < k → keeps runs keep (keys.getD j 0) = false) :
    Walking keys runs keep { s with ap := k } := by
  have hfilter := filter_take_dropped (p := keeps runs keep) hlt.le hk hkeeps
  refine ⟨hk, ?_, ?_, h.runIndex, h.passed.later hlt.le⟩
  · rw [hfilter]
    exact h.filled
  · rw [hfilter]
    exact h.written

/-- One value that is kept. -/
theorem Walking.take (h : s.Walking keys runs keep) (hap : s.ap < keys.length)
    (hkeeps : keeps runs keep (keys.getD s.ap 0) = true) :
    ∃ s', s.take keys = some s' ∧ s.ap < s'.ap ∧ s'.Walking keys runs keep := by
  have hle := length_filter_take_le keys (keeps runs keep) s.ap
  obtain ⟨out', htake, hfilled⟩ := take_spec h.filled h.written (by omega)
  have hone : [keys.getD s.ap 0] = stretch keys s.ap (s.ap + 1) := by
    rw [stretch_cons (Nat.lt_succ_self _) hap, stretch, Nat.sub_self, List.take_zero]
  rw [hone] at htake hfilled
  refine ⟨_, htake, Nat.lt_succ_self _, h.kept (Nat.lt_succ_self _) hap ?_ hfilled⟩
  intro j hj hjk
  obtain rfl : j = s.ap := by omega
  exact hkeeps

/-- A stretch that is kept and crossed in a loop. -/
theorem Walking.takeWhileBelow (h : s.Walking keys runs keep) (hcut : Cut keys s.ap k limit)
    (hlt : s.ap < k) (hkeeps : ∀ j, s.ap ≤ j → j < k → keeps runs keep (keys.getD j 0) = true) :
    ∃ s', s.takeWhileBelow keys limit keys.length = some s' ∧ s.ap < s'.ap ∧
      s'.Walking keys runs keep := by
  have hfuel : k - s.ap ≤ keys.length := (Nat.sub_le _ _).trans hcut.fits
  obtain ⟨out', hloop, hfilled⟩ :=
    takeWhileBelow_spec h.filled h.written hcut hlt (length_filter_take_le _ _ _) hfuel
  exact ⟨_, hloop, hlt, h.kept hlt hcut.fits hkeeps hfilled⟩

/-- A value that the run covers, in every form. -/
theorem Walking.covered (h : s.Walking keys runs keep) (hasc : keys.Pairwise (· < ·)) {r : Run}
    (hap : s.ap < keys.length)
    (hr : runs[s.runIndex]? = some r) (hfirst : r.first ≤ keys.getD s.ap 0)
    (hlast : keys.getD s.ap 0 ≤ r.last) :
    ∃ s', s.covered keys keep form r = some s' ∧ s.ap < s'.ap ∧ s'.Walking keys runs keep := by
  have hcut := Cut.of_ascending (hasc.imp Nat.le_of_lt) hap.le (r.last + 1)
  generalize s.ap + ((keys.drop s.ap).takeWhile fun v ↦ decide (v < r.last + 1)).length = k at hcut
  have hlt := hcut.lt hap (Nat.lt_succ_of_le hlast)
  have hkeeps : ∀ j, s.ap ≤ j → j < k → keeps runs keep (keys.getD j 0) = keep :=
    fun j hj hjk ↦ keeps_covered hasc hr hfirst hcut hj hjk
  rw [ArrayWalk.covered]
  cases keep with
  | true =>
    rw [if_pos rfl]
    split
    · exact h.takeWhileBelow hcut hlt hkeeps
    · exact h.take hap (hkeeps _ le_rfl hlt)
  | false =>
    rw [if_neg Bool.false_ne_true, hcut.passCovered hlt, hcut.gallop_true, ite_self]
    exact ⟨_, rfl, hlt, h.dropped hlt hcut.fits hkeeps⟩

/-- A value in front of the run, in every form. -/
theorem Walking.before (h : s.Walking keys runs keep) (hasc : keys.Pairwise (· < ·))
    (hc : Canonical runs) {r : Run} (hap : s.ap < keys.length) (hr : runs[s.runIndex]? = some r)
    (hfirst : keys.getD s.ap 0 < r.first) :
    ∃ s', s.before keys keep form r = some s' ∧ s.ap < s'.ap ∧ s'.Walking keys runs keep := by
  have hcut := Cut.of_ascending (hasc.imp Nat.le_of_lt) hap.le r.first
  generalize s.ap + ((keys.drop s.ap).takeWhile fun v ↦ decide (v < r.first)).length = k at hcut
  have hlt := hcut.lt hap hfirst
  have hkeeps : ∀ j, s.ap ≤ j → j < k → keeps runs keep (keys.getD j 0) = !keep :=
    fun j hj hjk ↦ keeps_before hc h.passed hr hcut hj hjk
  unfold ArrayWalk.before
  cases keep with
  | true =>
    rw [if_pos rfl, hcut.gallop_false]
    exact ⟨_, rfl, hlt, h.dropped hlt hcut.fits hkeeps⟩
  | false =>
    rw [if_neg Bool.false_ne_true]
    cases form with
    | whole =>
      have hfits := hcut.fits
      have hle := length_filter_take_le keys (keeps runs false) s.ap
      have hlen := length_stretch (a := s.ap) hfits
      obtain ⟨out', hstore, hfilled⟩ :=
        storeAll_spec h.filled (show _ + (stretch keys s.ap k).length ≤ _ by omega)
      refine ⟨_, ?_, hlt, h.kept hlt hfits hkeeps hfilled⟩
      simp only [hcut.gallop_false]
      rw [h.written, ← stretch, hstore, List.length_append]
      rfl
    | stepped => exact h.takeWhileBelow hcut hlt hkeeps
    | perValue => exact h.take hap (hkeeps _ le_rfl hlt)

/-- Past the last run, the rest is kept or dropped as a whole. -/
theorem Walking.finish {s : ArrayWalk} (hap : s.ap ≤ keys.length)
    (hfilled : Filled keys.length ((keys.take s.ap).filter (keeps runs keep)) s.out)
    (hwritten : s.written = ((keys.take s.ap).filter (keeps runs keep)).length)
    (hmiss : ∀ j, s.ap ≤ j → j < keys.length → keys.getD j 0 ∉ runValues runs) :
    s.finish keys keep = some (keys.filter (keeps runs keep)) := by
  have hall : keys.take keys.length = keys := List.take_length
  rw [ArrayWalk.finish]
  cases keep with
  | true =>
    have hfilter := filter_take_dropped (p := keeps runs true) hap le_rfl fun j hj hjk ↦
      keeps_of_not_mem (hmiss j hj hjk)
    rw [hall] at hfilter
    rw [if_pos rfl, hwritten, hfilter, (List.prefix_iff_eq_take.1 hfilled.front).symm]
  | false =>
    have hfilter := filter_take_kept (p := keeps runs false) hap le_rfl fun j hj hjk ↦
      keeps_of_not_mem (hmiss j hj hjk)
    have hrest : stretch keys s.ap keys.length = keys.drop s.ap := by
      rw [stretch, List.take_of_length_le (by rw [List.length_drop])]
    rw [hall, hrest] at hfilter
    have hlen : ((keys.take s.ap).filter (keeps runs false)).length + (keys.drop s.ap).length ≤
        keys.length := by
      rw [← List.length_append, ← hfilter]
      exact List.length_filter_le _ _
    obtain ⟨out', hstore, hlast⟩ := storeAll_spec hfilled hlen
    rw [if_neg Bool.false_ne_true, hwritten, hstore, ← List.length_append]
    change some (out'.take _) = _
    rw [(List.prefix_iff_eq_take.1 hlast.front).symm, hfilter]

/-- A walk that has passed every value has filtered them all. -/
theorem Walking.ended (h : s.Walking keys runs keep) (hend : ¬ s.ap < keys.length) :
    s.out.take s.written = keys.filter (keeps runs keep) := by
  have hall : keys.take s.ap = keys := List.take_of_length_le (not_lt.1 hend)
  rw [h.written, (List.prefix_iff_eq_take.1 h.filled.front).symm, hall]

theorem run_spec {fuel : Nat} (hasc : keys.Pairwise (· < ·)) (hc : Canonical runs)
    (h : s.Walking keys runs keep) (hfuel : keys.length - s.ap ≤ fuel) :
    s.run keys keep form runs fuel = some (keys.filter (keeps runs keep)) := by
  induction fuel generalizing s with
  | zero =>
    have hend : ¬ s.ap < keys.length := by omega
    rw [ArrayWalk.run, if_neg hend, h.ended hend]
  | succ fuel ih =>
    rw [ArrayWalk.run]
    split
    · rename_i hap
      obtain ⟨hle, hpassed, hreach⟩ := runReaching_passed hasc hc h.runIndex h.passed
      dsimp only
      generalize runReaching runs (keys.getD s.ap 0) runs.length s.runIndex 0 =
        r at hle hpassed hreach
      cases hr : runs[r]? with
      | none =>
        refine Walking.finish (s := { s with runIndex := r }) h.ap h.filled h.written
          fun j hj hjn ↦ ?_
        exact not_mem_of_before hc hpassed hj hjn fun r' hr' ↦ absurd (hr.symm.trans hr') nofun
      | some run =>
        obtain ⟨hin, hget⟩ := List.getElem?_eq_some_iff.1 hr
        have hwalking : Walking keys runs keep { s with runIndex := r } :=
          ⟨h.ap, h.filled, h.written, hin, hpassed⟩
        have hstep :
            ∃ s', (if run.first ≤ keys.getD s.ap 0 then ArrayWalk.covered keys keep form run
            { s with runIndex := r }
            else ArrayWalk.before keys keep form run { s with runIndex := r }) = some s' ∧
            s.ap < s'.ap ∧ s'.Walking keys runs keep := by
          split
          · rename_i hfirst
            have hlast := hreach hin
            rw [runEnd_eq hin, hget] at hlast
            exact hwalking.covered hasc hap hr hfirst hlast
          · rename_i hfirst
            exact hwalking.before hasc hc hap hr (not_le.1 hfirst)
        obtain ⟨s', hs', hlt, hnext⟩ := hstep
        dsimp only
        rw [hs', Option.bind_some]
        exact ih hnext (by omega)
    · rename_i hend
      rw [h.ended hend]

end ArrayWalk

theorem filterArrayRunIntoWith_eq {keys : List Nat} {runs : List Run} (hasc : keys.Pairwise (· < ·))
    (hc : Canonical runs)
    (keep : Bool) (form : StretchForm) {out : List Nat} (hout : out.length = keys.length) :
    filterArrayRunIntoWith keys keep form runs out = some (keys.filter (keeps runs keep)) := by
  have hfilled : Filled keys.length ((keys.take 0).filter (keeps runs keep)) out := by
    rw [List.take_zero, List.filter_nil, ← hout]
    exact Filled.nil out
  rw [filterArrayRunIntoWith]
  split
  · rename_i hnil
    obtain rfl := List.eq_nil_of_length_eq_zero hnil
    exact ArrayWalk.Walking.finish (s := { out := out }) (Nat.zero_le _) hfilled rfl fun j _ _ ↦
      List.not_mem_nil
  · rename_i hne
    exact ArrayWalk.run_spec hasc hc ⟨Nat.zero_le _, hfilled, rfl, Nat.pos_of_ne_zero hne, nofun⟩
      (Nat.sub_le _ _)

/-! ## The walk in the array's own payload -/

/-- The values in front of the walk have been filtered, those behind it are untouched, and the runs
behind it are passed. -/
structure OwnWalk.Walking (keys : List Nat) (runs : List Run) (keep : Bool) (s : OwnWalk) :
    Prop where
  inp : s.inp ≤ keys.length
  filled : Filled keys.length ((keys.take s.inp).filter (keeps runs keep)) s.base
  out : s.out = ((keys.take s.inp).filter (keeps runs keep)).length
  ahead : ∀ j, s.inp ≤ j → s.base.getD j 0 = keys.getD j 0
  runIndex : s.runIndex < runs.length
  passed : Passed keys runs s.inp s.runIndex

namespace OwnWalk

variable {keys : List Nat} {runs : List Run} {keep longStretches : Bool} {s : OwnWalk}
  {k limit : Nat}

/-- The value is written where one was read before, or in place, so that those ahead stay. -/
theorem take_spec {vs : List Nat} (h : Filled keys.length vs s.base) (hout : s.out = vs.length)
    (htrail : vs.length ≤ s.inp)
    (hinp : s.inp < keys.length) (hahead : ∀ j, s.inp ≤ j → s.base.getD j 0 = keys.getD j 0) :
    ∃ base', s.take =
      some { s with base := base', inp := s.inp + 1, out := (vs ++ [keys.getD s.inp 0]).length } ∧
      Filled keys.length (vs ++ [keys.getD s.inp 0]) base' ∧ ∀ j, s.inp + 1 ≤ j →
        base'.getD j 0 = keys.getD j 0 := by
  obtain ⟨base', hstore, hfilled⟩ := h.store (htrail.trans_lt hinp) (keys.getD s.inp 0)
  refine ⟨base', ?_, hfilled, fun j hj ↦ ?_⟩
  · rw [OwnWalk.take, hout, hahead _ le_rfl, hstore, List.length_append, List.length_singleton]
    rfl
  · have hne : vs.length ≠ j := by omega
    rw [getD_store hstore hne, hahead j (Nat.le_of_succ_le hj)]

/-- The loop moves the whole stretch below the limit. -/
theorem takeWhileBelow_spec {vs : List Nat} {fuel : Nat} (h : Filled keys.length vs s.base)
    (hout : s.out = vs.length)
    (htrail : vs.length ≤ s.inp) (hahead : ∀ j, s.inp ≤ j → s.base.getD j 0 = keys.getD j 0)
    (hcut : Cut keys s.inp k limit) (hlt : s.inp < k) (hfuel : k - s.inp ≤ fuel) :
    ∃ base', s.takeWhileBelow limit fuel =
        some { s with base := base', inp := k, out := (vs ++ stretch keys s.inp k).length } ∧
      Filled keys.length (vs ++ stretch keys s.inp k) base' ∧ ∀ j, k ≤ j →
        base'.getD j 0 = keys.getD j 0 := by
  induction fuel generalizing s vs with
  | zero => omega
  | succ fuel ih =>
    have hfits := hcut.fits
    obtain ⟨mid, htake, hmid, hrest⟩ := take_spec h hout htrail (hlt.trans_le hfits) hahead
    have hfirst : vs ++ stretch keys s.inp k = (vs ++ [keys.getD s.inp 0]) ++ stretch keys
        (s.inp + 1) k := by
      rw [stretch_cons hlt hfits, List.append_cons]
    rw [takeWhileBelow, htake, Option.bind_eq_bind, Option.bind_some, hfirst]
    dsimp only
    rw [hmid.length, hrest _ le_rfl]
    split
    · rename_i hmore
      have hin := (hcut.next hlt).lt hmore.1 hmore.2
      have hlen : (vs ++ [keys.getD s.inp 0]).length ≤ s.inp + 1 := by
        rw [List.length_append, List.length_singleton]
        omega
      exact ih (s :=
        { s with base := mid, inp := s.inp + 1, out := (vs ++ [keys.getD s.inp 0]).length }) hmid
        rfl hlen hrest
        (hcut.next hlt) hin (by dsimp only; omega)
    · rename_i hend
      obtain rfl : k = s.inp + 1 := by
        by_contra hne
        have hin : s.inp + 1 < k := by omega
        exact hend ⟨hin.trans_le hfits, hcut.below _ (Nat.le_succ _) hin⟩
      have hnil : stretch keys (s.inp + 1) (s.inp + 1) = [] := by
        rw [stretch, Nat.sub_self, List.take_zero]
      rw [hnil, List.append_nil]
      exact ⟨mid, rfl, hmid, hrest⟩

/-- The walk behind a stretch that it kept. -/
theorem Walking.kept {base : List Nat} (h : s.Walking keys runs keep) (hlt : s.inp < k)
    (hk : k ≤ keys.length)
    (hkeeps : ∀ j, s.inp ≤ j → j < k → keeps runs keep (keys.getD j 0) = true)
    (hfilled : Filled keys.length
    ((keys.take s.inp).filter (keeps runs keep) ++ stretch keys s.inp k) base)
    (hahead : ∀ j, k ≤ j → base.getD j 0 = keys.getD j 0) :
    Walking keys runs keep { s with
      base := base
      inp := k
      out := ((keys.take s.inp).filter (keeps runs keep) ++ stretch keys s.inp k).length } := by
  have hfilter := filter_take_kept (p := keeps runs keep) hlt.le hk hkeeps
  refine ⟨hk, ?_, ?_, hahead, h.runIndex, h.passed.later hlt.le⟩
  · rwa [hfilter]
  · rw [hfilter]

/-- The walk behind a stretch that it dropped. -/
theorem Walking.dropped (h : s.Walking keys runs keep) (hlt : s.inp < k) (hk : k ≤ keys.length)
    (hkeeps : ∀ j, s.inp ≤ j → j < k → keeps runs keep (keys.getD j 0) = false) :
    Walking keys runs keep { s with inp := k } := by
  have hfilter := filter_take_dropped (p := keeps runs keep) hlt.le hk hkeeps
  refine ⟨hk, ?_, ?_, fun j hj ↦ h.ahead j (hlt.le.trans hj), h.runIndex, h.passed.later hlt.le⟩
  · rw [hfilter]
    exact h.filled
  · rw [hfilter]
    exact h.out

/-- A stretch that is kept, in either form. -/
theorem Walking.keepStretch (h : s.Walking keys runs keep) (hcut : Cut keys s.inp k limit)
    (hlt : s.inp < k) (hkeeps : ∀ j, s.inp ≤ j → j < k → keeps runs keep (keys.getD j 0) = true) :
    ∃ s', (if longStretches then s.takeWhileBelow limit s.base.length else s.take) = some s' ∧
      s.inp < s'.inp ∧
      s'.Walking keys runs keep := by
  have hfits := hcut.fits
  have htrail := length_filter_take_le keys (keeps runs keep) s.inp
  split
  · have hfuel : k - s.inp ≤ s.base.length := by
      rw [h.filled.length]
      omega
    obtain ⟨base', hloop, hfilled, hahead⟩ :=
      takeWhileBelow_spec h.filled h.out htrail h.ahead hcut hlt hfuel
    exact ⟨_, hloop, hlt, h.kept hlt hfits hkeeps hfilled hahead⟩
  · have hinp := hlt.trans_le hfits
    obtain ⟨base', htake, hfilled, hahead⟩ := take_spec h.filled h.out htrail hinp h.ahead
    have hone : [keys.getD s.inp 0] = stretch keys s.inp (s.inp + 1) := by
      rw [stretch_cons (Nat.lt_succ_self _) hinp, stretch, Nat.sub_self, List.take_zero]
    rw [hone] at htake hfilled
    refine ⟨_, htake, Nat.lt_succ_self _, h.kept (Nat.lt_succ_self _) hinp ?_ hfilled hahead⟩
    intro j hj hjk
    exact hkeeps j hj (by omega)

/-- A step of the walk, on either side of the run's first value. -/
theorem Walking.step (h : s.Walking keys runs keep) (hasc : keys.Pairwise (· < ·))
    (hc : Canonical runs) {r : Run} (hinp : s.inp < keys.length) (hr : runs[s.runIndex]? = some r)
    (hlast : keys.getD s.inp 0 ≤ r.last) :
    ∃ s', s.step keep longStretches r = some s' ∧ s.inp < s'.inp ∧ s'.Walking keys runs keep := by
  have hcutLast := Cut.of_ascending (hasc.imp Nat.le_of_lt) hinp.le (r.last + 1)
  generalize s.inp + ((keys.drop s.inp).takeWhile fun v ↦ decide (v < r.last + 1)).length =
    last at hcutLast
  have hcutFirst := Cut.of_ascending (hasc.imp Nat.le_of_lt) hinp.le r.first
  generalize s.inp + ((keys.drop s.inp).takeWhile fun v ↦ decide (v < r.first)).length =
    first at hcutFirst
  have hltLast := hcutLast.lt hinp (Nat.lt_succ_of_le hlast)
  unfold OwnWalk.step
  rw [h.ahead _ le_rfl]
  by_cases hfirst : r.first ≤ keys.getD s.inp 0
  · -- the run covers the value
    have hkeeps : ∀ j, s.inp ≤ j → j < last → keeps runs keep (keys.getD j 0) = keep :=
      fun j hj hjk ↦ keeps_covered hasc hr hfirst hcutLast hj hjk
    rw [decide_eq_true hfirst]
    cases keep with
    | true => exact h.keepStretch hcutLast hltLast hkeeps
    | false =>
      have hgallop := (hcutLast.congr h.filled.length h.ahead).gallop_true
      dsimp only
      rw [if_neg nofun, if_pos rfl, hgallop]
      exact ⟨_, rfl, hltLast, h.dropped hltLast hcutLast.fits hkeeps⟩
  · -- the value lies in front of the run
    have hltFirst := hcutFirst.lt hinp (not_le.1 hfirst)
    have hkeeps : ∀ j, s.inp ≤ j → j < first → keeps runs keep (keys.getD j 0) = !keep :=
      fun j hj hjk ↦ keeps_before hc h.passed hr hcutFirst hj hjk
    rw [decide_eq_false hfirst]
    cases keep with
    | true =>
      have hgallop := (hcutFirst.congr h.filled.length h.ahead).gallop_false
      dsimp only
      rw [if_neg nofun, if_neg nofun, hgallop]
      exact ⟨_, rfl, hltFirst, h.dropped hltFirst hcutFirst.fits hkeeps⟩
    | false => exact h.keepStretch hcutFirst hltFirst hkeeps

/-- Past the last run, the rest is moved as a whole, or left behind. -/
theorem finish_eq (hfilled : Filled keys.length ((keys.take s.inp).filter (keeps runs keep)) s.base)
    (hinp : s.inp ≤ keys.length)
    (hout : s.out = ((keys.take s.inp).filter (keeps runs keep)).length)
    (hahead : ∀ j, s.inp ≤ j → s.base.getD j 0 = keys.getD j 0)
    (hmiss : ∀ j, s.inp ≤ j → j < keys.length → keys.getD j 0 ∉ runValues runs) :
    s.finish keep = keys.filter (keeps runs keep) := by
  have hall : keys.take keys.length = keys := List.take_length
  have hfront := List.prefix_iff_eq_take.1 hfilled.front
  rw [OwnWalk.finish]
  cases keep with
  | true =>
    have hfilter := filter_take_dropped (p := keeps runs true) hinp le_rfl fun j hj hjk ↦
      keeps_of_not_mem (hmiss j hj hjk)
    rw [hall] at hfilter
    rw [if_pos rfl, hout, ← hfront, hfilter]
  | false =>
    have hfilter := filter_take_kept (p := keeps runs false) hinp le_rfl fun j hj hjk ↦
      keeps_of_not_mem (hmiss j hj hjk)
    have hdrop : s.base.drop s.inp = keys.drop s.inp := by
      apply List.ext_getElem
      · rw [List.length_drop, List.length_drop, hfilled.length]
      · intro i hi hi'
        have hsame := hahead (s.inp + i) (Nat.le_add_right _ _)
        rw [List.length_drop] at hi hi'
        rw [List.getD_eq_getElem _ _ (by omega), List.getD_eq_getElem _ _ (by omega)] at hsame
        rw [List.getElem_drop, List.getElem_drop, hsame]
    have hrest : (s.base.drop s.inp).take (s.base.length - s.inp) = stretch keys s.inp
        keys.length := by
      rw [hdrop, hfilled.length, stretch]
    have hlen : s.base.length - s.inp = (stretch keys s.inp keys.length).length := by
      rw [length_stretch le_rfl, hfilled.length]
    rw [hall] at hfilter
    rw [if_neg Bool.false_ne_true, memmove, hrest, hlen, hout, take_add_overwrite, ← hfront,
      hfilter]
    rw [hfilled.length]
    exact hfilled.length_le

theorem run_spec {fuel : Nat} (hasc : keys.Pairwise (· < ·)) (hc : Canonical runs)
    (h : s.Walking keys runs keep)
    (hfuel : keys.length - s.inp ≤ fuel) : s.run keep longStretches runs fuel =
      some (keys.filter (keeps runs keep)) := by
  induction fuel generalizing s with
  | zero =>
    have hend : ¬ s.inp < s.base.length := by
      rw [h.filled.length]
      omega
    rw [OwnWalk.run, if_neg hend, finish_eq h.filled h.inp h.out h.ahead fun j hj hjn ↦
      absurd hjn (by omega)]
  | succ fuel ih =>
    rw [OwnWalk.run, h.filled.length]
    split
    · rename_i hinp
      obtain ⟨hle, hpassed, hreach⟩ := runReaching_passed hasc hc h.runIndex h.passed
      dsimp only
      rw [h.ahead _ le_rfl]
      generalize runReaching runs (keys.getD s.inp 0) runs.length s.runIndex 0 =
        r at hle hpassed hreach
      cases hr : runs[r]? with
      | none =>
        have hmiss : ∀ j, s.inp ≤ j → j < keys.length → keys.getD j 0 ∉ runValues runs :=
          fun j hj hjn ↦ not_mem_of_before hc hpassed hj hjn fun r' hr' ↦
            absurd (hr.symm.trans hr') nofun
        have hfinish := finish_eq (s := { s with runIndex := r }) h.filled h.inp h.out h.ahead hmiss
        exact congrArg some hfinish
      | some run =>
        obtain ⟨hin, hget⟩ := List.getElem?_eq_some_iff.1 hr
        have hwalking : Walking keys runs keep { s with runIndex := r } :=
          ⟨h.inp, h.filled, h.out, h.ahead, hin, hpassed⟩
        have hlast := hreach hin
        rw [runEnd_eq hin, hget] at hlast
        obtain ⟨s', hs', hlt, hnext⟩ := hwalking.step hasc hc hinp hr hlast
        dsimp only at hs' hlt ⊢
        rw [hs', Option.bind_some]
        exact ih hnext (by omega)
    · rename_i hend
      rw [finish_eq h.filled h.inp h.out h.ahead fun j hj hjn ↦ absurd (hj.trans_lt hjn) hend]

end OwnWalk

theorem filterArrayRunInplaceWith_eq {keys : List Nat} {runs : List Run}
    (hasc : keys.Pairwise (· < ·)) (hc : Canonical runs) (keep longStretches : Bool) :
    filterArrayRunInplaceWith keep longStretches runs keys =
      some (keys.filter (keeps runs keep)) := by
  have hfilled : Filled keys.length ((keys.take 0).filter (keeps runs keep)) keys := by
    rw [List.take_zero, List.filter_nil]
    exact Filled.nil keys
  rw [filterArrayRunInplaceWith]
  split
  · rename_i hnil
    obtain rfl := List.eq_nil_of_length_eq_zero hnil
    rw [OwnWalk.finish_eq (s := { base := keys }) hfilled (Nat.zero_le _) rfl (fun _ _ ↦ rfl)
      fun j _ _ ↦ List.not_mem_nil]
  · rename_i hne
    exact OwnWalk.run_spec hasc hc
      ⟨Nat.zero_le _, hfilled, rfl, fun _ _ ↦ rfl, Nat.pos_of_ne_zero hne, nofun⟩ (Nat.sub_le _ _)

/-! ## The filters and their searches -/

/-- Every form of the filter keeps the values inside the runs, or outside, in their order, in
another buffer and in the array's own; the searches end at the first run, and the first key,
that the value or the limit stops at. -/
theorem arrayRunFilter_spec {keys : List Nat} {runs : List Run} (hasc : keys.Pairwise (· < ·))
    (hc : Canonical runs) :
    (∀ (keep : Bool) (form : StretchForm) (out : List Nat), out.length = keys.length →
      filterArrayRunIntoWith keys keep form runs out = some (keys.filter (keeps runs keep))) ∧
    (∀ (keep : Bool) (out : List Nat), out.length = keys.length →
      filterArrayRunInto keys keep runs out = some (keys.filter (keeps runs keep))) ∧
    (∀ keep longStretches : Bool,
      filterArrayRunInplaceWith keep longStretches runs keys =
        some (keys.filter (keeps runs keep))) ∧
    (∀ keep : Bool, filterArrayRunInplace keep runs keys = some (keys.filter (keeps runs keep))) ∧
    (∀ index value : Nat, index < runs.length →
      FirstFrom (fun i ↦ runEnd runs i < value) index runs.length
        (runReaching runs value runs.length index 0)) ∧
    ∀ (greater : Bool) (lo hi limit : Nat), lo ≤ hi → hi ≤ keys.length →
      FirstFrom (fun i ↦ if greater then keys.getD i 0 ≤ limit else keys.getD i 0 < limit) lo hi
        (gallopKeys greater keys lo hi limit) := by
  refine ⟨fun keep form out hout ↦ ?_, fun keep out hout ↦ ?_, fun keep long ↦ ?_, fun keep ↦ ?_,
    fun index value hindex ↦ ?_,
    fun greater lo hi limit hlo hhi ↦ ?_⟩
  · exact filterArrayRunIntoWith_eq hasc hc keep form hout
  · exact filterArrayRunIntoWith_eq hasc hc keep _ hout
  · exact filterArrayRunInplaceWith_eq hasc hc keep long
  · exact filterArrayRunInplaceWith_eq hasc hc keep _
  · exact runReaching_first hc hindex value
  · exact gallopKeys_first hasc greater hlo hhi limit

/-- A run that a value lies in and a run behind the array. -/
theorem arrayRunFilter_spec_twoRuns :
    filterArrayRunInto [3, 5, 8] true [⟨4, 6⟩, ⟨9, 9⟩] [0, 0, 0] =
      some ([3, 5, 8].filter (keeps [⟨4, 6⟩, ⟨9, 9⟩] true)) ∧
      filterArrayRunInplace false [⟨4, 6⟩, ⟨9, 9⟩] [3, 5, 8] =
        some ([3, 5, 8].filter (keeps [⟨4, 6⟩, ⟨9, 9⟩] false)) := by
  have hasc : [3, 5, 8].Pairwise (· < ·) := by decide
  have hc : Canonical [⟨4, 6⟩, ⟨9, 9⟩] := ⟨by decide, by decide, by decide⟩
  obtain ⟨-, hinto, -, hinplace, -⟩ := arrayRunFilter_spec hasc hc
  exact ⟨hinto true [0, 0, 0] rfl, hinplace false⟩

end Roaring
