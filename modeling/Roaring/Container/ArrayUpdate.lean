import Mathlib
import Roaring.Lib.Blocks
import Roaring.Lib.Search
import Roaring.Container.Build

/-!
# Group updates of an array

A sorted group of values is merged into an array in its own payload, backward from
the end, and taken out of one forward.  Both have a plain form that moves one value
at a time and a form for few values against many, which finds a block by galloping
and moves it at once.

The merge reads the values in front of `held` and has written those from `out` on.
What lies between is free, and there is always as much of it as values are still to
come: that is why nothing is overwritten before it has been moved.
-/

namespace Roaring

open Lib

/-- `kSkewedIntersectRatioThreshold`. -/
def skewedIntersectRatioThreshold : Nat := 64

/-! ## Searches -/

/-- `std::lower_bound` in `data[ first, last )`. -/
def lowerBoundIn (data : List Nat) (first last value : Nat) : Nat :=
  first + (((data.drop first).take (last - first)).takeWhile fun v ↦ decide (v < value)).length

/-- `std::upper_bound` in `data[ first, last )`. -/
def upperBoundIn (data : List Nat) (first last value : Nat) : Nat :=
  lowerBoundIn data first last (value + 1)

/-- The gallop down from a position known to be above the value: where the search in between begins
and ends. -/
def gallopDown (data : List Nat) (value knownAbove step : Nat) : Nat × Nat :=
  if _h : 0 < step ∧ step ≤ knownAbove ∧ value < data.getD (knownAbove - step) 0 then
    gallopDown data value (knownAbove - step) (step * 2)
  else (knownAbove + 1 - step, knownAbove)
termination_by knownAbove
decreasing_by omega

/-- The first held position whose value is above `value`. -/
def firstAbove (data : List Nat) (value held : Nat) : Nat :=
  if held ≠ 0 ∧ value < data.getD (held - 1) 0 then
    let between := gallopDown data value (held - 1) 1
    upperBoundIn data between.1 between.2 value
  else held

/-- The gallop up from a position known to be below the value, and the step it stopped at. -/
def gallopUp (data : List Nat) (value last knownBelow step : Nat) : Nat × Nat :=
  if _h : 0 < step ∧ knownBelow + step < last ∧ data.getD (knownBelow + step) 0 < value then
    gallopUp data value last (knownBelow + step) (step * 2)
  else (knownBelow, step)
termination_by last - knownBelow

/-- The first position from `src` on whose value is not below `value`. -/
def firstNotBelow (data : List Nat) (value src last : Nat) : Nat :=
  if data.getD src 0 < value then
    let between := gallopUp data value last src 1
    lowerBoundIn data (between.1 + 1) (between.1 + min between.2 (last - between.1)) value
  else src

/-! ## `array_ref::add_sorted` -/

/-- `data[ 0, held )` is not yet moved, and `data[ out, end )` is merged. -/
structure ArrayMerge where
  data : List Nat
  held : Nat
  out : Nat

/-- The loop that moves up one value after the other while they are above `value`. -/
def moveAbove (value : Nat) (data : List Nat) : (held out : Nat) → ArrayMerge
  | 0, out => ⟨data, 0, out⟩
  | held + 1, out =>
      if value < data.getD held 0 then
        moveAbove value (data.set (out - 1) (data.getD held 0)) held (out - 1)
      else ⟨data, held + 1, out⟩

/-- The block above `value` moves up at once. -/
def moveBlockAbove (value : Nat) (s : ArrayMerge) : ArrayMerge :=
  let above := firstAbove s.data value s.held
  let block := s.held - above
  ⟨memmove s.data (s.out - block) above block, above, s.out - block⟩

/-- One incoming value, which takes the place of the held one that is equal to it. -/
def mergeValue (skewed : Bool) (s : ArrayMerge) (value : Nat) : ArrayMerge :=
  let s := if skewed then moveBlockAbove value s else moveAbove value s.data s.held s.out
  let held := if s.held ≠ 0 ∧ s.data.getD (s.held - 1) 0 = value then s.held - 1 else s.held
  ⟨s.data.set (s.out - 1) value, held, s.out - 1⟩

/-- `add_sorted` of an array: its values, and how many were added. -/
def arrayAddSorted (values sortedValues : List Nat) : List Nat × Nat :=
  if sortedValues = [] then
    (values, 0)
  else if values = [] ∨ values.getLastD 0 < sortedValues.headD 0 then
    (values ++ sortedValues, sortedValues.length)
  else
    let cardinality := values.length
    let incoming := sortedValues.length
    let skewed := decide (incoming * skewedIntersectRatioThreshold < cardinality)
    let s := sortedValues.reverse.foldl (mergeValue skewed)
      ⟨padTo (cardinality + incoming) 0 values, cardinality, cardinality + incoming⟩
    let added := incoming - (s.out - s.held)
    if s.out ≠ s.held then
      ((memmove s.data s.held s.out (cardinality + incoming - s.out)).take (cardinality + added),
        added)
    else (s.data, added)

/-! ## `array_ref::remove_sorted` -/

/-- `data[ 0, dst )` is kept, and `data[ src, end )` is not yet looked at. -/
structure ArrayCompaction where
  data : List Nat
  src : Nat
  dst : Nat

/-- The values below a removal move down as one block. -/
def removeValue (last : Nat) (s : ArrayCompaction) (value : Nat) : ArrayCompaction :=
  if s.src = last then s
  else
    let found := firstNotBelow s.data value s.src last
    let data := if s.dst ≠ s.src then memmove s.data s.dst s.src (found - s.src) else s.data
    let src := if found ≠ last ∧ data.getD found 0 = value then found + 1 else found
    ⟨data, src, s.dst + (found - s.src)⟩

/-- The walk over the values and the removals. -/
def removeWalk (last : Nat) (s : ArrayCompaction) : (removals : List Nat) → ArrayCompaction
  | [] => s
  | value :: rest =>
      if h : s.src < last then
        if s.data.getD s.src 0 < value then
          removeWalk last ⟨s.data.set s.dst (s.data.getD s.src 0), s.src + 1, s.dst + 1⟩
            (value :: rest)
        else if s.data.getD s.src 0 = value then
          removeWalk last ⟨s.data, s.src + 1, s.dst⟩ rest
        else removeWalk last s rest
      else s
termination_by removals => (removals.length, last - s.src)

/-- `remove_sorted` of an array: its values, and how many were removed. -/
def arrayRemoveSorted (values sortedValues : List Nat) : List Nat × Nat :=
  if values = [] ∨ sortedValues = [] ∨ values.getLastD 0 < sortedValues.headD 0 then
    (values, 0)
  else
    let cardinality := values.length
    let front := lowerBoundIn values 0 cardinality (sortedValues.headD 0)
    let s := if sortedValues.length * skewedIntersectRatioThreshold < cardinality then
        sortedValues.foldl (removeValue cardinality) ⟨values, front, front⟩
      else removeWalk cardinality ⟨values, front, front⟩ sortedValues
    let removed := s.src - s.dst
    if removed ≠ 0 then
      ((memmove s.data s.dst s.src (cardinality - s.src)).take (cardinality - removed), removed)
    else (s.data, removed)

/-! ## The searches find the place -/

variable {data values sortedValues H M pending : List Nat}
  {value first last held out knownAbove knownBelow
  step width k n : Nat}

theorem lowerBoundIn_eq (hk : PartitionPoint (fun i ↦ data.getD i 0 < value) n k)
    (hn : n ≤ data.length) (hfirst : first ≤ k) (hkl : k ≤ last) (hlast : last ≤ n) :
    lowerBoundIn data first last value = k := by
  have hlen : ((data.drop first).take (last - first)).length = last - first := by
    rw [List.length_take, List.length_drop]
    omega
  rw [lowerBoundIn, length_takeWhile_eq (m := k - first) (by omega) ?_ ?_]
  · omega
  · intro a ha
    rw [List.take_take, min_eq_left (by omega)] at ha
    obtain ⟨i, hi, rfl⟩ := List.mem_iff_getElem.1 ha
    rw [List.length_take, List.length_drop] at hi
    have hbelow := hk.of_lt (first + i) (by omega)
    rw [List.getD_eq_getElem _ _ (by omega)] at hbelow
    rw [List.getElem_take, List.getElem_drop]
    simpa using hbelow
  · intro a ha
    rw [List.head?_drop] at ha
    obtain ⟨hi, rfl⟩ := List.getElem?_eq_some_iff.1 ha
    rw [hlen] at hi
    have hnot := hk.not_of_le (first + (k - first)) (by omega) (by omega)
    rw [List.getD_eq_getElem _ _ (by omega)] at hnot
    rw [List.getElem_take, List.getElem_drop]
    simpa using hnot

/-- The first positions of an ascending block below a value. -/
theorem exists_partition (hasc : (data.take n).Pairwise (· < ·)) (hn : n ≤ data.length)
    (value : Nat) :
    ∃ k, PartitionPoint (fun i ↦ data.getD i 0 < value) n k := by
  apply PartitionPoint.exists_of_antitone
  intro i j hij hj hlt
  have hlen : (data.take n).length = n := by rw [List.length_take, min_eq_left hn]
  have hmono := getD_mono hasc hij (by omega)
  rw [List.getD_eq_getElem _ _ (by omega), List.getD_eq_getElem _ _ (by omega), List.getElem_take,
    List.getElem_take] at hmono
  rw [List.getD_eq_getElem _ _ (by omega)] at hlt ⊢
  omega

theorem gallopDown_spec (hk : PartitionPoint (fun i ↦ data.getD i 0 < value + 1) n k)
    (hstep : 0 < step) (hka : k ≤ knownAbove) (hn : knownAbove < n) :
    (gallopDown data value knownAbove step).1 ≤ k ∧ k ≤ (gallopDown data value knownAbove step).2 ∧
      (gallopDown data value knownAbove step).2 < n := by
  induction knownAbove, step using gallopDown.induct data value with
  | case1 knownAbove step h ih =>
    rw [gallopDown, dif_pos h]
    refine ih (by omega) ?_ (by omega)
    by_contra hlt
    have hbelow := hk.of_lt (knownAbove - step) (by omega)
    omega
  | case2 knownAbove step h =>
    rw [gallopDown, dif_neg h]
    refine ⟨?_, hka, hn⟩
    by_contra hlt
    have hnot := hk.not_of_le (knownAbove - step) (by omega) (by omega)
    exact h ⟨hstep, by omega, by omega⟩

theorem firstAbove_eq (hk : PartitionPoint (fun i ↦ data.getD i 0 < value + 1) held k)
    (hn : held ≤ data.length) : firstAbove data value held = k := by
  rw [firstAbove]
  split
  · rename_i h
    have hka : k ≤ held - 1 := by
      by_contra hlt
      have hbelow := hk.of_lt (held - 1) (by omega)
      omega
    obtain ⟨h1, h2, h3⟩ := gallopDown_spec hk Nat.one_pos hka (by omega)
    exact lowerBoundIn_eq hk hn h1 h2 h3.le
  · rename_i h
    by_contra hne
    have hlt := lt_of_le_of_ne hk.le (Ne.symm hne)
    have hnot := hk.not_of_le (held - 1) (by omega) (by omega)
    exact h ⟨by omega, by omega⟩

theorem gallopUp_spec (hk : PartitionPoint (fun i ↦ data.getD i 0 < value) n k) (hstep : 0 < step)
    (hkb : knownBelow < k) :
    (gallopUp data value n knownBelow step).1 < k ∧
      k ≤ (gallopUp data value n knownBelow step).1 +
        min (gallopUp data value n knownBelow step).2
          (n - (gallopUp data value n knownBelow step).1) := by
  induction knownBelow, step using gallopUp.induct data value n with
  | case1 knownBelow step h ih =>
    rw [gallopUp, dif_pos h]
    exact ih (by omega) ((hk.lt_iff h.2.1).1 h.2.2)
  | case2 knownBelow step h =>
    rw [gallopUp, dif_neg h]
    refine ⟨hkb, ?_⟩
    have hle := hk.le
    by_contra hlt
    have hbelow := hk.of_lt (knownBelow + step) (by omega)
    exact h ⟨hstep, by omega, hbelow⟩

theorem firstNotBelow_eq (hk : PartitionPoint (fun i ↦ data.getD i 0 < value) n k)
    (hn : n ≤ data.length)
    (hsrc : first ≤ k) (hlt : first < n) : firstNotBelow data value first n = k := by
  rw [firstNotBelow]
  split
  · rename_i h
    have hle := hk.le
    obtain ⟨h1, h2⟩ := gallopUp_spec hk Nat.one_pos ((hk.lt_iff hlt).1 h)
    exact lowerBoundIn_eq hk hn h1 h2 (by omega)
  · rename_i h
    by_contra hne
    exact h (hk.of_lt first (lt_of_le_of_ne hsrc hne))

/-! ## Merging backward -/

/-- What the merge keeps: the held values are where they were, the merged ones stand from `out` on,
and in between is room for the `rest` that is to come. -/
structure ArrayMerge.Keeps (H : List Nat) (width rest : Nat) (merged : List Nat) (s : ArrayMerge) :
    Prop where
  length : s.data.length = width
  held_le : s.held ≤ H.length
  room : s.held + rest ≤ s.out
  out_le : s.out ≤ width
  front : s.data.take s.held = H.take s.held
  back : s.data.drop s.out = merged

variable {rest : Nat} {s : ArrayMerge}

theorem ArrayMerge.Keeps.getD (hs : s.Keeps H width rest M) {i : Nat} (hi : i < s.held) :
    s.data.getD i 0 = H.getD i 0 := by
  have hfront := congrArg (fun l : List Nat ↦ l[i]?) hs.front
  simp only [List.getElem?_take_of_lt hi] at hfront
  rw [List.getD_eq_getElem?_getD, List.getD_eq_getElem?_getD, hfront]

/-- A value is written in front of what is merged. -/
theorem ArrayMerge.Keeps.push (hs : s.Keeps H width rest M) (hpos : 0 < s.out) {held : Nat}
    (hheld : held ≤ s.held) (value : Nat) {rest' : Nat} (hrest : held + rest' ≤ s.out - 1) :
    Keeps H width rest' (value :: M) ⟨s.data.set (s.out - 1) value, held, s.out - 1⟩ := by
  have hlt : s.out - 1 < s.data.length := by
    rw [hs.length]
    exact Nat.sub_one_lt_of_le hpos hs.out_le
  constructor
  · rw [List.length_set, hs.length]
  · exact hheld.trans hs.held_le
  · exact hrest
  · exact (Nat.sub_le _ _).trans hs.out_le
  · have hfront := congrArg (List.take held) hs.front
    rw [List.take_take, List.take_take, min_eq_left hheld] at hfront
    show (s.data.set (s.out - 1) value).take held = H.take held
    rw [List.take_set_of_le (by omega), hfront]
  · have hnext : s.out - 1 + 1 = s.out := by omega
    show (s.data.set (s.out - 1) value).drop (s.out - 1) = value :: M
    rw [List.drop_eq_getElem_cons (by rwa [List.length_set]), List.getElem_set_self, hnext,
      List.drop_set_of_lt (by omega), hs.back]

/-- Where the held values above `value` have been moved, `k` of them are left. -/
theorem moveAbove_keeps {held out : Nat} {data M : List Nat}
    (hs : ArrayMerge.Keeps H width rest M ⟨data, held, out⟩)
    (hk : PartitionPoint (fun i ↦ H.getD i 0 < value + 1) held k) :
    (moveAbove value data held out).held = k ∧
      (moveAbove value data held out).Keeps H width rest ((H.take held).drop k ++ M) := by
  induction held generalizing data out M with
  | zero =>
    obtain rfl : k = 0 := Nat.le_zero.1 hk.le
    rw [List.take_zero, List.drop_nil, List.nil_append]
    exact ⟨rfl, hs⟩
  | succ held ih =>
    have hget : data.getD held 0 = H.getD held 0 := hs.getD (Nat.lt_succ_self held)
    have hheld : held < H.length := hs.held_le
    have hroom : held + 1 + rest ≤ out := hs.room
    rw [moveAbove]
    by_cases habove : value < data.getD held 0
    · rw [if_pos habove]
      have hkh : k ≤ held := by
        by_contra hlt
        have hbelow := hk.of_lt held (by omega)
        omega
      have hpush := hs.push (show 0 < out by omega) (Nat.le_succ held) (data.getD held 0)
        (show held + rest ≤ out - 1 by omega)
      obtain ⟨hk', hkeeps⟩ := ih hpush ⟨hkh, hk.of_lt, fun i hki hi ↦ hk.not_of_le i hki (by omega)⟩
      refine ⟨hk', ?_⟩
      have hmoved : (H.take (held + 1)).drop k = (H.take held).drop k ++ [data.getD held 0] := by
        rw [List.take_succ_eq_append_getElem hheld, List.drop_append_of_le_length (by
          rw [List.length_take]; omega), hget, List.getD_eq_getElem _ _ hheld]
      rw [hmoved, List.append_assoc]
      exact hkeeps
    · rw [if_neg habove]
      have hkh : k = held + 1 := by
        by_contra hne
        have hle := hk.le
        have hnot := hk.not_of_le held (by omega) (Nat.lt_succ_self held)
        omega
      have hnil : (H.take (held + 1)).drop k = [] := by
        rw [hkh, List.drop_eq_nil_iff, List.length_take]
        omega
      rw [hnil, List.nil_append]
      exact ⟨hkh.symm, hs⟩

/-- The block move does the same. -/
theorem moveBlockAbove_keeps (hs : s.Keeps H width rest M)
    (hk : PartitionPoint (fun i ↦ H.getD i 0 < value + 1) s.held k) :
    (moveBlockAbove value s).held = k ∧
      (moveBlockAbove value s).Keeps H width rest ((H.take s.held).drop k ++ M) := by
  have hroom := hs.room
  have hout := hs.out_le
  have hlen := hs.length
  have hkh := hk.le
  have habove : firstAbove s.data value s.held = k := by
    refine firstAbove_eq ⟨hk.le, ?_, ?_⟩ (by omega)
    · intro i hi
      rw [hs.getD (hi.trans_le hk.le)]
      exact hk.of_lt i hi
    · intro i hki hi
      rw [hs.getD hi]
      exact hk.not_of_le i hki hi
  have hblock : (s.data.drop k).take (s.held - k) = (H.take s.held).drop k := by
    rw [← hs.front, List.drop_take]
  have hblocklen : ((H.take s.held).drop k).length = s.held - k := by
    rw [List.length_drop, List.length_take, min_eq_left hs.held_le]
  have hmove :
      moveBlockAbove value s = ⟨overwrite s.data (s.out - (s.held - k)) ((H.take s.held).drop k), k,
      s.out - (s.held - k)⟩ := by
    simp only [moveBlockAbove, habove, memmove, hblock]
  rw [hmove]
  refine ⟨rfl, ?_, ?_, ?_, ?_, ?_, ?_⟩
  · rw [length_overwrite (by omega), hlen]
  · exact hkh.trans hs.held_le
  · show k + rest ≤ s.out - (s.held - k)
    omega
  · exact (Nat.sub_le _ _).trans hout
  · have hfront := congrArg (List.take k) hs.front
    rw [List.take_take, List.take_take, min_eq_left hkh] at hfront
    show (overwrite s.data (s.out - (s.held - k)) _).take k = H.take k
    rw [take_overwrite (by omega) (by omega), hfront]
  · show (overwrite s.data (s.out - (s.held - k)) _).drop (s.out - (s.held - k)) = _
    rw [drop_overwrite (by omega), hblocklen, show s.out - (s.held - k) + (s.held - k) = s.out by
      omega, hs.back]

/-- The held and the merged values together: ascending, and the union of the array and what came in
so far.  What is still to come is below all that is merged. -/
structure ArrayMerge.Merged (H : List Nat) (width : Nat) (done pending M : List Nat)
    (s : ArrayMerge) : Prop where
  keeps : s.Keeps H width pending.length M
  ascending : (H.take s.held ++ M).Pairwise (· < ·)
  mem : ∀ v, v ∈ H.take s.held ++ M ↔ v ∈ H ∨ v ∈ done
  below : ∀ p ∈ pending, ∀ u ∈ M, p < u

variable {done : List Nat} (skewed : Bool)

/-- The held values that are left when the one equal to `value` is taken off are below it. -/
theorem held_below (hasc : H.Pairwise (· < ·)) (hkH : k ≤ H.length)
    (hle : ∀ v ∈ H.take k, v ≤ value) :
    let left := if k ≠ 0 ∧ H.getD (k - 1) 0 = value then k - 1 else k
    (∀ v ∈ H.take left, v < value) ∧ ∀ v, (v ∈ H.take left ∨ v = value) ↔
      (v ∈ H.take k ∨ v = value) := by
  intro left
  by_cases heq : k ≠ 0 ∧ H.getD (k - 1) 0 = value
  · have hleft : left = k - 1 := if_pos heq
    have hlt : k - 1 < H.length := by omega
    have hget : H[k - 1] = value := by rw [← List.getD_eq_getElem _ 0 hlt, heq.2]
    have htake : H.take k = H.take (k - 1) ++ [value] := by
      rw [← hget, ← List.take_succ_eq_append_getElem hlt,
        Nat.sub_add_cancel (Nat.one_le_iff_ne_zero.2 heq.1)]
    rw [hleft]
    constructor
    · intro v hv
      rw [← hget]
      exact lt_of_mem_take hasc hlt hv
    · intro v
      rw [htake, List.mem_append, List.mem_singleton, or_assoc, or_self]
  · have hleft : left = k := if_neg heq
    rw [hleft]
    refine ⟨?_, fun v ↦ Iff.rfl⟩
    intro v hv
    refine lt_of_le_of_ne (hle v hv) ?_
    rintro rfl
    -- an equal value is the last of the held ones
    obtain ⟨i, hi, hiv⟩ := List.mem_iff_getElem.1 hv
    rw [List.length_take] at hi
    rw [List.getElem_take] at hiv
    have hlast : k - 1 < H.length := by omega
    have hmem : H[k - 1] ∈ H.take k := List.mem_take_iff_getElem.2 ⟨k - 1, by omega, rfl⟩
    have hik : i = k - 1 := by
      by_contra hne
      have hlt := List.pairwise_iff_getElem.1 hasc i (k - 1) (by omega) hlast (by omega)
      have hmax := hle _ hmem
      omega
    subst hik
    exact heq ⟨by omega, by rw [List.getD_eq_getElem _ _ hlast, hiv]⟩

theorem mergeValue_merged (hasc : H.Pairwise (· < ·))
    (hs : s.Merged H width done (value :: pending) M) (hpending : ∀ p ∈ pending, p < value) :
    ∃ M', (mergeValue skewed s value).Merged H width (value :: done) pending M' := by
  have hheld := hs.keeps.held_le
  obtain ⟨k, hk⟩ := exists_partition (hasc.sublist (List.take_sublist s.held H)) hheld (value + 1)
  have hmoved :
      ∃ s',
      (if skewed = true then moveBlockAbove value s else moveAbove value s.data s.held s.out) = s' ∧
      s'.held = k ∧ s'.Keeps H width (pending.length + 1) ((H.take s.held).drop k ++ M) := by
    cases skewed with
    | true =>
      obtain ⟨hk', hkeeps⟩ := moveBlockAbove_keeps hs.keeps hk
      exact ⟨_, rfl, hk', hkeeps⟩
    | false =>
      obtain ⟨hk', hkeeps⟩ := moveAbove_keeps hs.keeps hk
      exact ⟨_, rfl, hk', hkeeps⟩
  obtain ⟨s', hs', hsk, hkeeps⟩ := hmoved
  have hkH : k ≤ H.length := hk.le.trans hheld
  have hle : ∀ v ∈ H.take k, v ≤ value := by
    intro v hv
    obtain ⟨i, hi, rfl⟩ := List.mem_take_iff_getElem.1 hv
    have hbelow := hk.of_lt i (by omega)
    rw [List.getD_eq_getElem _ _ (by omega)] at hbelow
    omega
  have hgt : ∀ v ∈ (H.take s.held).drop k, value < v := by
    intro v hv
    obtain ⟨i, hi, rfl⟩ := List.mem_iff_getElem.1 hv
    rw [List.length_drop, List.length_take] at hi
    have hnot := hk.not_of_le (k + i) (by omega) (by omega)
    rw [List.getD_eq_getElem _ _ (by omega)] at hnot
    rw [List.getElem_drop, List.getElem_take]
    omega
  have hsplit : H.take s.held ++ M = H.take k ++ ((H.take s.held).drop k ++ M) := by
    have htk : (H.take s.held).take k = H.take k := by rw [List.take_take, min_eq_left hk.le]
    rw [← List.append_assoc, ← htk, List.take_append_drop]
  obtain ⟨hlt, hmem⟩ := held_below hasc hkH hle
  set left := if k ≠ 0 ∧ H.getD (k - 1) 0 = value then k - 1 else k with hleft
  have hlk : left ≤ k := by
    rw [hleft]
    split <;> omega
  have hget : k ≠ 0 → s'.data.getD (k - 1) 0 = H.getD (k - 1) 0 := fun hne ↦ hkeeps.getD (by omega)
  have hstep : mergeValue skewed s value = ⟨s'.data.set (s'.out - 1) value, left, s'.out - 1⟩ := by
    simp only [mergeValue, hs', hsk]
    congr 1
    rw [hleft]
    by_cases hne : k = 0
    · simp [hne]
    · rw [hget hne]
  have hroom := hkeeps.room
  rw [hstep]
  refine ⟨value :: ((H.take s.held).drop k ++ M), ?_, ?_, ?_, ?_⟩
  · exact hkeeps.push (by omega) (by omega) value (by omega)
  · have hsub : (H.take left ++ ((H.take s.held).drop k ++ M)).Pairwise (· < ·) := by
      refine hs.ascending.sublist ?_
      rw [hsplit]
      refine List.Sublist.append ?_ (List.Sublist.refl _)
      rw [← min_eq_left hlk, ← List.take_take]
      exact List.take_sublist _ _
    rw [List.pairwise_append] at hsub ⊢
    refine ⟨hsub.1, List.pairwise_cons.2 ⟨?_, hsub.2.1⟩, ?_⟩
    · intro u hu
      rcases List.mem_append.1 hu with hu | hu
      · exact hgt u hu
      · exact hs.below value List.mem_cons_self u hu
    · intro u hu w hw
      rcases List.mem_cons.1 hw with rfl | hw
      · exact hlt u hu
      · exact hsub.2.2 u hu w hw
  · intro v
    have hall := hs.mem v
    rw [hsplit, List.mem_append] at hall
    have hv := hmem v
    show v ∈ H.take left ++ value :: ((H.take s.held).drop k ++ M) ↔ _
    rw [List.mem_append, List.mem_cons, List.mem_cons, ← or_assoc, hv, or_right_comm, hall,
      or_right_comm,
      or_assoc]
  · intro p hp u hu
    rcases List.mem_cons.1 hu with rfl | hu
    · exact hpending p hp
    · exact (hpending p hp).trans (by
        rcases List.mem_append.1 hu with hu | hu
        · exact hgt u hu
        · exact hs.below value List.mem_cons_self u hu)

theorem foldl_mergeValue_merged (hasc : H.Pairwise (· < ·)) (hdesc : pending.Pairwise (· > ·))
    (hs : s.Merged H width done pending M) :
    ∃ M', (pending.foldl (mergeValue skewed) s).Merged H width (pending.reverse ++ done) [] M' := by
  induction pending generalizing s done M with
  | nil => exact ⟨M, hs⟩
  | cons value pending ih =>
    obtain ⟨M', hs'⟩ := mergeValue_merged skewed hasc hs fun p hp ↦ List.rel_of_pairwise_cons
      hdesc hp
    obtain ⟨M'', hs''⟩ := ih hdesc.of_cons hs'
    refine ⟨M'', ?_⟩
    rw [List.reverse_cons, List.append_assoc]
    exact hs''

/-- The part of `add_sorted` that merges, by block moves or value by value. -/
def arrayMergeSorted (skewed : Bool) (values sortedValues : List Nat) : List Nat × Nat :=
  let s := sortedValues.reverse.foldl (mergeValue skewed)
    ⟨padTo (values.length + sortedValues.length) 0 values, values.length,
      values.length + sortedValues.length⟩
  let added := sortedValues.length - (s.out - s.held)
  if s.out ≠ s.held then
    ((memmove s.data s.held s.out (values.length + sortedValues.length - s.out)).take
      (values.length + added), added)
  else (s.data, added)

/-- The merge begins with all values held. -/
theorem ArrayMerge.merged_start (hasc : values.Pairwise (· < ·)) (sortedValues : List Nat) :
    ArrayMerge.Merged values (values.length + sortedValues.length) [] sortedValues.reverse []
      ⟨padTo (values.length + sortedValues.length) 0 values, values.length,
        values.length + sortedValues.length⟩ := by
  have hlen : (padTo (values.length + sortedValues.length) 0 values).length =
      values.length + sortedValues.length := by
    rw [length_padTo (by omega)]
  refine ⟨⟨hlen, le_rfl, ?_, le_rfl, ?_, ?_⟩, ?_, ?_, ?_⟩
  · rw [List.length_reverse]
  · exact take_padTo le_rfl
  · rw [List.drop_eq_nil_iff, hlen]
  · rw [List.take_length, List.append_nil]
    exact hasc
  · intro v
    rw [List.take_length, List.append_nil]
    simp
  · intro p _ u hu
    cases hu

theorem descending_reverse (hsorted : sortedValues.Pairwise (· < ·)) :
    sortedValues.reverse.Pairwise (· > ·) := by
  rw [List.pairwise_reverse]
  exact hsorted

/-- Either way of moving leaves the union, ascending, and counts what was not held. -/
theorem arrayMergeSorted_spec (skewed : Bool) (hasc : values.Pairwise (· < ·))
    (hsorted : sortedValues.Pairwise (· < ·)) :
    (arrayMergeSorted skewed values sortedValues).1.Pairwise (· < ·) ∧
      (∀ v, v ∈ (arrayMergeSorted skewed values sortedValues).1 ↔ v ∈ values ∨ v ∈ sortedValues) ∧
      (arrayMergeSorted skewed values sortedValues).1.length =
        values.length + (arrayMergeSorted skewed values sortedValues).2 := by
  obtain ⟨M, hs⟩ := foldl_mergeValue_merged skewed hasc (descending_reverse hsorted)
    (ArrayMerge.merged_start hasc sortedValues)
  rw [List.reverse_reverse, List.append_nil] at hs
  rw [arrayMergeSorted]
  generalize sortedValues.reverse.foldl (mergeValue skewed)
    ⟨padTo (values.length + sortedValues.length) 0 values,
    values.length, values.length + sortedValues.length⟩ = s at hs ⊢
  have hroom : s.held ≤ s.out := hs.keeps.room
  have hout := hs.keeps.out_le
  have hheld := hs.keeps.held_le
  have hslen := hs.keeps.length
  have hMlen : M.length = values.length + sortedValues.length - s.out := by
    rw [← hs.keeps.back, List.length_drop, hslen]
  have hlen : (values.take s.held ++ M).length =
      s.held + (values.length + sortedValues.length - s.out) := by
    rw [List.length_append, List.length_take, hMlen, min_eq_left hheld]
  have hge := length_le_of_ascending hasc fun v hv ↦ (hs.mem v).2 (.inl hv)
  have hlist : (if s.out ≠ s.held then
        ((memmove s.data s.held s.out (values.length + sortedValues.length - s.out)).take
          (values.length + (sortedValues.length - (s.out - s.held))),
            sortedValues.length - (s.out - s.held))
      else (s.data, sortedValues.length - (s.out - s.held))) =
      (values.take s.held ++ M, sortedValues.length - (s.out - s.held)) := by
    split
    · have hcopied :
          (s.data.drop s.out).take (values.length + sortedValues.length - s.out) = M := by
        rw [hs.keeps.back, List.take_of_length_le hMlen.le]
      have hcut : values.length + (sortedValues.length - (s.out - s.held)) =
        s.held + M.length := by omega
      rw [memmove, hcopied, hcut, take_add_overwrite (by omega), hs.keeps.front]
    · rename_i hclosed
      rw [← hs.keeps.front, ← hs.keeps.back, not_not.1 hclosed, List.take_append_drop]
  simp only [hlist]
  refine ⟨hs.ascending, hs.mem, ?_⟩
  omega

/-- `add_sorted` of an array leaves the union, ascending, and counts what was not held. -/
theorem arrayAddSorted_spec (hasc : values.Pairwise (· < ·))
    (hsorted : sortedValues.Pairwise (· < ·)) :
    (arrayAddSorted values sortedValues).1.Pairwise (· < ·) ∧
      (∀ v, v ∈ (arrayAddSorted values sortedValues).1 ↔ v ∈ values ∨ v ∈ sortedValues) ∧
      (arrayAddSorted values sortedValues).1.length = values.length +
        (arrayAddSorted values sortedValues).2 := by
  rw [arrayAddSorted]
  split
  · rename_i hnil
    simp [hnil, hasc]
  split
  · rename_i _ happend
    refine ⟨List.pairwise_append.2 ⟨hasc, hsorted, ?_⟩, fun v ↦ List.mem_append, List.length_append⟩
    intro a ha b hb
    rcases happend with rfl | hlast
    · cases ha
    have hav := le_getLast_of_mem hasc ha
    have hbv := headD_le_of_mem hsorted hb
    omega
  · exact arrayMergeSorted_spec
      (decide (sortedValues.length * skewedIntersectRatioThreshold < values.length))
      hasc hsorted

/-! ## Compacting forward -/

/-- What the compaction keeps: what is kept so far stands in front, what is not yet looked at is
untouched, and the removals that may still be found there are pending. -/
structure ArrayCompaction.Compacts (V R pending : List Nat) (s : ArrayCompaction) : Prop where
  length : s.data.length = V.length
  dst_le : s.dst ≤ s.src
  src_le : s.src ≤ V.length
  front : s.data.take s.dst = (V.take s.src).filter fun v ↦ v ∉ R
  back : s.data.drop s.src = V.drop s.src
  pending_mem : ∀ v ∈ pending, v ∈ R
  found : ∀ v ∈ V.drop s.src, v ∈ R → v ∈ pending

variable {V R : List Nat} {c : ArrayCompaction} {src dst : Nat}

/-- The block up to `k`, which holds no removal, moves down behind what is kept. -/
theorem ArrayCompaction.Compacts.move (hc : c.Compacts V R pending) (hk : c.src ≤ k)
    (hkV : k ≤ V.length) (hkeep : ∀ v ∈ (V.take k).drop c.src, v ∉ R) :
    Compacts V R pending ⟨memmove c.data c.dst c.src (k - c.src), k, c.dst + (k - c.src)⟩ := by
  have hlen := hc.length
  have hdst := hc.dst_le
  have hsrc := hc.src_le
  have hblock : (c.data.drop c.src).take (k - c.src) = (V.take k).drop c.src := by
    rw [hc.back, List.drop_take]
  have hblocklen : ((V.take k).drop c.src).length = k - c.src := by
    rw [List.length_drop, List.length_take, min_eq_left hkV]
  have hmove : memmove c.data c.dst c.src (k - c.src) = overwrite c.data c.dst
      ((V.take k).drop c.src) := by
    rw [memmove, hblock]
  have hsplit : V.take k = V.take c.src ++ (V.take k).drop c.src := by
    have htk : (V.take k).take c.src = V.take c.src := by rw [List.take_take, min_eq_left hk]
    rw [← htk, List.take_append_drop]
  rw [hmove]
  constructor
  · show (overwrite c.data c.dst _).length = V.length
    rw [length_overwrite (by omega), hlen]
  · show c.dst + (k - c.src) ≤ k
    omega
  · exact hkV
  · show (overwrite c.data c.dst _).take (c.dst + (k - c.src)) = _
    have hkept : ((V.take k).drop c.src).filter (fun v ↦ v ∉ R) = (V.take k).drop c.src := by
      rw [List.filter_eq_self]
      intro v hv
      exact decide_eq_true (hkeep v hv)
    rw [← hblocklen, take_add_overwrite (by omega), hc.front, hsplit, List.filter_append, hkept]
    rw [← hsplit]
  · show (overwrite c.data c.dst _).drop k = V.drop k
    have hback := congrArg (List.drop (k - c.src)) hc.back
    rw [List.drop_drop, List.drop_drop, Nat.add_sub_cancel' hk] at hback
    have hdrop : (overwrite c.data c.dst ((V.take k).drop c.src)).drop k =
        (((overwrite c.data c.dst ((V.take k).drop c.src)).drop c.dst).drop (k - c.dst)) := by
      rw [List.drop_drop, Nat.add_sub_cancel' (by omega)]
    rw [hdrop, drop_overwrite (by omega), hblocklen, List.drop_append,
      List.drop_eq_nil_of_le (by omega),
      List.nil_append, List.drop_drop, ← hback]
    congr 1
    omega
  · exact hc.pending_mem
  · intro v hv hvR
    refine hc.found v ?_ hvR
    show v ∈ V.drop c.src
    have hdd : V.drop k = (V.drop c.src).drop (k - c.src) := by
      rw [List.drop_drop, Nat.add_sub_cancel' hk]
    exact List.mem_of_mem_drop (hdd ▸ hv)

/-- The value looked at next is one to remove. -/
theorem ArrayCompaction.Compacts.skip (hc : c.Compacts V R pending) (hlt : c.src < V.length)
    (hR : V[c.src] ∈ R) : Compacts V R pending ⟨c.data, c.src + 1, c.dst⟩ := by
  constructor
  · exact hc.length
  · exact hc.dst_le.trans (Nat.le_succ _)
  · exact hlt
  · show c.data.take c.dst = _
    have hout : [V[c.src]].filter (fun v ↦ v ∉ R) = [] := by
      rw [List.filter_cons_of_neg (by simpa using hR), List.filter_nil]
    rw [List.take_succ_eq_append_getElem hlt, List.filter_append, hout, List.append_nil, hc.front]
  · show c.data.drop (c.src + 1) = V.drop (c.src + 1)
    rw [← List.drop_drop, hc.back, List.drop_drop]
  · exact hc.pending_mem
  · intro v hv
    refine hc.found v ?_
    rw [List.drop_eq_getElem_cons hlt]
    exact List.mem_cons_of_mem _ hv

/-- A removal that is below or at all that was looked at is done with. -/
theorem ArrayCompaction.Compacts.next (hc : c.Compacts V R (value :: pending))
    (habove : ∀ v ∈ V.drop c.src, value < v) : c.Compacts V R pending := by
  refine ⟨hc.length, hc.dst_le, hc.src_le, hc.front, hc.back, ?_, ?_⟩
  · intro v hv
    exact hc.pending_mem v (List.mem_cons_of_mem _ hv)
  · intro v hv hvR
    rcases List.mem_cons.1 (hc.found v hv hvR) with rfl | hpending
    · exact absurd (habove v hv) (lt_irrefl v)
    · exact hpending

theorem ArrayCompaction.Compacts.getD (hc : c.Compacts V R pending) {i : Nat} (hi : c.src ≤ i) :
    c.data.getD i 0 = V.getD i 0 := by
  have hback := congrArg (fun l : List Nat ↦ l[i - c.src]?) hc.back
  simp only [List.getElem?_drop, Nat.add_sub_cancel' hi] at hback
  rw [List.getD_eq_getElem?_getD, List.getD_eq_getElem?_getD, hback]

theorem gallopUp_congr {V : List Nat} (hback : ∀ i, first ≤ i → data.getD i 0 = V.getD i 0)
    (hfirst : first ≤ knownBelow) : gallopUp data value last knownBelow step = gallopUp V value last
      knownBelow step := by
  induction knownBelow, step using gallopUp.induct data value last with
  | case1 knownBelow step h ih =>
    have hget := hback (knownBelow + step) (by omega)
    rw [gallopUp, gallopUp.eq_def V, dif_pos h, dif_pos (by rwa [← hget])]
    exact ih (by omega)
  | case2 knownBelow step h =>
    have hget := hback (knownBelow + step) (by omega)
    rw [gallopUp, gallopUp.eq_def V, dif_neg h, dif_neg (by rwa [← hget])]

theorem le_gallopUp : knownBelow ≤ (gallopUp data value last knownBelow step).1 := by
  induction knownBelow, step using gallopUp.induct data value last with
  | case1 knownBelow step h ih =>
    rw [gallopUp, dif_pos h]
    omega
  | case2 knownBelow step h =>
    rw [gallopUp, dif_neg h]

/-- The search looks only at what lies from `first` on. -/
theorem firstNotBelow_congr {V : List Nat} (hback : data.drop first = V.drop first) :
    firstNotBelow data value first last = firstNotBelow V value first last := by
  have hget : ∀ i, first ≤ i → data.getD i 0 = V.getD i 0 := by
    intro i hi
    have hi' := congrArg (fun l : List Nat ↦ l[i - first]?) hback
    simp only [List.getElem?_drop, Nat.add_sub_cancel' hi] at hi'
    rw [List.getD_eq_getElem?_getD, List.getD_eq_getElem?_getD, hi']
  have hdrop : ∀ i, first ≤ i → data.drop i = V.drop i := by
    intro i hi
    have hi' := congrArg (List.drop (i - first)) hback
    rwa [List.drop_drop, List.drop_drop, Nat.add_sub_cancel' hi] at hi'
  have hle : first ≤ (gallopUp V value last first 1).1 := le_gallopUp
  rw [firstNotBelow, firstNotBelow, hget first le_rfl, gallopUp_congr hget le_rfl]
  simp only [lowerBoundIn]
  rw [hdrop _ (by omega)]

theorem firstNotBelow_eq_max (hk : PartitionPoint (fun i ↦ data.getD i 0 < value) n k)
    (hn : n ≤ data.length) (hlt : first < n) : firstNotBelow data value first n = max first k := by
  rcases le_total first k with hle | hle
  · rw [max_eq_right hle, firstNotBelow_eq hk hn hle hlt]
  · rw [max_eq_left hle, firstNotBelow, if_neg (hk.not_of_le first hle hlt)]

/-- What lies from a position on is above a value when the one there is. -/
theorem drop_above (hasc : V.Pairwise (· < ·)) (hlt : k < V.length) (habove : value ≤ V[k]) :
    ∀ v ∈ V.drop (k + 1), value < v := by
  intro v hv
  exact habove.trans_lt (lt_of_mem_drop hasc hlt hv)

theorem removeWalk_compacts (hasc : V.Pairwise (· < ·)) (hsorted : pending.Pairwise (· < ·))
    (hc : c.Compacts V R pending) : ∃ left, (removeWalk V.length c pending).Compacts V R left ∧
      (left = [] ∨ (removeWalk V.length c pending).src = V.length) := by
  induction c, pending using removeWalk.induct V.length with
  | case1 c =>
    rw [removeWalk]
    exact ⟨[], hc, .inl rfl⟩
  | case2 c value rest hlt hbelow ih =>
    rw [removeWalk, dif_pos hlt, if_pos hbelow]
    have hget := hc.getD (le_refl c.src)
    rw [List.getD_eq_getElem _ _ hlt] at hget
    have hone : (V.take (c.src + 1)).drop c.src = [V[c.src]] := by
      rw [List.take_succ_eq_append_getElem hlt,
        List.drop_append_of_le_length (by rw [List.length_take]; omega),
        List.drop_eq_nil_of_le (by rw [List.length_take]; omega), List.nil_append]
    have hmoved := hc.move (Nat.le_succ c.src) hlt (by
      intro v hv
      rw [hone, List.mem_singleton] at hv
      subst hv
      intro hR
      have hmem : V[c.src] ∈ V.drop c.src := by
        rw [List.drop_eq_getElem_cons hlt]
        exact List.mem_cons_self
      rcases List.mem_cons.1 (hc.found _ hmem hR) with heq | hrest
      · omega
      · have habove := List.rel_of_pairwise_cons hsorted hrest
        omega)
    have hset : memmove c.data c.dst c.src (c.src + 1 - c.src) = c.data.set c.dst
        (c.data.getD c.src 0) := by
      have hdlt : c.src < c.data.length := by rwa [hc.length]
      have hddst := hc.dst_le
      rw [Nat.add_sub_cancel_left, memmove, List.drop_eq_getElem_cons hdlt, List.take_succ_cons,
        List.take_zero,
        overwrite, List.set_eq_take_append_cons_drop, if_pos (by omega),
          List.getD_eq_getElem _ _ hdlt]
      simp
    rw [Nat.succ_eq_add_one, hset, Nat.add_sub_cancel_left] at hmoved
    exact ih hsorted hmoved
  | case3 c rest hlt hnot ih =>
    rw [removeWalk, dif_pos hlt, if_neg hnot, if_pos rfl]
    have hget := hc.getD (le_refl c.src)
    rw [List.getD_eq_getElem _ _ hlt] at hget
    have hskip := hc.skip hlt (by
      rw [← hget]
      exact hc.pending_mem _ List.mem_cons_self)
    refine ih hsorted.of_cons (hskip.next ?_)
    exact drop_above hasc hlt hget.le
  | case4 c value rest hlt hnot hne ih =>
    rw [removeWalk, dif_pos hlt, if_neg hnot, if_neg hne]
    have hget := hc.getD (le_refl c.src)
    rw [List.getD_eq_getElem _ _ hlt] at hget
    refine ih hsorted.of_cons (hc.next ?_)
    intro v hv
    rw [List.drop_eq_getElem_cons hlt] at hv
    rcases List.mem_cons.1 hv with rfl | hv
    · omega
    · exact drop_above hasc hlt (by omega) v hv
  | case5 c value rest hlt =>
    rw [removeWalk, dif_neg hlt]
    exact ⟨value :: rest, hc, .inr (le_antisymm hc.src_le (not_lt.1 hlt))⟩

theorem removeValue_compacts (hasc : V.Pairwise (· < ·))
    (hsorted : (value :: pending).Pairwise (· < ·)) (hc : c.Compacts V R (value :: pending)) :
    (removeValue V.length c value).Compacts V R pending := by
  rw [removeValue]
  split
  · rename_i hend
    refine hc.next ?_
    intro v hv
    rw [hend, List.drop_length] at hv
    cases hv
  rename_i hend
  have hlt := lt_of_le_of_ne hc.src_le hend
  have hdlen := hc.length
  obtain ⟨p, hp⟩ := exists_partition (n := V.length) (by rwa [List.take_length]) le_rfl value
  have hfound : firstNotBelow c.data value c.src V.length = max c.src p := by
    rw [firstNotBelow_congr hc.back, firstNotBelow_eq_max hp le_rfl hlt]
  set f := max c.src p with hf
  have hfV : f ≤ V.length := max_le hc.src_le hp.le
  have hkeep : ∀ v ∈ (V.take f).drop c.src, v ∉ R := by
    intro v hv hvR
    obtain ⟨i, hi, rfl⟩ := List.mem_iff_getElem.1 hv
    rw [List.length_drop, List.length_take] at hi
    rw [List.getElem_drop, List.getElem_take] at hvR
    have hbelow := hp.of_lt (c.src + i) (by omega)
    rw [List.getD_eq_getElem _ _ (by omega)] at hbelow
    have hmem : V[c.src + i] ∈ V.drop c.src := List.mem_drop_iff_getElem.2 ⟨i, by omega, rfl⟩
    rcases List.mem_cons.1 (hc.found _ hmem hvR) with heq | hrest
    · omega
    · have habove := List.rel_of_pairwise_cons hsorted hrest
      omega
  have hmoved := hc.move (le_max_left _ _) hfV hkeep
  have hdata : (if c.dst ≠ c.src then memmove c.data c.dst c.src (f - c.src) else c.data) =
      memmove c.data c.dst c.src (f - c.src) := by
    split
    · rfl
    · rename_i hsame
      rw [not_not.1 hsame, memmove_self (by rw [hc.length]; omega)]
  simp only [hfound, hdata]
  have hget := hmoved.getD (le_refl f)
  by_cases hequal : f ≠ V.length ∧ (memmove c.data c.dst c.src (f - c.src)).getD f 0 = value
  · rw [if_pos hequal]
    have hflt := lt_of_le_of_ne hfV hequal.1
    rw [hequal.2, List.getD_eq_getElem _ _ hflt] at hget
    have hskip := hmoved.skip hflt (by
      rw [← hget]
      exact hc.pending_mem value List.mem_cons_self)
    exact hskip.next (drop_above hasc hflt hget.le)
  · rw [if_neg hequal]
    refine hmoved.next ?_
    intro v hv
    have hflt : f < V.length := by
      by_contra hge
      rw [List.drop_eq_nil_of_le (not_lt.1 hge)] at hv
      cases hv
    have hnot := hp.not_of_le f (le_max_right _ _) hflt
    rw [List.getD_eq_getElem _ _ hflt] at hnot hget
    have hne : V[f] ≠ value := fun heq ↦ hequal ⟨hflt.ne, hget.trans heq⟩
    rw [List.drop_eq_getElem_cons hflt] at hv
    rcases List.mem_cons.1 hv with rfl | hv
    · omega
    · exact drop_above hasc hflt (by omega) v hv

theorem foldl_removeValue_compacts (hasc : V.Pairwise (· < ·)) (hsorted : pending.Pairwise (· < ·))
    (hc : c.Compacts V R pending) : (pending.foldl (removeValue V.length) c).Compacts V R [] := by
  induction pending generalizing c with
  | nil => exact hc
  | cons value pending ih => exact ih hsorted.of_cons (removeValue_compacts hasc hsorted hc)

/-- The part of `remove_sorted` that compacts, by block moves or value by value. -/
def arrayCompactSorted (skewed : Bool) (values sortedValues : List Nat) : List Nat × Nat :=
  let front := lowerBoundIn values 0 values.length (sortedValues.headD 0)
  let s := if skewed then sortedValues.foldl (removeValue values.length) ⟨values, front, front⟩
    else removeWalk values.length ⟨values, front, front⟩ sortedValues
  let removed := s.src - s.dst
  if removed ≠ 0 then
    ((memmove s.data s.dst s.src (values.length - s.src)).take (values.length - removed), removed)
  else (s.data, removed)

/-- Either way of moving leaves the difference, and counts what was held. -/
theorem arrayCompactSorted_spec (skewed : Bool) (hasc : values.Pairwise (· < ·))
    (hsorted : sortedValues.Pairwise (· < ·)) :
    (arrayCompactSorted skewed values sortedValues).1 = values.filter (fun v ↦ v ∉ sortedValues) ∧
      (arrayCompactSorted skewed values sortedValues).1.length +
        (arrayCompactSorted skewed values sortedValues).2 =
        values.length := by
  rw [arrayCompactSorted]
  obtain ⟨front, hfront⟩ := exists_partition (n := values.length) (by rwa [List.take_length]) le_rfl
    (sortedValues.headD 0)
  have hbound : lowerBoundIn values 0 values.length (sortedValues.headD 0) = front :=
    lowerBoundIn_eq hfront le_rfl (Nat.zero_le _) hfront.le le_rfl
  have hstart : ArrayCompaction.Compacts values sortedValues sortedValues
      ⟨values, front, front⟩ := by
    refine ⟨rfl, le_rfl, hfront.le, ?_, rfl, fun _ hv ↦ hv, fun _ _ hv ↦ hv⟩
    rw [eq_comm, List.filter_eq_self]
    intro v hv
    refine decide_eq_true ?_
    intro hvR
    obtain ⟨i, hi, rfl⟩ := List.mem_take_iff_getElem.1 (show v ∈ values.take front from hv)
    have hbelow := hfront.of_lt i (by omega)
    rw [List.getD_eq_getElem _ _ (by omega)] at hbelow
    have hhead := headD_le_of_mem hsorted hvR
    omega
  have hall : ∃ s left, (if skewed = true then
      sortedValues.foldl (removeValue values.length) ⟨values, front, front⟩
      else removeWalk values.length ⟨values, front, front⟩ sortedValues) = s ∧
        s.Compacts values sortedValues left ∧ (left = [] ∨ s.src = values.length) := by
    split
    · exact ⟨_, [], rfl, foldl_removeValue_compacts hasc hsorted hstart, .inl rfl⟩
    · obtain ⟨left, hc, hend⟩ := removeWalk_compacts hasc hsorted hstart
      exact ⟨_, left, rfl, hc, hend⟩
  obtain ⟨s, left, hs, hc, hend⟩ := hall
  simp only [hbound, hs]
  have hdst := hc.dst_le
  have hsrc := hc.src_le
  have hlen := hc.length
  have htail : (values.drop s.src).filter (fun v ↦ v ∉ sortedValues) = values.drop s.src := by
    rw [List.filter_eq_self]
    intro v hv
    refine decide_eq_true ?_
    intro hvR
    rcases hend with rfl | hend
    · cases hc.found v hv hvR
    · rw [hend, List.drop_length] at hv
      cases hv
  have hresult : values.filter (fun v ↦ v ∉ sortedValues) = s.data.take s.dst ++ s.data.drop
      s.src := by
    conv_lhs => rw [← List.take_append_drop s.src values]
    rw [List.filter_append, htail, hc.front, hc.back]
  rw [hresult]
  split
  · have hcopied : (s.data.drop s.src).take (values.length - s.src) = s.data.drop s.src := by
      rw [List.take_of_length_le (by rw [List.length_drop, hlen])]
    have hcut : values.length - (s.src - s.dst) = s.dst + (s.data.drop s.src).length := by
      rw [List.length_drop]
      omega
    rw [memmove, hcopied, hcut, take_add_overwrite (by omega)]
    refine ⟨rfl, ?_⟩
    rw [List.length_append, List.length_take, List.length_drop]
    omega
  · rename_i hnone
    have hsame : s.dst = s.src := by omega
    rw [hsame, List.take_append_drop]
    refine ⟨rfl, ?_⟩
    show s.data.length + (s.src - s.src) = values.length
    omega

/-- `remove_sorted` of an array leaves the difference, ascending, and counts what was held. -/
theorem arrayRemoveSorted_spec (hasc : values.Pairwise (· < ·))
    (hsorted : sortedValues.Pairwise (· < ·)) :
    (arrayRemoveSorted values sortedValues).1 = values.filter (fun v ↦ v ∉ sortedValues) ∧
      (arrayRemoveSorted values sortedValues).1.length + (arrayRemoveSorted values sortedValues).2 =
        values.length := by
  rw [arrayRemoveSorted]
  split
  · rename_i happart
    refine ⟨?_, rfl⟩
    rw [eq_comm, List.filter_eq_self]
    intro v hv
    refine decide_eq_true ?_
    intro hvR
    rcases happart with rfl | rfl | hlast
    · cases hv
    · cases hvR
    have hav := le_getLast_of_mem hasc hv
    have hbv := headD_le_of_mem hsorted hvR
    omega
  · have hcompact := arrayCompactSorted_spec
      (decide (sortedValues.length * skewedIntersectRatioThreshold < values.length)) hasc hsorted
    simpa only [arrayCompactSorted, decide_eq_true_eq] using hcompact

end Roaring
