import Mathlib
import Roaring.Lib.BlockMerge
import Roaring.Container.ArrayMerge

/-!
# The vector union of sorted arrays

Blocks of 32 values are merged by a bitonic network, one merged block is held back, and
each lower half is stored as a whole register, with the values that differ from the one
before in front.  The stores never reach what is still to be read, also where the first
operand lies in the buffer behind the room of the second one; the ragged ends are finished
by two scalar merges.

A register is the function of its 16-bit lanes, and each instruction is taken by what it
does to lanes.
-/

namespace Roaring

open Lib

/-! ## Registers -/

/-- The lanes of a register; those past its width are never stored. -/
abbrev Lanes := Nat → Nat

/-- The first `n` lanes in order. -/
def lanesOf (n : Nat) (v : Lanes) : List Nat := (List.range' 0 n).map v

/-- `_mm512_loadu_si512` at `p + start`. -/
def loadRegister (out : List Nat) (p : Operand) (start : Nat) : Lanes :=
  fun i ↦ p.read out (start + i)

/-- `_mm512_min_epu16`. -/
def minLanes (v t : Lanes) : Lanes := fun i ↦ min (v i) (t i)

/-- `_mm512_max_epu16`. -/
def maxLanes (v t : Lanes) : Lanes := fun i ↦ max (v i) (t i)

/-- `_mm512_mask_mov_epi16`: the lanes of `t` where the mask is set, and those of `v` elsewhere. -/
def maskMov (v : Lanes) (mask : Nat) (t : Lanes) : Lanes :=
  fun i ↦ if mask.testBit i then t i else v i

/-- `_mm512_shuffle_i64x2`: two quarters of `v`, then two of `t`, each named by two bits. -/
def shuffleQuarters (v t : Lanes) (control : Nat) : Lanes := fun i ↦
  (if i / 8 < 2 then v else t) (control / 4 ^ (i / 8) % 4 * 8 + i % 8)

/-- `_mm512_shuffle_epi32`: the pairs of lanes inside each quarter, each named by two bits. -/
def shufflePairs (v : Lanes) (control : Nat) : Lanes :=
  fun i ↦ v (i / 8 * 8 + control / 4 ^ (i / 2 % 4) % 4 * 2 + i % 2)

/-- `_mm512_rol_epi32` by 16: the lanes of each pair change places. -/
def rotatePairs (v : Lanes) : Lanes := fun i ↦ v (i / 2 * 2 + (i + 1) % 2)

/-- `_mm512_permutexvar_epi16`. -/
def permuteLanes (index : List Nat) (v : Lanes) : Lanes := fun i ↦ v (index.getD i 0 % 32)

/-- `_mm512_permutex2var_epi16`: indices from 32 on name the lanes of `w`. -/
def permuteLanes₂ (v : Lanes) (index : List Nat) (w : Lanes) : Lanes := fun i ↦
  if index.getD i 0 % 64 < 32 then v (index.getD i 0 % 64) else w (index.getD i 0 % 64 - 32)

/-- `_mm512_maskz_compress_epi16`: the lanes that are kept, in front, and zeros behind them. -/
def compressLanes (keep : Nat → Bool) (v : Lanes) : Lanes :=
  fun i ↦ (((List.range' 0 32).filter keep).map v).getD i 0

/-- `_mm512_storeu_si512` at `out + pos`. -/
def storeRegister (out : List Nat) (pos : Nat) (v : Lanes) : Option (List Nat) :=
  memmoveInto out pos (lanesOf 32 v)

/-! ## The kernel -/

/-- `bitonic_cx16`. -/
def bitonicCx16 (v t : Lanes) (hi : Nat) : Lanes := maskMov (minLanes v t) hi (maxLanes v t)

/-- `bitonic_sort32`. -/
def bitonicSort32 (v : Lanes) : Lanes :=
  let v := bitonicCx16 v (shuffleQuarters v v 0x4E) 0xFFFF0000
  let v := bitonicCx16 v (shuffleQuarters v v 0xB1) 0xFF00FF00
  let v := bitonicCx16 v (shufflePairs v 0x4E) 0xF0F0F0F0
  let v := bitonicCx16 v (shufflePairs v 0xB1) 0xCCCCCCCC
  bitonicCx16 v (rotatePairs v) 0xAAAAAAAA

def revtab : List Nat :=
  [31, 30, 29, 28, 27, 26, 25, 24, 23, 22, 21, 20, 19, 18, 17, 16, 15, 14, 13, 12, 11, 10, 9, 8, 7,
    6, 5, 4, 3, 2, 1, 0]

/-- `bitonic_merge32`: the lower half and the upper one. -/
def bitonicMerge32 (a b : Lanes) : Lanes × Lanes :=
  let br := permuteLanes revtab b
  (bitonicSort32 (minLanes a br), bitonicSort32 (maxLanes a br))

def shift1 : List Nat :=
  [32, 0, 1, 2, 3, 4, 5, 6, 7, 8, 9, 10, 11, 12, 13, 14, 15, 16, 17, 18, 19, 20, 21, 22, 23, 24, 25,
    26, 27, 28, 29, 30]

/-- `emit_unique16`: the slot behind the values that count, the new last value, and the buffer. -/
def emitUnique16 (v : Lanes) (out : List Nat) (pos last : Nat) : Option (Nat × Nat × List Nat) :=
  let prev := permuteLanes₂ v shift1 fun _ ↦ last
  let keep := fun i ↦ decide (v i ≠ prev i)
  (storeRegister out pos (compressLanes keep v)).map fun out ↦
    (pos + ((List.range' 0 32).filter keep).length, v 31, out)

structure UnionState where
  pa : Nat
  pb : Nat
  o : Nat
  vmax : Lanes
  last : Nat
  out : List Nat

/-- A turn of the loop: the block whose first value is smaller. -/
def unionTurn (a b : Operand) (s : UnionState) : Option UnionState :=
  let takeA := decide (a.read s.out (32 * s.pa) ≤ b.read s.out (32 * s.pb))
  let v := if takeA then loadRegister s.out a (32 * s.pa) else loadRegister s.out b (32 * s.pb)
  let merged := bitonicMerge32 v s.vmax
  (emitUnique16 merged.1 s.out s.o s.last).map fun r ↦
    ⟨s.pa + (if takeA then 1 else 0), s.pb + (if takeA then 0 else 1), r.1, merged.2, r.2.1, r.2.2⟩

/-- `p + n`. -/
def Operand.plus : Operand → Nat → Operand
  | .apart values, n => .apart (values.drop n)
  | .inOut offset, n => .inOut (offset + n)

/-- What is left of an operand: where, and how many values. -/
structure Rest where
  operand : Operand
  count : Nat

/-- The rest without its first value, if that is `last`. -/
def Rest.skip (out : List Nat) (last : Nat) (r : Rest) : Rest :=
  if 0 < r.count ∧ r.operand.read out 0 = last then ⟨r.operand.plus 1, r.count - 1⟩ else r

/-- A rest as an operand of a merge into another buffer. -/
def Rest.aside (out : List Nat) (r : Rest) : Operand := .apart (r.operand.block out 0 r.count)

/-- The ragged tail. -/
def unionTail (a : Operand) (sa : Nat) (b : Operand) (sb : Nat) (s : UnionState) :
    Option (Nat × List Nat) :=
  (emitUnique16 s.vmax (List.replicate 32 0) 0 s.last).bind fun pending ↦
    let restA : Rest := ⟨a.plus (32 * s.pa), sa - 32 * s.pa⟩
    let restB : Rest := ⟨b.plus (32 * s.pb), sb - 32 * s.pb⟩
    let short := (if s.pa ≠ sa / 32 then restB else restA).skip s.out s.last
    let long := (if s.pa ≠ sa / 32 then restA else restB).skip s.out s.last
    (unionSortedScalar (.apart pending.2.2) pending.1 (short.aside s.out) short.count 0
        (List.replicate 64 0)).bind fun merged ↦
      unionSortedScalar (.apart merged.2) merged.1 long.operand long.count s.o s.out

/-- `x86_v4::union_sorted_uint16`: the number of values, and the buffer. -/
def unionSortedUint16 (a : Operand) (sa : Nat) (b : Operand) (sb : Nat) (out : List Nat) :
    Option (Nat × List Nat) :=
  let first := bitonicMerge32 (loadRegister out a 0) (loadRegister out b 0)
  -- a seed that differs from the first value
  (emitUnique16 first.1 out 0 (first.1 0 ^^^ 1)).bind fun r ↦
    (loop (fun s ↦ decide (s.pa < sa / 32 ∧ s.pb < sb / 32)) (unionTurn a b) (sa / 32 + sb / 32 + 1)
      ⟨1, 1, r.1, first.2, r.2.1, r.2.2⟩).bind (unionTail a sa b sb)

/-! ## The network -/

section Network

variable {v t u w : Lanes} {d hi : Nat}

theorem bitonicCx16_eq (hmask : ∀ i < 32, hi.testBit i = decide (i / d % 2 = 1))
    (ht : ∀ i < 32, t i = v (if i / d % 2 = 0 then i + d else i - d)) {i : Nat} (hi' : i < 32) :
    bitonicCx16 v t hi i = compareExchange d v i := by
  have hbit := hmask i hi'
  have hother := ht i hi'
  rw [bitonicCx16, maskMov, compareExchange, hbit, minLanes, maxLanes, hother]
  rcases Nat.mod_two_eq_zero_or_one (i / d) with heven | hodd
  · simp [heven]
  · simp [hodd, max_comm]

/-- A layer inside the register sees the lanes of the register only. -/
theorem compareExchange_congr (hd : ∀ i < 32, i / d % 2 = 0 → i + d < 32) (h : ∀ i < 32, u i = w i)
    {i : Nat} (hi : i < 32) :
    compareExchange d u i = compareExchange d w i := by
  rw [compareExchange, compareExchange]
  split
  · rename_i heven
    rw [h i hi, h (i + d) (hd i hi heven)]
  · rw [h i hi, h (i - d) (by omega)]

/-- The five layers of the register are those of a bitonic merge. -/
theorem bitonicSort32_eq (v : Lanes) {i : Nat} (hi : i < 32) :
    bitonicSort32 v i = bitonicMerge 5 v i := by
  have h16 : ∀ i < 32, bitonicCx16 v (shuffleQuarters v v 0x4E) 0xFFFF0000 i = compareExchange 16 v
      i := fun i hi ↦
    bitonicCx16_eq (by decide) (fun i hi ↦ by
      have hindex : ∀ i < 32, 0x4E / 4 ^ (i / 8) % 4 * 8 + i % 8 = if i / 16 % 2 = 0 then i + 16
        else i - 16 := by decide
      rw [shuffleQuarters, ite_self, hindex i hi]) hi
  rw [bitonicSort32]
  generalize bitonicCx16 v (shuffleQuarters v v 0x4E) 0xFFFF0000 = v₁ at h16 ⊢
  have h8 : ∀ i < 32, bitonicCx16 v₁ (shuffleQuarters v₁ v₁ 0xB1) 0xFF00FF00 i = compareExchange 8
      (compareExchange 16 v) i := fun i hi ↦
    (bitonicCx16_eq (by decide) (fun i hi ↦ by
      have hindex : ∀ i < 32, 0xB1 / 4 ^ (i / 8) % 4 * 8 + i % 8 = if i / 8 % 2 = 0 then i + 8
        else i - 8 := by decide
      rw [shuffleQuarters, ite_self, hindex i hi]) hi).trans
        (compareExchange_congr (by decide) h16 hi)
  generalize bitonicCx16 v₁ (shuffleQuarters v₁ v₁ 0xB1) 0xFF00FF00 = v₂ at h8 ⊢
  have h4 : ∀ i < 32, bitonicCx16 v₂ (shufflePairs v₂ 0x4E) 0xF0F0F0F0 i =
      compareExchange 4 (compareExchange 8 (compareExchange 16 v)) i := fun i hi ↦
    (bitonicCx16_eq (by decide) (fun i hi ↦ by
      have hindex : ∀ i < 32, i / 8 * 8 + 0x4E / 4 ^ (i / 2 % 4) % 4 * 2 + i % 2 = if i / 4 % 2 = 0
        then i + 4 else i - 4 := by decide
      rw [shufflePairs, hindex i hi]) hi).trans (compareExchange_congr (by decide) h8 hi)
  generalize bitonicCx16 v₂ (shufflePairs v₂ 0x4E) 0xF0F0F0F0 = v₃ at h4 ⊢
  have h2 : ∀ i < 32, bitonicCx16 v₃ (shufflePairs v₃ 0xB1) 0xCCCCCCCC i =
      compareExchange 2 (compareExchange 4 (compareExchange 8 (compareExchange 16 v))) i :=
        fun i hi ↦
    (bitonicCx16_eq (by decide) (fun i hi ↦ by
      have hindex : ∀ i < 32, i / 8 * 8 + 0xB1 / 4 ^ (i / 2 % 4) % 4 * 2 + i % 2 = if i / 2 % 2 = 0
        then i + 2 else i - 2 := by decide
      rw [shufflePairs, hindex i hi]) hi).trans (compareExchange_congr (by decide) h4 hi)
  generalize bitonicCx16 v₃ (shufflePairs v₃ 0xB1) 0xCCCCCCCC = v₄ at h2 ⊢
  refine (bitonicCx16_eq (by decide) (fun i hi ↦ ?_) hi).trans
    (compareExchange_congr (by decide) h2 hi)
  have hindex : ∀ i < 32, i / 2 * 2 + (i + 1) % 2 = if i / 1 % 2 = 0 then i + 1
    else i - 1 := by decide
  rw [rotatePairs, hindex i hi, pow_zero]

theorem lanesOf_eq {n : Nat} (h : ∀ i < n, u i = w i) : lanesOf n u = lanesOf n w := by
  refine List.map_congr_left fun i hi ↦ h i ?_
  rw [List.mem_range'_1] at hi
  omega

theorem lane_le_of_ascending {n : Nat} (hasc : (lanesOf n v).Pairwise (· ≤ ·)) {i j : Nat}
    (hij : i ≤ j) (hj : j < n) : v i ≤ v j := by
  have hlane : ∀ k, (hk : k < (lanesOf n v).length) → (lanesOf n v)[k] = v k := by
    intro k hk
    simp only [lanesOf, List.getElem_map, List.getElem_range', Nat.one_mul, Nat.zero_add]
  have hlen : (lanesOf n v).length = n := by
    rw [lanesOf, List.length_map, List.length_range']
  rcases Nat.lt_or_eq_of_le hij with hlt | rfl
  · have hle := List.pairwise_iff_getElem.1 hasc i j (by omega) (by omega) hlt
    rwa [hlane, hlane] at hle
  · exact le_rfl

/-- The network merges two ascending registers. -/
theorem bitonicMerge32_spec (hu : (lanesOf 32 u).Pairwise (· ≤ ·))
    (hw : (lanesOf 32 w).Pairwise (· ≤ ·)) :
    MergedBlocks (lanesOf 32 u) (lanesOf 32 w) (lanesOf 32 (bitonicMerge32 u w).1)
    (lanesOf 32 (bitonicMerge32 u w).2) := by
  have hturned : ∀ i < 32, permuteLanes revtab w i = w (31 - i) := by
    intro i hi
    have hindex : ∀ i < 32, revtab.getD i 0 % 32 = 31 - i := by decide
    rw [permuteLanes, hindex i hi]
  rw [bitonicMerge32]
  generalize permuteLanes revtab w = turned at hturned ⊢
  -- the two halves of one merge of 64 lanes
  let joined : Lanes := fun i ↦ if i < 32 then u i else w (63 - i)
  have hjoined : ∀ i < 32, joined i = u i := fun i hi ↦ if_pos hi
  have hjoined' : ∀ i < 32, joined (32 + i) = w (31 - i) := by
    intro i hi
    have hback : 63 - (32 + i) = 31 - i := by omega
    change (if 32 + i < 32 then _ else w (63 - (32 + i))) = _
    rw [if_neg (by omega), hback]
  have hmerge :=
    bitonicMerge_blocks (k := 5) (v := joined) (fun i j hij hj ↦ lane_le_of_ascending hu hij hj)
    (fun i j hij hj ↦ lane_le_of_ascending hw hij hj) hjoined hjoined'
  have hlow : ∀ i < 32, bitonicSort32 (minLanes u turned) i = bitonicMerge 6 joined i := by
    intro i hi
    have hlanes := bitonicMerge_congr (k := 5) (p := 0) (q := 0) (u := minLanes u turned) (v :=
      compareExchange 32 joined)
      (fun j hj ↦ by
        have hj' : j < 32 := hj
        have hlower := compareExchange_low (q := 0) (v := joined) hj'
        rw [Nat.zero_mul, Nat.zero_add, Nat.zero_add, hjoined j hj, hjoined' j hj] at hlower
        rw [Nat.zero_mul, Nat.zero_add, hlower, minLanes, hturned j hj']) hi
    rw [Nat.zero_mul, Nat.zero_add] at hlanes
    exact (bitonicSort32_eq _ hi).trans hlanes
  have hhigh : ∀ i < 32, bitonicSort32 (maxLanes u turned) i = bitonicMerge 6 joined (32 + i) := by
    intro i hi
    have hlanes := bitonicMerge_congr (k := 5) (p := 0) (q := 1) (u := maxLanes u turned) (v :=
      compareExchange 32 joined)
      (fun j hj ↦ by
        have hj' : j < 32 := hj
        have hupper := compareExchange_high (q := 0) (v := joined) hj'
        rw [Nat.zero_mul, Nat.zero_add, Nat.zero_add, hjoined j hj, hjoined' j hj] at hupper
        have hmax : maxLanes u turned j = max (u j) (w (31 - j)) := by rw [maxLanes, hturned j hj']
        rw [Nat.zero_mul, Nat.zero_add, Nat.one_mul]
        exact hmax.trans hupper.symm) hi
    rw [Nat.zero_mul, Nat.zero_add, Nat.one_mul] at hlanes
    exact (bitonicSort32_eq _ hi).trans hlanes
  have hhighLanes : lanesOf 32 (bitonicSort32 (maxLanes u turned)) =
      (List.range' (2 ^ 5) (2 ^ 5)).map (bitonicMerge 6 joined) := by
    have hrange : List.range' (2 ^ 5) (2 ^ 5) = (List.range' 0 32).map (32 + ·) := by
      rw [List.map_add_range', Nat.add_zero]
      rfl
    rw [lanesOf_eq hhigh, lanesOf, hrange, List.map_map]
    rfl
  rw [lanesOf_eq hlow, hhighLanes]
  exact hmerge

end Network

/-! ## Emitting -/

section Emit

variable {v : Lanes} {out : List Nat} {pos last : Nat}

/-- Of consecutive lanes, those that differ from the lane before. -/
theorem filter_lanes_eq (v : Lanes) (last : Nat) (s n : Nat) :
    ((List.range' s n).filter fun i ↦ decide (v i ≠ if i = s then last else v (i - 1))).map v =
      uniqueAfter last ((List.range' s n).map v) := by
  induction n generalizing s last with
  | zero => rfl
  | succ n ih =>
    have hrest :
        (List.range' (s + 1) n).filter (fun i ↦ decide (v i ≠ if i = s then last else v (i - 1))) =
        (List.range' (s + 1) n).filter fun i ↦
          decide (v i ≠ if i = s + 1 then v s else v (i - 1)) := by
      refine List.filter_congr fun i hi ↦ ?_
      rw [List.mem_range'_1] at hi
      have hother : i ≠ s := by omega
      rcases Nat.lt_or_eq_of_le hi.1 with hlt | rfl
      · rw [if_neg hother, if_neg (by omega)]
      · rw [if_neg hother, if_pos rfl, Nat.add_sub_cancel]
    rw [List.range'_succ, List.filter_cons, if_pos rfl, List.map_cons, uniqueAfter, hrest]
    by_cases heq : v s = last
    · rw [if_pos heq, if_neg (by rw [decide_eq_true_eq, not_not]; exact heq), ih (v s)]
    · rw [if_neg heq, if_pos (by rw [decide_eq_true_eq]; exact heq), List.map_cons, ih (v s)]

/-- The emission stores the values that count in front of a whole register. -/
theorem emitUnique16_spec (v : Lanes) (last : Nat) (hfit : pos + 32 ≤ out.length) :
    ∃ out', emitUnique16 v out pos last = some
      (pos + (uniqueAfter last (lanesOf 32 v)).length, v 31, out') ∧
      out'.length = out.length ∧
      out'.take (pos + (uniqueAfter last (lanesOf 32 v)).length) = out.take pos ++ uniqueAfter last
        (lanesOf 32 v) ∧
      ∀ x, pos + 32 ≤ x → out'.getD x 0 = out.getD x 0 := by
  have hkeep :
      (List.range' 0 32).filter (fun i ↦ decide (v i ≠ permuteLanes₂ v shift1 (fun _ ↦ last) i)) =
      (List.range' 0 32).filter fun i ↦ decide (v i ≠ if i = 0 then last else v (i - 1)) := by
    refine List.filter_congr fun i hi ↦ ?_
    rw [List.mem_range'_1] at hi
    have hindex : ∀ i < 32, shift1.getD i 0 % 64 = if i = 0 then 32 else i - 1 := by decide
    rw [permuteLanes₂, hindex i (by omega)]
    by_cases hzero : i = 0
    · rw [if_pos hzero, if_pos hzero, if_neg (by decide)]
    · rw [if_neg hzero, if_neg hzero, if_pos (by omega)]
  have hvalues :
      ((List.range' 0 32).filter fun i ↦ decide (v i ≠ permuteLanes₂ v shift1 (fun _ ↦ last) i)).map
      v =
      uniqueAfter last (lanesOf 32 v) := by
    rw [hkeep]
    exact filter_lanes_eq v last 0 32
  have hcount :
      ((List.range' 0 32).filter fun i ↦
      decide (v i ≠ permuteLanes₂ v shift1 (fun _ ↦ last) i)).length =
      (uniqueAfter last (lanesOf 32 v)).length := by
    rw [← hvalues, List.length_map]
  have hle : (uniqueAfter last (lanesOf 32 v)).length ≤ 32 := by
    refine (length_uniqueAfter_le _ _).trans (le_of_eq ?_)
    rw [lanesOf, List.length_map, List.length_range']
  have hlanes :
      (lanesOf 32 (compressLanes (fun i ↦ decide (v i ≠ permuteLanes₂ v shift1 (fun _ ↦ last) i))
      v)).length = 32 := by
    rw [lanesOf, List.length_map, List.length_range']
  have hstored :
      (lanesOf 32
      (compressLanes (fun i ↦ decide (v i ≠ permuteLanes₂ v shift1 (fun _ ↦ last) i)) v)).take
      (uniqueAfter last (lanesOf 32 v)).length = uniqueAfter last (lanesOf 32 v) := by
    apply List.ext_getElem
    · rw [List.length_take, hlanes, min_eq_left hle]
    · intro i hi hi'
      rw [List.getElem_take]
      simp only [lanesOf, List.getElem_map, List.getElem_range', Nat.one_mul, Nat.zero_add]
      rw [compressLanes, hvalues]
      exact List.getD_eq_getElem _ _ hi'
  obtain ⟨out', hmove, hlength, hfront, hsame⟩ := memmoveInto_spec
    (lanesOf 32 (compressLanes (fun i ↦ decide (v i ≠ permuteLanes₂ v shift1 (fun _ ↦ last) i)) v))
      (hlanes.symm ▸ hfit)
  rw [hlanes] at hfront hsame
  refine ⟨out', ?_, hlength, ?_, hsame⟩
  · rw [emitUnique16, storeRegister, hmove, Option.map_some, hcount]
  · have hcut : out'.take (pos + (uniqueAfter last (lanesOf 32 v)).length) =
        (out'.take (pos + 32)).take (pos + (uniqueAfter last (lanesOf 32 v)).length) := by
      rw [List.take_take, min_eq_left (by omega)]
    have hlen : (out.take pos).length = pos := by
      rw [List.length_take]
      omega
    rw [hcut, hfront, List.take_append, hlen, Nat.add_sub_cancel_left, hstored,
      List.take_of_length_le (by rw [hlen]; exact Nat.le_add_right _ _)]

end Emit

/-! ## The blocks -/

/-- The loop has taken whole blocks of both operands: the values passed on are stored once each, one
merged block is held back, and what is left of the operands stands where it stood. -/
structure Uniting (a b : Operand) (as bs : List Nat) (size : Nat) (s : UnionState)
    (raw zs : List Nat) : Prop where
  left_le : 32 * s.pa ≤ as.length
  right_le : 32 * s.pb ≤ bs.length
  taken : Taken as bs (32 * s.pa) (32 * s.pb) raw (lanesOf 32 s.vmax)
  once : OnceEach raw zs s.last
  written : s.o = zs.length
  front : s.out.take s.o = zs
  size : s.out.length = size
  left : a.Holds s.out (32 * s.pa) as
  right : b.Holds s.out (32 * s.pb) bs

section Union

variable {a b : Operand} {as bs raw zs : List Nat} {size : Nat} {s : UnionState} {out : List Nat}

theorem length_lanesOf (n : Nat) (v : Lanes) : (lanesOf n v).length = n := by
  rw [lanesOf, List.length_map, List.length_range']

/-- The lanes of a block that is loaded. -/
theorem lanesOf_loadRegister {p : Operand} {values : List Nat} {start n : Nat}
    (h : p.Holds out start values)
    (hfit : start + n ≤ values.length) : lanesOf n (loadRegister out p start) =
      (values.drop start).take n := by
  rw [← h.block hfit]
  have hrange : List.range' start n = (List.range' 0 n).map (start + ·) := by
    rw [List.map_add_range', Nat.add_zero]
  rw [lanesOf, Operand.block, hrange, List.map_map]
  rfl

theorem ascending_le {vs : List Nat} (h : vs.Pairwise (· < ·)) : vs.Pairwise (· ≤ ·) :=
  h.imp fun h ↦ h.le

/-- All but the block that is held back has been passed on. -/
theorem Uniting.length_raw (h : Uniting a b as bs size s raw zs) :
    raw.length + 32 = 32 * s.pa + 32 * s.pb := by
  have hlen := h.taken.perm.length_eq
  rw [List.length_append, List.length_append, length_lanesOf, List.length_take, List.length_take,
    min_eq_left h.left_le,
    min_eq_left h.right_le] at hlen
  exact hlen

/-- Where the slots end that a whole register may cover. -/
theorem Uniting.slots (h : Uniting a b as bs size s raw zs) : s.o + 32 ≤ 32 * s.pa + 32 * s.pb := by
  have hlen := h.length_raw
  have hle := h.once.length_le
  rw [h.written]
  omega

theorem lanes_getLast (v : Lanes) (x : Nat) (xs : List Nat) (h : lanesOf 32 v = x :: xs) :
    (x :: xs).getLast (List.cons_ne_nil x xs) = v 31 := by
  have hlast : (lanesOf 32 v).getLast? = some (v 31) := rfl
  rw [h, List.getLast?_eq_some_getLast (List.cons_ne_nil x xs)] at hlast
  exact Option.some.inj hlast

/-- The lower half of a merge is stored; the held block and the counts move on. -/
theorem Uniting.emit (h : Uniting a b as bs size s raw zs)
    (hlayout : SafeLayout ⟨true, true, true⟩ a as.length b bs.length 0)
    (hroom : as.length + bs.length ≤ size) {pa pb : Nat} {lo hi : Lanes} (hpa : s.pa ≤ pa)
    (hpb : s.pb ≤ pb) (hleft : 32 * pa ≤ as.length) (hright : 32 * pb ≤ bs.length)
    (ht : Taken as bs (32 * pa) (32 * pb) (raw ++ lanesOf 32 lo) (lanesOf 32 hi)) :
    ∃ r zs', emitUnique16 lo s.out s.o s.last = some r ∧
      Uniting a b as bs size ⟨pa, pb, r.1, hi, r.2.1, r.2.2⟩ (raw ++ lanesOf 32 lo) zs' := by
  have hslots := h.slots
  have hsize := h.size
  have hasc := (List.pairwise_append.1 ht.ascending).1
  obtain ⟨out', hrun, hlength, hfront, hsame⟩ :=
    emitUnique16_spec lo s.last (show s.o + 32 ≤ s.out.length by omega)
  obtain ⟨x, xs, hlanes⟩ : ∃ x xs, lanesOf 32 lo = x :: xs := ⟨_, _, rfl⟩
  have honce := h.once.append (hlanes ▸ hasc)
  rw [lanes_getLast lo x xs hlanes, ← hlanes] at honce
  rw [h.front] at hfront
  have hend : s.o + (uniqueAfter s.last (lanesOf 32 lo)).length =
      (zs ++ uniqueAfter s.last (lanesOf 32 lo)).length := by
    rw [List.length_append, h.written]
  refine ⟨_, zs ++ uniqueAfter s.last (lanesOf 32 lo), hrun, hleft, hright, ht, honce, hend, hfront,
    hlength.trans hsize, ?_, ?_⟩
  · refine h.left.write (by dsimp only; omega) (fun offset hoffset ↦ ?_) hsame
    have hsafe := hlayout.left offset hoffset
    rw [if_pos rfl] at hsafe
    dsimp only
    omega
  · refine h.right.write (by dsimp only; omega) (fun offset hoffset ↦ ?_) hsame
    have hsafe := hlayout.right offset hoffset
    dsimp only
    omega

/-- A turn of the loop takes one block. -/
theorem Uniting.turn (h : Uniting a b as bs size s raw zs) (ha : as.Pairwise (· < ·))
    (hb : bs.Pairwise (· < ·)) (hlayout : SafeLayout ⟨true, true, true⟩ a as.length b bs.length 0)
    (hroom : as.length + bs.length ≤ size)
    (hpa : s.pa < as.length / 32) (hpb : s.pb < bs.length / 32) :
    ∃ s' raw' zs', unionTurn a b s = some s' ∧ Uniting a b as bs size s' raw' zs' ∧
      s'.pa + s'.pb = s.pa + s.pb + 1 := by
  have hheld := (List.pairwise_append.1 h.taken.ascending).2.1
  have hheadLeft := h.left _ le_rfl (show 32 * s.pa < as.length by omega)
  have hheadRight := h.right _ le_rfl (show 32 * s.pb < bs.length by omega)
  rw [unionTurn, hheadLeft, hheadRight]
  by_cases hle : as.getD (32 * s.pa) 0 ≤ bs.getD (32 * s.pb) 0
  · have hblock := lanesOf_loadRegister h.left (show 32 * s.pa + 32 ≤ as.length by omega)
    have hasc : (lanesOf 32 (loadRegister s.out a (32 * s.pa))).Pairwise (· ≤ ·) := by
      rw [hblock]
      exact ascending_le ((ha.sublist (List.drop_sublist _ _)).sublist (List.take_sublist _ _))
    have hmerge := bitonicMerge32_spec hasc hheld
    rw [hblock] at hmerge
    have hhead : as[32 * s.pa]? = some (as.getD (32 * s.pa) 0) := by
      rw [List.getD_eq_getElem _ _ (by omega), List.getElem?_eq_getElem]
    have htaken :=
      h.taken.step ha hb hhead (fun y hy ↦ hle.trans (getD_le_of_mem_drop hb (by omega) hy)) hmerge
    rw [← Nat.mul_succ] at htaken
    obtain ⟨r, zs', hrun, hnext⟩ :=
      h.emit hlayout hroom (Nat.le_succ _) le_rfl (by omega) h.right_le htaken
    rw [decide_eq_true hle]
    refine ⟨_, _, zs', ?_, hnext, Nat.succ_add _ _⟩
    simp only [if_true, hrun, Option.map_some]
    rfl
  · have hblock := lanesOf_loadRegister h.right (show 32 * s.pb + 32 ≤ bs.length by omega)
    have hasc : (lanesOf 32 (loadRegister s.out b (32 * s.pb))).Pairwise (· ≤ ·) := by
      rw [hblock]
      exact ascending_le ((hb.sublist (List.drop_sublist _ _)).sublist (List.take_sublist _ _))
    have hmerge := bitonicMerge32_spec hasc hheld
    rw [hblock] at hmerge
    have hhead : bs[32 * s.pb]? = some (bs.getD (32 * s.pb) 0) := by
      rw [List.getD_eq_getElem _ _ (by omega), List.getElem?_eq_getElem]
    have htaken :=
      (h.taken.swap.step hb ha hhead
      (fun y hy ↦ (not_le.1 hle).le.trans (getD_le_of_mem_drop ha (by omega) hy)) hmerge).swap
    rw [← Nat.mul_succ] at htaken
    obtain ⟨r, zs', hrun, hnext⟩ :=
      h.emit hlayout hroom le_rfl (Nat.le_succ _) h.left_le (by omega) htaken
    rw [decide_eq_false hle]
    refine ⟨_, _, zs', ?_, hnext, Nat.add_succ _ _⟩
    simp only [Bool.false_eq_true, if_false, hrun, Option.map_some]
    rfl

end Union

/-! ## The ragged tail -/

/-- A rest holds the values `vs`. -/
structure Rest.Holds (r : Rest) (out vs : List Nat) : Prop where
  count : r.count = vs.length
  values : r.operand.Holds out 0 vs

/-- Values without the first one, if that is `last`. -/
def skipFirst (last : Nat) : List Nat → List Nat
  | [] => []
  | v :: vs => if v = last then vs else v :: vs

section Tail

variable {p : Operand} {out vs ws : List Nat} {r : Rest} {last start : Nat}

theorem Operand.Holds.plus (h : p.Holds out start vs) :
    (p.plus start).Holds out 0 (vs.drop start) := by
  intro x _ hx
  rw [List.length_drop] at hx
  have hread := h (start + x) (Nat.le_add_right _ _) (by omega)
  rw [List.getD_eq_getElem?_getD, List.getElem?_drop, ← List.getD_eq_getElem?_getD, ← hread]
  cases p with
  | apart values =>
    change (values.drop start).getD x 0 = values.getD (start + x) 0
    rw [List.getD_eq_getElem?_getD, List.getElem?_drop, List.getD_eq_getElem?_getD]
  | inOut offset =>
    change out.getD (offset + start + x) 0 = out.getD (offset + (start + x)) 0
    rw [Nat.add_assoc]

/-- A rest that does not start with `last` any more. -/
theorem Rest.Holds.skip (h : r.Holds out vs) (last : Nat) :
    (r.skip out last).Holds out (skipFirst last vs) := by
  cases vs with
  | nil =>
    have hcount : ¬ 0 < r.count := by
      rw [h.count]
      exact lt_irrefl 0
    rw [Rest.skip, if_neg fun hskip ↦ hcount hskip.1]
    exact h
  | cons v vs =>
    have hcount := h.count
    rw [List.length_cons] at hcount
    have hfirst : r.operand.read out 0 = v :=
      h.values 0 le_rfl (by rw [List.length_cons]; exact Nat.succ_pos _)
    rw [Rest.skip, hfirst, skipFirst]
    by_cases heq : v = last
    · rw [if_pos ⟨by omega, heq⟩, if_pos heq]
      exact ⟨by rw [hcount, Nat.add_sub_cancel], (h.values.mono (Nat.zero_le 1)).plus⟩
    · rw [if_neg fun hskip ↦ heq hskip.2, if_neg heq]
      exact h

theorem Rest.Holds.aside (h : r.Holds out vs) : r.aside out = .apart vs := by
  rw [Rest.aside, h.values.block (by rw [h.count, Nat.zero_add]), List.drop_zero, h.count,
    List.take_length]

theorem skipFirst_spec (hasc : vs.Pairwise (· < ·)) (hle : ∀ v ∈ vs, last ≤ v) :
    (skipFirst last vs).Pairwise (· < ·) ∧ (∀ v, v ∈ skipFirst last vs ↔ v ∈ vs ∧ v ≠ last) := by
  cases vs with
  | nil => exact ⟨List.Pairwise.nil, fun v ↦ by simp [skipFirst]⟩
  | cons w vs =>
    have hgt : ∀ v ∈ vs, last < v :=
      fun v hv ↦ (hle w List.mem_cons_self).trans_lt (List.rel_of_pairwise_cons hasc hv)
    rw [skipFirst]
    split
    · rename_i heq
      refine ⟨hasc.of_cons, fun v ↦ ⟨fun hv ↦ ⟨List.mem_cons_of_mem _ hv, (hgt v hv).ne'⟩, ?_⟩⟩
      rintro ⟨hv, hne⟩
      exact (List.mem_cons.1 hv).resolve_left fun h ↦ hne (h.trans heq)
    · rename_i hne
      refine ⟨hasc, fun v ↦ ⟨fun hv ↦ ⟨hv, ?_⟩, And.left⟩⟩
      rcases List.mem_cons.1 hv with rfl | hv
      · exact hne
      · exact (hgt v hv).ne'

theorem length_skipFirst_le (last : Nat) (vs : List Nat) :
    (skipFirst last vs).length ≤ vs.length := by
  cases vs with
  | nil => exact le_rfl
  | cons w vs =>
    rw [skipFirst]
    split
    · exact Nat.le_succ _
    · exact le_rfl

/-- What is skipped moves a rest in the buffer further behind. -/
theorem Rest.skip_offset {offset : Nat} (h : (r.skip out last).operand = .inOut offset) :
    ∃ offset' ≤ offset, r.operand = .inOut offset' := by
  rw [Rest.skip] at h
  split at h
  · rcases hr : r.operand with values | offset'
    · rw [hr] at h
      cases h
    · rw [hr] at h
      cases h
      exact ⟨offset', Nat.le_succ _, rfl⟩
  · exact ⟨offset, le_rfl, h⟩

theorem mem_union (hvs : vs.Pairwise (· < ·)) (hws : ws.Pairwise (· < ·)) {v : Nat} :
    v ∈ plainMerge ⟨true, true, true⟩ vs ws ↔ v ∈ vs ∨ v ∈ ws := by
  rw [mem_plainMerge hvs hws, MergeRule.Keeps]
  tauto

theorem Operand.plus_offset {n offset : Nat} (h : p.plus n = .inOut offset) : ∃ start,
    p = .inOut start ∧ offset = start + n := by
  cases p with
  | apart values => cases h
  | inOut start =>
    cases h
    exact ⟨start, rfl, rfl⟩

/-- The two merges of the tail: the first one aside, the second one behind what is stored, where the
long rest may lie. -/
theorem finish_spec {pending ps us : List Nat} {short long : Rest} {o : Nat}
    (hps : ps.Pairwise (· < ·)) (hvs : vs.Pairwise (· < ·))
    (hus : us.Pairwise (· < ·)) (hpending : (Operand.apart pending).Holds [] 0 ps)
    (hshort : short.Holds out vs) (hlong : long.Holds out us)
    (hlayout : ∀ offset, long.operand = .inOut offset → o + (ps.length + vs.length) ≤ offset)
    (haside : ps.length + vs.length ≤ 64)
    (hroom : o + (ps.length + vs.length + us.length) ≤ out.length) :
    ∃ ws out', ((unionSortedScalar (.apart pending) ps.length (short.aside out) short.count 0
        (List.replicate 64 0)).bind fun merged ↦
        unionSortedScalar (.apart merged.2) merged.1 long.operand long.count o out) =
          some (o + ws.length, out') ∧
      out'.length = out.length ∧ out'.take (o + ws.length) = out.take o ++ ws ∧
        ws.Pairwise (· < ·) ∧
      ∀ v, v ∈ ws ↔ v ∈ ps ∨ v ∈ vs ∨ v ∈ us := by
  have hfits : mergeCapacity ⟨true, true, true⟩ ps.length vs.length ≤
      (List.replicate 64 0).length := by
    rw [List.length_replicate, mergeCapacity, if_pos rfl, if_pos rfl]
    exact haside
  obtain ⟨merged, hfirst, -, htaken⟩ :=
    mergeSortedScalar_leaves hps hvs .apart hfits hpending .apart
  have hms : (plainMerge ⟨true, true, true⟩ ps vs).Pairwise (· < ·) := plainMerge_ascending hps hvs
  have hlen := length_plainMerge_le ⟨true, true, true⟩ ps vs
  have hmem : ∀ v, v ∈ plainMerge ⟨true, true, true⟩ ps vs ↔ v ∈ ps ∨ v ∈ vs :=
    fun v ↦ mem_union hps hvs
  generalize plainMerge ⟨true, true, true⟩ ps vs = ms at hfirst htaken hms hlen hmem
  have hholds : (Operand.apart merged).Holds out 0 ms := by
    intro x _ hx
    change merged.getD x 0 = ms.getD x 0
    rw [← htaken, List.getD_eq_getElem?_getD, List.getD_eq_getElem?_getD,
      List.getElem?_take_of_lt hx]
  have hbehind : SafeLayout ⟨true, true, true⟩ (.apart merged) ms.length long.operand
      us.length o := by
    refine ⟨Operand.not_inOut_apart, fun offset hoffset ↦ ?_⟩
    exact (Nat.add_le_add_left hlen o).trans (hlayout offset hoffset)
  have hslots : o + mergeCapacity ⟨true, true, true⟩ ms.length us.length ≤ out.length := by
    rw [mergeCapacity, if_pos rfl, if_pos rfl]
    omega
  obtain ⟨out', hsecond, hlength, hfront⟩ :=
    mergeSortedScalar_spec hms hus hbehind hslots hholds hlong.values
  refine ⟨plainMerge ⟨true, true, true⟩ ms us, out', ?_, hlength, hfront,
    plainMerge_ascending hms hus, fun v ↦ ?_⟩
  · rw [hshort.aside, hshort.count, unionSortedScalar, hfirst, Option.bind_some, hlong.count]
    exact hsecond
  · rw [mem_union hms hus, hmem, or_assoc]

/-- Which rests the tail merges, and where the long one lies. -/
theorem Uniting.rests {a b : Operand} {as bs raw zs ps : List Nat} {size : Nat} {s : UnionState}
    (h : Uniting a b as bs size s raw zs)
    (hlayout : SafeLayout ⟨true, true, true⟩ a as.length b bs.length 0)
    (hroom : as.length + bs.length ≤ size)
    (hend : ¬ (s.pa < as.length / 32 ∧ s.pb < bs.length / 32))
    (ha : (skipFirst s.last (as.drop (32 * s.pa))).Pairwise (· < ·))
    (hb : (skipFirst s.last (bs.drop (32 * s.pb))).Pairwise (· < ·))
    {pending : List Nat} (hemit : emitUnique16 s.vmax (List.replicate 32 0) 0 s.last =
      some (ps.length, s.vmax 31, pending))
    (hholds : (Operand.apart pending).Holds [] 0 ps) (hps : ps.Pairwise (· < ·))
    (hlen : ps.length ≤ 32) :
    ∃ ws out', unionTail a as.length b bs.length s = some (s.o + ws.length, out') ∧
      out'.length = s.out.length ∧
      out'.take (s.o + ws.length) = s.out.take s.o ++ ws ∧ ws.Pairwise (· < ·) ∧
      ∀ v, v ∈ ws ↔ v ∈ ps ∨ v ∈ skipFirst s.last (as.drop (32 * s.pa)) ∨
        v ∈ skipFirst s.last (bs.drop (32 * s.pb)) := by
  have hslots := h.slots
  have hleftLe := h.left_le
  have hrightLe := h.right_le
  have hsize := h.size
  have hlenA := length_skipFirst_le s.last (as.drop (32 * s.pa))
  have hlenB := length_skipFirst_le s.last (bs.drop (32 * s.pb))
  rw [List.length_drop] at hlenA hlenB
  have hrestA : Rest.Holds ⟨a.plus (32 * s.pa), as.length - 32 * s.pa⟩ s.out
      (as.drop (32 * s.pa)) :=
    ⟨(List.length_drop ..).symm, h.left.plus⟩
  have hrestB : Rest.Holds ⟨b.plus (32 * s.pb), bs.length - 32 * s.pb⟩ s.out
      (bs.drop (32 * s.pb)) :=
    ⟨(List.length_drop ..).symm, h.right.plus⟩
  rw [unionTail, hemit, Option.bind_some]
  by_cases hside : s.pa = as.length / 32
  · have hnot : ¬ s.pa ≠ as.length / 32 := not_not_intro hside
    simp only [if_neg hnot]
    refine finish_spec hps ha hb hholds (hrestA.skip s.last) (hrestB.skip s.last)
      (fun offset hoffset ↦ ?_) (by omega) (by omega)
    obtain ⟨offset', hle, hrest⟩ := Rest.skip_offset hoffset
    obtain ⟨start, hstart, rfl⟩ := Operand.plus_offset hrest
    have hsafe := hlayout.right start hstart
    omega
  · simp only [if_pos hside]
    obtain ⟨ws, out', hrun, hlength, hfront, hws, hmem⟩ :=
      finish_spec hps hb ha hholds (hrestB.skip s.last) (hrestA.skip s.last)
      (fun offset hoffset ↦ show s.o + _ ≤ offset by
        obtain ⟨offset', hle, hrest⟩ := Rest.skip_offset hoffset
        obtain ⟨start, hstart, rfl⟩ := Operand.plus_offset hrest
        have hsafe := hlayout.left start hstart
        rw [if_pos rfl] at hsafe
        omega) (by omega) (by omega)
    exact ⟨ws, out', hrun, hlength, hfront, hws, fun v ↦ (hmem v).trans (or_congr_right or_comm)⟩

/-- What is stored and what the tail adds are the union. -/
theorem Uniting.append {a b : Operand} {as bs raw zs ws : List Nat} {size : Nat} {s : UnionState}
    (h : Uniting a b as bs size s raw zs) (ha : as.Pairwise (· < ·)) (hb : bs.Pairwise (· < ·))
    (hws : ws.Pairwise (· < ·))
    (hmem : ∀ v, v ∈ ws ↔
    (v ∈ lanesOf 32 s.vmax ∨ v ∈ as.drop (32 * s.pa) ∨ v ∈ bs.drop (32 * s.pb)) ∧ v ≠ s.last) :
    zs ++ ws = plainMerge ⟨true, true, true⟩ as bs := by
  have hlast := h.once.last_mem
  refine List.Pairwise.eq_of_mem_iff (r :=
    (· < ·)) (List.pairwise_append.2 ⟨h.once.ascending, hws, fun x hx y hy ↦ ?_⟩)
    (plainMerge_ascending ha hb) fun v ↦ ?_
  · obtain ⟨hy, hne⟩ := (hmem y).1 hy
    refine (h.once.le_last x ((h.once.mem x).1 hx)).trans_lt (lt_of_le_of_ne ?_ hne.symm)
    rcases hy with hy | hy | hy
    · exact (List.pairwise_append.1 h.taken.ascending).2.2 _ hlast _ hy
    · exact h.taken.before_left _ hlast _ hy
    · exact h.taken.before_right _ hlast _ hy
  · have hperm := h.taken.perm.mem_iff (a := v)
    rw [List.mem_append, List.mem_append] at hperm
    have hcut : ∀ (xs : List Nat) (n : Nat), v ∈ xs ↔ v ∈ xs.take n ∨ v ∈ xs.drop n := by
      intro xs n
      rw [← List.mem_append, List.take_append_drop]
    have hsplit : (v ∈ as ∨ v ∈ bs) ↔ (v ∈ raw ∨ v ∈ lanesOf 32 s.vmax) ∨
        (v ∈ as.drop (32 * s.pa) ∨ v ∈ bs.drop (32 * s.pb)) := by
      rw [hperm, or_or_or_comm, ← hcut, ← hcut]
    rw [List.mem_append, h.once.mem, hmem, mem_union ha hb, hsplit]
    by_cases hv : v = s.last
    · rw [hv]
      simp only [hlast, true_or]
    · simp only [ne_eq, hv, not_false_eq_true, and_true, or_assoc]

/-- The whole tail: behind the values that are stored stand those of the union above them. -/
theorem Uniting.tail {a b : Operand} {as bs raw zs : List Nat} {size : Nat} {s : UnionState}
    (h : Uniting a b as bs size s raw zs) (ha : as.Pairwise (· < ·)) (hb : bs.Pairwise (· < ·))
    (hlayout : SafeLayout ⟨true, true, true⟩ a as.length b bs.length 0)
    (hroom : as.length + bs.length ≤ size)
    (hend : ¬ (s.pa < as.length / 32 ∧ s.pb < bs.length / 32)) :
    LeavesValues (unionTail a as.length b bs.length s)
      size (plainMerge ⟨true, true, true⟩ as bs) := by
  obtain ⟨-, hheld, hbetween⟩ := List.pairwise_append.1 h.taken.ascending
  obtain ⟨hstrict, hmemPending⟩ :=
    uniqueAfter_spec (List.pairwise_cons.2 ⟨hbetween s.last h.once.last_mem, hheld⟩)
  have hlenPending := length_uniqueAfter_le s.last (lanesOf 32 s.vmax)
  rw [length_lanesOf] at hlenPending
  obtain ⟨pending, hemit, -, htaken, -⟩ :=
    emitUnique16_spec s.vmax s.last (show 0 + 32 ≤ (List.replicate 32 0).length by decide)
  rw [Nat.zero_add, List.take_zero, List.nil_append] at htaken
  rw [Nat.zero_add] at hemit
  have hpending : (Operand.apart pending).Holds [] 0 (uniqueAfter s.last (lanesOf 32 s.vmax)) := by
    intro x _ hx
    change pending.getD x 0 = (uniqueAfter s.last (lanesOf 32 s.vmax)).getD x 0
    rw [← htaken, List.getD_eq_getElem?_getD, List.getD_eq_getElem?_getD,
      List.getElem?_take_of_lt hx]
  obtain ⟨hascA, hmemA⟩ :=
    skipFirst_spec (ha.sublist (List.drop_sublist _ _)) (h.taken.before_left s.last h.once.last_mem)
  obtain ⟨hascB, hmemB⟩ :=
    skipFirst_spec (hb.sublist (List.drop_sublist _ _))
    (h.taken.before_right s.last h.once.last_mem)
  obtain ⟨ws, out', hrun, hlength, hfront, hws, hmem⟩ :=
    h.rests hlayout hroom hend hascA hascB hemit hpending hstrict.of_cons hlenPending
  have hall := h.append ha hb hws fun v ↦ by rw [hmem, hmemPending, hmemA, hmemB, or_and_right,
    or_and_right]
  refine ⟨out', ?_, hlength.trans h.size, ?_⟩
  · rw [hrun, ← hall, List.length_append, h.written]
  · rw [← hall, List.length_append, ← h.written, hfront, h.front]

/-! ## The union -/

/-- In any safe layout the kernel leaves the plain merge in front of the buffer. -/
theorem unionSortedUint16_spec {a b : Operand} {as bs : List Nat} (ha : as.Pairwise (· < ·))
    (hb : bs.Pairwise (· < ·)) (hleft : a.Holds out 0 as) (hright : b.Holds out 0 bs)
    (hlayout : SafeLayout ⟨true, true, true⟩ a as.length b bs.length 0)
    (hroom : as.length + bs.length ≤ out.length) (hblockA : 32 ≤ as.length)
    (hblockB : 32 ≤ bs.length) :
    LeavesValues (unionSortedUint16 a as.length b bs.length out)
      out.length (plainMerge ⟨true, true, true⟩ as bs) := by
  have hloadA := lanesOf_loadRegister hleft (show 0 + 32 ≤ as.length by omega)
  have hloadB := lanesOf_loadRegister hright (show 0 + 32 ≤ bs.length by omega)
  rw [List.drop_zero] at hloadA hloadB
  have hascA : (lanesOf 32 (loadRegister out a 0)).Pairwise (· ≤ ·) := by
    rw [hloadA]
    exact ascending_le (ha.sublist (List.take_sublist _ _))
  have hascB : (lanesOf 32 (loadRegister out b 0)).Pairwise (· ≤ ·) := by
    rw [hloadB]
    exact ascending_le (hb.sublist (List.take_sublist _ _))
  have hmerge := bitonicMerge32_spec hascA hascB
  rw [hloadA, hloadB] at hmerge
  have htaken := Taken.start ha hb hmerge
  rw [unionSortedUint16]
  generalize bitonicMerge32 (loadRegister out a 0) (loadRegister out b 0) = first at htaken ⊢
  have hascFirst := (List.pairwise_append.1 htaken.ascending).1
  obtain ⟨xs, hlanes⟩ : ∃ xs, lanesOf 32 first.1 = first.1 0 :: xs := ⟨_, rfl⟩
  have hseed : first.1 0 ≠ first.1 0 ^^^ 1 := by
    intro h
    have hbit := congrArg (fun n ↦ n.testBit 0) h
    rw [Nat.testBit_xor, Nat.testBit_one_zero, Bool.xor_true] at hbit
    exact (Bool.eq_not_self _).1 hbit
  have honce := OnceEach.start (hlanes ▸ hascFirst) hseed
  rw [lanes_getLast first.1 _ xs hlanes, ← hlanes] at honce
  obtain ⟨out₁, hemit, hlength₁, hfront₁, hsame₁⟩ :=
    emitUnique16_spec first.1 (first.1 0 ^^^ 1) (show 0 + 32 ≤ out.length by omega)
  rw [Nat.zero_add, List.take_zero, List.nil_append] at hfront₁
  rw [Nat.zero_add] at hemit
  have hstart : Uniting a b as bs out.length ⟨1, 1, _, first.2, first.1 31, out₁⟩
      (lanesOf 32 first.1) _ :=
    ⟨by omega, by omega, htaken, honce, rfl, hfront₁, hlength₁,
      hleft.write (Nat.zero_le _) (fun offset hoffset ↦ by
        have hsafe := hlayout.left offset hoffset
        rw [if_pos rfl] at hsafe
        omega) hsame₁,
      hright.write (Nat.zero_le _) (fun offset hoffset ↦ by
        have hsafe := hlayout.right offset hoffset
        omega) hsame₁⟩
  obtain ⟨s, hloop, ⟨raw, zs, hs⟩, hend⟩ :=
    loop_spec (fun s ↦ decide (s.pa < as.length / 32 ∧ s.pb < bs.length / 32))
    (unionTurn a b) (fun s ↦ ∃ raw zs, Uniting a b as bs out.length s raw zs)
    (fun s ↦ as.length / 32 + bs.length / 32 - (s.pa + s.pb)) (fun s hs hagain ↦ by
      obtain ⟨raw, zs, hs⟩ := hs
      obtain ⟨hpa, hpb⟩ := of_decide_eq_true hagain
      obtain ⟨s', raw', zs', hrun, hs', hmore⟩ := hs.turn ha hb hlayout hroom hpa hpb
      exact ⟨s', hrun, ⟨raw', zs', hs'⟩, by omega⟩) (as.length / 32 + bs.length / 32 + 1)
        ⟨_, _, hstart⟩ (by dsimp only; omega)
  rw [hemit, Option.bind_some, hloop, Option.bind_some]
  exact hs.tail ha hb hlayout hroom (of_decide_eq_false hend)

/-- In any layout in which what is still to be read lies behind what is stored, also in the room of
the values in front of which they lie, the kernel leaves the union, ascending, and needs no slot
more than the two sides have values. -/
theorem unionSortedUint16_unites {a b : Operand} {as bs : List Nat} (ha : as.Pairwise (· < ·))
    (hb : bs.Pairwise (· < ·)) (hleft : a.Holds out 0 as) (hright : b.Holds out 0 bs)
    (hlayout : SafeLayout ⟨true, true, true⟩ a as.length b bs.length 0)
    (hroom : as.length + bs.length ≤ out.length) (hblockA : 32 ≤ as.length)
    (hblockB : 32 ≤ bs.length) :
    ∃ n out', unionSortedUint16 a as.length b bs.length out = some (n, out') ∧
      out'.length = out.length ∧ n ≤ out'.length ∧
      (out'.take n).Pairwise (· < ·) ∧ ∀ v, v ∈ out'.take n ↔ v ∈ as ∨ v ∈ bs := by
  obtain ⟨out', hrun, hlength, htaken⟩ := unionSortedUint16_spec ha hb hleft hright hlayout hroom
    hblockA hblockB
  refine ⟨_, out', hrun, hlength, ?_, ?_, fun v ↦ ?_⟩
  · exact (length_plainMerge_le ⟨true, true, true⟩ as bs).trans (hroom.trans hlength.ge)
  · rw [htaken]
    exact plainMerge_ascending ha hb
  · rw [htaken]
    exact mem_union ha hb

end Tail

/-- The values of two blocks, the first one in the buffer behind the room of the second. -/
theorem unionSortedUint16_unites_block : ∃ n out',
    unionSortedUint16 (.inOut 32) (List.range' 0 32).length (.apart (List.range' 16 32))
      (List.range' 16 32).length (List.replicate 32 0 ++ List.range' 0 32) = some (n, out') ∧
    out'.length = (List.replicate 32 0 ++ List.range' 0 32).length ∧ n ≤ out'.length ∧
      (out'.take n).Pairwise (· < ·) ∧
      ∀ v, v ∈ out'.take n ↔ v ∈ List.range' 0 32 ∨ v ∈ List.range' 16 32 := by
  have hleft : (Operand.inOut (List.replicate 32 0).length).Holds
      (List.replicate 32 0 ++ List.range' 0 32 ++ []) 0 (List.range' 0 32) := .behind
  rw [List.length_replicate, List.append_nil] at hleft
  exact unionSortedUint16_unites (List.pairwise_lt_range' 1) (List.pairwise_lt_range' 1)
    hleft .apart
    (.behind (by decide)) (by decide) (by decide) (by decide)

end Roaring
