import Mathlib
import Roaring.Container.ArrayUnion
import Roaring.Container.ArrayUpdate
import Roaring.Container.SkewedIntersect
import Roaring.Container.VectorDifference
import Roaring.Container.VectorIntersect
import Roaring.Container.XorVector

/-!
# Which kernel combines two array containers

The set operations on array containers choose their kernel by the sizes of the sides and
by what the machine supports: a search of the smaller side where the other is much larger,
a vector kernel where both sides fill a block, and the scalar merge otherwise.  Each
choice has its own buffer and its own slack behind the result, and the buffer is cut to
the values that were written.
-/

namespace Roaring

open Lib

/-- `set_operation`. -/
inductive SetOperation where
  | bitOr
  | bitAnd
  | bitAndnot
  | bitXor
deriving DecidableEq, Repr

namespace SetOperation

/-- Which values the merge of two arrays keeps. -/
def rule : SetOperation → MergeRule
  | bitOr => ⟨true, true, true⟩
  | bitAnd => ⟨false, false, true⟩
  | bitAndnot => ⟨true, false, false⟩
  | bitXor => ⟨true, true, false⟩

/-- The operation on membership. -/
def Holds : SetOperation → Prop → Prop → Prop
  | bitOr, p, q => p ∨ q
  | bitAnd, p, q => p ∧ q
  | bitAndnot, p, q => p ∧ ¬ q
  | bitXor, p, q => (p ∧ ¬ q) ∨ (¬ p ∧ q)

theorem keeps_rule (op : SetOperation) (p q : Prop) : op.rule.Keeps p q ↔ op.Holds p q := by
  rw [MergeRule.Keeps]
  cases op with
  | bitOr =>
    simp only [rule, Holds, and_true]
    tauto
  | bitAnd => simp only [rule, Holds, Bool.false_eq_true, and_false, and_true, false_or]
  | bitAndnot => simp only [rule, Holds, Bool.false_eq_true, and_false, and_true, or_false]
  | bitXor => simp only [rule, Holds, Bool.false_eq_true, and_false, and_true, or_false]

end SetOperation

/-- What the build and the machine support. -/
structure VectorSupport where
  haveX86V4 : Bool
  haveVp2intersect : Bool
  sse42 : Bool
  neon : Bool

/-- `x86_vp2::intersect_min_side`. -/
def intersectMinSide : Nat := 16

/-- `sse42_intersect_min_side`. -/
def sse42IntersectMinSide : Nat := 8

/-- `sse42_xor_min_side`. -/
def sse42XorMinSide : Nat := 8

/-- `result.resize( count )`, behind a kernel. -/
def cut (r : Option (Nat × List Nat)) : Option (List Nat) := r.map fun r ↦ resize r.1 r.2

/-- `combine_array_array_into`: what `result` holds afterwards.  An exclusive-or fails the
assertion. -/
def combineArrayArrayInto (support : VectorSupport) (unknown : Nat → Nat) (op : SetOperation)
    (lhs rhs result : List Nat) : Option (List Nat) :=
  let sa := lhs.length
  let sb := rhs.length
  match op with
  | .bitOr =>
    cut (unionSortedScalar (.apart lhs) sa (.apart rhs) sb 0
      (resizeUninitialized unknown (sa + sb) result))
  | .bitAnd =>
    if min sa sb * skewedIntersectRatioThreshold < max sa sb then
      if sa ≤ sb then
        cut (intersectArrayArraySkewedInto (.apart lhs) sa (.apart rhs) sb
          (resizeUninitialized unknown sa result))
      else
        cut (intersectArrayArraySkewedInto (.apart rhs) sb (.apart lhs) sa
          (resizeUninitialized unknown sb result))
    else if intersectMinSide ≤ sa ∧ intersectMinSide ≤ sb ∧ support.haveVp2intersect = true then
      cut (intersectSortedUint16 (.apart lhs) sa (.apart rhs) sb
        (resizeUninitialized unknown (min sa sb + 16) result))
    else if support.sse42 = true ∧ sse42IntersectMinSide ≤ min sa sb then
      cut (intersectArrayArraySse42 (.apart lhs) sa (.apart rhs) sb
        (resizeUninitialized unknown (min sa sb + 8) result))
    else if support.sse42 = false ∧ support.neon = true then
      cut (intersectArrayArrayNeon (.apart lhs) sa (.apart rhs) sb
        (resizeUninitialized unknown (min sa sb + 8) result))
    else
      cut (intersectSortedScalar (.apart lhs) sa (.apart rhs) sb 0
        (resizeUninitialized unknown (min sa sb) result))
  | .bitAndnot =>
    cut (differenceSortedScalar (.apart lhs) sa (.apart rhs) sb 0
      (resizeUninitialized unknown sa result))
  | .bitXor => none

/-- `combine_array_array`. -/
def combineArrayArray (support : VectorSupport) (unknown : Nat → Nat) (op : SetOperation)
    (lhs rhs : List Nat) : Option (List Nat) :=
  combineArrayArrayInto support unknown op lhs rhs []

/-- `intersect_array_array_inplace`: the values of the left side afterwards. -/
def intersectArrayArrayInplace (support : VectorSupport) (lhs rhs : List Nat) : Option (List Nat) :=
  let sa := lhs.length
  let sb := rhs.length
  if min sa sb * skewedIntersectRatioThreshold < max sa sb then
    if sa ≤ sb then cut (intersectArrayArraySkewedInto (.inOut 0) sa (.apart rhs) sb lhs)
    else cut (intersectArrayArraySkewedInto (.apart rhs) sb (.inOut 0) sa lhs)
  else if support.sse42 = true then cut (intersectArrayArrayInplaceSse42 lhs (.apart rhs) sb)
  else if support.neon = true then cut (intersectArrayArrayInplaceNeon lhs (.apart rhs) sb)
  else cut (intersectSortedScalar (.inOut 0) sa (.apart rhs) sb 0 lhs)

/-- `difference_array_array_inplace`: the values of the left side afterwards. -/
def differenceArrayArrayInplace (unknown : Nat → Nat) (lhs rhs : List Nat) : Option (List Nat) :=
  (differenceSortedScalar (.inOut 0) lhs.length (.apart rhs) rhs.length 0 lhs).map fun r ↦
    resizeUninitialized unknown r.1 r.2

/-- `difference_array_array_to_vector`: what `out` holds afterwards. -/
def differenceArrayArrayToVector (support : VectorSupport)
    (unknown : Nat → Nat) (lhs rhs out : List Nat) : Option (List Nat) :=
  let sa := lhs.length
  let sb := rhs.length
  if support.sse42 = true ∧ 8 ≤ sa ∧ 8 ≤ sb then
    cut (differenceArrayArraySse42 (.apart lhs) sa (.apart rhs) sb
      (resizeUninitialized unknown (sa + 8) out))
  else cut (differenceSortedScalar (.apart lhs) sa (.apart rhs) sb 0
    (resizeUninitialized unknown sa out))

/-- `xor_array_array_to_vector`: what `out` holds afterwards. -/
def xorArrayArrayToVector (support : VectorSupport) (unknown : Nat → Nat) (lhs rhs out : List Nat) :
    Option (List Nat) :=
  let sa := lhs.length
  let sb := rhs.length
  if support.sse42 = true ∧ sse42XorMinSide ≤ sa ∧ sse42XorMinSide ≤ sb then
    cut (xorSortedUint16Sse lhs rhs (resizeUninitialized unknown (sa + sb + 8) out))
  else cut (xorSortedScalar (.apart lhs) sa (.apart rhs) sb 0
    (resizeUninitialized unknown (sa + sb) out))

/-! ## One merge behind every choice -/

section Kernels

variable {support : VectorSupport} {unknown : Nat → Nat} {lhs rhs : List Nat} {op : SetOperation}

/-- A kernel that leaves `zs` in front of its buffer, in which there is room for them. -/
theorem cut_spec {r : Option (Nat × List Nat)} {zs : List Nat} {room : Nat}
    (hfit : zs.length ≤ room) (h : LeavesValues r room zs) : cut r = some zs := by
  obtain ⟨out', rfl, hlength, hfront⟩ := h
  rw [cut, Option.map_some, resize, resizeUninitialized_shrink (by rw [hlength]; exact hfit),
    hfront]

theorem length_plainMerge_le_capacity (ha : lhs.Pairwise (· < ·)) (hb : rhs.Pairwise (· < ·))
    (op : SetOperation) :
    (plainMerge op.rule lhs rhs).length ≤ mergeCapacity op.rule lhs.length rhs.length := by
  cases op with
  | bitOr => exact length_plainMerge_le _ lhs rhs
  | bitAnd => exact length_intersection_le ha hb
  | bitAndnot =>
    refine length_le_of_ascending_subset (plainMerge_ascending ha hb) fun v hv ↦ ?_
    exact (((SetOperation.bitAndnot.keeps_rule _ _).1 ((mem_plainMerge ha hb).1 hv)).1)
  | bitXor => exact length_plainMerge_le _ lhs rhs

/-- A scalar merge into a buffer of its own. -/
theorem mergeSortedScalar_apart (op : SetOperation) (ha : lhs.Pairwise (· < ·))
    (hb : rhs.Pairwise (· < ·)) {out : List Nat}
    (hroom : mergeCapacity op.rule lhs.length rhs.length ≤ out.length) :
    LeavesValues (mergeSortedScalar op.rule (.apart lhs) lhs.length (.apart rhs) rhs.length 0 out)
      out.length (plainMerge op.rule lhs rhs) :=
  mergeSortedScalar_leaves ha hb .apart hroom .apart .apart

theorem cut_mergeSortedScalar (op : SetOperation) (ha : lhs.Pairwise (· < ·))
    (hb : rhs.Pairwise (· < ·)) {out : List Nat}
    (hroom : mergeCapacity op.rule lhs.length rhs.length ≤ out.length) :
    cut (mergeSortedScalar op.rule (.apart lhs) lhs.length (.apart rhs) rhs.length 0 out) =
      some (plainMerge op.rule lhs rhs) :=
  cut_spec ((length_plainMerge_le_capacity ha hb op).trans hroom)
    (mergeSortedScalar_apart op ha hb hroom)

/-- A scalar merge over the left side, which keeps no value of the right side alone. -/
theorem mergeSortedScalar_over (op : SetOperation) (ha : lhs.Pairwise (· < ·))
    (hb : rhs.Pairwise (· < ·)) (honly : op.rule.onlyRight = false) :
    LeavesValues (mergeSortedScalar op.rule (.inOut 0) lhs.length (.apart rhs) rhs.length 0 lhs)
      lhs.length (plainMerge op.rule lhs rhs) := by
  have hlayout : SafeLayout op.rule (.inOut 0) lhs.length (.apart rhs) rhs.length 0 := by
    refine ⟨fun offset _ ↦ ?_, Operand.not_inOut_apart⟩
    rw [honly, if_neg Bool.false_ne_true]
    exact Nat.zero_le offset
  have hroom : mergeCapacity op.rule lhs.length rhs.length ≤ lhs.length := by
    rw [mergeCapacity, honly, if_neg Bool.false_ne_true]
    split
    · exact le_rfl
    · exact min_le_left _ _
  exact mergeSortedScalar_leaves ha hb hlayout hroom .own .apart

/-- The common values do not depend on which side is searched. -/
theorem intersection_comm (ha : lhs.Pairwise (· < ·)) (hb : rhs.Pairwise (· < ·)) :
    plainMerge ⟨false, false, true⟩ rhs lhs = plainMerge ⟨false, false, true⟩ lhs rhs := by
  refine eq_intersection ha hb (plainMerge_ascending hb ha) fun v ↦ ?_
  exact (mem_plainMerge hb ha).trans ((SetOperation.bitAnd.keeps_rule _ _).trans and_comm)

theorem combineArrayArrayInto_spec (ha : lhs.Pairwise (· < ·)) (hb : rhs.Pairwise (· < ·))
    (hlow : ∀ v ∈ lhs, v < lowDomainSize) (hop : op ≠ .bitXor) (result : List Nat) :
    combineArrayArrayInto support unknown op lhs rhs result =
      some (plainMerge op.rule lhs rhs) := by
  have hslots : ∀ n, n ≤ (resizeUninitialized unknown n result).length :=
    fun n ↦ (length_resizeUninitialized unknown n result).ge
  have hfew := length_intersection_le ha hb
  cases op with
  | bitOr => exact cut_mergeSortedScalar .bitOr ha hb (hslots _)
  | bitAnd =>
    rw [combineArrayArrayInto, SetOperation.rule]
    split_ifs with hskewed hleft hwide hsse hneon
    · exact cut_spec ((hfew.trans (min_le_left _ _)).trans (hslots _))
        (intersectArrayArraySkewedInto_spec ha hb .apart .apart (hslots _))
    · rw [← intersection_comm ha hb]
      exact cut_spec (((length_intersection_le hb ha).trans (min_le_left _ _)).trans (hslots _))
        (intersectArrayArraySkewedInto_spec hb ha .apart .apart (hslots _))
    · exact cut_spec ((hfew.trans (Nat.le_add_right _ _)).trans (hslots _))
        (intersectSortedUint16_spec ha hb (hslots _))
    · exact cut_spec ((hfew.trans (Nat.le_add_right _ _)).trans (hslots _))
        (intersectArrayArrayWith_spec walkBlocksSse42_spec ha hb hlow (hslots _))
    · exact cut_spec ((hfew.trans (Nat.le_add_right _ _)).trans (hslots _))
        (intersectArrayArrayWith_spec walkBlocksNeon_spec ha hb hlow (hslots _))
    · exact cut_mergeSortedScalar .bitAnd ha hb (hslots _)
  | bitAndnot => exact cut_mergeSortedScalar .bitAndnot ha hb (hslots _)
  | bitXor => exact absurd rfl hop

theorem intersectArrayArrayInplace_spec (ha : lhs.Pairwise (· < ·)) (hb : rhs.Pairwise (· < ·))
    (hlow : ∀ v ∈ lhs, v < lowDomainSize) :
    intersectArrayArrayInplace support lhs rhs =
      some (plainMerge SetOperation.bitAnd.rule lhs rhs) := by
  have hfew := (length_intersection_le ha hb).trans (min_le_left _ _)
  rw [intersectArrayArrayInplace, SetOperation.rule]
  split_ifs with hskewed hleft hsse hneon
  · exact cut_spec hfew (intersectArrayArraySkewedInto_spec ha hb .own .apart le_rfl)
  · rw [← intersection_comm ha hb] at hfew ⊢
    exact cut_spec hfew
      (intersectArrayArraySkewedInto_spec hb ha .apart .own (Nat.le_of_not_le hleft))
  · exact cut_spec hfew (intersectArrayArrayInplaceWith_spec walkBlocksSse42_spec ha hb hlow)
  · exact cut_spec hfew (intersectArrayArrayInplaceWith_spec walkBlocksNeon_spec ha hb hlow)
  · exact cut_spec hfew (mergeSortedScalar_over .bitAnd ha hb rfl)

theorem differenceArrayArrayInplace_spec (ha : lhs.Pairwise (· < ·)) (hb : rhs.Pairwise (· < ·)) :
    differenceArrayArrayInplace unknown lhs rhs =
      some (plainMerge SetOperation.bitAndnot.rule lhs rhs) := by
  obtain ⟨out', hrun, hlength, hfront⟩ := mergeSortedScalar_over .bitAndnot ha hb rfl
  have hfew := length_plainMerge_le_capacity ha hb .bitAndnot
  rw [differenceArrayArrayInplace, differenceSortedScalar]
  rw [SetOperation.rule] at hrun hfront hfew ⊢
  rw [hrun, Option.map_some, resizeUninitialized_shrink (by rw [hlength]; exact hfew), hfront]

theorem differenceArrayArrayToVector_spec (ha : lhs.Pairwise (· < ·)) (hb : rhs.Pairwise (· < ·))
    (hlow : ∀ v ∈ lhs, v < lowDomainSize)
    (out : List Nat) : differenceArrayArrayToVector support unknown lhs rhs out =
      some (plainMerge SetOperation.bitAndnot.rule lhs rhs) := by
  have hslots : ∀ n, n ≤ (resizeUninitialized unknown n out).length :=
    fun n ↦ (length_resizeUninitialized unknown n out).ge
  have hfew := length_plainMerge_le_capacity ha hb .bitAndnot
  rw [differenceArrayArrayToVector]
  split
  · have hroom := (Nat.le_add_right lhs.length 8).trans (hslots _)
    exact cut_spec (hfew.trans hroom) (differenceArrayArraySse42_spec ha hb hlow hroom)
  · exact cut_mergeSortedScalar .bitAndnot ha hb (hslots _)

theorem xorArrayArrayToVector_spec (ha : lhs.Pairwise (· < ·)) (hb : rhs.Pairwise (· < ·))
    (halow : ∀ v ∈ lhs, v < lowDomainSize) (hblow : ∀ v ∈ rhs, v < lowDomainSize) (out : List Nat) :
    xorArrayArrayToVector support unknown lhs rhs out =
      some (plainMerge SetOperation.bitXor.rule lhs rhs) := by
  have hslots : ∀ n, n ≤ (resizeUninitialized unknown n out).length :=
    fun n ↦ (length_resizeUninitialized unknown n out).ge
  have hfew := length_plainMerge_le_capacity ha hb .bitXor
  rw [xorArrayArrayToVector]
  split
  · rename_i hblocks
    exact cut_spec ((hfew.trans (Nat.le_add_right _ _)).trans (hslots _))
      (xorSortedUint16Sse_spec ha hb halow hblow hblocks.2.1 hblocks.2.2 (hslots _))
  · exact cut_mergeSortedScalar .bitXor ha hb (hslots _)

/-- The result of a set operation on two array containers does not show which kernel computed it:
whatever the machine supports, whichever sizes the sides have and whatever the buffers held before,
in place or not, the values are those of the operation, ascending. -/
theorem arrayKernels_agree (ha : lhs.Pairwise (· < ·)) (hb : rhs.Pairwise (· < ·))
    (halow : ∀ v ∈ lhs, v < lowDomainSize) (hblow : ∀ v ∈ rhs, v < lowDomainSize) :
    ∃ values : SetOperation → List Nat,
      (∀ op, (values op).Pairwise (· < ·) ∧ ∀ v, v ∈ values op ↔ op.Holds (v ∈ lhs) (v ∈ rhs)) ∧
      ∀ (support : VectorSupport) (unknown : Nat → Nat) (scratch : List Nat),
        (∀ op, op ≠ .bitXor → combineArrayArrayInto support unknown op lhs rhs scratch =
          some (values op) ∧
          combineArrayArray support unknown op lhs rhs = some (values op)) ∧
        unionArrayArrayToVector support.haveX86V4 unknown lhs rhs scratch = some (values .bitOr) ∧
        unionArrayArrayInplace support.haveX86V4 false unknown lhs rhs = some (values .bitOr) ∧
        intersectArrayArrayInplace support lhs rhs = some (values .bitAnd) ∧
        differenceArrayArrayInplace unknown lhs rhs = some (values .bitAndnot) ∧
        differenceArrayArrayToVector support unknown lhs rhs scratch = some (values .bitAndnot) ∧
        xorArrayArrayToVector support unknown lhs rhs scratch = some (values .bitXor) := by
  refine ⟨fun op ↦ plainMerge op.rule lhs rhs, fun op ↦ ⟨plainMerge_ascending ha hb, fun v ↦ ?_⟩,
    fun support unknown scratch ↦ ?_⟩
  · exact (mem_plainMerge ha hb).trans (op.keeps_rule _ _)
  · exact ⟨fun op hop ↦ ⟨combineArrayArrayInto_spec ha hb halow hop scratch,
      combineArrayArrayInto_spec ha hb halow hop []⟩,
      unionArrayArrayToVector_spec scratch ha hb, unionArrayArrayInplace_spec ha hb fun h ↦
        absurd h Bool.false_ne_true,
      intersectArrayArrayInplace_spec ha hb halow, differenceArrayArrayInplace_spec ha hb,
      differenceArrayArrayToVector_spec ha hb halow scratch,
        xorArrayArrayToVector_spec ha hb halow hblow scratch⟩

end Kernels

/-- Sides of a block and more, with the smallest and the largest value of the domain. -/
theorem arrayKernels_agree_blocks :
    let lhs := List.range' 0 35
    let rhs := List.range' 17 33 ++ [65535]
    ∃ values : SetOperation → List Nat,
      (∀ op, (values op).Pairwise (· < ·) ∧ ∀ v, v ∈ values op ↔ op.Holds (v ∈ lhs) (v ∈ rhs)) ∧
      ∀ (support : VectorSupport) (unknown : Nat → Nat) (scratch : List Nat),
        (∀ op, op ≠ .bitXor →
          combineArrayArrayInto support unknown op lhs rhs scratch = some (values op) ∧
          combineArrayArray support unknown op lhs rhs = some (values op)) ∧
        unionArrayArrayToVector support.haveX86V4 unknown lhs rhs scratch = some (values .bitOr) ∧
        unionArrayArrayInplace support.haveX86V4 false unknown lhs rhs = some (values .bitOr) ∧
        intersectArrayArrayInplace support lhs rhs = some (values .bitAnd) ∧
        differenceArrayArrayInplace unknown lhs rhs = some (values .bitAndnot) ∧
        differenceArrayArrayToVector support unknown lhs rhs scratch =
          some (values .bitAndnot) ∧
        xorArrayArrayToVector support unknown lhs rhs scratch = some (values .bitXor) :=
  arrayKernels_agree (by decide) (by decide) (by decide) (by decide)

end Roaring
