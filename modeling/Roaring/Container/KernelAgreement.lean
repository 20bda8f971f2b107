import Mathlib
import Roaring.Container.ArrayCombine

/-!
# The array kernels beside the plain merge

Block by block, by a search of the smaller side or value by value, and also over the operand they
are still reading, the kernels leave what the plain merge of the two sides keeps.  Each of them has
the slots its contract asks for and no others: a store outside them would leave no result.
-/

namespace Roaring

open Lib

section Kernels

variable {as bs : List Nat}

theorem mem_common (ha : as.Pairwise (· < ·)) (hb : bs.Pairwise (· < ·)) (v : Nat) :
    v ∈ plainMerge ⟨false, false, true⟩ as bs ↔ v ∈ as ∧ v ∈ bs :=
  (mem_plainMerge ha hb).trans (SetOperation.bitAnd.keeps_rule _ _)

theorem mem_missing (ha : as.Pairwise (· < ·)) (hb : bs.Pairwise (· < ·)) (v : Nat) :
    v ∈ plainMerge ⟨true, false, false⟩ as bs ↔ v ∈ as ∧ v ∉ bs :=
  (mem_plainMerge ha hb).trans (SetOperation.bitAndnot.keeps_rule _ _)

theorem mem_differing (ha : as.Pairwise (· < ·)) (hb : bs.Pairwise (· < ·)) (v : Nat) :
    v ∈ plainMerge ⟨true, true, false⟩ as bs ↔ v ∈ as ∧ v ∉ bs ∨ v ∉ as ∧ v ∈ bs :=
  (mem_plainMerge ha hb).trans (SetOperation.bitXor.keeps_rule _ _)

/-- The search of one side in the other, into slots of its own and over either side. -/
theorem skewed_leaves (ha : as.Pairwise (· < ·)) (hb : bs.Pairwise (· < ·)) :
    (∀ out : List Nat, as.length ≤ out.length →
      LeavesValues (intersectArrayArraySkewedInto (.apart as) as.length (.apart bs) bs.length out)
        out.length (plainMerge ⟨false, false, true⟩ as bs)) ∧
    LeavesValues (intersectArrayArraySkewedInto (.inOut 0) as.length (.apart bs) bs.length as)
      as.length (plainMerge ⟨false, false, true⟩ as bs) ∧
    (as.length ≤ bs.length →
      LeavesValues (intersectArrayArraySkewedInto (.apart as) as.length (.inOut 0) bs.length bs)
        bs.length (plainMerge ⟨false, false, true⟩ as bs)) :=
  ⟨fun _ hroom ↦ intersectArrayArraySkewedInto_spec ha hb .apart .apart hroom,
    intersectArrayArraySkewedInto_spec ha hb .own .apart le_rfl,
    fun hroom ↦ intersectArrayArraySkewedInto_spec ha hb .apart .own hroom⟩

/-- The union kernels in the layout of the union in place: the first side stands behind as many
slots as the second one has values, or more. -/
theorem unionSortedScalar_behind (ha : as.Pairwise (· < ·)) (hb : bs.Pairwise (· < ·))
    {front slack : List Nat} (hfront : bs.length ≤ front.length) :
    LeavesValues (unionSortedScalar (.inOut front.length) as.length (.apart bs) bs.length 0
        (front ++ as ++ slack))
      (front ++ as ++ slack).length (plainMerge ⟨true, true, true⟩ as bs) := by
  have hroom : mergeCapacity ⟨true, true, true⟩ as.length bs.length ≤
      (front ++ as ++ slack).length := by
    rw [mergeCapacity, if_pos rfl, if_pos rfl, List.length_append, List.length_append]
    omega
  exact mergeSortedScalar_leaves ha hb (.behind ((Nat.zero_add _).le.trans hfront)) hroom
    .behind .apart

theorem unionSortedUint16_behind (ha : as.Pairwise (· < ·)) (hb : bs.Pairwise (· < ·))
    {front slack : List Nat} (hfront : bs.length ≤ front.length) (hblockA : 32 ≤ as.length)
    (hblockB : 32 ≤ bs.length) :
    LeavesValues (unionSortedUint16 (.inOut front.length) as.length (.apart bs) bs.length
        (front ++ as ++ slack))
      (front ++ as ++ slack).length (plainMerge ⟨true, true, true⟩ as bs) := by
  have hroom : as.length + bs.length ≤ (front ++ as ++ slack).length := by
    rw [List.length_append, List.length_append]
    omega
  exact unionSortedUint16_spec ha hb .behind .apart (.behind ((Nat.zero_add _).le.trans hfront))
    hroom
    hblockA hblockB

/-- Every kernel of the intersection, and every kernel of the difference, leaves what the plain
merge does, in the slots of its contract: the block kernels into their own buffer or over the
first side, the search of the smaller side, and the scalar merges, apart and over the first side. -/
theorem intersectDifferenceKernels_agree (ha : as.Pairwise (· < ·)) (hb : bs.Pairwise (· < ·))
    (hlow : ∀ v ∈ as, v < lowDomainSize) :
    let common := plainMerge ⟨false, false, true⟩ as bs
    let missing := plainMerge ⟨true, false, false⟩ as bs
    (common.Pairwise (· < ·) ∧ ∀ v, v ∈ common ↔ v ∈ as ∧ v ∈ bs) ∧
    (missing.Pairwise (· < ·) ∧ ∀ v, v ∈ missing ↔ v ∈ as ∧ v ∉ bs) ∧
    (∀ out : List Nat, min as.length bs.length + 8 ≤ out.length →
      LeavesValues (intersectArrayArraySse42 (.apart as) as.length (.apart bs) bs.length out)
        out.length common ∧
      LeavesValues (intersectArrayArrayNeon (.apart as) as.length (.apart bs) bs.length out)
        out.length common) ∧
    (∀ out : List Nat, min as.length bs.length + 16 ≤ out.length →
      LeavesValues (intersectSortedUint16 (.apart as) as.length (.apart bs) bs.length out)
        out.length common) ∧
    LeavesValues (intersectArrayArrayInplaceSse42 as (.apart bs) bs.length) as.length common ∧
    LeavesValues (intersectArrayArrayInplaceNeon as (.apart bs) bs.length) as.length common ∧
    (∀ out : List Nat, as.length ≤ out.length →
      LeavesValues (intersectArrayArraySkewedInto (.apart as) as.length (.apart bs) bs.length out)
        out.length common) ∧
    LeavesValues (intersectArrayArraySkewedInto (.inOut 0) as.length (.apart bs) bs.length as)
      as.length common ∧
    (as.length ≤ bs.length →
      LeavesValues (intersectArrayArraySkewedInto (.apart as) as.length (.inOut 0) bs.length bs)
        bs.length common) ∧
    (∀ out : List Nat, min as.length bs.length ≤ out.length →
      LeavesValues (intersectSortedScalar (.apart as) as.length (.apart bs) bs.length 0 out)
        out.length common) ∧
    LeavesValues (intersectSortedScalar (.inOut 0) as.length (.apart bs) bs.length 0 as)
      as.length common ∧
    (∀ out : List Nat, as.length ≤ out.length →
      LeavesValues (differenceArrayArraySse42 (.apart as) as.length (.apart bs) bs.length out)
        out.length missing ∧
      LeavesValues (differenceSortedScalar (.apart as) as.length (.apart bs) bs.length 0 out)
        out.length missing) ∧
    LeavesValues (differenceSortedScalar (.inOut 0) as.length (.apart bs) bs.length 0 as)
      as.length missing := by
  intro common missing
  obtain ⟨hskewed, hskewedOver, hskewedOnto⟩ := skewed_leaves ha hb
  refine ⟨⟨plainMerge_ascending ha hb, mem_common ha hb⟩,
    ⟨plainMerge_ascending ha hb, mem_missing ha hb⟩, fun out hroom ↦ ⟨?_, ?_⟩,
    fun out hroom ↦ ?_, ?_, ?_, hskewed, hskewedOver, hskewedOnto, fun out hroom ↦ ?_, ?_,
    fun out hroom ↦ ⟨?_, ?_⟩, ?_⟩
  · exact intersectArrayArrayWith_spec walkBlocksSse42_spec ha hb hlow hroom
  · exact intersectArrayArrayWith_spec walkBlocksNeon_spec ha hb hlow hroom
  · exact intersectSortedUint16_spec ha hb hroom
  · exact intersectArrayArrayInplaceWith_spec walkBlocksSse42_spec ha hb hlow
  · exact intersectArrayArrayInplaceWith_spec walkBlocksNeon_spec ha hb hlow
  · exact mergeSortedScalar_apart .bitAnd ha hb hroom
  · exact mergeSortedScalar_over .bitAnd ha hb rfl
  · exact differenceArrayArraySse42_spec ha hb hlow hroom
  · exact mergeSortedScalar_apart .bitAndnot ha hb hroom
  · exact mergeSortedScalar_over .bitAndnot ha hb rfl

/-- Two blocks and a remainder on the left side, zero among the values of both sides. -/
theorem intersectDifferenceKernels_agree_blocks :
    let as := List.range' 0 19
    let bs := 0 :: List.range' 5 20
    let room := List.replicate 35 7
    let common := plainMerge ⟨false, false, true⟩ as bs
    let missing := plainMerge ⟨true, false, false⟩ as bs
    (common.Pairwise (· < ·) ∧ ∀ v, v ∈ common ↔ v ∈ as ∧ v ∈ bs) ∧
    (missing.Pairwise (· < ·) ∧ ∀ v, v ∈ missing ↔ v ∈ as ∧ v ∉ bs) ∧
    LeavesValues (intersectArrayArraySse42 (.apart as) as.length (.apart bs) bs.length room)
      room.length common ∧
    LeavesValues (intersectArrayArrayNeon (.apart as) as.length (.apart bs) bs.length room)
      room.length common ∧
    LeavesValues (intersectSortedUint16 (.apart as) as.length (.apart bs) bs.length room)
      room.length common ∧
    LeavesValues (intersectArrayArrayInplaceSse42 as (.apart bs) bs.length) as.length common ∧
    LeavesValues (intersectArrayArrayInplaceNeon as (.apart bs) bs.length) as.length common ∧
    LeavesValues (intersectArrayArraySkewedInto (.apart as) as.length (.apart bs) bs.length room)
      room.length common ∧
    LeavesValues (intersectArrayArraySkewedInto (.inOut 0) as.length (.apart bs) bs.length as)
      as.length common ∧
    LeavesValues (intersectArrayArraySkewedInto (.apart as) as.length (.inOut 0) bs.length bs)
      bs.length common ∧
    LeavesValues (intersectSortedScalar (.apart as) as.length (.apart bs) bs.length 0 room)
      room.length common ∧
    LeavesValues (intersectSortedScalar (.inOut 0) as.length (.apart bs) bs.length 0 as)
      as.length common ∧
    LeavesValues (differenceArrayArraySse42 (.apart as) as.length (.apart bs) bs.length room)
      room.length missing ∧
    LeavesValues (differenceSortedScalar (.apart as) as.length (.apart bs) bs.length 0 room)
      room.length missing ∧
    LeavesValues (differenceSortedScalar (.inOut 0) as.length (.apart bs) bs.length 0 as)
      as.length missing := by
  intro as bs room common missing
  obtain ⟨hcommon, hmissing, hblocks, hwide, hsseOver, hneonOver, hskewed, hskewedOver, hskewedOnto,
      hscalar, hscalarOver, hdifference, hdifferenceOver⟩ :=
    @intersectDifferenceKernels_agree as bs (by decide) (by decide) (by decide)
  exact ⟨hcommon, hmissing, (hblocks room (by decide)).1, (hblocks room (by decide)).2,
    hwide room (by decide), hsseOver, hneonOver, hskewed room (by decide), hskewedOver,
    hskewedOnto (by decide), hscalar room (by decide), hscalarOver,
    (hdifference room (by decide)).1, (hdifference room (by decide)).2, hdifferenceOver⟩

/-- Every kernel of the union, and every kernel of the exclusive-or, leaves what the plain merge
does: the block kernels on sides of a block or more, the scalar merges, the backward merge, and
where the first side stands in the buffer behind the room of the second. -/
theorem unionXorKernels_agree (ha : as.Pairwise (· < ·)) (hb : bs.Pairwise (· < ·))
    (halow : ∀ v ∈ as, v < lowDomainSize) (hblow : ∀ v ∈ bs, v < lowDomainSize) :
    let union := plainMerge ⟨true, true, true⟩ as bs
    let differing := plainMerge ⟨true, true, false⟩ as bs
    (union.Pairwise (· < ·) ∧ ∀ v, v ∈ union ↔ v ∈ as ∨ v ∈ bs) ∧
    (differing.Pairwise (· < ·) ∧ ∀ v, v ∈ differing ↔ v ∈ as ∧ v ∉ bs ∨ v ∉ as ∧ v ∈ bs) ∧
    (∀ out : List Nat, as.length + bs.length ≤ out.length →
      LeavesValues (unionSortedScalar (.apart as) as.length (.apart bs) bs.length 0 out)
        out.length union ∧
      LeavesValues (xorSortedScalar (.apart as) as.length (.apart bs) bs.length 0 out)
        out.length differing) ∧
    (∀ front slack : List Nat, bs.length ≤ front.length →
      LeavesValues (unionSortedScalar (.inOut front.length) as.length (.apart bs) bs.length 0
          (front ++ as ++ slack))
        (front ++ as ++ slack).length union) ∧
    (∀ (haveX86V4 : Bool) (unknown : Nat → Nat),
      unionArrayArrayInplace haveX86V4 false unknown as bs = some union) ∧
    (32 ≤ as.length → 32 ≤ bs.length →
      (∀ out : List Nat, as.length + bs.length ≤ out.length →
        LeavesValues (unionSortedUint16 (.apart as) as.length (.apart bs) bs.length out)
          out.length union) ∧
      ∀ front slack : List Nat, bs.length ≤ front.length →
        LeavesValues (unionSortedUint16 (.inOut front.length) as.length (.apart bs) bs.length
            (front ++ as ++ slack))
          (front ++ as ++ slack).length union) ∧
    (8 ≤ as.length → 8 ≤ bs.length →
      ∀ out : List Nat, as.length + bs.length + 8 ≤ out.length →
        LeavesValues (xorSortedUint16Sse as bs out) out.length differing) := by
  intro union differing
  refine ⟨⟨plainMerge_ascending ha hb, fun v ↦ mem_union ha hb⟩,
    ⟨plainMerge_ascending ha hb, mem_differing ha hb⟩, fun out hroom ↦ ⟨?_, ?_⟩,
    fun front slack hfront ↦ unionSortedScalar_behind ha hb hfront, fun haveX86V4 unknown ↦ ?_,
    fun hblockA hblockB ↦ ⟨fun out hroom ↦ ?_, fun front slack hfront ↦ ?_⟩,
    fun hblockA hblockB out hroom ↦ ?_⟩
  · exact mergeSortedScalar_apart .bitOr ha hb hroom
  · exact mergeSortedScalar_apart .bitXor ha hb hroom
  · exact unionArrayArrayInplace_spec ha hb fun h ↦ absurd h Bool.false_ne_true
  · exact unionSortedUint16_spec ha hb .apart .apart .apart hroom hblockA hblockB
  · exact unionSortedUint16_behind ha hb hfront hblockA hblockB
  · exact xorSortedUint16Sse_spec ha hb halow hblow hblockA hblockB hroom

end Kernels

/-- A block and more on both sides, with the smallest and the largest value of the domain. -/
theorem unionXorKernels_agree_blocks :
    let as := List.range' 0 35
    let bs := List.range' 17 33 ++ [65535]
    let room := List.replicate 101 7
    let front := List.replicate 34 7
    let union := plainMerge ⟨true, true, true⟩ as bs
    let differing := plainMerge ⟨true, true, false⟩ as bs
    (union.Pairwise (· < ·) ∧ ∀ v, v ∈ union ↔ v ∈ as ∨ v ∈ bs) ∧
    (differing.Pairwise (· < ·) ∧ ∀ v, v ∈ differing ↔ v ∈ as ∧ v ∉ bs ∨ v ∉ as ∧ v ∈ bs) ∧
    LeavesValues (unionSortedScalar (.apart as) as.length (.apart bs) bs.length 0 room)
      room.length union ∧
    LeavesValues (xorSortedScalar (.apart as) as.length (.apart bs) bs.length 0 room)
      room.length differing ∧
    LeavesValues (unionSortedScalar (.inOut front.length) as.length (.apart bs) bs.length 0
        (front ++ as ++ []))
      (front ++ as ++ []).length union ∧
    unionArrayArrayInplace false false (fun _ ↦ 7) as bs = some union ∧
    unionArrayArrayInplace true false (fun _ ↦ 7) as bs = some union ∧
    LeavesValues (unionSortedUint16 (.apart as) as.length (.apart bs) bs.length room)
      room.length union ∧
    LeavesValues (unionSortedUint16 (.inOut front.length) as.length (.apart bs) bs.length
        (front ++ as ++ []))
      (front ++ as ++ []).length union ∧
    LeavesValues (xorSortedUint16Sse as bs room) room.length differing := by
  intro as bs room front union differing
  obtain ⟨hunion, hdiffering, hscalar, hbehind, hinplace, hvector, hxor⟩ :=
    @unionXorKernels_agree as bs (by decide) (by decide) (by decide) (by decide)
  obtain ⟨hapart, hvectorBehind⟩ := hvector (by decide) (by decide)
  have hfront : bs.length ≤ front.length := by decide
  exact ⟨hunion, hdiffering, (hscalar room (by decide)).1, (hscalar room (by decide)).2,
    hbehind front [] hfront, hinplace false _, hinplace true _, hapart room (by decide),
    hvectorBehind front [] hfront, hxor (by decide) (by decide) room (by decide)⟩

end Roaring
