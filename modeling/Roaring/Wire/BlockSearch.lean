import Mathlib
import Roaring.Wire.RankedSearch

/-!
# The block search of a sorted array

A container's lookup in its array is the block search of a frozen view over the
container's own values.  The position it ends at, and the answers read off it, are
those of the plain definitions, and every value it reads lies in the blocks.
-/

namespace Roaring

open Lib

/-! ## The lookup of a container -/

/-- The linear scan of `remaining` values from position `j` on. -/
def scanContainsIn (values : Nat → Parsed Nat) (value : Nat) : (remaining j : Nat) → Parsed Bool
  | 0, _ => .value false
  | remaining + 1, j => do
      let current ← values j
      if value ≤ current then return decide (current = value)
      else scanContainsIn values value remaining (j + 1)

/-- The vector compare of a block: all of its lanes are read. -/
def blockHas (values : Nat → Parsed Nat) (value : Nat) : (remaining j : Nat) → Parsed Bool
  | 0, _ => .value false
  | remaining + 1, j => do
      let current ← values j
      let hit ← blockHas values value remaining (j + 1)
      return decide (current = value) || hit

/-- `sorted_array_contains`; an array of 16-bit values is short enough for the signed indices. -/
def sortedArrayContains (carr : Nat → Parsed Nat) (size value : Nat) : Parsed Bool :=
  if size < arrayGap then scanContainsIn carr value size 0
  else do
    let numBlocks := size / arrayGap
    let lo ← arrayBlockSearchIn carr numBlocks value
    if lo < numBlocks then blockHas carr value arrayGap (lo * arrayGap)
    else scanContainsIn carr value (size - numBlocks * arrayGap) (numBlocks * arrayGap)

/-! ## What it reads and finds -/

variable {read : Nat → Parsed Nat} {values : List Nat}

theorem scanContainsIn_eq (h : Reads read values) (value : Nat) {remaining j : Nat}
    (hfit : j + remaining = values.length) :
    scanContainsIn read value remaining j = .value (scanContains value (values.drop j)) := by
  induction remaining generalizing j with
  | zero =>
    rw [List.drop_of_length_le (by omega)]
    rfl
  | succ remaining ih =>
    have hj : j < values.length := by omega
    rw [scanContainsIn, h j hj, Parsed.value_bind, List.drop_eq_getElem_cons hj, scanContains,
      List.getD_eq_getElem _ _ hj]
    split
    · rfl
    · exact ih (by omega)

theorem blockHas_eq (h : Reads read values) (value : Nat) {remaining j : Nat}
    (hfit : j + remaining ≤ values.length) :
    blockHas read value remaining j =
      .value (((values.drop j).take remaining).any (· = value)) := by
  induction remaining generalizing j with
  | zero => rfl
  | succ remaining ih =>
    have hj : j < values.length := by omega
    rw [blockHas, h j hj, Parsed.value_bind, ih (by omega), Parsed.value_bind,
      List.drop_eq_getElem_cons hj,
      List.take_succ_cons, List.any_cons, List.getD_eq_getElem _ _ hj]
    rfl

/-- A container's lookup is that of a frozen view, read value by value. -/
theorem sortedArrayContains_eq (h : Reads read values) (value : Nat) :
    sortedArrayContains read values.length value = .value (arrayContainsPayload values value) := by
  rw [sortedArrayContains, arrayContainsPayload]
  split
  · exact scanContainsIn_eq h value (Nat.zero_add _)
  · rename_i hlong
    have hgap : arrayGap = 16 := rfl
    have hfit : values.length / arrayGap * arrayGap ≤ values.length := Nat.div_mul_le_self _ _
    have hpos : 0 < values.length / arrayGap := Nat.div_pos (Nat.le_of_not_lt hlong) (by decide)
    obtain ⟨hsearch, -⟩ := arrayBlockSearchIn_eq h hpos hfit value
    dsimp only
    rw [hsearch, Parsed.value_bind]
    split
    · rename_i hlt
      refine blockHas_eq h value ?_
      rw [hgap] at hfit hlt ⊢
      omega
    · exact scanContainsIn_eq h value (Nat.add_sub_cancel' hfit)

/-- The lookups of a container and of a frozen view are membership, the position is the number of
values below, and the block search ends at a block or behind the last of those it reads. -/
theorem blockSearch_spec (h : Reads read values) (hasc : values.Pairwise (· < ·)) (value : Nat) :
    sortedArrayContains read values.length value = .value (decide (value ∈ values)) ∧
      arrayContainsPayload values value = decide (value ∈ values) ∧
      arrayLowerBound read values.length value = .value (values.countP (· < value)) ∧
      ∀ numBlocks, 0 < numBlocks → numBlocks * arrayGap ≤ values.length →
        ∀ readBlocks, Reads readBlocks (values.take (numBlocks * arrayGap)) →
          ∃ lo, arrayBlockSearchIn readBlocks numBlocks value = .value lo ∧ lo ≤ numBlocks := by
  have hmem : arrayContainsPayload values value = decide (value ∈ values) := by
    rw [Bool.eq_iff_iff, arrayContainsPayload_iff hasc, decide_eq_true_iff]
  refine ⟨?_, hmem, ?_, fun numBlocks hpos hfit readBlocks hreads ↦ ?_⟩
  · rw [sortedArrayContains_eq h, hmem]
  · obtain ⟨r, hr, -, hrank⟩ := arrayLowerBound_eq h value
    rw [hr, hrank hasc]
    rfl
  · have hlen : numBlocks * arrayGap ≤ (values.take (numBlocks * arrayGap)).length :=
      (List.length_take_of_le hfit).ge
    exact ⟨_, arrayBlockSearchIn_eq hreads hpos hlen value⟩

theorem blockSearch_spec_domain : sortedArrayContains Parsed.value 65536 65535 = .value true := by
  have hreads : Reads Parsed.value (List.range 65536) := fun i hi ↦ by
    rw [List.getD_eq_getElem _ _ hi, List.getElem_range]
  have hsearch := (blockSearch_spec hreads List.pairwise_lt_range 65535).1
  rw [List.length_range] at hsearch
  rw [hsearch, decide_eq_true (List.mem_range.2 (by decide))]

end Roaring
