import Mathlib
import Roaring.Lib.BlockMerge

/-!
# Matching two ascending arrays by blocks

The common values of two strictly ascending arrays are found by comparing a block of one
with a block of the other, every lane with every lane, and moving on in the array whose
block ends lower.  The pairs of blocks that meet form a staircase: a common value has been
found as soon as its place in one of the arrays has been passed.

For a difference the lanes of the block that is tested are marked while the other array
moves on below it.
-/

namespace Lib

variable {α : Type} [LinearOrder α]

/-! ## Places in an ascending array -/

section Places

variable {as : List α} {i n : Nat} {x v : α}

theorem mem_take_of_le (ha : as.Pairwise (· < ·)) (hx : as[i]? = some x) (hv : v ∈ as)
    (hle : v ≤ x) : v ∈ as.take (i + 1) := by
  rw [← List.take_append_drop (i + 1) as, List.mem_append] at hv
  refine hv.resolve_right fun hdrop ↦ ?_
  have hmem : x ∈ as.take (i + 1) := by
    obtain ⟨hi, rfl⟩ := List.getElem?_eq_some_iff.1 hx
    rw [List.take_succ_eq_append_getElem hi]
    exact List.mem_append_right _ List.mem_cons_self
  exact absurd (lt_of_take_drop ha hmem hdrop) (not_lt.2 hle)

theorem le_of_mem_take (ha : as.Pairwise (· < ·)) (hx : as[i]? = some x)
    (hv : v ∈ as.take (i + 1)) : v ≤ x := by
  obtain ⟨hi, rfl⟩ := List.getElem?_eq_some_iff.1 hx
  rw [List.take_succ_eq_append_getElem hi] at hv
  rcases List.mem_append.1 hv with hv | hv
  · refine (lt_of_take_drop ha hv ?_).le
    rw [List.drop_eq_getElem_cons hi]
    exact List.mem_cons_self
  · exact (List.mem_singleton.1 hv).le

theorem lt_of_mem_drop_succ (ha : as.Pairwise (· < ·)) (hx : as[i]? = some x)
    (hv : v ∈ as.drop (i + 1)) : x < v := by
  obtain ⟨hi, rfl⟩ := List.getElem?_eq_some_iff.1 hx
  refine lt_of_take_drop ha ?_ hv
  rw [List.take_succ_eq_append_getElem hi]
  exact List.mem_append_right _ List.mem_cons_self

theorem mem_take_add {β : Type} {xs : List β} {u : β} : u ∈ xs.take (i + n) ↔ u ∈ xs.take i ∨
    u ∈ (xs.drop i).take n := by
  rw [List.take_add, List.mem_append]

theorem mem_take_or_drop {β : Type} (xs : List β) {u : β} (i : Nat) : u ∈ xs ↔ u ∈ xs.take i ∨
    u ∈ xs.drop i := by
  rw [← List.mem_append, List.take_append_drop]

end Places

/-! ## Common values -/

/-- The cursors stand at `i` and `j`: `zs` holds the common values whose place one of them has
passed. -/
structure Matched (as bs : List α) (i j : Nat) (zs : List α) : Prop where
  ascending : zs.Pairwise (· < ·)
  mem : ∀ v, v ∈ zs ↔ (v ∈ as ∧ v ∈ bs) ∧ (v ∈ as.take i ∨ v ∈ bs.take j)

/-- The blocks of `w` values at the cursors have been compared as well. -/
structure BlocksMatched (as bs : List α) (w i j : Nat) (zs : List α) : Prop where
  ascending : zs.Pairwise (· < ·)
  mem : ∀ v, v ∈ zs ↔ (v ∈ as ∧ v ∈ bs) ∧
    (v ∈ as.take i ∨ v ∈ bs.take j ∨ (v ∈ as.take (i + w) ∧ v ∈ bs.take (j + w)))

section Common

variable {as bs zs ms : List α} {w i j : Nat} {x y : α}

theorem Matched.start (as bs : List α) : Matched as bs 0 0 [] := by
  refine ⟨List.Pairwise.nil, fun v ↦ ?_⟩
  rw [List.take_zero, List.take_zero]
  simp only [List.not_mem_nil, or_self, and_false]

theorem Matched.swap (h : Matched as bs i j zs) : Matched bs as j i zs :=
  ⟨h.ascending, fun v ↦ by rw [h.mem, and_comm (a := v ∈ as), or_comm]⟩

theorem BlocksMatched.swap (h : BlocksMatched as bs w i j zs) : BlocksMatched bs as w j i zs :=
  ⟨h.ascending, fun v ↦ by rw [h.mem, and_comm (a := v ∈ as), or_left_comm,
    and_comm (a := v ∈ as.take (i + w))]⟩

/-- The lanes of a block that are also in the other one. -/
theorem Matched.compare (h : Matched as bs i j zs) (ha : as.Pairwise (· < ·))
    (hb : bs.Pairwise (· < ·)) (hms : ms.Pairwise (· < ·))
    (hmem : ∀ v, v ∈ ms ↔ v ∈ (as.drop i).take w ∧ v ∈ (bs.drop j).take w) :
    BlocksMatched as bs w i j (zs ++ ms) := by
  refine ⟨List.pairwise_append.2 ⟨h.ascending, hms, fun u hu v hv ↦ ?_⟩, fun v ↦ ?_⟩
  · obtain ⟨hleft, hright⟩ := (hmem v).1 hv
    rcases ((h.mem u).1 hu).2 with hu | hu
    · exact lt_of_take_drop ha hu (List.mem_of_mem_take hleft)
    · exact lt_of_take_drop hb hu (List.mem_of_mem_take hright)
  · rw [List.mem_append, h.mem, hmem, mem_take_add, mem_take_add]
    constructor
    · rintro (⟨hboth, hv⟩ | ⟨hleft, hright⟩)
      · exact ⟨hboth, hv.imp_right .inl⟩
      · exact ⟨⟨List.mem_of_mem_drop (List.mem_of_mem_take hleft),
          List.mem_of_mem_drop (List.mem_of_mem_take hright)⟩,
          .inr (.inr ⟨.inr hleft, .inr hright⟩)⟩
    · rintro ⟨hboth, hv | hv | ⟨hv | hleft, hv' | hright⟩⟩
      · exact .inl ⟨hboth, .inl hv⟩
      · exact .inl ⟨hboth, .inr hv⟩
      · exact .inl ⟨hboth, .inl hv⟩
      · exact .inl ⟨hboth, .inl hv⟩
      · exact .inl ⟨hboth, .inr hv'⟩
      · exact .inr ⟨hleft, hright⟩

/-- Past the block whose last value is not above that of the other one. -/
theorem BlocksMatched.left (h : BlocksMatched as bs w i j zs) (ha : as.Pairwise (· < ·))
    (hb : bs.Pairwise (· < ·)) (hw : 0 < w)
    (hx : as[i + w - 1]? = some x) (hy : bs[j + w - 1]? = some y) (hle : x ≤ y) :
    Matched as bs (i + w) j zs := by
  have hstart : i + w - 1 + 1 = i + w := by omega
  have hstart' : j + w - 1 + 1 = j + w := by omega
  refine ⟨h.ascending, fun v ↦ ?_⟩
  rw [h.mem]
  refine and_congr_right fun hboth ↦ ?_
  constructor
  · rintro (hv | hv | hv)
    · exact .inl (mem_take_add.2 (.inl hv))
    · exact .inr hv
    · exact .inl hv.1
  · rintro (hv | hv)
    · have hlast := le_of_mem_take ha hx (hstart.symm ▸ hv)
      have hright := mem_take_of_le hb hy hboth.2 (hlast.trans hle)
      rw [hstart'] at hright
      exact .inr (.inr ⟨hv, hright⟩)
    · exact .inr (.inl hv)

theorem BlocksMatched.right (h : BlocksMatched as bs w i j zs) (ha : as.Pairwise (· < ·))
    (hb : bs.Pairwise (· < ·)) (hw : 0 < w)
    (hx : as[i + w - 1]? = some x) (hy : bs[j + w - 1]? = some y) (hle : y ≤ x) :
    Matched as bs i (j + w) zs :=
  (h.swap.left hb ha hw hy hx hle).swap

/-- Past both blocks, if they end with the same value. -/
theorem BlocksMatched.both (h : BlocksMatched as bs w i j zs) (ha : as.Pairwise (· < ·))
    (hb : bs.Pairwise (· < ·)) (hw : 0 < w)
    (hx : as[i + w - 1]? = some x) (hy : bs[j + w - 1]? = some y) (heq : x = y) :
    Matched as bs (i + w) (j + w) zs := by
  have hleft := h.left ha hb hw hx hy heq.le
  have hright := h.right ha hb hw hx hy heq.ge
  refine ⟨h.ascending, fun v ↦ ⟨fun hv ↦ ⟨((hleft.mem v).1 hv).1, ?_⟩, ?_⟩⟩
  · exact ((hleft.mem v).1 hv).2.imp_right fun hv ↦ mem_take_add.2 (.inl hv)
  · rintro ⟨hboth, hv | hv⟩
    · exact (hleft.mem v).2 ⟨hboth, .inl hv⟩
    · exact (hright.mem v).2 ⟨hboth, .inr hv⟩

/-- A value that the other side lacks from its cursor on is passed. -/
theorem Matched.pass (h : Matched as bs i j zs) (hx : as[i]? = some x) (hnot : x ∉ bs.drop j) :
    Matched as bs (i + 1) j zs := by
  refine ⟨h.ascending, fun v ↦ ?_⟩
  obtain ⟨hi, rfl⟩ := List.getElem?_eq_some_iff.1 hx
  rw [h.mem, List.take_succ_eq_append_getElem hi, List.mem_append, List.mem_singleton]
  refine and_congr_right fun hboth ↦ ?_
  constructor
  · rintro (hv | hv)
    · exact .inl (.inl hv)
    · exact .inr hv
  · rintro ((hv | rfl) | hv)
    · exact .inl hv
    · exact .inr (((mem_take_or_drop _ j).1 hboth.2).resolve_right hnot)
    · exact .inr hv

/-- Values that the other side lacks from its cursor on are passed together. -/
theorem Matched.passMany (h : Matched as bs i j zs) {n : Nat}
    (hnot : ∀ v ∈ (as.drop i).take n, v ∉ bs.drop j) :
    Matched as bs (i + n) j zs := by
  refine ⟨h.ascending, fun v ↦ ?_⟩
  rw [h.mem, mem_take_add]
  refine and_congr_right fun hboth ↦ ?_
  constructor
  · rintro (hv | hv)
    · exact .inl (.inl hv)
    · exact .inr hv
  · rintro ((hv | hv) | hv)
    · exact .inl hv
    · exact .inr (((mem_take_or_drop _ j).1 hboth.2).resolve_right (hnot v hv))
    · exact .inr hv

/-- A value at both cursors. -/
theorem Matched.both (h : Matched as bs i j zs) (ha : as.Pairwise (· < ·))
    (hb : bs.Pairwise (· < ·)) (hx : as[i]? = some x)
    (hy : bs[j]? = some x) : Matched as bs (i + 1) (j + 1) (zs ++ [x]) := by
  have hmem : ∀ v, v ∈ [x] ↔ v ∈ (as.drop i).take 1 ∧ v ∈ (bs.drop j).take 1 := by
    intro v
    obtain ⟨hi, rfl⟩ := List.getElem?_eq_some_iff.1 hx
    obtain ⟨hj, hsame⟩ := List.getElem?_eq_some_iff.1 hy
    rw [List.drop_eq_getElem_cons hi, List.drop_eq_getElem_cons hj, hsame]
    simp only [List.take_succ_cons, List.take_zero, List.mem_singleton, and_self]
  have hblocks := h.compare ha hb (List.pairwise_singleton _ x) hmem
  refine ⟨hblocks.ascending, fun v ↦ ?_⟩
  rw [hblocks.mem]
  refine and_congr_right fun hboth ↦ ?_
  constructor
  · rintro (hv | hv | hv)
    · exact .inl (mem_take_add.2 (.inl hv))
    · exact .inr (mem_take_add.2 (.inl hv))
    · exact .inl hv.1
  · rintro (hv | hv)
    · exact .inr (.inr ⟨hv, mem_take_of_le hb hy hboth.2 (le_of_mem_take ha hx hv)⟩)
    · exact .inr (.inr ⟨mem_take_of_le ha hx hboth.1 (le_of_mem_take hb hy hv), hv⟩)

/-- With one of the arrays passed all common values are found. -/
theorem Matched.all (h : Matched as bs i j zs) (hend : as.length ≤ i ∨ bs.length ≤ j) (v : α) :
    v ∈ zs ↔ v ∈ as ∧ v ∈ bs := by
  rw [h.mem]
  refine and_iff_left_of_imp fun hboth ↦ ?_
  rcases hend with hend | hend
  · rw [List.take_of_length_le hend]
    exact .inl hboth.1
  · rw [List.take_of_length_le hend]
    exact .inr hboth.2

theorem length_le_of_ascending_subset (hzs : zs.Pairwise (· < ·)) (hsub : ∀ v ∈ zs, v ∈ as) :
    zs.length ≤ as.length :=
  (List.Nodup.subperm (List.Pairwise.imp ne_of_lt hzs) hsub).length_le

/-- Common values are not more than the values of either array. -/
theorem BlocksMatched.length_le (h : BlocksMatched as bs w i j zs) :
    zs.length ≤ min as.length bs.length :=
  le_min (length_le_of_ascending_subset h.ascending fun v hv ↦ ((h.mem v).1 hv).1.1)
    (length_le_of_ascending_subset h.ascending fun v hv ↦ ((h.mem v).1 hv).1.2)

end Common

/-! ## What is left of one array -/

/-- The first `i` values of `as` are decided, `zs` are those that `bs` lacks, and the first `j`
values of `bs` lie below all but the next `w` of the others. -/
structure Subtracted (as bs : List α) (w i j : Nat) (zs : List α) : Prop where
  ascending : zs.Pairwise (· < ·)
  mem : ∀ v, v ∈ zs ↔ v ∈ as.take i ∧ v ∉ bs
  below : ∀ u ∈ bs.take j, ∀ v ∈ as.drop (i + w), u < v

section Rest

variable {as bs zs ms : List α} {w i j : Nat} {x y : α}

theorem Subtracted.start (as bs : List α) : Subtracted as bs 0 0 0 [] := by
  refine ⟨List.Pairwise.nil, fun v ↦ ?_, fun u hu ↦ ?_⟩
  · rw [List.take_zero]
    simp only [List.not_mem_nil, false_and]
  · rw [List.take_zero] at hu
    exact absurd hu List.not_mem_nil

theorem Subtracted.widen (h : Subtracted as bs 0 i j zs) (w : Nat) : Subtracted as bs w i j zs := by
  refine ⟨h.ascending, h.mem, fun u hu v hv ↦ h.below u hu v ?_⟩
  rw [← List.drop_drop] at hv
  exact List.mem_of_mem_drop hv

/-- A block of the first array is decided: what it keeps are its values that the second one
lacks. -/
theorem Subtracted.take (h : Subtracted as bs w i j zs) (ha : as.Pairwise (· < ·))
    (hms : ms.Pairwise (· < ·)) (hmem : ∀ v, v ∈ ms ↔ v ∈ (as.drop i).take w ∧ v ∉ bs) :
    Subtracted as bs 0 (i + w) j (zs ++ ms) := by
  refine ⟨List.pairwise_append.2 ⟨h.ascending, hms, fun u hu v hv ↦ ?_⟩, fun v ↦ ?_, h.below⟩
  · exact lt_of_take_drop ha ((h.mem u).1 hu).1 (List.mem_of_mem_take ((hmem v).1 hv).1)
  · rw [List.mem_append, h.mem, hmem, mem_take_add, or_and_right]

/-- Values of the second array that lie below what is left of the first one are passed. -/
theorem Subtracted.pass (h : Subtracted as bs w i j zs) {n : Nat}
    (hbelow : ∀ u ∈ (bs.drop j).take n, ∀ v ∈ as.drop (i + w), u < v) :
    Subtracted as bs w i (j + n) zs := by
  refine ⟨h.ascending, h.mem, fun u hu ↦ ?_⟩
  rcases mem_take_add.1 hu with hu | hu
  · exact h.below u hu
  · exact hbelow u hu

/-- What is decided is not more than what has been read. -/
theorem Subtracted.length_le (h : Subtracted as bs w i j zs) : zs.length ≤ i := by
  have hle := length_le_of_ascending_subset h.ascending fun v hv ↦ ((h.mem v).1 hv).1
  rw [List.length_take] at hle
  exact hle.trans (min_le_left _ _)

/-- With the second array passed all that is left of the first one stays. -/
theorem Subtracted.rest (h : Subtracted as bs 0 i j zs) (ha : as.Pairwise (· < ·))
    (hend : as.length ≤ i ∨ bs.length ≤ j) :
    (zs ++ as.drop i).Pairwise (· < ·) ∧ ∀ v, v ∈ zs ++ as.drop i ↔ v ∈ as ∧ v ∉ bs := by
  have hlacks : ∀ v ∈ as.drop i, v ∉ bs := by
    intro v hv hboth
    rcases hend with hend | hend
    · rw [List.drop_of_length_le hend] at hv
      exact List.not_mem_nil hv
    · have hbelow := h.below v (by rwa [List.take_of_length_le hend]) v hv
      exact lt_irrefl _ hbelow
  refine ⟨List.pairwise_append.2
    ⟨h.ascending, ha.sublist (List.drop_sublist _ _), fun u hu v hv ↦ ?_⟩, fun v ↦ ?_⟩
  · exact lt_of_take_drop ha ((h.mem u).1 hu).1 hv
  · rw [List.mem_append, h.mem, mem_take_or_drop as i, or_and_right]
    exact or_congr_right ⟨fun hv ↦ ⟨hv, hlacks v hv⟩, And.left⟩

end Rest

end Lib
