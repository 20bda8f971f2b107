import Mathlib
import Roaring.Lib.Search
import Roaring.Lib.Window

/-!
# Where the blocks of a sequence begin

A sequence stored in blocks is indexed through the running sums of the block
lengths: block `k` begins at `before lens k`.  The block of a position is the
last one that begins at or below it, which a search for the first block that
begins above it finds.
-/

namespace Lib

/-- The items in front of block `k`. -/
def before (lens : List Nat) (k : Nat) : Nat := (lens.take k).sum

section Before

variable {lens : List Nat} {k w : Nat}

@[simp] theorem before_zero (lens : List Nat) : before lens 0 = 0 := rfl

theorem before_succ (hk : k < lens.length) :
    before lens (k + 1) = before lens k + lens.getD k 0 := by
  rw [before, before, List.take_succ_eq_append_getElem hk, List.sum_append, List.sum_singleton,
    List.getD_eq_getElem _ _ hk]

theorem before_length (lens : List Nat) : before lens lens.length = lens.sum := by
  rw [before, List.take_length]

theorem before_mono (lens : List Nat) {i j : Nat} (h : i ≤ j) : before lens i ≤ before lens j := by
  obtain ⟨d, rfl⟩ := Nat.exists_eq_add_of_le h
  rw [before, before, List.take_add, List.sum_append]
  exact Nat.le_add_right _ _

theorem before_le_sum (lens : List Nat) (k : Nat) : before lens k ≤ lens.sum := by
  rcases Nat.le_total k lens.length with hk | hk
  · exact (before_mono lens hk).trans (before_length lens).le
  · rw [before, List.take_of_length_le hk]

/-- The block of a position, as a search for the first block behind it finds it. -/
theorem exists_block (hw : w < lens.sum) :
    ∃ k, k < lens.length ∧ PartitionPoint (fun i ↦ before lens i ≤ w) lens.length (k + 1) ∧
      before lens k ≤ w ∧ w < before lens (k + 1) := by
  have hpoint : ∃ p, PartitionPoint (fun i ↦ before lens i ≤ w) lens.length p :=
    PartitionPoint.exists_of_antitone fun i j hij _ hj ↦ (before_mono lens hij).trans hj
  obtain ⟨p, hp⟩ := hpoint
  have hne : 0 < lens.length := by
    apply List.length_pos_of_ne_nil
    rintro rfl
    exact Nat.not_lt_zero w hw
  have hpos : 0 < p := (hp.lt_iff hne).mp (Nat.zero_le w)
  obtain ⟨k, rfl⟩ := Nat.exists_eq_succ_of_ne_zero hpos.ne'
  refine ⟨k, hp.le, hp, hp.of_lt k (Nat.lt_succ_self k), ?_⟩
  rcases Nat.lt_or_eq_of_le hp.le with hlt | heq
  · exact Nat.lt_of_not_le (hp.not_of_le _ le_rfl hlt)
  · rw [show k + 1 = lens.length from heq, before_length]
    exact hw

/-- A search that leaves the first block out finds the same one. -/
theorem PartitionPoint.tail {below : Nat → Prop} {n : Nat}
    (h : PartitionPoint below (n + 1) (k + 1)) : PartitionPoint (fun i ↦ below (i + 1)) n k where
  le := Nat.le_of_succ_le_succ h.le
  of_lt i hi := h.of_lt (i + 1) (Nat.succ_lt_succ hi)
  not_of_le i hi hn := h.not_of_le (i + 1) (Nat.succ_le_succ hi) (Nat.succ_lt_succ hn)

end Before

/-- The search from the second item on ends at an item, the last one not above the
value where those are in front. -/
theorem upperBound_tail {read : Nat → Parsed Nat} {values : List Nat} (h : Reads read values)
    (value : Nat) (hpos : 0 < values.length) :
    ∃ r, upperBound (fun i ↦ read (i + 1)) value 0 (values.length - 1) = .value r ∧
      r < values.length ∧
      ∀ k, PartitionPoint (fun i ↦ values.getD i 0 ≤ value) values.length (k + 1) → r = k := by
  have hlen : values.tail.length = values.length - 1 := List.length_tail
  have hsucc : values.length - 1 + 1 = values.length := Nat.sub_add_cancel hpos
  obtain ⟨r, hr, -, hle⟩ := upperBound_inside h.tail value
    (show 0 + (values.length - 1) ≤ values.tail.length by omega)
  refine ⟨r, hr, by omega, fun k hk ↦ ?_⟩
  rw [← hsucc] at hk
  have htail : PartitionPoint (fun i ↦ values.tail.getD i 0 ≤ value) values.tail.length k := by
    have hgetD : ∀ i, values.tail.getD i 0 = values.getD (i + 1) 0 := by
      intro i
      rw [List.getD_eq_getElem?_getD, List.getD_eq_getElem?_getD, List.getElem?_tail]
    simp only [hgetD, hlen]
    exact hk.tail
  have hk' := upperBound_eq h.tail htail (Nat.zero_le k)
    (show k ≤ 0 + (values.length - 1) by have := htail.le; omega) (by omega)
  rw [hr] at hk'
  injection hk'

/-- The item at a position is found in its block. -/
theorem getElem?_flatMap_of_before {α β : Type} (f : α → List β) {l : List α} {k w : Nat} {a : α}
    (hk : l[k]? = some a) (hlo : before (l.map fun a ↦ (f a).length) k ≤ w)
    (hhi : w < before (l.map fun a ↦ (f a).length) (k + 1)) :
    (l.flatMap f)[w]? = (f a)[w - before (l.map fun a ↦ (f a).length) k]? := by
  obtain ⟨hlt, rfl⟩ := List.getElem?_eq_some_iff.mp hk
  have hfront : ((l.take k).flatMap f).length = before (l.map fun a ↦ (f a).length) k := by
    rw [List.length_flatMap, before, List.map_take]
  rw [before_succ (by rwa [List.length_map]), List.getD_eq_getElem _ _ (by rwa [List.length_map]),
    List.getElem_map] at hhi
  conv_lhs => rw [← List.take_append_drop k l, List.drop_eq_getElem_cons hlt]
  rw [List.flatMap_append, List.flatMap_cons, List.getElem?_append_right (hfront.trans_le hlo),
    hfront,
    List.getElem?_append_left (by omega)]

end Lib
