import Mathlib
import Roaring.Lib.Bytes
import Roaring.Lib.Search

/-!
# Reads through a window

A window is the region of a buffer that a reader may touch: a read outside it is
`outside` even where the buffer has bytes there.  A reader that is handed the
items of a window as a function asks nothing more of them than `Reads`, that the
function gives the items of a list; what the items are is then a matter of the
list alone.
-/

namespace Lib

structure Window where
  buf : List UInt8
  offset : Nat
  size : Nat

namespace Window

/-- Item `index` of the items of `width` bytes each. -/
def unit (w : Window) (width index : Nat) : Parsed Nat :=
  if (index + 1) * width ≤ w.size then getLE width w.buf (w.offset + index * width) else .outside

/-- The window lies inside its buffer. -/
def Inside (w : Window) : Prop := w.offset + w.size ≤ w.buf.length

/-- The first `n` items of a window. -/
def items (w : Window) (width n : Nat) : List Nat := units width n (w.buf.drop w.offset)

end Window

theorem getElem?_units (k : Nat) {n i : Nat} (hi : i < n) (bs : List UInt8) :
    (units k n bs)[i]? = some (leValue ((bs.drop (i * k)).take k)) := by
  induction n generalizing i bs with
  | zero => exact absurd hi (Nat.not_lt_zero i)
  | succ n ih =>
      cases i with
      | zero =>
          rw [units, List.getElem?_cons_zero, Nat.zero_mul, List.drop_zero]
      | succ i =>
          rw [units, List.getElem?_cons_succ, ih (Nat.lt_of_succ_lt_succ hi), List.drop_drop,
            Nat.succ_mul, Nat.add_comm]

/-! ## Items of a list -/

/-- A reader's access to the items of a list, by position. -/
def Reads (read : Nat → Parsed Nat) (values : List Nat) : Prop :=
  ∀ i, i < values.length → read i = .value (values.getD i 0)

theorem Reads.tail {read : Nat → Parsed Nat} {values : List Nat} (h : Reads read values) :
    Reads (fun i ↦ read (i + 1)) values.tail := by
  intro i hi
  rw [List.length_tail] at hi
  have hread := h (i + 1) (by omega)
  refine hread.trans ?_
  rw [List.getD_eq_getElem?_getD, List.getD_eq_getElem?_getD, List.getElem?_tail]

/-- The items of a window can be read when they fit. -/
theorem Window.reads {w : Window} (h : w.Inside) {width n : Nat} (hfit : n * width ≤ w.size) :
    Reads (w.unit width) (w.items width n) := by
  intro i hi
  rw [items, length_units] at hi
  have hmul : (i + 1) * width ≤ n * width := Nat.mul_le_mul_right width hi
  have hend : w.offset + i * width + width ≤ w.buf.length := by
    rw [Inside] at h
    rw [Nat.succ_mul] at hmul
    omega
  rw [unit, if_pos (hmul.trans hfit), getLE_of_le hend, items, List.getD_eq_getElem?_getD,
    getElem?_units width hi, List.drop_drop]
  rfl

/-! ## The upper bound -/

/-- The search by halves for the first of `len` items from `first` on that is above `value`. -/
def upperBound (read : Nat → Parsed Nat) (value first len : Nat) : Parsed Nat :=
  if 0 < len then do
    let half := len / 2
    let middle ← read (first + half)
    if value < middle then upperBound read value first half
    else upperBound read value (first + half + 1) (len - half - 1)
  else .value first
termination_by len

section UpperBound

variable {read : Nat → Parsed Nat} {values : List Nat} {value : Nat}

/-- Whatever the items are, the search reads inside them and ends inside them. -/
theorem upperBound_inside (h : Reads read values) (value : Nat) {first len : Nat}
    (hfit : first + len ≤ values.length) :
    ∃ r, upperBound read value first len = .value r ∧ first ≤ r ∧ r ≤ first + len := by
  induction first, len using upperBound.induct with
  | case1 first len hpos half ih1 ih2 =>
      have hhalf : half = len / 2 := rfl
      rw [upperBound, if_pos hpos]
      dsimp only
      rw [h (first + half) (by omega), Parsed.value_bind]
      split
      · obtain ⟨r, hr, hle, hge⟩ := ih1 (by omega)
        exact ⟨r, hr, hle, by omega⟩
      · obtain ⟨r, hr, hle, hge⟩ := ih2 (by omega)
        exact ⟨r, hr, by omega, by omega⟩
  | case2 first len hpos =>
      rw [upperBound, if_neg hpos]
      exact ⟨first, rfl, le_rfl, Nat.le_add_right _ _⟩

/-- Where the items above `value` are behind the others, the search finds the first of them. -/
theorem upperBound_eq (h : Reads read values) {k : Nat}
    (hk : PartitionPoint (fun i ↦ values.getD i 0 ≤ value) values.length k) {first len : Nat}
    (hlo : first ≤ k) (hhi : k ≤ first + len) (hfit : first + len ≤ values.length) :
    upperBound read value first len = .value k := by
  induction first, len using upperBound.induct with
  | case1 first len hpos half ih1 ih2 =>
      have hhalf : half = len / 2 := rfl
      have hprobe := hk.lt_iff (i := first + half) (by omega)
      rw [upperBound, if_pos hpos]
      dsimp only
      rw [h (first + half) (by omega), Parsed.value_bind]
      split
      · rename_i hlt
        have hge : ¬ first + half < k := fun hk' ↦ Nat.not_le_of_lt hlt (hprobe.mpr hk')
        exact ih1 hlo (by omega) (by omega)
      · rename_i hge
        have hlt := hprobe.mp (Nat.le_of_not_lt hge)
        exact ih2 (by omega) (by omega) (by omega)
  | case2 first len hpos =>
      rw [upperBound, if_neg hpos]
      congr 1
      omega

end UpperBound

end Lib
