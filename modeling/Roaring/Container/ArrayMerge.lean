import Mathlib
import Roaring.Lib.SetMerge
import Roaring.Lib.Slots

/-!
# Scalar merges of sorted arrays

The four set operations on sorted arrays are one merge with different rules: while four
values remain on each side it looks for a block of four to handle at once, otherwise it
takes branchless steps that write a value whether it is kept or not.

A buffer is a list, and an operand lies in memory of its own or in the buffer that is
written: the reads are made from the buffer as it is then, and a write outside the buffer
has no result.  Which layouts are safe is read off the number of values written so far.
-/

namespace Roaring

open Lib

/-! ## Buffers -/

/-- Where an operand lies: in memory of its own, or in the buffer that is written, from an offset
on. -/
inductive Operand where
  | apart (values : List Nat)
  | inOut (offset : Nat)

namespace Operand

/-- `p[ i ]`. -/
def read (out : List Nat) : Operand → Nat → Nat
  | apart values, i => values.getD i 0
  | inOut offset, i => out.getD (offset + i) 0

/-- The `n` values from `p + i` on. -/
def block (out : List Nat) (p : Operand) (i n : Nat) : List Nat :=
  (List.range' i n).map (p.read out)

end Operand

/-- `memmove( out + pos, .. )`. -/
def memmoveInto (out : List Nat) (pos : Nat) (values : List Nat) : Option (List Nat) :=
  if pos + values.length ≤ out.length then
    some (out.take pos ++ values ++ out.drop (pos + values.length)) else none

/-! ## The merge -/

structure MergeState where
  i : Nat
  j : Nat
  k : Nat
  out : List Nat

/-- What a branchless step writes: the smaller value where the right side is kept, and the left one
otherwise. -/
def writtenValue (rule : MergeRule) (x y : Nat) : Nat :=
  if rule.onlyRight then if x < y then x else y else x

/-- Whether a branchless step keeps what it has written. -/
def keepsValue (rule : MergeRule) (x y : Nat) : Bool :=
  if x < y then rule.onlyLeft else if y < x then rule.onlyRight else rule.both

/-- A branchless step. -/
def mergeStep (rule : MergeRule) (a b : Operand) (s : MergeState) : Option MergeState :=
  let x := a.read s.out s.i
  let y := b.read s.out s.j
  (store s.out s.k (writtenValue rule x y)).map fun out ↦
    ⟨s.i + (if x ≤ y then 1 else 0), s.j + (if y ≤ x then 1 else 0),
      s.k + (if keepsValue rule x y then 1 else 0), out⟩

/-- The copy of `n` values, where they are kept: the next slot, and the buffer. -/
def copyBlock (keeps : Bool) (out : List Nat) (k : Nat) (p : Operand) (i n : Nat) :
    Option (Nat × List Nat) :=
  if keeps then (memmoveInto out k (p.block out i n)).map fun out ↦ (k + n, out) else some (k, out)

/-- A turn of the loop by four. -/
def mergeFours (rule : MergeRule) (a b : Operand) (s : MergeState) : Option MergeState :=
  if a.read s.out (s.i + 3) < b.read s.out s.j then
    (copyBlock rule.onlyLeft s.out s.k a s.i 4).map fun r ↦ ⟨s.i + 4, s.j, r.1, r.2⟩
  else if b.read s.out (s.j + 3) < a.read s.out s.i then
    (copyBlock rule.onlyRight s.out s.k b s.j 4).map fun r ↦ ⟨s.i, s.j + 4, r.1, r.2⟩
  else if a.block s.out s.i 4 = b.block s.out s.j 4 then
    (copyBlock rule.both s.out s.k a s.i 4).map fun r ↦ ⟨s.i + 4, s.j + 4, r.1, r.2⟩
  else
    (((mergeStep rule a b s).bind (mergeStep rule a b)).bind (mergeStep rule a b)).bind
      (mergeStep rule a b)

/-- The merge into `out + base`: the end of what it wrote, and the buffer. -/
def mergeSortedScalar (rule : MergeRule) (a : Operand) (sa : Nat) (b : Operand) (sb base : Nat)
    (out : List Nat) : Option (Nat × List Nat) :=
  (loop (fun s ↦ decide (s.i + 4 ≤ sa ∧ s.j + 4 ≤ sb)) (mergeFours rule a b) (sa + sb + 1)
      ⟨0, 0, base, out⟩).bind fun s ↦
    (loop (fun s ↦ decide (s.i < sa ∧ s.j < sb)) (mergeStep rule a b) (sa + sb + 1) s).bind fun s ↦
      -- the tails; an empty one is not copied
      (copyBlock rule.onlyLeft s.out s.k a s.i (sa - s.i)).bind fun r ↦
        copyBlock rule.onlyRight r.2 r.1 b s.j (sb - s.j)

/-- `union_sorted_scalar`. -/
def unionSortedScalar : (a : Operand) → (sa : Nat) → (b : Operand) → (sb base : Nat) →
    (out : List Nat) → Option (Nat × List Nat) :=
  mergeSortedScalar ⟨true, true, true⟩

/-- `intersect_sorted_scalar`. -/
def intersectSortedScalar : (a : Operand) → (sa : Nat) → (b : Operand) → (sb base : Nat) →
    (out : List Nat) → Option (Nat × List Nat) :=
  mergeSortedScalar ⟨false, false, true⟩

/-- `difference_sorted_scalar`. -/
def differenceSortedScalar : (a : Operand) → (sa : Nat) → (b : Operand) → (sb base : Nat) →
    (out : List Nat) → Option (Nat × List Nat) :=
  mergeSortedScalar ⟨true, false, false⟩

/-- `xor_sorted_scalar`. -/
def xorSortedScalar : (a : Operand) → (sa : Nat) → (b : Operand) → (sb base : Nat) →
    (out : List Nat) → Option (Nat × List Nat) :=
  mergeSortedScalar ⟨true, true, false⟩

/-! ## Reads and writes -/

namespace Operand

variable {p : Operand} {out out' values : List Nat} {i i' limit k v : Nat}

/-- The values from the `i`-th on stand where the operand lies. -/
def Holds (p : Operand) (out : List Nat) (i : Nat) (values : List Nat) : Prop :=
  ∀ x, i ≤ x → x < values.length → p.read out x = values.getD x 0

/-- Writes in front of `limit` leave the values from the `i`-th on as they are. -/
def Behind (p : Operand) (limit i : Nat) : Prop := ∀ offset, p = inOut offset → limit ≤ offset + i

theorem not_inOut_apart {Q : Nat → Prop} : ∀ offset, apart values = inOut offset → Q offset := by
  intro offset h
  cases h

theorem Holds.apart : (apart values).Holds out i values := fun _ _ _ ↦ rfl

theorem Holds.own : (inOut 0).Holds values i values := fun _ _ _ ↦ by rw [read, Nat.zero_add]

theorem Holds.behind {front slack : List Nat} :
    (inOut front.length).Holds (front ++ values ++ slack) i values := by
  intro x _ hx
  rw [read, List.getD_eq_getElem?_getD, List.append_assoc,
    List.getElem?_append_right (Nat.le_add_right _ _), Nat.add_sub_cancel_left,
    List.getElem?_append_left hx, ← List.getD_eq_getElem?_getD]

theorem Holds.mono (h : p.Holds out i values) (hle : i ≤ i') : p.Holds out i' values :=
  fun x hx ↦ h x (hle.trans hx)

theorem Holds.block (h : p.Holds out i values) {n : Nat} (hn : i + n ≤ values.length) :
    p.block out i n = (values.drop i).take n := by
  apply List.ext_getElem
  · rw [Operand.block, List.length_map, List.length_range', List.length_take, List.length_drop]
    omega
  · intro x hx _
    rw [Operand.block, List.length_map, List.length_range'] at hx
    simp only [Operand.block, List.getElem_map, List.getElem_range', Nat.one_mul]
    rw [h (i + x) (Nat.le_add_right _ _) (by omega), List.getElem_take, List.getElem_drop]
    exact List.getD_eq_getElem _ _ (by omega)

theorem Holds.write (h : p.Holds out i values) (hle : i ≤ i') (hbehind : p.Behind limit i')
    (hsame : ∀ x, limit ≤ x → out'.getD x 0 = out.getD x 0) : p.Holds out' i' values := by
  intro x hx hlt
  rw [← h x (hle.trans hx) hlt]
  cases p with
  | apart own => rfl
  | inOut offset => exact hsame _ ((hbehind offset rfl).trans (Nat.add_le_add_left hx _))

/-- A store in front of the values that are left, or of the value that stands there. -/
theorem Holds.store (h : p.Holds out i values)
    (hfree : ∀ offset, p = inOut offset → k < offset + i ∨ (k = offset + i ∧ v = values.getD i 0)) :
    p.Holds (out.set k v) i values := by
  intro x hx hlt
  have hread := h x hx hlt
  cases p with
  | apart own => exact hread
  | inOut offset =>
    change (out.set k v).getD (offset + x) 0 = values.getD x 0
    change out.getD (offset + x) 0 = values.getD x 0 at hread
    rcases hfree offset rfl with hfront | ⟨hat, hv⟩
    · rw [List.getD_eq_getElem?_getD, List.getElem?_set_ne (by omega), ← List.getD_eq_getElem?_getD]
      exact hread
    · rcases Nat.lt_or_ge i x with hlater | hsame
      · rw [List.getD_eq_getElem?_getD,
          List.getElem?_set_ne (by omega), ← List.getD_eq_getElem?_getD]
        exact hread
      · obtain rfl : x = i := by omega
        subst hat hv
        rw [List.getD_eq_getElem?_getD, List.getElem?_set_self']
        rcases Nat.lt_or_ge (offset + x) out.length with hin | hout
        · rw [List.getElem?_eq_getElem hin]
          rfl
        · rw [List.getD_eq_getElem?_getD, List.getElem?_eq_none hout] at hread
          rw [List.getElem?_eq_none hout]
          exact hread

end Operand

theorem memmoveInto_spec {out : List Nat} (values : List Nat) {pos : Nat}
    (hfit : pos + values.length ≤ out.length) :
    ∃ out', memmoveInto out pos values = some out' ∧ out'.length = out.length ∧
      out'.take (pos + values.length) = out.take pos ++ values ∧ ∀ x, pos + values.length ≤ x →
        out'.getD x 0 = out.getD x 0 := by
  have hfront : (out.take pos ++ values).length = pos + values.length := by
    rw [List.length_append, List.length_take]
    omega
  refine ⟨_, if_pos hfit, ?_, ?_, fun x hx ↦ ?_⟩
  · rw [List.length_append, hfront, List.length_drop]
    omega
  · exact List.take_left' hfront
  · rw [List.getD_eq_getElem?_getD, List.getElem?_append_right (by rw [hfront]; exact hx), hfront,
      List.getElem?_drop,
      List.getD_eq_getElem?_getD]
    congr 2
    omega

/-! ## The walk -/

/-- How many slots a merge needs. -/
def mergeCapacity (rule : MergeRule) (sa sb : Nat) : Nat :=
  if rule.onlyLeft then if rule.onlyRight then sa + sb else sa
  else if rule.onlyRight then sb else min sa sb

/-- The layouts that are safe: an operand in the buffer lies behind what can be written before it is
read. -/
structure SafeLayout (rule : MergeRule) (a : Operand) (sa : Nat) (b : Operand) (sb base : Nat) :
    Prop where
  left : ∀ offset, a = .inOut offset → base + (if rule.onlyRight then sb else 0) ≤ offset
  right : ∀ offset, b = .inOut offset → base + sa ≤ offset

theorem SafeLayout.apart {rule : MergeRule} {as bs : List Nat} {sa sb base : Nat} :
    SafeLayout rule (.apart as) sa (.apart bs) sb base :=
  ⟨Operand.not_inOut_apart, Operand.not_inOut_apart⟩

/-- The first operand stands in the buffer, behind the room of the second one. -/
theorem SafeLayout.behind {rule : MergeRule} {bs : List Nat} {sa sb base offset : Nat}
    (h : base + sb ≤ offset) : SafeLayout rule (.inOut offset) sa (.apart bs) sb base := by
  refine ⟨fun start hstart ↦ ?_, Operand.not_inOut_apart⟩
  cases hstart
  split
  · exact h
  · exact (Nat.le_add_right _ _).trans h

/-- A kernel leaves `values` in front of the `slots` it was given, and reports their number. -/
def LeavesValues (r : Option (Nat × List Nat)) (slots : Nat) (values : List Nat) : Prop :=
  ∃ out', r = some (values.length, out') ∧ out'.length = slots ∧ out'.take values.length = values

/-- The walk has written `zs` behind `front`, and what is left of the operands stands where it
stood. -/
structure Merging (rule : MergeRule) (a b : Operand) (as bs : List Nat) (front : List Nat)
    (size : Nat) (s : MergeState) (zs : List Nat) : Prop where
  left_le : s.i ≤ as.length
  right_le : s.j ≤ bs.length
  left : a.Holds s.out s.i as
  right : b.Holds s.out s.j bs
  written : s.k = front.length + zs.length
  front : s.out.take s.k = front ++ zs
  size : s.out.length = size
  le_both : zs.length ≤ s.i + s.j
  le_left : rule.onlyRight = false → zs.length ≤ s.i
  le_right : rule.onlyLeft = false → zs.length ≤ s.j
  rest : zs ++ plainMerge rule (as.drop s.i) (bs.drop s.j) = plainMerge rule as bs

section Walk

variable {rule : MergeRule} {a b : Operand} {as bs front zs : List Nat} {size : Nat}
  {s : MergeState}

theorem drop_eq_getD_cons {i : Nat} (hi : i < as.length) :
    as.drop i = as.getD i 0 :: as.drop (i + 1) := by
  rw [List.getD_eq_getElem _ _ hi]
  exact List.drop_eq_getElem_cons hi

theorem getD_le_of_mem_drop (ha : as.Pairwise (· < ·)) {i : Nat} (hi : i < as.length) {v : Nat}
    (hv : v ∈ as.drop i) :
    as.getD i 0 ≤ v := by
  have hasc := ha.sublist (List.drop_sublist i as)
  rw [drop_eq_getD_cons hi] at hasc hv
  rcases List.mem_cons.1 hv with rfl | hv
  · exact le_rfl
  · exact (List.rel_of_pairwise_cons hasc hv).le

/-- The last value of a block is its greatest. -/
theorem le_getD_of_mem_block (ha : as.Pairwise (· < ·)) {i n v : Nat} (hn : i + n < as.length)
    (hv : v ∈ (as.drop i).take (n + 1)) :
    v ≤ as.getD (i + n) 0 := by
  have hmem : v ∈ as.take (i + n + 1) := by
    rw [Nat.add_assoc, List.take_add]
    exact List.mem_append_right _ hv
  rw [List.getD_eq_getElem _ _ hn]
  rw [List.take_succ_eq_append_getElem hn] at hmem
  rcases List.mem_append.1 hmem with hmem | hmem
  · have hasc := ha.sublist (List.take_sublist (i + n + 1) as)
    rw [List.take_succ_eq_append_getElem hn] at hasc
    exact ((List.pairwise_append.1 hasc).2.2 v hmem _ List.mem_cons_self).le
  · exact (List.mem_singleton.1 hmem).le

/-- A merge that has read so far has written no more than its slots. -/
theorem le_mergeCapacity (rule : MergeRule) {n i j sa sb : Nat} (hboth : n ≤ i + j)
    (hleft : rule.onlyRight = false → n ≤ i)
    (hright : rule.onlyLeft = false → n ≤ j) (hi : i ≤ sa) (hj : j ≤ sb) :
    n ≤ mergeCapacity rule sa sb := by
  rw [mergeCapacity]
  cases hl : rule.onlyLeft with
  | true =>
    cases hr : rule.onlyRight with
    | true => exact hboth.trans (Nat.add_le_add hi hj)
    | false => exact (hleft hr).trans hi
  | false =>
    cases hr : rule.onlyRight with
    | true => exact (hright hl).trans hj
    | false => exact le_min ((hleft hr).trans hi) ((hright hl).trans hj)

/-- The walk moves on: `vs` is written, and what is left of the operands still stands. -/
theorem Merging.advance (h : Merging rule a b as bs front size s zs) (vs : List Nat) {di dj : Nat}
    {out' : List Nat}
    (hi : s.i + di ≤ as.length) (hj : s.j + dj ≤ bs.length) (hleft : a.Holds out' (s.i + di) as)
    (hright : b.Holds out' (s.j + dj) bs)
    (hfront : out'.take (s.k + vs.length) = s.out.take s.k ++ vs)
    (hsize : out'.length = s.out.length) (hboth : vs.length ≤ di + dj)
    (hfromLeft : rule.onlyRight = false → vs.length ≤ di)
    (hfromRight : rule.onlyLeft = false → vs.length ≤ dj)
    (hrest : vs ++ plainMerge rule (as.drop (s.i + di)) (bs.drop (s.j + dj)) = plainMerge rule
      (as.drop s.i) (bs.drop s.j)) :
    Merging rule a b as bs front size ⟨s.i + di, s.j + dj, s.k + vs.length, out'⟩ (zs ++ vs) := by
  have hboth' := h.le_both
  refine ⟨hi, hj, hleft, hright, ?_, ?_, hsize.trans h.size, ?_, fun hr ↦ ?_, fun hl ↦ ?_, ?_⟩
  · rw [h.written, List.length_append, Nat.add_assoc]
  · rw [hfront, h.front, List.append_assoc]
  · rw [List.length_append]
    dsimp only
    omega
  · rw [List.length_append]
    exact Nat.add_le_add (h.le_left hr) (hfromLeft hr)
  · rw [List.length_append]
    exact Nat.add_le_add (h.le_right hl) (hfromRight hl)
  · rw [List.append_assoc, hrest, h.rest]

/-- What is written for `di` and `dj` values of the operands lies in front of what is left of
them. -/
theorem Merging.behind (h : Merging rule a b as bs front size s zs)
    (hlayout : SafeLayout rule a as.length b bs.length front.length) (n : Nat) {di dj : Nat}
    (hi : s.i + di ≤ as.length) (hj : s.j + dj ≤ bs.length) (hboth : n ≤ di + dj)
    (hfromLeft : rule.onlyRight = false → n ≤ di) :
    a.Behind (s.k + n) (s.i + di) ∧ b.Behind (s.k + n) (s.j + dj) := by
  have hwritten := h.written
  have hle := h.le_both
  constructor
  · intro offset hoffset
    have hsafe := hlayout.left offset hoffset
    cases hr : rule.onlyRight with
    | true =>
      rw [hr, if_pos rfl] at hsafe
      omega
    | false =>
      rw [hr, if_neg Bool.false_ne_true] at hsafe
      have hfew := hfromLeft hr
      have hless := h.le_left hr
      omega
  · intro offset hoffset
    have hsafe := hlayout.right offset hoffset
    omega

/-- A block is copied, or left out. -/
theorem Merging.copy (h : Merging rule a b as bs front size s zs)
    (hlayout : SafeLayout rule a as.length b bs.length front.length)
    (hroom : front.length + mergeCapacity rule as.length bs.length ≤ size) (keeps : Bool)
    (n di dj : Nat) {p : Operand}
    {values : List Nat} {start : Nat} (hp : p.Holds s.out start values)
    (hn : start + n ≤ values.length) (hi : s.i + di ≤ as.length)
    (hj : s.j + dj ≤ bs.length) (hboth : n ≤ di + dj)
    (hfromLeft : rule.onlyRight = false → keeps = true → n ≤ di)
    (hfromRight : rule.onlyLeft = false → keeps = true → n ≤ dj)
    (hrest : kept keeps ((values.drop start).take n) ++ plainMerge rule (as.drop (s.i + di))
      (bs.drop (s.j + dj)) =
      plainMerge rule (as.drop s.i) (bs.drop s.j)) :
    ∃ r vs, copyBlock keeps s.out s.k p start n = some r ∧
      Merging rule a b as bs front size ⟨s.i + di, s.j + dj, r.1, r.2⟩ (zs ++ vs) := by
  have hblock : ((values.drop start).take n).length = n := by
    rw [List.length_take, List.length_drop]
    omega
  cases keeps with
  | false =>
    have hbehind := h.behind hlayout 0 hi hj (Nat.zero_le _) fun _ ↦ Nat.zero_le _
    rw [kept, if_neg Bool.false_ne_true] at hrest
    refine ⟨(s.k, s.out), [], if_neg Bool.false_ne_true, ?_⟩
    exact h.advance [] hi hj (h.left.write (Nat.le_add_right _ _) hbehind.1 fun _ _ ↦ rfl)
      (h.right.write (Nat.le_add_right _ _) hbehind.2 fun _ _ ↦ rfl) (List.append_nil _).symm rfl
        (Nat.zero_le _) (fun _ ↦ Nat.zero_le _)
      (fun _ ↦ Nat.zero_le _) hrest
  | true =>
    rw [kept, if_pos rfl] at hrest
    have hle := h.le_both
    have hcapacity :=
      le_mergeCapacity rule (n := zs.length + n) (show _ ≤ (s.i + di) + (s.j + dj) by omega)
      (fun hr ↦ Nat.add_le_add (h.le_left hr) (hfromLeft hr rfl))
        (fun hl ↦ Nat.add_le_add (h.le_right hl) (hfromRight hl rfl)) hi hj
    have hfit : s.k + ((values.drop start).take n).length ≤ s.out.length := by
      rw [hblock, h.written, h.size]
      omega
    obtain ⟨out', hmove, hlength, hfront, hsame⟩ := memmoveInto_spec _ hfit
    have hbehind := h.behind hlayout n hi hj hboth fun hr ↦ hfromLeft hr rfl
    rw [hblock] at hsame
    refine ⟨(s.k + n, out'), (values.drop start).take n, ?_, ?_⟩
    · rw [copyBlock, if_pos rfl, hp.block hn, hmove, Option.map_some]
    · have hmoved :=
        h.advance ((values.drop start).take n) hi hj
        (h.left.write (Nat.le_add_right _ _) hbehind.1 hsame)
        (h.right.write (Nat.le_add_right _ _) hbehind.2 hsame) hfront hlength
          (by rw [hblock]; exact hboth)
        (fun hr ↦ by rw [hblock]; exact hfromLeft hr rfl)
          (fun hl ↦ by rw [hblock]; exact hfromRight hl rfl) hrest
      rwa [hblock] at hmoved

theorem writtenValue_left {x y : Nat} (hlt : x < y) : writtenValue rule x y = x := by
  rw [writtenValue, if_pos hlt, ite_self]

theorem writtenValue_right {x y : Nat} (hlt : y < x) (hr : rule.onlyRight = true) :
    writtenValue rule x y = y := by
  rw [writtenValue, if_pos hr, if_neg (Nat.lt_asymm hlt)]

theorem writtenValue_same (x : Nat) : writtenValue rule x x = x := by
  rw [writtenValue, ite_self, ite_self]

/-- Without the values of the right side only, a step that keeps one moves on the left. -/
theorem le_of_keepsValue_left {x y : Nat} (hr : rule.onlyRight = false)
    (h : keepsValue rule x y = true) : x ≤ y := by
  by_contra hlt
  rw [keepsValue, if_neg (by omega), if_pos (not_le.1 hlt), hr] at h
  exact Bool.false_ne_true h

theorem le_of_keepsValue_right {x y : Nat} (hl : rule.onlyLeft = false)
    (h : keepsValue rule x y = true) : y ≤ x := by
  by_contra hlt
  rw [keepsValue, if_pos (not_le.1 hlt), hl] at h
  exact Bool.false_ne_true h

theorem take_set_kept {out : List Nat} {k : Nat} (hk : k < out.length) (keeps : Bool) (v : Nat) :
    (out.set k v).take (k + (kept keeps [v]).length) = out.take k ++ kept keeps [v] := by
  cases keeps with
  | true =>
    rw [kept, if_pos rfl, List.length_singleton, List.take_add_one, List.take_set_of_le le_rfl,
      List.getElem?_set_self hk]
    rfl
  | false => rw [kept, if_neg Bool.false_ne_true, List.length_nil, Nat.add_zero, List.append_nil,
    List.take_set_of_le le_rfl]

/-- What a step writes and moves on by, with the rule's reading of it. -/
theorem step_cases (rule : MergeRule) {x y : Nat} {as bs : List Nat} (hx : ∀ v ∈ as, x < v)
    (hy : ∀ v ∈ bs, y < v) :
    plainMerge rule (x :: as) (y :: bs) = kept (keepsValue rule x y) [writtenValue rule x y] ++
      plainMerge rule ((x :: as).drop (if x ≤ y then 1 else 0))
      ((y :: bs).drop (if y ≤ x then 1 else 0)) := by
  rcases Nat.lt_trichotomy x y with hlt | rfl | hgt
  · rw [if_pos hlt.le, if_neg (not_le.2 hlt), List.drop_one, List.tail_cons, List.drop_zero,
      keepsValue, if_pos hlt, writtenValue_left hlt]
    refine plainMerge_left fun v hv ↦ ?_
    rcases List.mem_cons.1 hv with rfl | hv
    · exact hlt
    · exact hlt.trans (hy v hv)
  · rw [if_pos le_rfl, List.drop_one, List.drop_one, List.tail_cons, List.tail_cons, keepsValue,
      if_neg (lt_irrefl _),
      if_neg (lt_irrefl _), writtenValue_same, plainMerge_both]
  · rw [if_neg (not_le.2 hgt), if_pos hgt.le, List.drop_one, List.tail_cons, List.drop_zero,
      keepsValue, if_neg (Nat.lt_asymm hgt), if_pos hgt]
    have hwritten : kept rule.onlyRight [writtenValue rule x y] = kept rule.onlyRight [y] := by
      cases hr : rule.onlyRight with
      | true => rw [writtenValue_right hgt hr]
      | false => rfl
    rw [hwritten]
    refine plainMerge_right fun v hv ↦ ?_
    rcases List.mem_cons.1 hv with rfl | hv
    · exact hgt
    · exact hgt.trans (hx v hv)

/-- A branchless step: the value it writes is kept exactly where the rule keeps it. -/
theorem Merging.step (h : Merging rule a b as bs front size s zs) (ha : as.Pairwise (· < ·))
    (hb : bs.Pairwise (· < ·)) (hlayout : SafeLayout rule a as.length b bs.length front.length)
    (hroom : front.length + mergeCapacity rule as.length bs.length ≤ size) (hi : s.i < as.length)
    (hj : s.j < bs.length) :
    ∃ s' vs, mergeStep rule a b s = some s' ∧ Merging rule a b as bs front size s' (zs ++ vs) ∧
      s.i + s.j < s'.i + s'.j ∧ s'.i ≤ s.i + 1 ∧ s'.j ≤ s.j + 1 := by
  have hx := h.left s.i le_rfl hi
  have hy := h.right s.j le_rfl hj
  have hwritten := h.written
  have hle := h.le_both
  have hcapacity := le_mergeCapacity rule (n := zs.length + 1) (i := s.i + 1) (j :=
    s.j + 1) (by omega)
    (fun hr ↦ Nat.succ_le_succ (h.le_left hr)) (fun hl ↦ Nat.succ_le_succ (h.le_right hl)) hi hj
  have hin : s.k < s.out.length := by
    rw [h.size]
    omega
  obtain ⟨x, hxdef⟩ : ∃ x, x = as.getD s.i 0 := ⟨_, rfl⟩
  obtain ⟨y, hydef⟩ : ∃ y, y = bs.getD s.j 0 := ⟨_, rfl⟩
  rw [← hxdef] at hx
  rw [← hydef] at hy
  -- the slot that is written lies in front of what is left, or holds the very value
  have hleft : a.Holds (s.out.set s.k (writtenValue rule x y)) s.i as := by
    refine h.left.store fun offset hoffset ↦ ?_
    have hsafe := hlayout.left offset hoffset
    cases hr : rule.onlyRight with
    | true =>
      rw [hr, if_pos rfl] at hsafe
      left
      omega
    | false =>
      rw [hr, if_neg Bool.false_ne_true] at hsafe
      have hless := h.le_left hr
      rcases Nat.lt_or_ge s.k (offset + s.i) with hlt | hge
      · exact .inl hlt
      · refine .inr ⟨by omega, ?_⟩
        rw [writtenValue, hr, if_neg Bool.false_ne_true, hxdef]
  have hright : b.Holds (s.out.set s.k (writtenValue rule x y)) s.j bs := by
    refine h.right.store fun offset hoffset ↦ .inl ?_
    have hsafe := hlayout.right offset hoffset
    omega
  have hdropLeft := drop_eq_getD_cons hi
  have hdropRight := drop_eq_getD_cons hj
  rw [← hxdef] at hdropLeft
  rw [← hydef] at hdropRight
  have hrest := step_cases rule
    (List.pairwise_cons.1 (hdropLeft ▸ ha.sublist (List.drop_sublist _ _))).1
    (List.pairwise_cons.1 (hdropRight ▸ hb.sublist (List.drop_sublist _ _))).1
  rw [← hdropLeft, ← hdropRight, List.drop_drop, List.drop_drop] at hrest
  have hkept : (kept (keepsValue rule x y) [writtenValue rule x y]).length = if keepsValue rule x y
      then 1 else 0 := by
    rw [kept, apply_ite List.length]
    rfl
  refine ⟨⟨s.i + (if x ≤ y then 1 else 0), s.j + (if y ≤ x then 1 else 0),
    s.k + (kept (keepsValue rule x y) [writtenValue rule x y]).length,
      s.out.set s.k (writtenValue rule x y)⟩,
    kept (keepsValue rule x y) [writtenValue rule x y], ?_, ?_, ?_, ?_, ?_⟩
  · rw [mergeStep, hx, hy]
    rw [store, if_pos hin, Option.map_some, hkept]
  · refine h.advance _ ?_ ?_ (hleft.mono (Nat.le_add_right _ _))
      (hright.mono (Nat.le_add_right _ _)) (take_set_kept hin _ _)
      (List.length_set ..) ?_ (fun hr ↦ ?_) (fun hl ↦ ?_) hrest.symm
    · split <;> omega
    · split <;> omega
    · rw [hkept]
      split_ifs <;> omega
    · rw [hkept]
      split
      · rename_i hkeeps
        rw [if_pos (le_of_keepsValue_left hr hkeeps)]
      · exact Nat.zero_le _
    · rw [hkept]
      split
      · rename_i hkeeps
        rw [if_pos (le_of_keepsValue_right hl hkeeps)]
      · exact Nat.zero_le _
  · dsimp only
    split_ifs <;> omega
  · dsimp only
    split <;> omega
  · dsimp only
    split <;> omega

/-- A turn by four. -/
theorem Merging.fours (h : Merging rule a b as bs front size s zs) (ha : as.Pairwise (· < ·))
    (hb : bs.Pairwise (· < ·)) (hlayout : SafeLayout rule a as.length b bs.length front.length)
    (hroom : front.length + mergeCapacity rule as.length bs.length ≤ size)
    (hi : s.i + 4 ≤ as.length) (hj : s.j + 4 ≤ bs.length) :
    ∃ s' vs, mergeFours rule a b s = some s' ∧ Merging rule a b as bs front size s' (zs ++ vs) ∧
      s.i + s.j < s'.i + s'.j := by
  have hlastLeft := h.left (s.i + 3) (by omega) (by omega)
  have hlastRight := h.right (s.j + 3) (by omega) (by omega)
  have hfirstLeft := h.left s.i le_rfl (by omega)
  have hfirstRight := h.right s.j le_rfl (by omega)
  have hblockLeft : ∀ v ∈ (as.drop s.i).take 4, v ≤ as.getD (s.i + 3) 0 :=
    fun v ↦ le_getD_of_mem_block ha (by omega)
  have hblockRight : ∀ v ∈ (bs.drop s.j).take 4, v ≤ bs.getD (s.j + 3) 0 :=
    fun v ↦ le_getD_of_mem_block hb (by omega)
  have hsplitLeft : (as.drop s.i).take 4 ++ as.drop (s.i + 4) = as.drop s.i := by
    rw [← List.drop_drop, List.take_append_drop]
  have hsplitRight : (bs.drop s.j).take 4 ++ bs.drop (s.j + 4) = bs.drop s.j := by
    rw [← List.drop_drop, List.take_append_drop]
  rw [mergeFours, hlastLeft, hlastRight, hfirstLeft, hfirstRight]
  split
  · rename_i hbelow
    obtain ⟨r, vs, hcopy, hmerging⟩ := h.copy hlayout hroom rule.onlyLeft 4 4 0 h.left hi hi
      (by omega) (by omega) (fun _ _ ↦ le_rfl)
        (fun hl hk ↦ absurd (hl.symm.trans hk) Bool.false_ne_true) (by
        rw [← plainMerge_block_left fun x hx y hy ↦ ?_, hsplitLeft, Nat.add_zero]
        exact (hblockLeft x hx).trans_lt (hbelow.trans_le (getD_le_of_mem_drop hb (by omega) hy)))
    exact ⟨_, vs, by rw [hcopy, Option.map_some]; rfl, hmerging, by dsimp only; omega⟩
  · split
    · rename_i hbelow
      obtain ⟨r, vs, hcopy, hmerging⟩ := h.copy hlayout hroom rule.onlyRight 4 0 4 h.right hj
        (by omega) hj (by omega) (fun hr hk ↦ absurd (hr.symm.trans hk) Bool.false_ne_true)
          (fun _ _ ↦ le_rfl) (by
          rw [← plainMerge_block_right fun y hy x hx ↦ ?_, hsplitRight, Nat.add_zero]
          exact (hblockRight y hy).trans_lt
            (hbelow.trans_le (getD_le_of_mem_drop ha (by omega) hx)))
      exact ⟨_, vs, by rw [hcopy, Option.map_some]; rfl, hmerging, by dsimp only; omega⟩
    · split
      · rename_i hequal
        rw [h.left.block hi, h.right.block hj] at hequal
        obtain ⟨r, vs, hcopy, hmerging⟩ := h.copy hlayout hroom rule.both 4 4 4 h.left hi hi
          hj (by omega) (fun _ _ ↦ le_rfl) (fun _ _ ↦ le_rfl) (by
            rw [← plainMerge_block_both, hsplitLeft, hequal, hsplitRight])
        exact ⟨_, vs, by rw [hcopy, Option.map_some], hmerging, by dsimp only; omega⟩
      · -- four branchless steps; each side has a value left at every one
        obtain ⟨s₁, vs₁, hstep₁, h₁, hmore₁, hi₁, hj₁⟩ :=
          h.step ha hb hlayout hroom (by omega) (by omega)
        obtain ⟨s₂, vs₂, hstep₂, h₂, hmore₂, hi₂, hj₂⟩ :=
          h₁.step ha hb hlayout hroom (by omega) (by omega)
        obtain ⟨s₃, vs₃, hstep₃, h₃, hmore₃, hi₃, hj₃⟩ :=
          h₂.step ha hb hlayout hroom (by omega) (by omega)
        obtain ⟨s₄, vs₄, hstep₄, h₄, hmore₄, -, -⟩ :=
          h₃.step ha hb hlayout hroom (by omega) (by omega)
        refine ⟨s₄, vs₁ ++ vs₂ ++ vs₃ ++ vs₄, ?_, ?_, by omega⟩
        · rw [hstep₁, Option.bind_some, hstep₂, Option.bind_some, hstep₃, Option.bind_some, hstep₄]
        · simpa only [List.append_assoc] using h₄

/-- Any of the merges, in any safe layout, writes the plain merge and nothing behind it that is
still to be read. -/
theorem mergeSortedScalar_spec {base : Nat} {out : List Nat} (ha : as.Pairwise (· < ·))
    (hb : bs.Pairwise (· < ·)) (hlayout : SafeLayout rule a as.length b bs.length base)
    (hroom : base + mergeCapacity rule as.length bs.length ≤ out.length)
    (hleft : a.Holds out 0 as) (hright : b.Holds out 0 bs) :
    ∃ out', mergeSortedScalar rule a as.length b bs.length base out =
      some (base + (plainMerge rule as bs).length, out') ∧
      out'.length = out.length ∧ out'.take (base + (plainMerge rule as bs).length) =
        out.take base ++ plainMerge rule as bs := by
  have hfront : (out.take base).length = base := by
    rw [List.length_take]
    omega
  have hstart : Merging rule a b as bs (out.take base) out.length ⟨0, 0, base, out⟩ [] :=
    ⟨Nat.zero_le _, Nat.zero_le _, hleft, hright, hfront.symm, (List.append_nil _).symm, rfl,
      Nat.zero_le _, fun _ ↦ Nat.zero_le _,
      fun _ ↦ Nat.zero_le _, rfl⟩
  rw [← hfront] at hlayout hroom
  obtain ⟨s, hfours, ⟨zs, hs⟩, -⟩ :=
    loop_spec (fun s ↦ decide (s.i + 4 ≤ as.length ∧ s.j + 4 ≤ bs.length))
    (mergeFours rule a b) (fun s ↦ ∃ zs, Merging rule a b as bs (out.take base) out.length s zs)
    (fun s ↦ as.length + bs.length - (s.i + s.j)) (fun s hs hagain ↦ by
      obtain ⟨zs, hs⟩ := hs
      obtain ⟨hi, hj⟩ := of_decide_eq_true hagain
      obtain ⟨s', vs, hrun, hs', hmore⟩ := hs.fours ha hb hlayout hroom hi hj
      exact ⟨s', hrun, ⟨_, hs'⟩, by omega⟩) (as.length + bs.length + 1) ⟨[], hstart⟩
        (by dsimp only; omega)
  obtain ⟨t, hsteps, ⟨ws, ht⟩, hend⟩ :=
    loop_spec (fun s ↦ decide (s.i < as.length ∧ s.j < bs.length))
    (mergeStep rule a b) (fun s ↦ ∃ zs, Merging rule a b as bs (out.take base) out.length s zs)
    (fun s ↦ as.length + bs.length - (s.i + s.j)) (fun s hs hagain ↦ by
      obtain ⟨zs, hs⟩ := hs
      obtain ⟨hi, hj⟩ := of_decide_eq_true hagain
      obtain ⟨s', vs, hrun, hs', hmore, -, -⟩ := hs.step ha hb hlayout hroom hi hj
      exact ⟨s', hrun, ⟨_, hs'⟩, by omega⟩) (as.length + bs.length + 1) ⟨zs, hs⟩ (by omega)
  have hended : t.i = as.length ∨ t.j = bs.length := by
    have hnot := of_decide_eq_false hend
    have hi := ht.left_le
    have hj := ht.right_le
    omega
  have hi := ht.left_le
  have hj := ht.right_le
  have hdone : t.i + (as.length - t.i) = as.length := Nat.add_sub_cancel' hi
  have hdone' : t.j + (bs.length - t.j) = bs.length := Nat.add_sub_cancel' hj
  obtain ⟨r, vs, hcopy, hr⟩ :=
    ht.copy hlayout hroom rule.onlyLeft (as.length - t.i) (as.length - t.i) 0
    ht.left hdone.le hdone.le hj (by omega) (fun _ _ ↦ le_rfl)
      (fun hl hk ↦ absurd (hl.symm.trans hk) Bool.false_ne_true) (by
      rw [hdone, List.drop_length, Nat.add_zero, List.take_of_length_le (by rw [List.length_drop])]
      rcases hended with hi | hj
      · rw [hi, List.drop_length, kept_nil, List.nil_append]
      · rw [hj, List.drop_length, plainMerge_nil_right, plainMerge_nil_right, kept_nil,
          List.append_nil])
  rw [hdone, Nat.add_zero] at hr
  obtain ⟨q, us, hcopy', hq⟩ := hr.copy hlayout hroom rule.onlyRight (bs.length - t.j) 0
    (bs.length - t.j)
    hr.right hdone'.le le_rfl hdone'.le (by omega)
      (fun hr hk ↦ absurd (hr.symm.trans hk) Bool.false_ne_true) (fun _ _ ↦ le_rfl) (by
      dsimp only
      rw [hdone', Nat.add_zero, List.drop_length, List.drop_length, plainMerge_nil_left,
        plainMerge_nil_left, kept_nil, List.append_nil,
        List.take_of_length_le (by rw [List.length_drop])])
  have hall := hq.rest
  dsimp only at hall
  rw [hdone', Nat.add_zero, List.drop_length, List.drop_length, plainMerge_nil_left, kept_nil,
    List.append_nil] at hall
  rw [hall] at hq
  have hwritten := hq.written
  have htaken := hq.front
  dsimp only at hwritten htaken
  rw [hfront] at hwritten
  refine ⟨q.2, ?_, hq.size, by rw [← hwritten]; exact htaken⟩
  rw [mergeSortedScalar, hfours, Option.bind_some, hsteps, Option.bind_some, hcopy,
    Option.bind_some, hcopy', ← hwritten]

/-- From the front of the buffer on. -/
theorem mergeSortedScalar_leaves {out : List Nat} (ha : as.Pairwise (· < ·))
    (hb : bs.Pairwise (· < ·)) (hlayout : SafeLayout rule a as.length b bs.length 0)
    (hroom : mergeCapacity rule as.length bs.length ≤ out.length)
    (hleft : a.Holds out 0 as) (hright : b.Holds out 0 bs) :
    LeavesValues (mergeSortedScalar rule a as.length b bs.length 0 out) out.length
      (plainMerge rule as bs) := by
  obtain ⟨out', hrun, hlength, hfront⟩ :=
    mergeSortedScalar_spec ha hb hlayout ((Nat.zero_add _).le.trans hroom) hleft hright
  rw [Nat.zero_add] at hrun hfront
  exact ⟨out', hrun, hlength, hfront⟩

/-- What a scalar merge leaves behind `base` are the values its rule keeps, ascending, and what
stands in front of `base` is untouched: also where it writes over the operand it reads. -/
theorem mergeSortedScalar_keeps {base : Nat} {out : List Nat} (ha : as.Pairwise (· < ·))
    (hb : bs.Pairwise (· < ·)) (hlayout : SafeLayout rule a as.length b bs.length base)
    (hroom : base + mergeCapacity rule as.length bs.length ≤ out.length)
    (hleft : a.Holds out 0 as) (hright : b.Holds out 0 bs) :
    ∃ (n : Nat) (out' : List Nat), mergeSortedScalar rule a as.length b bs.length base out =
      some (base + n, out') ∧
      out'.length = out.length ∧ out'.take base = out.take base ∧
        ((out'.drop base).take n).Pairwise (· < ·) ∧
      ∀ v, v ∈ (out'.drop base).take n ↔ rule.Keeps (v ∈ as) (v ∈ bs) := by
  obtain ⟨out', hrun, hlength, hfront⟩ := mergeSortedScalar_spec ha hb hlayout hroom hleft hright
  have hbase : (out.take base).length = base := by
    rw [List.length_take]
    omega
  have hmerged : (out'.drop base).take (plainMerge rule as bs).length = plainMerge rule as bs := by
    rw [List.take_drop, hfront, List.drop_left' hbase]
  refine ⟨_, out', hrun, hlength, ?_, ?_, ?_⟩
  · have hcut := congrArg (List.take base) hfront
    rwa [List.take_take, min_eq_left (Nat.le_add_right _ _), List.take_left' hbase] at hcut
  · rw [hmerged]
    exact plainMerge_ascending ha hb
  · intro v
    rw [hmerged]
    exact mem_plainMerge ha hb

end Walk

/-- The difference over its own first operand. -/
theorem mergeSortedScalar_keeps_inPlace : ∃ (n : Nat) (out' : List Nat),
    mergeSortedScalar ⟨true, false, false⟩ (.inOut 0) 3 (.apart [4]) 1 0 [2, 4, 7] =
      some (0 + n, out') ∧
      out'.length = 3 ∧ out'.take 0 = [2, 4, 7].take 0 ∧ ((out'.drop 0).take n).Pairwise (· < ·) ∧
      ∀ v, v ∈ (out'.drop 0).take n ↔
        MergeRule.Keeps ⟨true, false, false⟩ (v ∈ [2, 4, 7]) (v ∈ [4]) := by
  have hlayout : SafeLayout ⟨true, false, false⟩ (.inOut 0) [2, 4, 7].length (.apart [4])
      [4].length 0 :=
    ⟨fun offset _ ↦ Nat.zero_le offset, Operand.not_inOut_apart⟩
  exact mergeSortedScalar_keeps (by decide) (by decide) hlayout (by decide) .own .apart

end Roaring
