import Mathlib
import Roaring.Container.UnionVector

/-!
# The union of two array containers

Into a vector the union is the vector kernel or the scalar merge.  In place it has two
shapes: the values of the left side are moved up by the size of the right one and merged
forwards into the front that is free, or they stay where they are and are merged
backwards, from the last slot down, and the gap that equal values leave is closed.
-/

namespace Roaring

open Lib

/-- `x86_v4::union_min_side`. -/
def unionMinSide : Nat := 32

/-- `x86_v4::union_store_slack`. -/
def unionStoreSlack : Nat := 32

/-- `resize_uninitialized`: what a new slot holds is not known. -/
def resizeUninitialized (unknown : Nat → Nat) (n : Nat) (values : List Nat) : List Nat :=
  values.take n ++ (List.range' values.length (n - values.length)).map unknown

/-- `resize`: the new slots hold zeros. -/
def resize (n : Nat) (values : List Nat) : List Nat := resizeUninitialized (fun _ ↦ 0) n values

/-- `a[ --k ] = v`. -/
def storeBack (out : List Nat) (k v : Nat) : Option (List Nat) :=
  if k = 0 then none else store out (k - 1) v

/-- A turn of the backward merge. -/
def unionBackStep (b : List Nat) (s : MergeState) : Option MergeState :=
  let x := s.out.getD (s.i - 1) 0
  let y := b.getD (s.j - 1) 0
  if y < x then (storeBack s.out s.k x).map fun out ↦ ⟨s.i - 1, s.j, s.k - 1, out⟩
  else if x < y then (storeBack s.out s.k y).map fun out ↦ ⟨s.i, s.j - 1, s.k - 1, out⟩
  else (storeBack s.out s.k x).map fun out ↦ ⟨s.i - 1, s.j - 1, s.k - 1, out⟩

/-- What is left of the right side once the left one is done. -/
def copyBackStep (b : List Nat) (s : MergeState) : Option MergeState :=
  (storeBack s.out s.k (b.getD (s.j - 1) 0)).map fun out ↦ ⟨s.i, s.j - 1, s.k - 1, out⟩

/-- The gap between the untouched front and the merged tail is closed. -/
def closeGap (total : Nat) (s : MergeState) : Option (List Nat) :=
  if s.k = s.i then some s.out else memmoveInto s.out s.i ((s.out.drop s.k).take (total - s.k))

/-- `union_array_array_inplace`: the values of the left side afterwards. -/
def unionArrayArrayInplace (haveX86V4 sameData : Bool) (unknown : Nat → Nat) (lhs rhs : List Nat) :
    Option (List Nat) :=
  let la := lhs.length
  let lb := rhs.length
  let total := la + lb
  if sameData then some lhs
  else
    let a := resizeUninitialized unknown total lhs
    if unionMinSide ≤ la ∧ unionMinSide ≤ lb ∧ haveX86V4 = true then
      (memmoveInto a lb (a.take la)).bind fun a ↦
        (unionSortedUint16 (.inOut lb) la (.apart rhs) lb a).map fun r ↦
          resizeUninitialized unknown r.1 r.2
    else
      (loop (fun s ↦ decide (0 < s.i ∧ 0 < s.j)) (unionBackStep rhs) (total + 1)
          ⟨la, lb, total, a⟩).bind fun s ↦
        (loop (fun s ↦ decide (0 < s.j)) (copyBackStep rhs) (lb + 1) s).bind fun s ↦
          (closeGap total s).map fun a ↦ resizeUninitialized unknown (s.i + (total - s.k)) a

/-- `union_array_array_to_vector`: what `out` holds afterwards. -/
def unionArrayArrayToVector (haveX86V4 : Bool) (unknown : Nat → Nat) (lhs rhs out : List Nat) :
    Option (List Nat) :=
  let sa := lhs.length
  let sb := rhs.length
  if unionMinSide ≤ sa ∧ unionMinSide ≤ sb ∧ haveX86V4 = true then
    (unionSortedUint16 (.apart lhs) sa (.apart rhs) sb
        (resizeUninitialized unknown (sa + sb + unionStoreSlack) out)).map fun r ↦
      resize r.1 r.2
  else
    (unionSortedScalar (.apart lhs) sa (.apart rhs) sb 0
      (resizeUninitialized unknown (sa + sb) out)).map fun r ↦ resize r.1 r.2

/-! ## Sizes -/

section Sizes

variable {unknown : Nat → Nat} {values : List Nat} {n : Nat}

theorem length_resizeUninitialized (unknown : Nat → Nat) (n : Nat) (values : List Nat) :
    (resizeUninitialized unknown n values).length = n := by
  rw [resizeUninitialized, List.length_append, List.length_take, List.length_map,
    List.length_range']
  omega

theorem resizeUninitialized_shrink (h : n ≤ values.length) : resizeUninitialized unknown n values =
    values.take n := by
  rw [resizeUninitialized, Nat.sub_eq_zero_of_le h, List.range'_zero, List.map_nil, List.append_nil]

theorem take_resizeUninitialized (h : values.length ≤ n) :
    (resizeUninitialized unknown n values).take values.length = values := by
  rw [resizeUninitialized, List.take_of_length_le h]
  exact List.take_left' rfl

end Sizes

/-! ## The backward merge -/

/-- The backward merge has come down to `i` and `j`: the fronts are untouched, and the slots from
`k` on hold the values of the union above them. -/
structure UnitingDown (as bs : List Nat) (s : MergeState) (zs : List Nat) : Prop where
  left_le : s.i ≤ as.length
  right_le : s.j ≤ bs.length
  gap : s.i + s.j ≤ s.k
  fits : s.k ≤ as.length + bs.length
  total : s.out.length = as.length + bs.length
  front : s.out.take s.i = as.take s.i
  back : s.out.drop s.k = zs
  ascending : zs.Pairwise (· < ·)
  below : ∀ u, u ∈ as.take s.i ∨ u ∈ bs.take s.j → ∀ z ∈ zs, u < z
  mem : ∀ v, v ∈ zs ↔ v ∈ as.drop s.i ∨ v ∈ bs.drop s.j

section Down

variable {as bs zs : List Nat} {s : MergeState} {i' j' v : Nat}

theorem storeBack_spec {out : List Nat} {k : Nat} (hk : 0 < k) (hfit : k ≤ out.length) (v : Nat) :
    ∃ out', storeBack out k v = some out' ∧ out'.length = out.length ∧
      out'.drop (k - 1) = v :: out.drop k ∧ ∀ i < k, out'.take i = out.take i := by
  have hlt : k - 1 < out.length := by omega
  refine ⟨out.set (k - 1) v, ?_, List.length_set .., ?_, fun i hi ↦ List.take_set_of_le (by omega)⟩
  · rw [storeBack, if_neg hk.ne', store, if_pos hlt]
  · rw [List.drop_set, if_neg (lt_irrefl _), Nat.sub_self, List.drop_eq_getElem_cons hlt,
      List.set_cons_zero, Nat.sub_add_cancel hk]

/-- One value more, above which all is merged. -/
theorem UnitingDown.push (h : UnitingDown as bs s zs) (hi : i' ≤ s.i) (hj : j' ≤ s.j)
    (hfew : i' + j' < s.i + s.j)
    (hv : v ∈ as.take s.i ∨ v ∈ bs.take s.j) (hbelow : ∀ u, u ∈ as.take i' ∨ u ∈ bs.take j' → u < v)
    (hmem : ∀ u, u ∈ as.drop i' ∨ u ∈ bs.drop j' ↔ u = v ∨ u ∈ as.drop s.i ∨ u ∈ bs.drop s.j) :
    ∃ out', storeBack s.out s.k v = some out' ∧
      UnitingDown as bs ⟨i', j', s.k - 1, out'⟩ (v :: zs) := by
  have hgap := h.gap
  have hfits := h.fits
  have habove := h.below v hv
  obtain ⟨out', hrun, hlength, hdrop, htake⟩ := storeBack_spec (by omega) (h.total.symm ▸ h.fits) v
  refine ⟨out', hrun, hi.trans h.left_le, hj.trans h.right_le, ?_, ?_, hlength.trans h.total, ?_,
    ?_, ?_, ?_, ?_⟩
  · dsimp only
    omega
  · exact (Nat.sub_le _ _).trans hfits
  · dsimp only
    rw [htake i' (by omega), ← Nat.min_eq_left hi, ← List.take_take, h.front, List.take_take]
  · dsimp only
    rw [hdrop, h.back]
  · exact List.pairwise_cons.2 ⟨habove, h.ascending⟩
  · intro u hu z hz
    rcases List.mem_cons.1 hz with rfl | hz
    · exact hbelow u hu
    · exact (hbelow u hu).trans (habove z hz)
  · intro u
    rw [List.mem_cons, h.mem]
    exact (hmem u).symm

/-- The value below which a front ends. -/
theorem front_getD {i : Nat} (ha : as.Pairwise (· < ·)) (hi : 0 < i) (hle : i ≤ as.length) :
    as.getD (i - 1) 0 ∈ as.take i ∧ (∀ u ∈ as.take (i - 1), u < as.getD (i - 1) 0) ∧
      (∀ u ∈ as.take i, u ≤ as.getD (i - 1) 0) ∧
      ∀ u, u ∈ as.drop (i - 1) ↔ u = as.getD (i - 1) 0 ∨ u ∈ as.drop i := by
  have hlt : i - 1 < as.length := by omega
  have hsplit : as.take i = as.take (i - 1) ++ [as.getD (i - 1) 0] := by
    rw [List.getD_eq_getElem _ _ hlt, ← List.take_succ_eq_append_getElem hlt, Nat.sub_add_cancel hi]
  have hdrop := drop_eq_getD_cons hlt
  rw [Nat.sub_add_cancel hi] at hdrop
  have hasc := ha.sublist (List.take_sublist i as)
  rw [hsplit] at hasc
  have hless : ∀ u ∈ as.take (i - 1), u < as.getD (i - 1) 0 :=
    fun u hu ↦ (List.pairwise_append.1 hasc).2.2 u hu _ List.mem_cons_self
  refine ⟨by rw [hsplit]; exact List.mem_append_right _ List.mem_cons_self, hless, fun u hu ↦ ?_,
    fun u ↦ ?_⟩
  · rw [hsplit] at hu
    rcases List.mem_append.1 hu with hu | hu
    · exact (hless u hu).le
    · exact (List.mem_singleton.1 hu).le
  · rw [hdrop, List.mem_cons]

theorem getD_of_take_eq {xs ys : List Nat} {i : Nat} (h : xs.take i = ys.take i) (hi : 0 < i) :
    xs.getD (i - 1) 0 = ys.getD (i - 1) 0 := by
  have hone : ∀ zs : List Nat, zs.getD (i - 1) 0 = (zs.take i).getD (i - 1) 0 := by
    intro zs
    rw [List.getD_eq_getElem?_getD, List.getD_eq_getElem?_getD,
      List.getElem?_take_of_lt (Nat.sub_lt hi Nat.one_pos)]
  rw [hone xs, h, ← hone]

/-- A turn of the backward merge takes the greatest value that is left, from both sides if both have
it. -/
theorem UnitingDown.step (h : UnitingDown as bs s zs) (ha : as.Pairwise (· < ·))
    (hb : bs.Pairwise (· < ·)) (hi : 0 < s.i) (hj : 0 < s.j) :
    ∃ s' v, unionBackStep bs s = some s' ∧ UnitingDown as bs s' (v :: zs) ∧
      s'.i + s'.j < s.i + s.j := by
  obtain ⟨hx, hlessX, hleX, hdropX⟩ := front_getD ha hi h.left_le
  obtain ⟨hy, hlessY, hleY, hdropY⟩ := front_getD hb hj h.right_le
  have hread := getD_of_take_eq h.front hi
  rw [unionBackStep, hread]
  generalize as.getD (s.i - 1) 0 = x at hx hlessX hleX hdropX
  generalize bs.getD (s.j - 1) 0 = y at hy hlessY hleY hdropY
  rcases Nat.lt_trichotomy y x with hlt | rfl | hgt
  · obtain ⟨out', hrun, hnext⟩ := h.push (Nat.sub_le s.i 1) le_rfl (by omega) (.inl hx)
      (fun u hu ↦ hu.elim (hlessX u) fun hu ↦ (hleY u hu).trans_lt hlt)
        (fun u ↦ by rw [hdropX, or_assoc])
    exact ⟨_, x, by rw [if_pos hlt, hrun]; rfl, hnext, by dsimp only; omega⟩
  · obtain ⟨out', hrun, hnext⟩ := h.push (Nat.sub_le s.i 1) (Nat.sub_le s.j 1) (by omega) (.inl hx)
      (fun u hu ↦ hu.elim (hlessX u) (hlessY u))
        (fun u ↦ by rw [hdropX, hdropY, or_or_or_comm, or_self])
    exact ⟨_, y, by rw [if_neg (lt_irrefl _), if_neg (lt_irrefl _), hrun]; rfl, hnext, by
      dsimp only; omega⟩
  · obtain ⟨out', hrun, hnext⟩ := h.push le_rfl (Nat.sub_le s.j 1) (by omega) (.inr hy)
      (fun u hu ↦ hu.elim (fun hu ↦ (hleX u hu).trans_lt hgt) (hlessY u))
        (fun u ↦ by rw [hdropY, or_left_comm])
    exact ⟨_, y, by rw [if_neg (Nat.lt_asymm hgt), if_pos hgt, hrun]; rfl, hnext, by
      dsimp only; omega⟩

/-- With the left side done the right one is copied. -/
theorem UnitingDown.copy (h : UnitingDown as bs s zs) (hb : bs.Pairwise (· < ·)) (hi : s.i = 0)
    (hj : 0 < s.j) :
    ∃ s' v, copyBackStep bs s = some s' ∧ UnitingDown as bs s' (v :: zs) ∧ s'.i = 0 ∧
      s'.j < s.j := by
  obtain ⟨hy, hlessY, -, hdropY⟩ := front_getD hb hj h.right_le
  rw [copyBackStep]
  generalize bs.getD (s.j - 1) 0 = y at hy hlessY hdropY
  obtain ⟨out', hrun, hnext⟩ := h.push le_rfl (Nat.sub_le s.j 1) (by omega) (.inr hy)
    (fun u hu ↦ hu.elim
      (fun hu ↦ by rw [hi, List.take_zero] at hu; exact absurd hu List.not_mem_nil) (hlessY u))
    (fun u ↦ by rw [hdropY, or_left_comm])
  exact ⟨_, y, by rw [hrun]; rfl, hnext, hi, by dsimp only; omega⟩

/-- What is left of the left side and what is merged are the union. -/
theorem UnitingDown.whole (h : UnitingDown as bs s zs) (ha : as.Pairwise (· < ·))
    (hb : bs.Pairwise (· < ·)) (hj : s.j = 0) :
    as.take s.i ++ zs = plainMerge ⟨true, true, true⟩ as bs := by
  refine List.Pairwise.eq_of_mem_iff (r :=
    (· < ·)) (List.pairwise_append.2 ⟨ha.sublist (List.take_sublist _ _), h.ascending,
    fun u hu ↦ h.below u (.inl hu)⟩) (plainMerge_ascending ha hb) fun v ↦ ?_
  rw [List.mem_append, h.mem, mem_union ha hb, hj, List.drop_zero, ← or_assoc, ← List.mem_append,
    List.take_append_drop]

/-- The gap is closed behind the front that was not touched. -/
theorem UnitingDown.close (h : UnitingDown as bs s zs) :
    ∃ out', closeGap (as.length + bs.length) s = some out' ∧ out'.length = as.length + bs.length ∧
      s.i + (as.length + bs.length - s.k) = (as.take s.i ++ zs).length ∧
        out'.take (as.take s.i ++ zs).length = as.take s.i ++ zs := by
  have hgap := h.gap
  have hfits := h.fits
  have htotal := h.total
  have hleft := h.left_le
  have hlen : zs.length = as.length + bs.length - s.k := by rw [← h.back, List.length_drop, htotal]
  have hcount : s.i + (as.length + bs.length - s.k) = (as.take s.i ++ zs).length := by
    rw [List.length_append, List.length_take, Nat.min_eq_left hleft, hlen]
  rw [closeGap, h.back, ← hlen, List.take_length]
  split
  · rename_i heq
    have hwhole : s.out = as.take s.i ++ zs := by rw [← h.front, ← h.back, heq,
      List.take_append_drop]
    refine ⟨s.out, rfl, htotal, by rw [hlen]; exact hcount, ?_⟩
    rw [← hwhole, List.take_length]
  · obtain ⟨out', hrun, hlength, hfront, -⟩ :=
      memmoveInto_spec zs (show s.i + zs.length ≤ s.out.length by omega)
    refine ⟨out', hrun, hlength.trans htotal, by rw [hlen]; exact hcount, ?_⟩
    rw [← hcount, ← hlen, hfront, h.front]

end Down

/-! ## The union -/

section Union

variable {lhs rhs : List Nat} {haveX86V4 sameData : Bool} {unknown : Nat → Nat}

/-- The backward merge leaves the union. -/
theorem unionBackwards_spec (ha : lhs.Pairwise (· < ·)) (hb : rhs.Pairwise (· < ·)) :
    ((loop (fun s ↦ decide (0 < s.i ∧ 0 < s.j)) (unionBackStep rhs) (lhs.length + rhs.length + 1)
        ⟨lhs.length, rhs.length, lhs.length + rhs.length,
          resizeUninitialized unknown (lhs.length + rhs.length) lhs⟩).bind fun s ↦
      (loop (fun s ↦ decide (0 < s.j)) (copyBackStep rhs) (rhs.length + 1) s).bind fun s ↦
        (closeGap (lhs.length + rhs.length) s).map fun a ↦ resizeUninitialized unknown
          (s.i + (lhs.length + rhs.length - s.k)) a) =
      some (plainMerge ⟨true, true, true⟩ lhs rhs) := by
  have hstart : UnitingDown lhs rhs ⟨lhs.length, rhs.length, lhs.length + rhs.length,
      resizeUninitialized unknown (lhs.length + rhs.length) lhs⟩ [] := by
    refine ⟨le_rfl, le_rfl, le_rfl, le_rfl, length_resizeUninitialized .., ?_, ?_,
      List.Pairwise.nil, fun _ _ ↦ List.forall_mem_nil _, ?_⟩
    · dsimp only
      rw [take_resizeUninitialized (Nat.le_add_right _ _), List.take_length]
    · exact List.drop_of_length_le (length_resizeUninitialized ..).le
    · intro v
      dsimp only
      rw [List.drop_length, List.drop_length, or_self]
  obtain ⟨s, hfirst, ⟨zs, hs⟩, hend⟩ :=
    loop_spec (fun s ↦ decide (0 < s.i ∧ 0 < s.j)) (unionBackStep rhs)
    (fun s ↦ ∃ zs, UnitingDown lhs rhs s zs) (fun s ↦ s.i + s.j) (fun s hs hagain ↦ by
      obtain ⟨zs, hs⟩ := hs
      obtain ⟨hi, hj⟩ := of_decide_eq_true hagain
      obtain ⟨s', v, hrun, hs', hless⟩ := hs.step ha hb hi hj
      exact ⟨s', hrun, ⟨_, hs'⟩, hless⟩) (lhs.length + rhs.length + 1) ⟨[], hstart⟩
        (Nat.lt_succ_self _)
  have hdone := of_decide_eq_false hend
  have hright := hs.right_le
  obtain ⟨t, hsecond, ⟨ws, ht, -⟩, hend'⟩ := loop_spec (fun s ↦ decide (0 < s.j)) (copyBackStep rhs)
    (fun s ↦ ∃ zs, UnitingDown lhs rhs s zs ∧ (s.i = 0 ∨ s.j = 0)) (fun s ↦ s.j)
        (fun s hs hagain ↦ by
      obtain ⟨zs, hs, hzero⟩ := hs
      have hj := of_decide_eq_true hagain
      obtain ⟨s', v, hrun, hs', hi, hless⟩ := hs.copy hb (hzero.resolve_right hj.ne') hj
      exact ⟨s', hrun, ⟨_, hs', .inl hi⟩, hless⟩) (rhs.length + 1) ⟨zs, hs, by omega⟩
        (Nat.lt_succ_of_le hright)
  have hj : t.j = 0 := Nat.eq_zero_of_not_pos (of_decide_eq_false hend')
  obtain ⟨out', hclose, hlength, hcount, htaken⟩ := ht.close
  rw [hfirst, Option.bind_some, hsecond, Option.bind_some, hclose, Option.map_some, hcount,
    ht.whole ha hb hj]
  rw [ht.whole ha hb hj] at htaken
  have hle := length_plainMerge_le ⟨true, true, true⟩ lhs rhs
  rw [resizeUninitialized_shrink (hle.trans hlength.ge), htaken]

/-- In place the union is the plain merge, forwards and backwards. -/
theorem unionArrayArrayInplace_spec (ha : lhs.Pairwise (· < ·)) (hb : rhs.Pairwise (· < ·))
    (hsame : sameData = true → lhs = rhs) :
    unionArrayArrayInplace haveX86V4 sameData unknown lhs rhs =
      some (plainMerge ⟨true, true, true⟩ lhs rhs) := by
  rw [unionArrayArrayInplace]
  cases sameData with
  | true =>
    have hself : plainMerge ⟨true, true, true⟩ lhs lhs = lhs := by
      have hblock : plainMerge ⟨true, true, true⟩ (lhs ++ []) (lhs ++ []) = _ :=
        plainMerge_block_both lhs [] []
      rwa [List.append_nil, plainMerge_nil_left, kept_nil, List.append_nil, kept,
        if_pos rfl] at hblock
    rw [if_pos rfl, ← hsame rfl, hself]
  | false =>
    dsimp only
    rw [if_neg Bool.false_ne_true]
    split
    · rename_i hvector
      have hfit : rhs.length +
          ((resizeUninitialized unknown (lhs.length + rhs.length) lhs).take lhs.length).length ≤
          (resizeUninitialized unknown (lhs.length + rhs.length) lhs).length := by
        rw [take_resizeUninitialized (Nat.le_add_right _ _), length_resizeUninitialized,
          Nat.add_comm]
      obtain ⟨a, hmove, hlength, hfront, -⟩ := memmoveInto_spec _ hfit
      rw [take_resizeUninitialized (Nat.le_add_right _ _)] at hmove hfront
      rw [length_resizeUninitialized] at hlength
      have hlayout : SafeLayout ⟨true, true, true⟩ (.inOut rhs.length) lhs.length (.apart rhs)
          rhs.length 0 := .behind (Nat.zero_add _).le
      have hholds : (Operand.inOut rhs.length).Holds a 0 lhs := by
        intro x _ hx
        change a.getD (rhs.length + x) 0 = lhs.getD x 0
        have hget : (a.take (rhs.length + lhs.length)).getD (rhs.length + x) 0 = lhs.getD x 0 := by
          rw [hfront, List.getD_eq_getElem?_getD, List.getElem?_append_right,
            List.getD_eq_getElem?_getD]
          · congr 2
            rw [List.length_take, length_resizeUninitialized]
            omega
          · rw [List.length_take]
            omega
        rw [← hget, List.getD_eq_getElem?_getD, List.getD_eq_getElem?_getD,
          List.getElem?_take_of_lt (by omega)]
      obtain ⟨out', hunion, hlength', htaken⟩ :=
        unionSortedUint16_spec ha hb hholds (b := .apart rhs) (fun x _ _ ↦ rfl) hlayout
        hlength.ge hvector.1 hvector.2.1
      have hle := length_plainMerge_le ⟨true, true, true⟩ lhs rhs
      rw [take_resizeUninitialized (Nat.le_add_right _ _), hmove, Option.bind_some, hunion,
        Option.map_some,
        resizeUninitialized_shrink (hle.trans (hlength'.trans hlength).ge), htaken]
    · exact unionBackwards_spec ha hb

/-- Into a vector the union is the plain merge as well. -/
theorem unionArrayArrayToVector_spec (out : List Nat) (ha : lhs.Pairwise (· < ·))
    (hb : rhs.Pairwise (· < ·)) :
    unionArrayArrayToVector haveX86V4 unknown lhs rhs out =
      some (plainMerge ⟨true, true, true⟩ lhs rhs) := by
  have hle := length_plainMerge_le ⟨true, true, true⟩ lhs rhs
  rw [unionArrayArrayToVector]
  split
  · rename_i hvector
    have hroom :
        lhs.length + rhs.length ≤
        (resizeUninitialized unknown (lhs.length + rhs.length + unionStoreSlack) out).length := by
      rw [length_resizeUninitialized]
      exact Nat.le_add_right _ _
    obtain ⟨out', hunion, hlength, htaken⟩ :=
      unionSortedUint16_spec ha hb .apart .apart .apart hroom hvector.1 hvector.2.1
    rw [hunion, Option.map_some, resize,
      resizeUninitialized_shrink (hle.trans (hroom.trans hlength.ge)), htaken]
  · have hroom : mergeCapacity ⟨true, true, true⟩ lhs.length rhs.length ≤
        (resizeUninitialized unknown (lhs.length + rhs.length) out).length := by
      rw [length_resizeUninitialized, mergeCapacity, if_pos rfl, if_pos rfl]
    obtain ⟨out', hunion, hlength, htaken⟩ :=
      mergeSortedScalar_leaves ha hb .apart hroom .apart .apart
    rw [length_resizeUninitialized] at hlength
    rw [unionSortedScalar, hunion, Option.map_some, resize,
      resizeUninitialized_shrink (hle.trans hlength.ge), htaken]

/-- However the union of two array containers is built, in place or into a vector, by the vector
kernel or by a scalar merge, the values are those of either side, ascending. -/
theorem arrayUnion_isUnion (out : List Nat) (ha : lhs.Pairwise (· < ·)) (hb : rhs.Pairwise (· < ·))
    (hsame : sameData = true → lhs = rhs) :
    ∃ values, unionArrayArrayInplace haveX86V4 sameData unknown lhs rhs = some values ∧
      unionArrayArrayToVector haveX86V4 unknown lhs rhs out = some values ∧
        values.Pairwise (· < ·) ∧
      ∀ v, v ∈ values ↔ v ∈ lhs ∨ v ∈ rhs :=
  ⟨plainMerge ⟨true, true, true⟩ lhs rhs, unionArrayArrayInplace_spec ha hb hsame,
    unionArrayArrayToVector_spec out ha hb,
    plainMerge_ascending ha hb, fun _ ↦ mem_union ha hb⟩

/-- Sides of a block and more, by the vector kernel and by the merges of values. -/
theorem arrayUnion_isUnion_blocks :
    let lhs := List.range' 0 35
    let rhs := List.range' 17 33 ++ [65535]
    ∀ haveX86V4 : Bool, ∃ values,
      unionArrayArrayInplace haveX86V4 false (fun _ ↦ 7) lhs rhs = some values ∧
      unionArrayArrayToVector haveX86V4 (fun _ ↦ 7) lhs rhs [9] = some values ∧
      values.Pairwise (· < ·) ∧ ∀ v, v ∈ values ↔ v ∈ lhs ∨ v ∈ rhs := by
  intro lhs rhs haveX86V4
  exact arrayUnion_isUnion [9] (by decide) (by decide) fun h ↦ absurd h Bool.false_ne_true

end Union

end Roaring
