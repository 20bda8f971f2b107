import Mathlib

/-!
# Arrays of fixed width with a filler behind what they hold

A block of `w` slots holds a sequence in its first slots and a filler value in
the others: `padTo w v xs`.  The memory moves that insert into a block, take out
of it, cut it or append to it give the block of the sequence with the same done
to it.
-/

namespace Lib

variable {α : Type}

/-! ## Memory moves -/

/-- `memcpy( a + i, xs )`. -/
def overwrite (a : List α) (i : Nat) (xs : List α) : List α :=
  a.take i ++ xs ++ a.drop (i + xs.length)

/-- `memmove( a + dst, a + src, n )`. -/
def memmove (a : List α) (dst src n : Nat) : List α := overwrite a dst ((a.drop src).take n)

/-- `fill( a + first, a + last, v )`. -/
def fill (a : List α) (first last : Nat) (v : α) : List α :=
  overwrite a first (List.replicate (last - first) v)

section Overwrite

variable {a xs : List α} {i j n : Nat} {x : α}

theorem length_overwrite (h : i + xs.length ≤ a.length) : (overwrite a i xs).length = a.length := by
  simp only [overwrite, List.length_append, List.length_take, List.length_drop]
  omega

theorem take_overwrite (hj : j ≤ i) (hi : i ≤ a.length) : (overwrite a i xs).take j = a.take j := by
  rw [overwrite, List.append_assoc, List.take_append_of_le_length (by rw [List.length_take]; omega),
    List.take_take, min_eq_left hj]

/-- What was written, and behind it what there was. -/
theorem drop_take_overwrite (hn : i + xs.length ≤ n) (ha : i + xs.length ≤ a.length) :
    ((overwrite a i xs).take n).drop i = xs ++ (a.take n).drop (i + xs.length) := by
  have hi : (a.take i).length = i := by
    rw [List.length_take]
    omega
  rw [List.drop_take, overwrite, List.append_assoc]
  nth_rewrite 2 [← hi]
  rw [List.drop_left, List.take_append, List.take_of_length_le (by omega), List.drop_take]
  congr 2
  omega

/-- What was written and all that is behind it. -/
theorem drop_overwrite (hi : i ≤ a.length) :
    (overwrite a i xs).drop i = xs ++ a.drop (i + xs.length) := by
  have hlen : (a.take i).length = i := by rw [List.length_take, min_eq_left hi]
  rw [overwrite, List.append_assoc]
  nth_rewrite 1 [← hlen]
  exact List.drop_left

/-- What lies behind a write is untouched. -/
theorem drop_overwrite_of_le (hi : i ≤ a.length) (hj : i + xs.length ≤ j) :
    (overwrite a i xs).drop j = a.drop j := by
  obtain ⟨d, rfl⟩ := Nat.exists_eq_add_of_le hj
  rw [Nat.add_assoc, ← List.drop_drop, drop_overwrite hi, ← List.drop_drop, List.drop_left,
    List.drop_drop,
    Nat.add_assoc]

theorem memmove_self {n : Nat} (h : i + n ≤ a.length) : memmove a i i n = a := by
  have hlen : ((a.drop i).take n).length = n := by
    rw [List.length_take, List.length_drop]
    omega
  rw [memmove, overwrite, hlen, List.append_assoc, ← List.drop_drop, List.take_append_drop,
    List.take_append_drop]

theorem take_overwrite_zero (hn : n ≤ xs.length) : (overwrite a 0 xs).take n = xs.take n := by
  rw [overwrite, List.take_zero, List.nil_append, List.take_append_of_le_length hn]

/-- A write with what is in front of it. -/
theorem take_add_overwrite (hi : i ≤ a.length) :
    (overwrite a i xs).take (i + xs.length) = a.take i ++ xs := by
  have hlen : (a.take i ++ xs).length = i + xs.length := by
    rw [List.length_append, List.length_take, min_eq_left hi]
  rw [overwrite, ← hlen, List.take_left]

/-- A write of one more in front of a write. -/
theorem set_overwrite (hi : i < a.length) :
    (overwrite a (i + 1) xs).set i x = overwrite a i (x :: xs) := by
  have hlen : (a.take i).length = i := by
    rw [List.length_take]
    omega
  rw [overwrite, overwrite, List.take_succ_eq_append_getElem hi, List.append_assoc,
    List.append_assoc,
    List.set_append_right _ _ hlen.le, hlen, Nat.sub_self, List.append_assoc, List.cons_append,
    List.nil_append, List.set_cons_zero, List.length_cons, List.cons_append]
  congr 4
  omega

end Overwrite

/-! ## Padded blocks -/

def padTo (w : Nat) (v : α) (xs : List α) : List α := xs ++ List.replicate (w - xs.length) v

variable {w : Nat} {v x : α} {xs ys : List α}

@[simp] theorem length_padTo (h : xs.length ≤ w) : (padTo w v xs).length = w := by
  rw [padTo, List.length_append, List.length_replicate]
  omega

theorem padTo_nil (w : Nat) (v : α) : padTo w v [] = List.replicate w v := by simp [padTo]

theorem take_padTo {n : Nat} (h : n ≤ xs.length) : (padTo w v xs).take n = xs.take n :=
  List.take_append_of_le_length h

theorem drop_padTo {n : Nat} (h : n ≤ xs.length) (hw : xs.length ≤ w) :
    (padTo w v xs).drop n = padTo (w - n) v (xs.drop n) := by
  rw [padTo, padTo, List.drop_append_of_le_length h, List.length_drop]
  congr 2
  omega

theorem drop_padTo_of_le {n : Nat} (h : xs.length ≤ n) :
    (padTo w v xs).drop n = List.replicate (w - n) v := by
  rw [padTo, List.drop_append, List.drop_of_length_le h, List.nil_append, List.drop_replicate]
  congr 1
  omega

/-- A value that is not the filler stands in the block exactly where it stands in the sequence. -/
theorem getD_padTo {i : Nat} : (padTo w v xs).getD i v = xs.getD i v := by
  rw [padTo]
  by_cases hi : i < xs.length
  · rw [List.getD_append _ _ _ _ hi]
  · rw [List.getD_append_right _ _ _ _ (Nat.le_of_not_lt hi),
      List.getD_eq_default xs v (Nat.le_of_not_lt hi)]
    rw [List.getD_eq_getElem?_getD, List.getElem?_replicate]
    split <;> rfl

theorem countP_padTo {p : α → Bool} (h : p v = false) : (padTo w v xs).countP p = xs.countP p := by
  rw [padTo, List.countP_append, List.countP_replicate]
  simp [h]

/-- An append writes the first free slot. -/
theorem set_padTo (h : xs.length < w) (x : α) :
    (padTo w v xs).set xs.length x = padTo w v (xs ++ [x]) := by
  have hw : w - xs.length = w - (xs ++ [x]).length + 1 := by
    rw [List.length_append, List.length_singleton]
    omega
  rw [padTo, padTo, hw, List.replicate_succ, List.set_append_right _ _ le_rfl, Nat.sub_self,
    List.set_cons_zero, List.append_assoc]
  rfl

theorem overwrite_replicate :
    overwrite (List.replicate w v) 0 xs = padTo w v xs := by
  rw [overwrite, List.take_zero, List.nil_append, Nat.zero_add, List.drop_replicate, padTo]

theorem overwrite_padTo :
    overwrite (padTo w v xs) xs.length ys = padTo w v (xs ++ ys) := by
  rw [overwrite, take_padTo le_rfl, List.take_length, drop_padTo_of_le (Nat.le_add_right _ _),
    padTo,
    List.length_append]

theorem insertIdx_length_append (a b : List α) (x : α) :
    (a ++ b).insertIdx a.length x = a ++ x :: b := by
  induction a with
  | nil => rfl
  | cons y a ih => rw [List.cons_append, List.length_cons, List.insertIdx_succ_cons, ih,
      List.cons_append]

/-- An insertion moves what is behind it up by one. -/
theorem insert_padTo {i : Nat} (hi : i ≤ xs.length) (h : xs.length < w) (x : α) :
    (memmove (padTo w v xs) (i + 1) i (xs.length - i)).set i x = padTo w v (xs.insertIdx i x) := by
  obtain ⟨a, b, rfl, rfl⟩ : ∃ a b, xs = a ++ b ∧ a.length = i :=
    ⟨xs.take i, xs.drop i, (List.take_append_drop i xs).symm, List.length_take_of_le hi⟩
  have hb : (a ++ b).length - a.length = b.length := by
    rw [List.length_append]
    omega
  have hlen : (a ++ b).length = a.length + b.length := List.length_append
  have hmoved : ((padTo w v (a ++ b)).drop a.length).take b.length = b := by
    rw [drop_padTo (by omega) h.le, List.drop_left, take_padTo le_rfl, List.take_length]
  have hfront : ((padTo w v (a ++ b)).take (a.length + 1)).set a.length x = a ++ [x] := by
    have hlt : a.length < (padTo w v (a ++ b)).length := by
      rw [length_padTo h.le]
      omega
    rw [List.take_succ_eq_append_getElem hlt, take_padTo (by omega), List.take_left,
      List.set_append_right _ _ le_rfl, Nat.sub_self]
    rfl
  have hback : (padTo w v (a ++ b)).drop (a.length + 1 + b.length) =
      List.replicate (w - (a.length + 1 + b.length)) v := drop_padTo_of_le (by omega)
  rw [hb, memmove, hmoved, overwrite, hback, insertIdx_length_append, List.set_append_left,
    List.set_append_left, hfront,
    padTo]
  · have hrest : w - (a.length + 1 + b.length) = w - (a ++ x :: b).length := by
      rw [List.length_append, List.length_cons]
      omega
    rw [hrest, List.append_assoc a [x] b, List.singleton_append]
  · rw [List.length_take, length_padTo h.le]
    omega
  · rw [List.length_append, List.length_take, length_padTo h.le]
    omega

/-- A removal moves what is behind it down by one and clears the slot that falls free. -/
theorem erase_padTo {i : Nat} (hi : i < xs.length) (h : xs.length ≤ w) :
    (memmove (padTo w v xs) i (i + 1) (xs.length - i - 1)).set (xs.length - 1) v =
      padTo w v (xs.eraseIdx i) := by
  obtain ⟨a, y, b, rfl, rfl⟩ : ∃ a y b, xs = a ++ y :: b ∧ a.length = i := by
    refine ⟨xs.take i, xs[i], xs.drop (i + 1), ?_, List.length_take_of_le hi.le⟩
    rw [← List.drop_eq_getElem_cons hi, List.take_append_drop]
  have hlen : (a ++ y :: b).length = a.length + b.length + 1 := by
    rw [List.length_append, List.length_cons]
    omega
  have hmoved : ((padTo w v (a ++ y :: b)).drop (a.length + 1)).take b.length = b := by
    rw [drop_padTo (by omega) h, ← List.drop_drop, List.drop_left, List.drop_one, List.tail_cons,
      take_padTo le_rfl, List.take_length]
  have hback : ((padTo w v (a ++ y :: b)).drop (a.length + b.length)).set 0 v =
      List.replicate (w - (a.length + b.length)) v := by
    have hlt : a.length + b.length < (padTo w v (a ++ y :: b)).length := by
      rw [length_padTo h]
      omega
    have hrest : w - (a.length + b.length) = w - (a.length + b.length + 1) + 1 := by omega
    rw [List.drop_eq_getElem_cons hlt, drop_padTo_of_le (by omega), List.set_cons_zero, hrest,
      List.replicate_succ]
  have herase : (a ++ y :: b).eraseIdx a.length = a ++ b := by
    rw [List.eraseIdx_append_of_length_le le_rfl, Nat.sub_self]
    rfl
  have hcount : (a ++ y :: b).length - a.length - 1 = b.length := by omega
  have hlast : (a ++ y :: b).length - 1 = a.length + b.length := by omega
  rw [hcount, hlast, memmove, hmoved, overwrite, take_padTo (by omega), List.take_left, herase,
    List.set_append_right _ _ (by rw [List.length_append]), List.length_append, Nat.sub_self, hback,
    padTo, List.length_append]

/-- Clearing from a position on cuts the sequence there. -/
theorem fill_padTo {k : Nat} (hk : k ≤ xs.length) (h : xs.length ≤ w) :
    fill (padTo w v xs) k xs.length v = padTo w v (xs.take k) := by
  rw [fill, overwrite, take_padTo hk, List.length_replicate, drop_padTo_of_le (by omega), padTo,
    List.append_assoc, List.replicate_append_replicate, List.length_take_of_le hk]
  congr 2
  omega

/-- Writing a shorter sequence over the front and clearing the rest. -/
theorem fill_overwrite_padTo {n : Nat} (hx : xs.length ≤ w) (hn : n = w) (hy : ys.length ≤ w) :
    fill (overwrite (padTo w v xs) 0 ys) ys.length n v = padTo w v ys := by
  subst hn
  rw [fill, overwrite, overwrite, List.take_zero, List.nil_append, Nat.zero_add, List.take_left,
    List.length_replicate, List.drop_append]
  have hdrop : ((padTo n v xs).drop ys.length).drop (ys.length + (n - ys.length) - ys.length) =
      [] := by
    rw [List.drop_drop, List.drop_eq_nil_iff, length_padTo hx]
    omega
  rw [hdrop, List.append_nil, List.drop_of_length_le (by omega), List.append_nil, padTo]

end Lib
