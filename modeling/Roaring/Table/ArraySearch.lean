import Mathlib
import Roaring.Lib.Search
import Roaring.Table.ChunkArray

/-!
# Searches of the flat chunk table

The keys of a table lie behind its handles in one block.  A lookup of one key
takes one of four ways by the size of the table, a walk that only moves forward
gallops from where it stands, and all of them end where the linear search does.
A table has at most 65536 keys of 16 bits, so that the 32-bit indices and steps
of the source never wrap.
-/

namespace Roaring

open Lib

/-- The block of a table up to its last key: the 16-bit words of the storage of
its handles, 32 bytes each, and the keys in use behind them. -/
structure KeyBlock where
  handles : List Nat
  keys : List Nat
  ascending : keys.Pairwise (· < ·)
  bounded : ∀ k ∈ keys, k < 2 ^ 16
  inside : 16 * keys.length ≤ handles.length

namespace KeyBlock

def shortcutMinChunks : Nat := 5

def windowMinKeys : Nat := 3

def windowMaxKeys : Nat := 16

def residentKeysBytes : Nat := 2 * 64

/-- `sizeof( chunk_type )`. -/
def chunkTypeBytes : Nat := 2

variable (t : KeyBlock)

/-- `size_`, and the index of `end()`. -/
def size : Nat := t.keys.length

/-- `keys_[ i ]`. -/
def key (i : Nat) : Nat := t.keys.getD i 0

/-! ## The searches -/

/-- `lower_bound( key )`; `search` is the lower bound that the build takes from outside. -/
def lowerBound (search : List Nat → Nat → Nat) (key : Nat) : Nat := search t.keys key

/-- The 32 bytes that end at the last key. -/
def window : List Nat := (t.handles ++ t.keys).drop (t.handles.length + t.size - windowMaxKeys)

/-- The byte mask of the lanes of the window that equal `key`: two bits for each. -/
def equalMask (key : Nat) : BitVec 32 :=
  BitVec.ofFnLE fun i ↦ decide (t.window.getD (i / 2) 0 = key)

/-- `find_in_window`. -/
def findInWindow (key : Nat) : Nat :=
  let found := t.equalMask key >>> (2 * (windowMaxKeys - t.size))
  if found ≠ 0#32 then found.ctz.toNat / 2 else t.size

/-- The halving of `find`, which ends on the last key not above the probe. -/
def halving (key base length : Nat) : Nat :=
  if 1 < length then
    halving key (if t.key (base + length / 2) ≤ key then base + length / 2 else base)
      (length - length / 2)
  else base
termination_by length

/-- The end of `find` for the tables that no other way has answered. -/
def findByHalving (key : Nat) : Nat :=
  let base := t.halving key 0 t.size
  if t.key base = key then base else t.size

/-- `find`; `avx2`: the build compares a window of keys in one vector. -/
def find (search : List Nat → Nat → Nat) (avx2 : Bool) (key : Nat) : Nat :=
  if windowMaxKeys < t.size then
    if t.key (t.size - 1) = key then t.size - 1
    else if residentKeysBytes < t.size * chunkTypeBytes then
      let position := t.lowerBound search key
      if position = t.size ∨ t.key position ≠ key then t.size else position
    else t.findByHalving key
  else if t.size < windowMinKeys then
    if t.size = 0 then t.size else t.findByHalving key
  else if shortcutMinChunks ≤ t.size ∧ t.key (t.size - 1) = key then t.size - 1
  else if avx2 then t.findInWindow key
  else t.findByHalving key

/-- `lower_bound( key, from )`. -/
def lowerBoundFrom (key start : Nat) : Nat :=
  if t.size ≤ start ∨ ¬ t.key start < key then min start t.size
  else
    let probe := gallopSteps (fun i ↦ decide (t.key i < key)) t.size start 0
    bisect (fun i ↦ decide (t.key i < key)) probe.1 (min (probe.1 + probe.2) t.size)

/-! ## The reads -/

theorem size_le : t.size ≤ 65536 := by
  have hsub : ∀ k ∈ t.keys, k ∈ List.range 65536 := fun k hk ↦ List.mem_range.2 (t.bounded k hk)
  have hle := length_le_of_ascending t.ascending hsub
  rwa [List.length_range] at hle

variable {t}

theorem key_eq {i : Nat} (hi : i < t.keys.length) : t.key i = t.keys[i] :=
  List.getD_eq_getElem _ _ hi

theorem key_lt_key {i j : Nat} (hij : i < j) (hj : j < t.size) : t.key i < t.key j := by
  rw [key_eq (hij.trans hj), key_eq hj]
  exact List.pairwise_iff_getElem.mp t.ascending i j _ _ hij

theorem eq_of_key_eq {i j : Nat} (hi : i < t.size) (hj : j < t.size) (h : t.key i = t.key j) :
    i = j := by
  rcases Nat.lt_trichotomy i j with hlt | heq | hgt
  · exact absurd h (key_lt_key hlt hj).ne
  · exact heq
  · exact absurd h (key_lt_key hgt hi).ne'

/-! ## The entry of a key -/

/-- A position is that of the entry of a key when it is wherever the key stands,
and that of `end()` where it stands nowhere. -/
theorem eq_idxOf {key r : Nat} (hat : ∀ i < t.size, t.key i = key → r = i)
    (hend : (∀ i < t.size, t.key i ≠ key) → r = t.size) : r = t.keys.idxOf key := by
  by_cases hmem : key ∈ t.keys
  · have hlt : t.keys.idxOf key < t.size := List.idxOf_lt_length_of_mem hmem
    apply hat _ hlt
    rw [key_eq hlt]
    exact List.getElem_idxOf hlt
  · rw [List.idxOf_eq_length hmem]
    apply hend
    intro i hi heq
    rw [key_eq hi] at heq
    exact hmem (heq ▸ List.getElem_mem hi)

theorem last_eq_idxOf {key : Nat} (hsize : 0 < t.size) (h : t.key (t.size - 1) = key) :
    t.size - 1 = t.keys.idxOf key := by
  have hlast : t.size - 1 < t.size := Nat.sub_lt hsize Nat.one_pos
  apply eq_idxOf
  · intro i hi heq
    exact eq_of_key_eq hlast hi (h.trans heq.symm)
  · intro hnone
    exact absurd h (hnone _ hlast)

/-! ## The halving -/

theorem halving_lt (key : Nat) {base length : Nat} (hpos : 0 < length)
    (hfit : base + length ≤ t.size) :
    t.halving key base length < t.size := by
  induction base, length using halving.induct t key with
  | case1 base length hlong ih =>
    rw [halving, if_pos hlong]
    apply ih
    · omega
    · split <;> omega
  | case2 base length hshort =>
    rw [halving, if_neg hshort]
    omega

/-- The halving keeps the entry of the key between its bounds. -/
theorem halving_eq {key base length i : Nat} (hfit : base + length ≤ t.size) (hbase : base ≤ i)
    (hlt : i < base + length) (hi : t.key i = key) : t.halving key base length = i := by
  induction base, length using halving.induct t key with
  | case1 base length hlong ih =>
    rw [halving, if_pos hlong]
    by_cases hmid : t.key (base + length / 2) ≤ key
    · rw [dif_pos hmid] at ih
      rw [if_pos hmid]
      have hge : base + length / 2 ≤ i := by
        by_contra hlow
        exact absurd (key_lt_key (not_le.1 hlow) (by omega)) (not_lt.2 (hi ▸ hmid))
      exact ih (by omega) hge (by omega)
    · rw [dif_neg hmid] at ih
      rw [if_neg hmid]
      have hle : i < base + length / 2 := by
        by_contra hge
        rcases Nat.lt_or_eq_of_le (not_lt.1 hge) with hgt | heq
        · exact hmid ((key_lt_key hgt (by omega)).le.trans hi.le)
        · exact hmid (heq ▸ hi.le)
      exact ih (by omega) hbase (by omega)
  | case2 base length hshort =>
    rw [halving, if_neg hshort]
    omega

theorem findByHalving_eq (key : Nat) (hsize : 0 < t.size) :
    t.findByHalving key = t.keys.idxOf key := by
  have hlt := halving_lt key hsize (Nat.zero_add t.size).le
  apply eq_idxOf
  · intro i hi heq
    have hat := halving_eq (Nat.zero_add t.size).le (Nat.zero_le i) (by omega) heq
    rw [findByHalving, hat]
    exact if_pos heq
  · intro hnone
    exact if_neg (hnone _ hlt)

/-! ## The window -/

/-- The last lanes of the window are the keys. -/
theorem window_key {i : Nat} (hmin : windowMinKeys ≤ t.size) (hmax : t.size ≤ windowMaxKeys)
    (hi : i < t.size) :
    t.window.getD (windowMaxKeys - t.size + i) 0 = t.key i := by
  have hinside : 16 * t.size ≤ t.handles.length := t.inside
  rw [windowMinKeys] at hmin
  rw [windowMaxKeys] at hmax ⊢
  rw [window, List.getD_eq_getElem?_getD, List.getElem?_drop,
    List.getElem?_append_right (by rw [windowMaxKeys]; omega), key, List.getD_eq_getElem?_getD]
  congr 2
  rw [windowMaxKeys]
  omega

/-- What is left of the mask has the two bits of every key that equals the probe, and no others. -/
theorem getLsbD_found (key : Nat) (hmin : windowMinKeys ≤ t.size) (hmax : t.size ≤ windowMaxKeys)
    (i : Nat) :
    (t.equalMask key >>> (2 * (windowMaxKeys - t.size))).getLsbD i = decide
    (i / 2 < t.size ∧ t.key (i / 2) = key) := by
  have hmax' : t.size ≤ 16 := hmax
  rw [BitVec.getLsbD_ushiftRight]
  by_cases hi : i / 2 < t.size
  · have hlane : (2 * (windowMaxKeys - t.size) + i) / 2 = windowMaxKeys - t.size + i / 2 := by omega
    rw [equalMask, BitVec.getLsbD_ofFnLE, dif_pos (by rw [windowMaxKeys]; omega)]
    simp only [hlane, window_key hmin hmax hi, hi, true_and]
  · rw [BitVec.getLsbD_of_ge _ _ (by rw [windowMaxKeys]; omega)]
    simp only [hi, false_and, decide_false]

theorem findInWindow_eq (key : Nat) (hmin : windowMinKeys ≤ t.size)
    (hmax : t.size ≤ windowMaxKeys) :
    t.findInWindow key = t.keys.idxOf key := by
  have hbits := getLsbD_found key hmin hmax
  rw [findInWindow]
  by_cases hfound : t.equalMask key >>> (2 * (windowMaxKeys - t.size)) = 0#32
  · apply eq_idxOf
    · intro i hi heq
      have hbit := hbits (2 * i)
      rw [hfound, BitVec.getLsbD_zero, Nat.mul_div_cancel_left i Nat.two_pos, eq_comm,
        decide_eq_false_iff_not] at hbit
      exact absurd ⟨hi, heq⟩ hbit
    · intro _
      exact if_neg (not_not.2 hfound)
  · have hat := hbits (BitVec.ctz (t.equalMask key >>> (2 * (windowMaxKeys - t.size)))).toNat
    rw [BitVec.getLsbD_true_ctz_of_ne_zero hfound, eq_comm, decide_eq_true_iff] at hat
    rw [if_pos hfound]
    apply eq_idxOf
    · intro i hi heq
      exact eq_of_key_eq hat.1 hi (hat.2.trans heq.symm)
    · intro hnone
      exact absurd hat.2 (hnone _ hat.1)

/-! ## The lower bounds -/

/-- The entry that the lower bound ends on has the key, or no entry has. -/
theorem find_of_lowerBound {key position : Nat}
    (h : PartitionPoint (fun i ↦ t.key i < key) t.size position) :
    (if position = t.size ∨ t.key position ≠ key then t.size else position) = t.keys.idxOf key := by
  have hiff : ∀ i < t.size, t.key i = key → i = position := by
    intro i hi heq
    have hge : position ≤ i := by
      by_contra hlt
      exact absurd heq (h.of_lt i (not_le.1 hlt)).ne
    rcases Nat.lt_or_eq_of_le hge with hlt | heq'
    · exact absurd ((key_lt_key hlt hi).trans_le heq.le)
        (h.not_of_le position le_rfl (hlt.trans hi))
    · exact heq'.symm
  apply eq_idxOf
  · intro i hi heq
    obtain rfl := hiff i hi heq
    rw [if_neg]
    rintro (hend | hne)
    · exact hi.ne hend
    · exact hne heq
  · intro hnone
    rw [if_pos]
    rcases Nat.lt_or_eq_of_le h.le with hlt | heq
    · exact Or.inr (hnone position hlt)
    · exact Or.inl heq

theorem find_eq {search : List Nat → Nat → Nat} (avx2 : Bool) {key : Nat}
    (hsearch : PartitionPoint (fun i ↦ t.key i < key) t.size (search t.keys key)) :
    t.find search avx2 key = t.keys.idxOf key := by
  rw [find]
  split
  · rename_i hlarge
    have hpos : 0 < t.size := (Nat.zero_le _).trans_lt hlarge
    split
    · exact last_eq_idxOf hpos ‹_›
    · split
      · exact find_of_lowerBound hsearch
      · exact findByHalving_eq key hpos
  · rename_i hmax
    split
    · split
      · rename_i hzero
        apply eq_idxOf
        · intro i hi _
          exact absurd hi (by omega)
        · intro _
          rfl
      · exact findByHalving_eq key (Nat.pos_of_ne_zero ‹_›)
    · rename_i hmin
      have hpos : 0 < t.size := (Nat.succ_pos 2).trans_le (not_lt.1 hmin)
      split
      · rename_i hlast
        exact last_eq_idxOf hpos hlast.2
      · split
        · exact findInWindow_eq key (not_lt.1 hmin) (not_lt.1 hmax)
        · exact findByHalving_eq key hpos

/-- The gallop ends at the first entry from its start on that is not below the key. -/
theorem lowerBoundFrom_eq (key start : Nat) :
    t.lowerBoundFrom key start =
      min start t.size + ((t.keys.drop start).takeWhile fun k ↦ decide (k < key)).length := by
  rcases Nat.lt_or_ge start t.size with hlt | hge
  · have hpoint :=
      partitionPoint_takeWhile
      ((t.ascending.imp Nat.le_of_lt).sublist (List.drop_sublist start t.keys)) key
    generalize ((t.keys.drop start).takeWhile fun k ↦ decide (k < key)).length = d at hpoint ⊢
    have hget : ∀ i, (t.keys.drop start).getD i 0 = t.key (start + i) := by
      intro i
      rw [KeyBlock.key, List.getD_eq_getElem?_getD,
        List.getElem?_drop, ← List.getD_eq_getElem?_getD]
    simp only [hget, List.length_drop] at hpoint
    change PartitionPoint _ (t.size - start) d at hpoint
    have hd := hpoint.le
    have hbelow : ∀ i, start ≤ i → i < start + d → decide (t.key i < key) = true := by
      intro i hi hik
      have hb := hpoint.of_lt (i - start) (by omega)
      rw [Nat.add_sub_cancel' hi] at hb
      exact decide_eq_true hb
    have hnot : ∀ i, start + d ≤ i → i < t.size → decide (t.key i < key) = false := by
      intro i hi hik
      have hb := hpoint.not_of_le (i - start) (by omega) (by omega)
      rw [Nat.add_sub_cancel' (by omega)] at hb
      exact decide_eq_false hb
    rw [lowerBoundFrom, min_eq_left hlt.le]
    split
    · rename_i hstop
      rcases hstop with hend | hfirst
      · omega
      · by_contra hne
        exact hfirst (of_decide_eq_true (hbelow start le_rfl (by omega)))
    · rename_i hgo
      rw [not_or, not_not] at hgo
      have hin : start < start + d := by
        by_contra hle
        exact absurd hgo.2 (of_decide_eq_false (hnot start (by omega) hlt))
      obtain ⟨hmono, hbefore, hwithin⟩ := gallopSteps_spec hbelow hnot (by omega) hin 0
      exact bisect_eq (fun i hi ↦ hbelow i (hmono.trans hi)) hnot hbefore hwithin (min_le_right _ _)
  · rw [lowerBoundFrom, if_pos (Or.inl hge), List.drop_eq_nil_of_le hge]
    rfl

end KeyBlock

/-! ## The searches of a table -/

/-- For every table, probe and starting cursor a lookup ends at the entry of the
key or at `end()`, the lower bound at the first entry not below it, and the
gallop at the first such entry from its start on, where `search` is a lower bound
on ascending keys. -/
theorem arraySearch_spec (search : List Nat → Nat → Nat)
    (hsearch : ∀ (keys : List Nat) (key : Nat), keys.Pairwise (· < ·) →
      PartitionPoint (fun i ↦ keys.getD i 0 < key) keys.length (search keys key))
    (avx2 : Bool) (t : KeyBlock) (key : Nat) :
    t.find search avx2 key = t.keys.idxOf key ∧
      t.lowerBound search key = (t.keys.takeWhile fun k ↦ decide (k < key)).length ∧
      ∀ start, t.lowerBoundFrom key start =
        min start t.size + ((t.keys.drop start).takeWhile fun k ↦ decide (k < key)).length := by
  have hpoint := hsearch t.keys key t.ascending
  refine ⟨KeyBlock.find_eq avx2 hpoint, ?_, KeyBlock.lowerBoundFrom_eq key⟩
  exact hpoint.unique (partitionPoint_takeWhile (t.ascending.imp Nat.le_of_lt) key)

/-- Three keys behind as many handles. -/
def threeKeys : KeyBlock where
  handles := List.replicate 48 7
  keys := [2, 5, 9]
  ascending := by decide
  bounded := by decide
  inside := by decide

theorem arraySearch_spec_threeKeys :
    threeKeys.find (fun keys key ↦ (keys.takeWhile fun k ↦ decide (k < key)).length) true 5 = 1 ∧
      threeKeys.lowerBoundFrom 6 1 = 2 := by
  have h := arraySearch_spec (fun keys key ↦ (keys.takeWhile fun k ↦ decide (k < key)).length)
    (fun keys key hasc ↦ partitionPoint_takeWhile (hasc.imp Nat.le_of_lt) key) true threeKeys
  exact ⟨(h 5).1, (h 6).2.2 1⟩

end Roaring
