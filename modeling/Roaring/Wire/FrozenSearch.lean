import Mathlib
import Roaring.Lib.Search
import Roaring.Wire.Frozen

/-!
# The lookups of a frozen view

The block search of an array payload and the binary search of a run payload
both find a partition point; membership is read off it.
-/

namespace Roaring

open Lib

/-! ## Arrays -/

/-- The last value of block `j` is below `value`. -/
def BlockBelow (values : List Nat) (value j : Nat) : Prop :=
  values.getD ((j + 1) * arrayGap - 1) 0 < value

section Blocks

variable {values : List Nat} {value numBlocks k : Nat}

theorem exists_blockPoint (hasc : values.Pairwise (· < ·)) (value : Nat)
    (hfit : numBlocks * arrayGap ≤ values.length) :
    ∃ k, PartitionPoint (BlockBelow values value) numBlocks k := by
  apply PartitionPoint.exists_of_antitone
  intro i j hij hj hbelow
  unfold arrayGap at hfit
  exact (getD_mono hasc (by unfold arrayGap; omega) (by unfold arrayGap; omega)).trans_lt hbelow

/-- A round of the search by quarters keeps the point between its bounds. -/
theorem arrayBlockQuarters_bounds (hk : PartitionPoint (BlockBelow values value) numBlocks k)
    {base n : Nat} (hn : 0 < n) (hlo : base ≤ k) (hhi : k ≤ base + n)
    (hfit : base + n ≤ numBlocks) :
    let r := arrayBlockQuarters values value base n
    0 < r.2 ∧ r.1 ≤ k ∧ k ≤ r.1 + r.2 ∧ r.1 + r.2 ≤ numBlocks := by
  induction base, n using arrayBlockQuarters.induct values value with
  | case1 base n h3 quarter k1 k2 k3 c1 c2 c3 ih =>
      rw [arrayBlockQuarters, if_pos h3]
      have hquarter : quarter = n / 4 := rfl
      have h1 : k1 < value ↔ base + quarter < k := hk.lt_iff (by omega)
      have h2 : k2 < value ↔ base + 2 * quarter < k := hk.lt_iff (by omega)
      have h3 : k3 < value ↔ base + 3 * quarter < k := hk.lt_iff (by omega)
      have hc1 : c1 = if base + quarter < k then 1 else 0 := if_congr h1 rfl rfl
      have hc2 : c2 = if base + 2 * quarter < k then 1 else 0 := if_congr h2 rfl rfl
      have hc3 : c3 = if base + 3 * quarter < k then 1 else 0 := if_congr h3 rfl rfl
      have hsum : ∃ c, c1 + c2 + c3 = c ∧ c ≤ 3 ∧ base + c * quarter ≤ k ∧
          k ≤ base + c * quarter + (n - 3 * quarter) := by
        rw [hc1, hc2, hc3]
        split_ifs
        all_goals first
          | exact ⟨0, rfl, by omega, by omega, by omega⟩
          | exact ⟨1, rfl, by omega, by omega, by omega⟩
          | exact ⟨2, rfl, by omega, by omega, by omega⟩
          | exact ⟨3, rfl, by omega, by omega, by omega⟩
      obtain ⟨c, hc, hle, hlo', hhi'⟩ := hsum
      rw [hc] at ih
      have hcq : c * quarter ≤ 3 * quarter := Nat.mul_le_mul_right _ hle
      have := ih (by omega) hlo' hhi' (by omega)
      rw [← hc] at this
      exact this
  | case2 base n h3 =>
      rw [arrayBlockQuarters, if_neg h3]
      exact ⟨hn, hlo, hhi, hfit⟩

/-- The search by halves ends one block in front of the point at most. -/
theorem arrayBlockHalves_bounds (hk : PartitionPoint (BlockBelow values value) numBlocks k)
    {base n : Nat} (hn : 0 < n) (hlo : base ≤ k) (hhi : k ≤ base + n)
    (hfit : base + n ≤ numBlocks) :
    let r := arrayBlockHalves values value base n
    r ≤ k ∧ k ≤ r + 1 ∧ r < numBlocks := by
  induction base, n using arrayBlockHalves.induct values value with
  | case1 base n h1 half base' ih =>
      rw [arrayBlockHalves, if_pos h1]
      have hhalf : half = n / 2 := rfl
      have hprobe : values.getD ((base + half + 1) * arrayGap - 1) 0 < value ↔ base + half < k :=
        hk.lt_iff (by omega)
      have hbase : base' = if base + half < k then base + half else base :=
        if_congr hprobe rfl rfl
      apply ih
      · omega
      · rw [hbase]
        split <;> omega
      · rw [hbase]
        split <;> omega
      · rw [hbase]
        split <;> omega
  | case2 base n h1 =>
      rw [arrayBlockHalves, if_neg h1]
      exact ⟨hlo, by omega, by omega⟩

/-- The block search finds the partition point of the blocks. -/
theorem arrayBlockSearch_spec (hasc : values.Pairwise (· < ·)) (hpos : 0 < numBlocks)
    (hfit : numBlocks * arrayGap ≤ values.length) (value : Nat) :
    PartitionPoint (BlockBelow values value) numBlocks
      (arrayBlockSearch values numBlocks value) := by
  obtain ⟨k, hk⟩ := exists_blockPoint hasc value hfit
  have hquarters := arrayBlockQuarters_bounds hk hpos (Nat.zero_le k) (by simpa using hk.le)
    (Nat.zero_add numBlocks).le
  rw [arrayBlockSearch]
  generalize arrayBlockQuarters values value 0 numBlocks = q at hquarters ⊢
  obtain ⟨base, n⟩ := q
  obtain ⟨hn, hlo, hhi, hle⟩ := hquarters
  have hhalves := arrayBlockHalves_bounds hk hn hlo hhi hle
  dsimp only
  generalize arrayBlockHalves values value base n = r at hhalves ⊢
  obtain ⟨hrk, hkr, hrn⟩ := hhalves
  have hprobe : values.getD ((r + 1) * arrayGap - 1) 0 < value ↔ r < k := hk.lt_iff hrn
  have heq : (if values.getD ((r + 1) * arrayGap - 1) 0 < value then r + 1 else r) = k := by
    rw [if_congr hprobe rfl rfl]
    split <;> omega
  rw [heq]
  exact hk

end Blocks

/-- A scan that stops at the first value not below the probe finds it if it is there. -/
theorem scanContains_iff {values : List Nat} (hasc : values.Pairwise (· < ·)) (value : Nat) :
    scanContains value values = true ↔ value ∈ values := by
  induction values with
  | nil => simp [scanContains]
  | cons v vs ih =>
      rw [scanContains]
      split
      · rename_i hge
        rw [decide_eq_true_eq, List.mem_cons]
        constructor
        · rintro rfl
          exact .inl rfl
        · rintro (rfl | hmem)
          · rfl
          · exact absurd (List.rel_of_pairwise_cons hasc hmem) (Nat.not_lt_of_le hge)
      · rename_i hlt
        rw [ih hasc.of_cons, List.mem_cons]
        constructor
        · exact Or.inr
        · rintro (rfl | hmem)
          · exact absurd (Nat.le_refl _) hlt
          · exact hmem

/-- The values in front of a block that the search has passed are below the probe. -/
theorem not_mem_take_of_blockBelow {values : List Nat} (hasc : values.Pairwise (· < ·))
    {value k : Nat} (hfit : k * arrayGap ≤ values.length)
    (hbelow : ∀ j < k, BlockBelow values value j) : value ∉ values.take (k * arrayGap) := by
  intro hmem
  rcases Nat.eq_zero_or_pos k with rfl | hpos
  · simp at hmem
  · have hlast := hbelow (k - 1) (by omega)
    have hidx : (k - 1 + 1) * arrayGap - 1 = k * arrayGap - 1 := by rw [Nat.sub_add_cancel hpos]
    have hgap : 0 < k * arrayGap := Nat.mul_pos hpos (by decide)
    have hlt : k * arrayGap - 1 < values.length := by omega
    rw [BlockBelow, hidx, List.getD_eq_getElem _ _ hlt] at hlast
    rw [← Nat.sub_add_cancel hgap, List.take_succ_eq_append_getElem hlt, List.mem_append] at hmem
    rcases hmem with hmem | hmem
    · exact absurd (lt_of_mem_take hasc hlt hmem) (Nat.lt_asymm hlast)
    · rw [List.mem_singleton] at hmem
      omega

theorem arrayContainsPayload_iff {values : List Nat} (hasc : values.Pairwise (· < ·))
    (value : Nat) :
    arrayContainsPayload values value = true ↔ value ∈ values := by
  rw [arrayContainsPayload]
  split
  · exact scanContains_iff hasc value
  · rename_i hlong
    have hgap : arrayGap = 16 := rfl
    set numBlocks := values.length / arrayGap
    have hfit : numBlocks * arrayGap ≤ values.length := Nat.div_mul_le_self _ _
    have hpos : 0 < numBlocks := Nat.div_pos (Nat.le_of_not_lt hlong) (by decide)
    have hpoint := arrayBlockSearch_spec hasc hpos hfit value
    dsimp only
    generalize arrayBlockSearch values numBlocks value = lo at hpoint ⊢
    have hfront := not_mem_take_of_blockBelow hasc
      ((Nat.mul_le_mul_right arrayGap hpoint.le).trans hfit) hpoint.of_lt
    split
    · rename_i hlt
      -- behind block `lo` everything is above its last value, which is not below the probe
      have hlast := hpoint.not_of_le lo le_rfl hlt
      have hidx : (lo + 1) * arrayGap - 1 < values.length := by
        rw [hgap] at hfit ⊢
        omega
      rw [BlockBelow, List.getD_eq_getElem _ _ hidx] at hlast
      have hback : value ∉ values.drop ((lo + 1) * arrayGap) := by
        intro hmem
        have hsucc : (lo + 1) * arrayGap - 1 + 1 = (lo + 1) * arrayGap := by
          rw [hgap]
          omega
        rw [← hsucc] at hmem
        exact hlast (lt_of_mem_drop hasc hidx hmem)
      have hsplit : values = values.take (lo * arrayGap) ++
          ((values.drop (lo * arrayGap)).take arrayGap ++ values.drop ((lo + 1) * arrayGap)) := by
        rw [Nat.succ_mul, ← List.drop_drop, List.take_append_drop, List.take_append_drop]
      conv_rhs => rw [hsplit]
      rw [List.any_eq_true, List.mem_append, List.mem_append]
      constructor
      · rintro ⟨v, hv, heq⟩
        rw [decide_eq_true_eq] at heq
        exact .inr (.inl (heq ▸ hv))
      · rintro (hmem | hmem | hmem)
        · exact absurd hmem hfront
        · exact ⟨value, hmem, decide_eq_true rfl⟩
        · exact absurd hmem hback
    · rename_i hge
      have hlo : lo = numBlocks := Nat.le_antisymm hpoint.le (Nat.le_of_not_lt hge)
      rw [hlo] at hfront
      rw [scanContains_iff (hasc.sublist (List.drop_sublist _ _))]
      conv_rhs => rw [← List.take_append_drop (numBlocks * arrayGap) values, List.mem_append]
      exact ⟨Or.inr, Or.rec (fun hmem ↦ absurd hmem hfront) id⟩

/-! ## Runs -/

section Runs

variable {runs : List Run} {key : Nat}

/-- The runs that begin below `key`. -/
def BeginsBelow (runs : List Run) (key i : Nat) : Prop := (runs.getD i ⟨0, 0⟩).first < key

theorem Canonical.first_lt (h : Canonical runs) {i j : Nat} (hij : i < j) (hj : j < runs.length) :
    (runs.getD i ⟨0, 0⟩).last + 1 < (runs.getD j ⟨0, 0⟩).first ∧
      (runs.getD i ⟨0, 0⟩).first ≤ (runs.getD i ⟨0, 0⟩).last := by
  have hi := hij.trans hj
  rw [List.getD_eq_getElem _ _ hi, List.getD_eq_getElem _ _ hj]
  constructor
  · exact List.pairwise_iff_getElem.mp h.apart i j hi hj hij
  · exact h.forward _ (List.getElem_mem hi)

theorem exists_runPoint (h : Canonical runs) (key : Nat) :
    ∃ k, PartitionPoint (BeginsBelow runs key) runs.length k := by
  apply PartitionPoint.exists_of_antitone
  intro i j hij hj hbelow
  rcases Nat.lt_or_eq_of_le hij with hlt | rfl
  · have := h.first_lt hlt hj
    unfold BeginsBelow at *
    omega
  · exact hbelow

/-- The binary search between two bounds of the partition point: it returns the
run that begins at the key, or tells where one would be. -/
theorem interleavedBinarySearch_spec (h : Canonical runs) {k : Nat}
    (hk : PartitionPoint (BeginsBelow runs key) runs.length k) (low high : Int) (hlow : 0 ≤ low)
    (hlo : low ≤ k) (hhi : k ≤ high + 1) (hfit : high < runs.length)
    (hup : high + 1 < runs.length → key < (runs.getD (high + 1).toNat ⟨0, 0⟩).first) :
    let r := interleavedBinarySearch runs key low high
    (0 ≤ r ∧ r = k ∧ k < runs.length ∧ (runs.getD k ⟨0, 0⟩).first = key) ∨
      (r = -(k + 1 : Int) ∧ (k < runs.length → key < (runs.getD k ⟨0, 0⟩).first)) := by
  induction low, high using interleavedBinarySearch.induct runs key with
  | case1 low high hle mid value hlt ih =>
      have hmid : mid = (low + high) / 2 := rfl
      have hprobe : value < key ↔ mid.toNat < k := hk.lt_iff (by omega)
      rw [interleavedBinarySearch, if_pos hle]
      dsimp only
      rw [if_pos hlt]
      have := hprobe.mp hlt
      exact ih (by omega) (by omega) hhi hfit hup
  | case2 low high hle mid value hnlt hgt ih =>
      have hmid : mid = (low + high) / 2 := rfl
      have hprobe : value < key ↔ mid.toNat < k := hk.lt_iff (by omega)
      rw [interleavedBinarySearch, if_pos hle]
      dsimp only
      rw [if_neg hnlt, if_pos hgt]
      have hge : ¬ mid.toNat < k := fun hlt ↦ hnlt (hprobe.mpr hlt)
      -- the runs from the middle one on begin above the key
      have hk1 : (k : Int) ≤ mid - 1 + 1 := by omega
      refine ih hlow hlo hk1 (by omega) fun _ ↦ ?_
      rw [Int.sub_add_cancel]
      exact hgt
  | case3 low high hle mid value hnlt hngt =>
      have hmid : mid = (low + high) / 2 := rfl
      have hprobe : value < key ↔ mid.toNat < k := hk.lt_iff (by omega)
      rw [interleavedBinarySearch, if_pos hle]
      dsimp only
      rw [if_neg hnlt, if_neg hngt]
      have hge : ¬ mid.toNat < k := fun hlt ↦ hnlt (hprobe.mpr hlt)
      have heq : value = key := by omega
      have hmidk : mid.toNat = k := by
        by_contra hne
        have hklt : k < mid.toNat := by omega
        have hnot := hk.not_of_le k le_rfl (by omega)
        have := h.first_lt hklt (by omega)
        unfold BeginsBelow at hnot
        have hval : (runs.getD mid.toNat ⟨0, 0⟩).first = key := heq
        omega
      left
      refine ⟨by omega, by omega, by omega, ?_⟩
      rw [← hmidk]
      exact heq
  | case4 low high hnle =>
      rw [interleavedBinarySearch, if_neg hnle]
      have hkl : low = k := by omega
      have hkh : high + 1 = k := by omega
      right
      refine ⟨by rw [hkl], fun hlt ↦ ?_⟩
      have := hup (by omega)
      rwa [hkh, Int.toNat_natCast] at this

/-- What begins above the probe, or ends below it, does not hold it. -/
theorem not_mem_runValues_of {value : Nat} (h : ∀ r ∈ runs, r.last < value ∨ value < r.first) :
    value ∉ runValues runs := by
  intro hmem
  obtain ⟨r, hr, hlo, hhi⟩ := mem_runValues.mp hmem
  rcases h r hr with hlt | hlt
  · exact absurd hhi (Nat.not_le_of_lt hlt)
  · exact absurd hlo (Nat.not_le_of_lt hlt)

theorem runContainsPayload_iff (h : Canonical runs) (value : Nat) :
    runContainsPayload runs value = true ↔ value ∈ runValues runs := by
  obtain ⟨k, hk⟩ := exists_runPoint h value
  have hsearch := interleavedBinarySearch_spec h hk 0 (runs.length - 1) le_rfl
    (Int.natCast_nonneg k) (by have := hk.le; omega) (by omega) (fun hlt ↦ by omega)
  rw [runContainsPayload]
  generalize interleavedBinarySearch runs value 0 (runs.length - 1) = r at hsearch ⊢
  rcases hsearch with ⟨hnonneg, -, hlt, hfirst⟩ | ⟨hr, hafter⟩
  · -- a run begins at the probe
    rw [if_pos hnonneg, eq_self, true_iff]
    have hle := h.forward _ (List.getElem_mem hlt)
    rw [List.getD_eq_getElem _ _ hlt] at hfirst
    exact mem_runValues.mpr ⟨_, List.getElem_mem hlt, hfirst.le, hfirst ▸ hle⟩
  · have habove : ∀ j, k ≤ j → ∀ hj : j < runs.length, value < runs[j].first := by
      intro j hkj hj
      have hk' := hafter (hkj.trans_lt hj)
      rw [← List.getD_eq_getElem _ ⟨0, 0⟩ hj]
      rcases Nat.lt_or_eq_of_le hkj with hlt | rfl
      · have := h.first_lt hlt hj
        omega
      · exact hk'
    rw [if_neg (by omega)]
    dsimp only
    have hidx : -r - 2 = (k : Int) - 1 := by omega
    rw [hidx]
    split
    · -- every run begins above the probe
      have hk0 : k = 0 := by omega
      rw [Bool.false_eq_true, false_iff]
      apply not_mem_runValues_of
      intro r hr
      obtain ⟨j, hj, rfl⟩ := List.getElem_of_mem hr
      exact .inr (habove j (hk0 ▸ Nat.zero_le j) hj)
    · have hpos : 0 < k := by omega
      have hto : ((k : Int) - 1).toNat = k - 1 := by omega
      have hlt : k - 1 < runs.length := by have := hk.le; omega
      have hbegin : runs[k - 1].first < value := by
        have := hk.of_lt (k - 1) (by omega)
        rwa [BeginsBelow, List.getD_eq_getElem _ _ hlt] at this
      rw [hto, List.getD_eq_getElem _ _ hlt, decide_eq_true_eq]
      constructor
      · intro hle
        exact mem_runValues.mpr ⟨_, List.getElem_mem hlt, hbegin.le, hle⟩
      · -- only the run in front of the insertion point can hold the probe
        intro hmem
        by_contra hgt
        refine not_mem_runValues_of ?_ hmem
        intro r hr
        obtain ⟨j, hj, rfl⟩ := List.getElem_of_mem hr
        rcases Nat.lt_trichotomy j (k - 1) with hjk | rfl | hjk
        · have := h.first_lt hjk hlt
          rw [List.getD_eq_getElem _ _ hj, List.getD_eq_getElem _ _ hlt] at this
          left
          omega
        · exact .inl (Nat.lt_of_not_le hgt)
        · exact .inr (habove j (by omega) hj)

end Runs

end Roaring
