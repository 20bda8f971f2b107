import Mathlib
import Roaring.Lib.Prefix
import Roaring.Wire.FrozenSearch
import Roaring.Wire.RankedView

/-!
# The searches of a ranked view

Each search reads inside the payload whatever is stored there, and over a payload
in order it finds the rank of its key.  The first half of such a statement asks
for `Reads` alone; the second adds that the values ascend or that the runs are
canonical.
-/

namespace Roaring

open Lib

/-! ## Arrays -/

section Arrays

variable {read : Nat → Parsed Nat} {values : List Nat} {numBlocks : Nat}

theorem lastOfBlock_lt (hfit : numBlocks * arrayGap ≤ values.length) {j : Nat}
    (hj : j < numBlocks) :
    (j + 1) * arrayGap - 1 < values.length := by
  unfold arrayGap at *
  omega

theorem arrayBlockQuartersIn_eq (h : Reads read values)
    (hfit : numBlocks * arrayGap ≤ values.length)
    (value : Nat) {base n : Nat} (hn : 0 < n) (hle : base + n ≤ numBlocks) :
    let r := arrayBlockQuarters values value base n
    arrayBlockQuartersIn read value base n = .value r ∧ 0 < r.2 ∧ r.1 + r.2 ≤ numBlocks := by
  induction base, n using arrayBlockQuarters.induct values value with
  | case1 base n h3 quarter k1 k2 k3 c1 c2 c3 ih =>
      have hquarter : quarter = n / 4 := rfl
      have h1 : read ((base + quarter + 1) * arrayGap - 1) = .value k1 :=
        h _ (lastOfBlock_lt hfit (by omega))
      have h2 : read ((base + 2 * quarter + 1) * arrayGap - 1) = .value k2 :=
        h _ (lastOfBlock_lt hfit (by omega))
      have h3' : read ((base + 3 * quarter + 1) * arrayGap - 1) = .value k3 :=
        h _ (lastOfBlock_lt hfit (by omega))
      have hsum : c1 + c2 + c3 ≤ 3 := by
        have hc1 : c1 ≤ 1 := by
          show (if k1 < value then 1 else 0) ≤ 1
          split <;> decide
        have hc2 : c2 ≤ 1 := by
          show (if k2 < value then 1 else 0) ≤ 1
          split <;> decide
        have hc3 : c3 ≤ 1 := by
          show (if k3 < value then 1 else 0) ≤ 1
          split <;> decide
        omega
      have hmul : (c1 + c2 + c3) * quarter ≤ 3 * quarter := Nat.mul_le_mul_right quarter hsum
      have hrec := ih (by omega) (by omega)
      rw [arrayBlockQuarters, if_pos h3, arrayBlockQuartersIn, if_pos h3]
      dsimp only
      rw [h1, Parsed.value_bind, h2, Parsed.value_bind, h3', Parsed.value_bind]
      exact hrec
  | case2 base n h3 =>
      rw [arrayBlockQuarters, if_neg h3, arrayBlockQuartersIn, if_neg h3]
      exact ⟨rfl, hn, hle⟩

theorem arrayBlockHalvesIn_eq (h : Reads read values) (hfit : numBlocks * arrayGap ≤ values.length)
    (value : Nat) {base n : Nat} (hn : 0 < n) (hle : base + n ≤ numBlocks) :
    let r := arrayBlockHalves values value base n
    arrayBlockHalvesIn read value base n = .value r ∧ r < numBlocks := by
  induction base, n using arrayBlockHalves.induct values value with
  | case1 base n h1 half base' ih =>
      have hhalf : half = n / 2 := rfl
      have hread : read ((base + half + 1) * arrayGap - 1) =
          .value (values.getD ((base + half + 1) * arrayGap - 1) 0) :=
        h _ (lastOfBlock_lt hfit (by omega))
      have hbase : base' ≤ base + half := by
        show (if _ < value then base + half else base) ≤ _
        split <;> omega
      have hrec := ih (by omega) (by omega)
      rw [arrayBlockHalves, if_pos h1, arrayBlockHalvesIn, if_pos h1]
      dsimp only
      rw [hread, Parsed.value_bind]
      exact hrec
  | case2 base n h1 =>
      rw [arrayBlockHalves, if_neg h1, arrayBlockHalvesIn, if_neg h1]
      exact ⟨rfl, by omega⟩

/-- The block search reads the last values of blocks, and ends at a block or behind the last. -/
theorem arrayBlockSearchIn_eq (h : Reads read values) (hpos : 0 < numBlocks)
    (hfit : numBlocks * arrayGap ≤ values.length) (value : Nat) :
    let r := arrayBlockSearch values numBlocks value
    arrayBlockSearchIn read numBlocks value = .value r ∧ r ≤ numBlocks := by
  obtain ⟨hquarters, hn, hle⟩ :=
    arrayBlockQuartersIn_eq h hfit value hpos (Nat.zero_add numBlocks).le
  rw [arrayBlockSearchIn, arrayBlockSearch, hquarters, Parsed.value_bind]
  generalize arrayBlockQuarters values value 0 numBlocks = q at hn hle ⊢
  obtain ⟨base, n⟩ := q
  obtain ⟨hhalves, hlt⟩ := arrayBlockHalvesIn_eq h hfit value hn hle
  dsimp only
  rw [hhalves, Parsed.value_bind]
  generalize arrayBlockHalves values value base n = r at hlt ⊢
  rw [h _ (lastOfBlock_lt hfit hlt), Parsed.value_bind]
  refine ⟨rfl, ?_⟩
  split <;> omega

/-- The linear scan ends inside what it scans; over ascending values it counts those below. -/
theorem scanLowerBound_eq (h : Reads read values) (value : Nat) {remaining j : Nat}
    (hfit : j + remaining = values.length) :
    ∃ r, scanLowerBound read value remaining j = .value r ∧ r ≤ values.length ∧
      (values.Pairwise (· < ·) → r = j + rank (values.drop j) value) := by
  induction remaining generalizing j with
  | zero =>
      refine ⟨j, rfl, by omega, fun _ ↦ ?_⟩
      rw [List.drop_of_length_le (by omega), rank_nil, Nat.add_zero]
  | succ remaining ih =>
      have hj : j < values.length := by omega
      rw [scanLowerBound, h j hj, Parsed.value_bind, List.getD_eq_getElem _ _ hj]
      split
      · rename_i hle
        refine ⟨j, rfl, hj.le, fun hasc ↦ ?_⟩
        have hdrop := hasc.sublist (List.drop_sublist j values)
        rw [List.drop_eq_getElem_cons hj, List.pairwise_cons] at hdrop
        rw [List.drop_eq_getElem_cons hj, rank_of_le, Nat.add_zero]
        exact List.forall_mem_cons.mpr ⟨hle, fun v hv ↦ hle.trans (hdrop.1 v hv).le⟩
      · rename_i hgt
        obtain ⟨r, hr, hle, hrank⟩ := ih (j := j + 1) (by omega)
        refine ⟨r, hr, hle, fun hasc ↦ ?_⟩
        have hone : rank [values[j]] value = 1 := by
          apply rank_of_lt
          intro v hv
          rw [List.mem_singleton.mp hv]
          exact Nat.lt_of_not_le hgt
        rw [hrank hasc, List.drop_eq_getElem_cons hj, ← List.singleton_append, rank_append, hone]
        omega

/-- The vector compare counts the values below in its block. -/
theorem blockBelow_eq (h : Reads read values) (value : Nat) {remaining j : Nat}
    (hfit : j + remaining ≤ values.length) :
    blockBelow read value remaining j = .value (rank ((values.drop j).take remaining) value) := by
  induction remaining generalizing j with
  | zero => rw [blockBelow, List.take_zero, rank_nil]
  | succ remaining ih =>
      have hj : j < values.length := by omega
      have hone : rank [values[j]] value = if values[j] < value then 1 else 0 := by
        rw [rank, List.countP_singleton]
        simp only [decide_eq_true_eq]
      rw [blockBelow, h j hj, Parsed.value_bind, ih (by omega), Parsed.value_bind,
        List.drop_eq_getElem_cons hj, List.take_succ_cons, ← List.singleton_append,
          rank_append, hone,
        List.getD_eq_getElem _ _ hj]
      rfl

/-- What a passed block and those in front of it hold is below the probe. -/
theorem rank_take_of_blockBelow (hasc : values.Pairwise (· < ·)) {value k : Nat}
    (hfit : k * arrayGap ≤ values.length) (hbelow : ∀ j < k, BlockBelow values value j) :
    rank (values.take (k * arrayGap)) value = k * arrayGap := by
  rw [rank_of_lt, List.length_take_of_le hfit]
  intro v hv
  rcases Nat.eq_zero_or_pos k with rfl | hpos
  · simp at hv
  · have hlast := hbelow (k - 1) (by omega)
    have hgap : 0 < k * arrayGap := Nat.mul_pos hpos (by decide)
    have hidx : (k - 1 + 1) * arrayGap - 1 = k * arrayGap - 1 := by rw [Nat.sub_add_cancel hpos]
    have hlt : k * arrayGap - 1 < values.length := by omega
    rw [BlockBelow, hidx, List.getD_eq_getElem _ _ hlt] at hlast
    rw [show k * arrayGap = k * arrayGap - 1 + 1 by omega, List.take_succ_eq_append_getElem hlt,
      List.mem_append, List.mem_singleton] at hv
    rcases hv with hv | rfl
    · exact (lt_of_mem_take hasc hlt hv).trans hlast
    · exact hlast

/-- The lower bound in an array payload: inside it, and the rank where the values ascend. -/
theorem arrayLowerBound_eq (h : Reads read values) (value : Nat) :
    ∃ r, arrayLowerBound read values.length value = .value r ∧ r ≤ values.length ∧
      (values.Pairwise (· < ·) → r = rank values value) := by
  rw [arrayLowerBound]
  split
  · obtain ⟨r, hr, hle, hrank⟩ := scanLowerBound_eq h value (Nat.zero_add values.length)
    refine ⟨r, hr, hle, fun hasc ↦ ?_⟩
    rw [hrank hasc, List.drop_zero, Nat.zero_add]
  · rename_i hlong
    set numBlocks := values.length / arrayGap
    have hfit : numBlocks * arrayGap ≤ values.length := Nat.div_mul_le_self _ _
    have hpos : 0 < numBlocks := Nat.div_pos (Nat.le_of_not_lt hlong) (by decide)
    obtain ⟨hsearch, hle⟩ := arrayBlockSearchIn_eq h hpos hfit value
    dsimp only
    rw [hsearch, Parsed.value_bind]
    have hpoint := fun hasc ↦ arrayBlockSearch_spec hasc hpos hfit value
    generalize arrayBlockSearch values numBlocks value = lo at hle hpoint ⊢
    split
    · rename_i hlt
      have hsucc : (lo + 1) * arrayGap = lo * arrayGap + arrayGap := Nat.succ_mul lo arrayGap
      have hmul := Nat.mul_le_mul_right arrayGap (show lo + 1 ≤ numBlocks from hlt)
      have hend : lo * arrayGap + arrayGap ≤ values.length := by omega
      rw [blockBelow_eq h value hend, Parsed.value_bind]
      have hcount := rank_le_length ((values.drop (lo * arrayGap)).take arrayGap) value
      rw [List.length_take_of_le (by rw [List.length_drop]; omega)] at hcount
      refine ⟨_, rfl, by omega, fun hasc ↦ ?_⟩
      have hp := hpoint hasc
      have hlast := hp.not_of_le lo le_rfl hlt
      have hidx := lastOfBlock_lt hfit hlt
      rw [BlockBelow, List.getD_eq_getElem _ _ hidx] at hlast
      have hback : rank (values.drop ((lo + 1) * arrayGap)) value = 0 := by
        apply rank_of_le
        intro v hv
        rw [← Nat.sub_add_cancel
          (Nat.mul_pos (Nat.succ_pos lo) (show 0 < arrayGap by decide))] at hv
        exact (Nat.le_of_not_lt hlast).trans (lt_of_mem_drop hasc hidx hv).le
      have hsplit : values = values.take (lo * arrayGap) ++
          ((values.drop (lo * arrayGap)).take arrayGap ++ values.drop ((lo + 1) * arrayGap)) := by
        rw [Nat.succ_mul, ← List.drop_drop, List.take_append_drop, List.take_append_drop]
      conv_rhs => rw [hsplit]
      rw [rank_append, rank_append, hback, Nat.add_zero,
        rank_take_of_blockBelow hasc (by omega) hp.of_lt]
    · rename_i hge
      have hlo : lo = numBlocks := Nat.le_antisymm hle (Nat.le_of_not_lt hge)
      obtain ⟨r, hr, hrle, hrank⟩ := scanLowerBound_eq h value
        (show numBlocks * arrayGap + (values.length - numBlocks * arrayGap) =
          values.length by omega)
      refine ⟨r, hr, hrle, fun hasc ↦ ?_⟩
      have hp := hpoint hasc
      rw [hlo] at hp
      rw [hrank hasc]
      conv_rhs => rw [← List.take_append_drop (numBlocks * arrayGap) values]
      rw [rank_append, rank_take_of_blockBelow hasc hfit hp.of_lt]

end Arrays

/-! ## Runs -/

/-- A reader's access to runs as they lie in memory, two numbers each. -/
def RunReads (read : Nat → Parsed Nat) (runs : List Run) : Prop :=
  ∀ i, i < runs.length → read (2 * i) = .value (runs.getD i ⟨0, 0⟩).first ∧
    read (2 * i + 1) = .value (runs.getD i ⟨0, 0⟩).last

theorem length_runsOfBytes (n : Nat) (bs : List UInt8) : (runsOfBytes n bs).length = n := by
  induction n generalizing bs with
  | zero => rfl
  | succ n ih => rw [runsOfBytes, List.length_cons, ih]

theorem getElem?_runsOfBytes {n i : Nat} (hi : i < n) (bs : List UInt8) :
    (runsOfBytes n bs)[i]? =
      some
        ⟨leValue ((bs.drop (2 * i * 2)).take 2), leValue ((bs.drop ((2 * i + 1) * 2)).take 2)⟩ := by
  induction n generalizing i bs with
  | zero => exact absurd hi (Nat.not_lt_zero i)
  | succ n ih =>
      cases i with
      | zero => rfl
      | succ i =>
          have hfirst : 4 + 2 * i * 2 = 2 * (i + 1) * 2 := by omega
          have hlast : 4 + (2 * i + 1) * 2 = (2 * (i + 1) + 1) * 2 := by omega
          rw [runsOfBytes, List.getElem?_cons_succ, ih (Nat.lt_of_succ_lt_succ hi), List.drop_drop,
            List.drop_drop, hfirst, hlast]

/-- The runs of a window are its numbers in pairs. -/
theorem runReads_window {w : Window} (h : w.Inside) {n : Nat} (hfit : n * 4 ≤ w.size) :
    RunReads (w.unit 2) (runsOfBytes n (w.buf.drop w.offset)) := by
  intro i hi
  rw [length_runsOfBytes] at hi
  have hreads : Reads (w.unit 2) (w.items 2 (2 * n)) := Window.reads h (by omega)
  have hlen : (w.items 2 (2 * n)).length = 2 * n := length_units _ _ _
  have hitem : ∀ j, j < 2 * n → w.unit 2 j =
      .value (leValue (((w.buf.drop w.offset).drop (j * 2)).take 2)) := by
    intro j hj
    rw [hreads j (hj.trans_eq hlen.symm), List.getD_eq_getElem?_getD, Window.items,
      getElem?_units 2 hj]
    rfl
  rw [List.getD_eq_getElem?_getD, getElem?_runsOfBytes hi, Option.getD_some]
  exact ⟨hitem _ (by omega), hitem _ (by omega)⟩

section Runs

variable {read ranks : Nat → Parsed Nat} {runs : List Run}

/-- Whatever the runs are, the binary search reads inside them and returns the index
of one or the negative of one more than an insertion point. -/
theorem interleavedBinarySearchIn_eq (h : RunReads read runs) (key : Nat) {low high : Int}
    (hlow : 0 ≤ low) (hle : low ≤ high + 1) (hhigh : high < runs.length) :
    let r := interleavedBinarySearch runs key low high
    interleavedBinarySearchIn (fun i ↦ read (2 * i)) key low high = .value r ∧
      r < runs.length ∧ -(runs.length + 1 : Int) ≤ r := by
  induction low, high using interleavedBinarySearch.induct runs key with
  | case1 low high hlh mid value hlt ih =>
      have hmid : mid = (low + high) / 2 := rfl
      have hread : read (2 * mid.toNat) = .value value := (h _ (by omega)).1
      rw [interleavedBinarySearch, if_pos hlh, interleavedBinarySearchIn, if_pos hlh]
      dsimp only
      rw [hread, Parsed.value_bind, if_pos hlt, if_pos hlt]
      exact ih (by omega) (by omega) hhigh
  | case2 low high hlh mid value hnlt hgt ih =>
      have hmid : mid = (low + high) / 2 := rfl
      have hread : read (2 * mid.toNat) = .value value := (h _ (by omega)).1
      rw [interleavedBinarySearch, if_pos hlh, interleavedBinarySearchIn, if_pos hlh]
      dsimp only
      rw [hread, Parsed.value_bind, if_neg hnlt, if_pos hgt, if_neg hnlt, if_pos hgt]
      exact ih hlow (by omega) (by omega)
  | case3 low high hlh mid value hnlt hngt =>
      have hmid : mid = (low + high) / 2 := rfl
      have hread : read (2 * mid.toNat) = .value value := (h _ (by omega)).1
      rw [interleavedBinarySearch, if_pos hlh, interleavedBinarySearchIn, if_pos hlh]
      dsimp only
      rw [hread, Parsed.value_bind, if_neg hnlt, if_neg hngt, if_neg hnlt, if_neg hngt]
      exact ⟨rfl, by omega, by omega⟩
  | case4 low high hnle =>
      rw [interleavedBinarySearch, if_neg hnle, interleavedBinarySearchIn, if_neg hnle]
      exact ⟨rfl, by omega, by omega⟩

theorem interleavedBinarySearchIn_whole (h : RunReads read runs) (key : Nat) :
    let r := interleavedBinarySearch runs key 0 (runs.length - 1)
    interleavedBinarySearchIn (fun i ↦ read (2 * i)) key 0 (runs.length - 1) = .value r ∧
      r < runs.length ∧ -(runs.length + 1 : Int) ≤ r :=
  interleavedBinarySearchIn_eq h key le_rfl (by omega) (by omega)

/-- The index of the run a position lies in or behind, as `run_position` computes it. -/
def lastRun (runs : List Run) (value : Nat) : Int :=
  let last := interleavedBinarySearch runs value 0 (runs.length - 1)
  if last < 0 then -last - 2 else last

theorem lastRun_lt (h : RunReads read runs) (value : Nat) : lastRun runs value < runs.length := by
  obtain ⟨-, hlt, hge⟩ := interleavedBinarySearchIn_whole h value
  rw [lastRun]
  split <;> omega

/-- `run_position` over any runs and any rank block of their number. -/
theorem runPosition_eq (h : RunReads read runs) {counts : List Nat} (hranks : Reads ranks counts)
    (hlen : counts.length = runs.length) (value : Nat) :
    runPosition read ranks runs.length value = .value (
      if lastRun runs value < 0 then ⟨0, false⟩
      else
        let last := (lastRun runs value).toNat
        let r := runs.getD last ⟨0, 0⟩
        ⟨u32 (counts.getD last 0 + u32Sub (min value (r.last + 1)) r.first), value ≤ r.last⟩) := by
  obtain ⟨hsearch, -⟩ := interleavedBinarySearchIn_whole h value
  have hlt := lastRun_lt h value
  rw [runPosition, hsearch, Parsed.value_bind]
  dsimp only
  rw [← lastRun]
  generalize lastRun runs value = last at hlt ⊢
  split
  · rfl
  · obtain ⟨hfirst, hlast⟩ := h last.toNat (by omega)
    rw [hfirst, Parsed.value_bind, hlast, Parsed.value_bind, hranks _ (by omega), Parsed.value_bind]
    rfl

end Runs

end Roaring
