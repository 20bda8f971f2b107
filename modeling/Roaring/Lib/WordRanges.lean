import Mathlib
import Roaring.Lib.Words
import Roaring.Lib.Search

/-!
# Ranges and runs of bits in blocks of words

An operation on a closed range of numbers takes whole words between the two end
words and masks these.  A scan for the maximal runs of set bits fills the bits below
the lowest set one, finds the first clear bit of what follows, and clears all below
it.
-/

namespace Lib

/-! ## One word -/

variable {w : Word} {i k : Nat}

/-- The bits from `k` on. -/
def maskFrom (k : Nat) : Word := BitVec.allOnes 64 <<< k

/-- The bits up to `k`. -/
def maskTo (k : Nat) : Word := BitVec.allOnes 64 >>> (63 - k)

theorem getLsbD_maskFrom (hi : i < 64) : (maskFrom k).getLsbD i = decide (k ≤ i) := by
  have hlt : i - k < 64 := by omega
  rw [maskFrom, BitVec.getLsbD_shiftLeft, BitVec.getLsbD_allOnes]
  by_cases hk : k ≤ i
  · simp [hi, hlt, hk, Nat.not_lt.2 hk]
  · simp [hk, Nat.lt_of_not_le hk]

theorem getLsbD_maskTo (hk : k < 64) : (maskTo k).getLsbD i = decide (i ≤ k) := by
  rw [maskTo, BitVec.getLsbD_ushiftRight, BitVec.getLsbD_allOnes]
  exact decide_eq_decide.2 (by omega)

/-- The bits up to `k`, made from the next power of two. -/
theorem getLsbD_two_shiftLeft_sub_one (hk : k < 63) :
    ((2#64 <<< k) - 1#64).getLsbD i = decide (i ≤ k) := by
  have hlt : 2 ^ (k + 1) < 2 ^ 64 := Nat.pow_lt_pow_right (by decide) (by omega)
  have hpow : (2#64 <<< k).toNat = 2 ^ (k + 1) := by
    rw [BitVec.toNat_shiftLeft, Nat.shiftLeft_eq]
    have htwo : (2#64).toNat * 2 ^ k = 2 ^ (k + 1) := by rw [pow_succ, mul_comm]; rfl
    rw [htwo, Nat.mod_eq_of_lt hlt]
  have hone : (1#64).toNat ≤ (2#64 <<< k).toNat := by
    rw [hpow]
    exact Nat.one_le_two_pow
  change ((2#64 <<< k) - 1#64).toNat.testBit i = _
  rw [BitVec.toNat_sub_of_le (by simpa [BitVec.le_def] using hone), hpow]
  change (2 ^ (k + 1) - 1).testBit i = _
  rw [Nat.testBit_two_pow_sub_one]
  exact decide_eq_decide.2 (by omega)

/-- The bits below the lowest set bit are filled. -/
theorem getLsbD_or_sub_one (hw : w ≠ 0#64) (i : Nat) :
    (w ||| (w - 1#64)).getLsbD i = (decide (i < w.ctz.toNat) || w.getLsbD i) := by
  rw [BitVec.getLsbD_or, getLsbD_sub_one hw]
  cases w.getLsbD i <;> simp

theorem ctz_lt (hw : w ≠ 0#64) : w.ctz.toNat < 64 := by
  have hlt := BitVec.ctz_lt_iff_ne_zero.mpr hw
  simpa [BitVec.lt_def] using hlt

theorem not_ne_zero (hw : w ≠ BitVec.allOnes 64) : ~~~w ≠ 0#64 := by
  intro h
  apply hw
  rw [← BitVec.not_not (b := w), h]
  rfl

/-- The first clear bit. -/
def firstClear (w : Word) : Nat := (~~~w).ctz.toNat

theorem getLsbD_of_lt_firstClear (hw : w ≠ BitVec.allOnes 64) (hi : i < firstClear w) :
    w.getLsbD i = true := by
  have hlt := hi.trans (ctz_lt (not_ne_zero hw))
  have hnot : (~~~w).getLsbD i = false := BitVec.getLsbD_false_of_lt_ctz hi
  rw [BitVec.getLsbD_not] at hnot
  simpa [hlt] using hnot

theorem firstClear_lt (hw : w ≠ BitVec.allOnes 64) : firstClear w < 64 := ctz_lt (not_ne_zero hw)

theorem getLsbD_firstClear (hw : w ≠ BitVec.allOnes 64) : w.getLsbD (firstClear w) = false := by
  have hlt := firstClear_lt hw
  have hbit : (~~~w).getLsbD (firstClear w) = true :=
    BitVec.getLsbD_true_ctz_of_ne_zero (not_ne_zero hw)
  rw [BitVec.getLsbD_not] at hbit
  simpa [hlt] using hbit

/-- Adding one to a word clears the set bits it begins with. -/
theorem getLsbD_and_add_one (hw : w ≠ BitVec.allOnes 64) (i : Nat) :
    (w &&& (w + 1#64)).getLsbD i = (w.getLsbD i && decide (firstClear w ≤ i)) := by
  have hadd : w + 1#64 = ~~~(~~~w - 1#64) := by
    rw [BitVec.not_sub_one_eq_not_add_one, BitVec.not_not]
  by_cases hi : i < 64
  · rw [BitVec.getLsbD_and, hadd, BitVec.getLsbD_not, getLsbD_sub_one (not_ne_zero hw),
      BitVec.getLsbD_not]
    rcases Nat.lt_trichotomy i (firstClear w) with hlt | heq | hgt
    · have hctz : i < (~~~w).ctz.toNat := hlt
      simp [hctz, Nat.not_le.2 hlt]
    · have hclear := getLsbD_firstClear hw
      rw [← heq] at hclear
      simp [hclear]
    · have hctz : ¬ i < (~~~w).ctz.toNat := hgt.not_gt
      have hne : i ≠ (~~~w).ctz.toNat := hgt.ne'
      cases h : w.getLsbD i <;> simp [hi, hctz, hne, hgt.le]
  · rw [BitVec.getLsbD_of_ge _ _ (not_lt.1 hi), BitVec.getLsbD_of_ge _ _ (not_lt.1 hi)]
    rfl

/-! ## Ranges of a block -/

namespace Words

variable {n first last a v : Nat} {f : Word → Word → Word} {g : Bool → Bool → Bool}

/-- The words from `a` on, `count` of them, are taken whole. -/
def applyWhole (f : Word → Word → Word) (ws : Words n) (a count : Nat) : Words n :=
  (List.range' a count).foldl (fun ws i ↦ ws.setWord i (f (ws.word i) (BitVec.allOnes 64))) ws

/-- An operation with a mask, applied to the bits from `first` to `last`: the end words take a part
of the mask, the words between them all of it. -/
def applyRange (f : Word → Word → Word) (ws : Words n) (first last : Nat) : Words n :=
  if first / 64 = last / 64 then
    ws.setWord (first / 64)
      (f (ws.word (first / 64)) (maskFrom (first % 64) &&& maskTo (last % 64)))
  else
    let ws := ws.setWord (first / 64) (f (ws.word (first / 64)) (maskFrom (first % 64)))
    let ws := ws.applyWhole f (first / 64 + 1) (last / 64 - (first / 64 + 1))
    ws.setWord (last / 64) (f (ws.word (last / 64)) (maskTo (last % 64)))

theorem word_applyWhole (ws : Words n) {count : Nat} (hle : a + count ≤ n) (j : Nat) :
    (ws.applyWhole f a count).word j =
      if a ≤ j ∧ j < a + count then f (ws.word j) (BitVec.allOnes 64) else ws.word j := by
  induction count generalizing a ws with
  | zero =>
    rw [if_neg (by omega)]
    rfl
  | succ count ih =>
    rw [applyWhole, List.range'_succ, List.foldl_cons, ← applyWhole, ih _ (by omega),
      word_setWord _ _ (by omega)]
    by_cases hj : j = a
    · rw [if_neg (by omega), if_pos hj, if_pos (by omega), hj]
    · rw [if_neg hj]
      exact if_congr (by omega) rfl rfl

/-- The mask that a range lays over a word. -/
def rangeMask (first last j : Nat) : Word :=
  (if j = first / 64 then maskFrom (first % 64) else BitVec.allOnes 64) &&&
    if j = last / 64 then maskTo (last % 64) else BitVec.allOnes 64

theorem getLsbD_rangeMask {j i : Nat} (hi : i < 64) (hfirst : first / 64 ≤ j)
    (hlast : j ≤ last / 64) :
    (rangeMask first last j).getLsbD i = decide (first ≤ 64 * j + i ∧ 64 * j + i ≤ last) := by
  have hfrom : (if j = first / 64 then maskFrom (first % 64) else BitVec.allOnes 64).getLsbD i =
      decide (first ≤ 64 * j + i) := by
    split
    · rename_i hj
      rw [getLsbD_maskFrom hi]
      exact decide_eq_decide.2 (by omega)
    · rename_i hj
      rw [BitVec.getLsbD_allOnes]
      exact decide_eq_decide.2 (by omega)
  have hto : (if j = last / 64 then maskTo (last % 64) else BitVec.allOnes 64).getLsbD i =
      decide (64 * j + i ≤ last) := by
    split
    · rename_i hj
      rw [getLsbD_maskTo (Nat.mod_lt _ (by decide))]
      exact decide_eq_decide.2 (by omega)
    · rename_i hj
      rw [BitVec.getLsbD_allOnes]
      exact decide_eq_decide.2 (by omega)
  rw [rangeMask, BitVec.getLsbD_and, hfrom, hto, Bool.decide_and]

theorem and_allOnes (w : Word) : w &&& BitVec.allOnes 64 = w := BitVec.and_allOnes

theorem word_applyRange (ws : Words n) (hle : first ≤ last) (hlast : last < 64 * n) (j : Nat) :
    (ws.applyRange f first last).word j =
      if first / 64 ≤ j ∧ j ≤ last / 64 then f (ws.word j) (rangeMask first last j)
      else ws.word j := by
  have hdiv : first / 64 ≤ last / 64 := Nat.div_le_div_right hle
  have hlt : last / 64 < n := by omega
  rw [applyRange]
  split
  · rename_i heq
    rw [word_setWord _ _ (by omega)]
    by_cases hj : j = first / 64
    · rw [if_pos hj, if_pos (by omega), rangeMask, if_pos hj, if_pos (hj.trans heq), hj]
    · rw [if_neg hj, if_neg (by omega)]
  · rename_i hne
    simp only
    rw [word_setWord _ _ hlt]
    by_cases hj : j = last / 64
    · rw [if_pos hj, if_pos (by omega), word_applyWhole _ (by omega), if_neg (by omega),
        word_setWord _ _ (by omega),
        if_neg (by omega), rangeMask, if_neg (by omega), if_pos hj, BitVec.and_comm,
          and_allOnes, hj]
    · rw [if_neg hj, word_applyWhole _ (by omega)]
      by_cases hin : first / 64 + 1 ≤ j ∧ j < last / 64
      · rw [if_pos (by omega), if_pos (by omega), word_setWord _ _ (by omega), if_neg (by omega),
          rangeMask,
          if_neg (by omega), if_neg hj, and_allOnes]
      · rw [if_neg (by omega), word_setWord _ _ (by omega)]
        by_cases hf : j = first / 64
        · rw [if_pos hf, if_pos (by omega), rangeMask, if_pos hf, if_neg hj, and_allOnes, hf]
        · rw [if_neg hf, if_neg (by omega)]

/-- A bitwise operation that an empty mask leaves alone changes the numbers of the range and no
other. -/
theorem contains_applyRange (ws : Words n)
    (hf : ∀ w m i, i < 64 → (f w m).getLsbD i = g (w.getLsbD i) (m.getLsbD i))
    (hg : ∀ b, g b false = b) (hle : first ≤ last) (hlast : last < 64 * n) (v : Nat) :
    (ws.applyRange f first last).contains v = g (ws.contains v)
    (decide (first ≤ v ∧ v ≤ last)) := by
  have hi : v % 64 < 64 := Nat.mod_lt _ (by decide)
  have hv : 64 * (v / 64) + v % 64 = v := Nat.div_add_mod v 64
  rw [contains, word_applyRange ws hle hlast]
  split
  · rename_i hin
    rw [hf _ _ _ hi, getLsbD_rangeMask hi hin.1 hin.2, hv, contains]
  · rename_i hout
    have hnot : ¬ (first ≤ v ∧ v ≤ last) := by
      rintro ⟨h1, h2⟩
      exact hout ⟨Nat.div_le_div_right h1, Nat.div_le_div_right h2⟩
    rw [decide_eq_false hnot, hg, contains]

/-! ## Scans of a range -/

/-- The words that a range touches. -/
def touched (first last : Nat) : List Nat := List.range' (first / 64) (last / 64 + 1 - first / 64)

@[simp] theorem mem_touched {j : Nat} (hle : first ≤ last) :
    j ∈ touched first last ↔ first / 64 ≤ j ∧ j ≤ last / 64 := by
  have hdiv : first / 64 ≤ last / 64 := Nat.div_le_div_right hle
  rw [touched, List.mem_range'_1]
  omega

def anyRange (ws : Words n) (first last : Nat) : Bool :=
  (touched first last).any fun j ↦ ws.word j &&& rangeMask first last j ≠ 0#64

def allRange (ws : Words n) (first last : Nat) : Bool :=
  (touched first last).all fun j ↦ ws.word j &&& rangeMask first last j = rangeMask first last j

/-- The end words are masked, the words between them are counted whole. -/
def countRange (ws : Words n) (first last : Nat) : Nat :=
  if first / 64 = last / 64 then
    popcount (ws.word (first / 64) &&& maskFrom (first % 64) &&& maskTo (last % 64))
  else
    popcount (ws.word (first / 64) &&& maskFrom (first % 64)) +
      ((List.range' (first / 64 + 1) (last / 64 - (first / 64 + 1))).map fun j ↦
        popcount (ws.word j)).sum +
      popcount (ws.word (last / 64) &&& maskTo (last % 64))

theorem getLsbD_and_rangeMask (ws : Words n) {j i : Nat} (hi : i < 64) (hj : j ∈ touched first last)
    (hle : first ≤ last) :
    (ws.word j &&& rangeMask first last j).getLsbD i =
      (ws.contains (64 * j + i) && decide (first ≤ 64 * j + i ∧ 64 * j + i ≤ last)) := by
  rw [mem_touched hle] at hj
  rw [BitVec.getLsbD_and, getLsbD_rangeMask hi hj.1 hj.2, contains_add ws hi]

theorem touched_of_mem (h1 : first ≤ v) (h2 : v ≤ last) : v / 64 ∈ touched first last := by
  rw [mem_touched (h1.trans h2)]
  exact ⟨Nat.div_le_div_right h1, Nat.div_le_div_right h2⟩

theorem anyRange_iff (ws : Words n) (hle : first ≤ last) :
    ws.anyRange first last = true ↔ ∃ v, ws.contains v = true ∧ first ≤ v ∧ v ≤ last := by
  rw [anyRange, List.any_eq_true]
  constructor
  · rintro ⟨j, hj, hne⟩
    rw [decide_eq_true_eq] at hne
    obtain ⟨i, hi, hbit⟩ : ∃ i < 64, (ws.word j &&& rangeMask first last j).getLsbD i = true := by
      by_contra hall
      apply hne
      apply BitVec.eq_of_getLsbD_eq
      intro i hi
      rw [BitVec.getLsbD_zero, Bool.eq_false_iff]
      exact fun hbit ↦ hall ⟨i, hi, hbit⟩
    rw [getLsbD_and_rangeMask ws hi hj hle, Bool.and_eq_true, decide_eq_true_eq] at hbit
    exact ⟨_, hbit.1, hbit.2⟩
  · rintro ⟨v, hv, h1, h2⟩
    refine ⟨v / 64, touched_of_mem h1 h2, ?_⟩
    rw [decide_eq_true_eq]
    intro hzero
    have hbit := getLsbD_and_rangeMask ws (Nat.mod_lt v (by decide : 0 < 64))
      (touched_of_mem h1 h2) hle
    rw [hzero, Nat.div_add_mod, hv, BitVec.getLsbD_zero] at hbit
    simp [h1, h2] at hbit

theorem allRange_iff (ws : Words n) (hle : first ≤ last) :
    ws.allRange first last = true ↔ ∀ v, first ≤ v → v ≤ last → ws.contains v = true := by
  rw [allRange, List.all_eq_true]
  constructor
  · intro h v h1 h2
    have hi : v % 64 < 64 := Nat.mod_lt _ (by decide)
    have hj := touched_of_mem h1 h2
    have hin := hj
    rw [mem_touched hle] at hin
    have hmask := congrArg (BitVec.getLsbD · (v % 64)) (of_decide_eq_true (h _ hj))
    simp only [getLsbD_and_rangeMask ws hi hj hle, getLsbD_rangeMask hi hin.1 hin.2,
      Nat.div_add_mod] at hmask
    simpa [h1, h2] using hmask
  · intro h j hj
    rw [decide_eq_true_eq]
    apply BitVec.eq_of_getLsbD_eq
    intro i hi
    have hin := hj
    rw [mem_touched hle] at hin
    rw [getLsbD_and_rangeMask ws hi hj hle, getLsbD_rangeMask hi hin.1 hin.2]
    by_cases hrange : first ≤ 64 * j + i ∧ 64 * j + i ≤ last
    · simp [h _ hrange.1 hrange.2]
    · simp [hrange]

/-- The words of a range of more than one word: the ends, and those between them. -/
theorem touched_eq (hlt : first / 64 < last / 64) :
    touched first last = first / 64 :: List.range' (first / 64 + 1)
    (last / 64 - (first / 64 + 1)) ++ [last / 64] := by
  have hlen : last / 64 + 1 - first / 64 = last / 64 - (first / 64 + 1) + 1 + 1 := by omega
  have hend : first / 64 + 1 + 1 * (last / 64 - (first / 64 + 1)) = last / 64 := by omega
  rw [touched, hlen, List.range'_succ, List.range'_concat, hend]
  rfl

/-- A word that lies inside a range is taken whole. -/
theorem and_rangeMask_of_inside {j : Nat} (hfirst : first / 64 < j) (hlast : j < last / 64)
    (w : Word) :
    w &&& rangeMask first last j = w := by
  rw [rangeMask, if_neg hfirst.ne', if_neg hlast.ne, and_allOnes, and_allOnes]

theorem and_rangeMask_first (hlt : first / 64 < last / 64) (w : Word) :
    w &&& rangeMask first last (first / 64) = w &&& maskFrom (first % 64) := by
  rw [rangeMask, if_pos rfl, if_neg hlt.ne, and_allOnes]

theorem and_rangeMask_last (hlt : first / 64 < last / 64) (w : Word) :
    w &&& rangeMask first last (last / 64) = w &&& maskTo (last % 64) := by
  rw [rangeMask, if_neg hlt.ne', if_pos rfl, BitVec.and_comm (BitVec.allOnes 64), and_allOnes]

theorem and_rangeMask_only (heq : first / 64 = last / 64) (w : Word) :
    w &&& rangeMask first last (first / 64) = w &&& maskFrom (first % 64) &&& maskTo
      (last % 64) := by
  rw [rangeMask, if_pos rfl, if_pos heq, BitVec.and_assoc]

theorem countRange_eq_sum (ws : Words n) (hle : first ≤ last) :
    ws.countRange first last =
      ((touched first last).map fun j ↦ popcount (ws.word j &&& rangeMask first last j)).sum := by
  rw [countRange]
  split
  · rename_i heq
    rw [touched, ← heq, Nat.add_sub_cancel_left, List.range'_one, List.map_singleton,
      List.sum_singleton,
      and_rangeMask_only heq, heq]
  · rename_i hne
    have hlt : first / 64 < last / 64 := Nat.lt_of_le_of_ne (Nat.div_le_div_right hle) hne
    have hwhole : ∀ j ∈ List.range' (first / 64 + 1) (last / 64 - (first / 64 + 1)),
        popcount (ws.word j &&& rangeMask first last j) = popcount (ws.word j) := by
      intro j hj
      rw [List.mem_range'_1] at hj
      rw [and_rangeMask_of_inside (by omega) (by omega)]
    rw [touched_eq hlt, List.map_append, List.sum_append, List.map_cons, List.sum_cons,
      List.map_congr_left hwhole,
      List.map_singleton, List.sum_singleton, and_rangeMask_first hlt, and_rangeMask_last hlt]

/-- The members of a range, word by word. -/
theorem values_filter_range (ws : Words n) (hle : first ≤ last) :
    (ws.values.filter fun v ↦ decide (first ≤ v ∧ v ≤ last)) =
      (touched first last).flatMap fun j ↦
        bitPositions (64 * j) (ws.word j &&& rangeMask first last j) := by
  refine List.Pairwise.eq_of_mem_iff (r := (· < ·)) (ws.values_ascending.filter _) ?_ ?_
  · exact flatMap_bitPositions_ascending _ _ _
  · intro v
    rw [List.mem_flatMap, List.mem_filter, mem_values, decide_eq_true_eq]
    constructor
    · rintro ⟨hv, h1, h2⟩
      have hj := touched_of_mem h1 h2
      have hmod : v - 64 * (v / 64) = v % 64 := by omega
      refine ⟨v / 64, hj, mem_bitPositions.mpr ⟨by omega, ?_⟩⟩
      rw [hmod, getLsbD_and_rangeMask ws (Nat.mod_lt v (by decide)) hj hle, Nat.div_add_mod, hv]
      simp [h1, h2]
    · rintro ⟨j, hj, hv⟩
      rw [mem_bitPositions] at hv
      have hi := BitVec.lt_of_getLsbD hv.2
      have hsum : 64 * j + (v - 64 * j) = v := by omega
      have hbit := hv.2
      rw [getLsbD_and_rangeMask ws hi hj hle, hsum, Bool.and_eq_true, decide_eq_true_eq] at hbit
      exact hbit

theorem countRange_eq (ws : Words n) (hle : first ≤ last) :
    ws.countRange first last = (ws.values.filter fun v ↦ decide (first ≤ v ∧ v ≤ last)).length := by
  have hword : ∀ j ∈ touched first last, popcount (ws.word j &&& rangeMask first last j) =
      (bitPositions (64 * j) (ws.word j &&& rangeMask first last j)).length :=
        fun j _ ↦ popcount_eq_length _ _
  rw [countRange_eq_sum ws hle, values_filter_range ws hle,
    List.map_congr_left hword, ← List.length_flatMap]

/-! ## The ends of a block -/

/-- The first word that is not empty. -/
def firstWord (ws : Words n) : Option Nat := (List.range n).find? fun j ↦ ws.word j ≠ 0#64

def lastWord (ws : Words n) : Option Nat := (List.range n).reverse.find? fun j ↦ ws.word j ≠ 0#64

def lowest (ws : Words n) : Option Nat := ws.firstWord.map fun j ↦ 64 * j + (ws.word j).ctz.toNat

def highest (ws : Words n) : Option Nat :=
  ws.lastWord.map fun j ↦ 64 * j + 63 - (ws.word j).clz.toNat

theorem word_ne_zero_of_contains {ws : Words n} (hv : ws.contains v = true) :
    ws.word (v / 64) ≠ 0#64 := by
  intro hzero
  rw [contains, hzero, BitVec.getLsbD_zero] at hv
  exact Bool.false_ne_true hv

theorem lt_of_contains {ws : Words n} (hv : ws.contains v = true) : v / 64 < n := by
  have hlt := lt_of_mem_values (mem_values.2 hv)
  omega

/-- The lowest set bit of the first word with one is the least member. -/
theorem lowest_eq_some_iff {ws : Words n} :
    ws.lowest = some v ↔ ws.contains v = true ∧ ∀ u, ws.contains u = true → v ≤ u := by
  have hforward : ∀ v, ws.lowest = some v → ws.contains v = true ∧ ∀ u, ws.contains u = true →
      v ≤ u := by
    intro v hv
    obtain ⟨j, hj, rfl⟩ := Option.map_eq_some_iff.1 hv
    rw [firstWord, List.find?_range_eq_some] at hj
    obtain ⟨hne, hmem, hleast⟩ := hj
    have hne : ws.word j ≠ 0#64 := of_decide_eq_true hne
    have hctz := ctz_lt hne
    refine ⟨by rw [contains_add ws hctz]; exact BitVec.getLsbD_true_ctz_of_ne_zero hne,
      fun u hu ↦ ?_⟩
    have hword : j ≤ u / 64 := by
      by_contra hlt
      have hzero := hleast (u / 64) (not_le.1 hlt)
      rw [Bool.not_eq_true', decide_eq_false_iff_not, not_not] at hzero
      exact word_ne_zero_of_contains hu hzero
    rcases Nat.lt_or_eq_of_le hword with hlt | heq
    · omega
    · have hbit : (ws.word j).ctz.toNat ≤ u % 64 := by
        by_contra hlt
        rw [contains, ← heq, BitVec.getLsbD_false_of_lt_ctz (not_le.1 hlt)] at hu
        exact Bool.false_ne_true hu
      omega
  refine ⟨hforward v, ?_⟩
  rintro ⟨hv, hleast⟩
  cases hl : ws.lowest with
  | none =>
    rw [lowest, Option.map_eq_none_iff, firstWord, List.find?_eq_none] at hl
    have hzero := hl (v / 64) (List.mem_range.2 (lt_of_contains hv))
    exact absurd (decide_eq_true (word_ne_zero_of_contains hv)) hzero
  | some u =>
    obtain ⟨hu, hmin⟩ := hforward u hl
    rw [Nat.le_antisymm (hmin v hv) (hleast u hu)]

/-- The highest set bit of the last word with one is the greatest member. -/
theorem highest_eq_some_iff {ws : Words n} :
    ws.highest = some v ↔ ws.contains v = true ∧ ∀ u, ws.contains u = true → u ≤ v := by
  have hforward : ∀ v, ws.highest = some v → ws.contains v = true ∧ ∀ u, ws.contains u = true →
      u ≤ v := by
    intro v hv
    obtain ⟨j, hj, rfl⟩ := Option.map_eq_some_iff.1 hv
    rw [lastWord, List.find?_eq_some_iff_getElem] at hj
    obtain ⟨hne, i, hi, hat, hbefore⟩ := hj
    have hne : ws.word j ≠ 0#64 := of_decide_eq_true hne
    rw [List.length_reverse, List.length_range] at hi
    rw [List.getElem_reverse, List.getElem_range, List.length_range] at hat
    have hclz : (ws.word j).clz.toNat < 64 := by
      have hlt := BitVec.clz_lt_iff_ne_zero.2 hne
      simpa [BitVec.lt_def] using hlt
    have hsum : 64 * j + 63 - (ws.word j).clz.toNat =
      64 * j + (64 - 1 - (ws.word j).clz.toNat) := by omega
    rw [hsum, contains_add ws (by omega)]
    refine ⟨BitVec.getLsbD_true_clz_of_ne_zero (by decide) hne, fun u hu ↦ ?_⟩
    have hword : u / 64 ≤ j := by
      by_contra hlt
      have hun := lt_of_contains hu
      have hzero := hbefore (n - 1 - u / 64) (by omega)
      rw [List.getElem_reverse, List.getElem_range, List.length_range, Bool.not_eq_true',
        decide_eq_false_iff_not,
        not_not] at hzero
      have hindex : n - 1 - (n - 1 - u / 64) = u / 64 := by omega
      rw [hindex] at hzero
      exact word_ne_zero_of_contains hu hzero
    rcases Nat.lt_or_eq_of_le hword with hlt | heq
    · omega
    · have hbit : u % 64 ≤ 64 - 1 - (ws.word j).clz.toNat := by
        by_contra hlt
        have hbound := BitVec.toNat_lt_two_pow_sub_clz (x := ws.word j)
        have hpow : 2 ^ (64 - (ws.word j).clz.toNat) ≤ 2 ^ (u % 64) :=
          Nat.pow_le_pow_right (by decide) (by omega)
        have hfalse : (ws.word j).toNat.testBit (u % 64) = false :=
          Nat.testBit_lt_two_pow (hbound.trans_le hpow)
        rw [contains, heq] at hu
        exact Bool.false_ne_true (hfalse.symm.trans hu)
      omega
  refine ⟨hforward v, ?_⟩
  rintro ⟨hv, hgreatest⟩
  cases hl : ws.highest with
  | none =>
    rw [highest, Option.map_eq_none_iff, lastWord, List.find?_eq_none] at hl
    have hzero := hl (v / 64) (List.mem_reverse.2 (List.mem_range.2 (lt_of_contains hv)))
    exact absurd (decide_eq_true (word_ne_zero_of_contains hv)) hzero
  | some u =>
    obtain ⟨hu, hmax⟩ := hforward u hl
    rw [Nat.le_antisymm (hgreatest u hu) (hmax v hv)]

/-- The ends of a block that is not empty bound its members. -/
theorem ends_spec {ws : Words n} (hne : ws.values ≠ []) :
    ws.lowest.getD 0 ∈ ws.values ∧ ws.highest.getD 0 ∈ ws.values ∧
      ∀ v ∈ ws.values, ws.lowest.getD 0 ≤ v ∧ v ≤ ws.highest.getD 0 := by
  have hasc := ws.values_ascending
  have hlow : ws.lowest = some (ws.values.head hne) := by
    refine lowest_eq_some_iff.2 ⟨mem_values.1 (List.head_mem hne), fun u hu ↦ ?_⟩
    have hle := headD_le_of_mem hasc (mem_values.2 hu)
    rwa [List.headD_eq_head?_getD, List.head?_eq_some_head hne, Option.getD_some] at hle
  have hhigh : ws.highest = some (ws.values.getLast hne) := by
    refine highest_eq_some_iff.2 ⟨mem_values.1 (List.getLast_mem hne), fun u hu ↦ ?_⟩
    have hge := le_getLast_of_mem hasc (mem_values.2 hu)
    rwa [List.getLastD_eq_getLast?, List.getLast?_eq_some_getLast hne, Option.getD_some] at hge
  rw [hlow, hhigh, Option.getD_some, Option.getD_some]
  refine ⟨List.head_mem hne, List.getLast_mem hne, fun v hv ↦ ⟨?_, ?_⟩⟩
  · exact (lowest_eq_some_iff.1 hlow).2 v (mem_values.1 hv)
  · exact (highest_eq_some_iff.1 hhigh).2 v (mem_values.1 hv)

end Words

end Lib
