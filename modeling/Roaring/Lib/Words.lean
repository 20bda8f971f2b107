import Mathlib

/-!
# Blocks of 64-bit words as sets of small numbers

A block of `n` words is read as a set of numbers below `64 * n`: the number `v`
is bit `v % 64` of word `v / 64`.  The file gives the block its total word
access, its membership test, and the two ways of counting and listing its
members that word kernels use: one population count per word, and the loop that
takes the lowest set bit off a word until none is left.
-/

namespace Lib

/-! ## One word -/

abbrev Word := BitVec 64

/-- The number of set bits of a word. -/
def popcount (w : Word) : Nat := w.cpop.toNat

/-- The positions of the set bits of a word, ascending, moved up by `base`. -/
def bitPositions (base : Nat) (w : Word) : List Nat :=
  ((List.range 64).filter fun i ↦ w.getLsbD i).map (base + ·)

theorem cpopNatRec_eq_length_filter (w : Word) (n : Nat) :
    w.cpopNatRec n 0 = ((List.range n).filter fun i ↦ w.getLsbD i).length := by
  induction n with
  | zero => rfl
  | succ n ih =>
      rw [BitVec.cpopNatRec_succ, BitVec.cpopNatRec_eq, ih, List.range_succ, List.filter_append,
        List.length_append]
      cases h : w.getLsbD n <;> simp [h]

theorem popcount_eq_length (base : Nat) (w : Word) :
    popcount w = (bitPositions base w).length := by
  rw [popcount, BitVec.toNat_cpop, cpopNatRec_eq_length_filter]
  simp [bitPositions]

theorem popcount_le (w : Word) : popcount w ≤ 64 := BitVec.toNat_cpop_le w

@[simp] theorem popcount_zero : popcount 0#64 = 0 := by simp [popcount]

@[simp] theorem mem_bitPositions {base v : Nat} {w : Word} :
    v ∈ bitPositions base w ↔ base ≤ v ∧ w.getLsbD (v - base) = true := by
  simp only [bitPositions, List.mem_map, List.mem_filter, List.mem_range]
  constructor
  · rintro ⟨i, ⟨_, hi⟩, rfl⟩
    exact ⟨Nat.le_add_right base i, by rwa [Nat.add_sub_cancel_left]⟩
  · rintro ⟨hle, hbit⟩
    exact ⟨v - base, ⟨BitVec.lt_of_getLsbD hbit, hbit⟩, by omega⟩

theorem bitPositions_ascending (base : Nat) (w : Word) :
    (bitPositions base w).Pairwise (· < ·) := by
  have h : ((List.range 64).filter fun i ↦ w.getLsbD i).Pairwise (· < ·) :=
    List.pairwise_lt_range.filter _
  exact h.map _ fun a b hab ↦ Nat.add_lt_add_left hab base

/-- A word is cut at its lowest set bit, and so is its predecessor. -/
theorem toNat_at_ctz {w : Word} (hw : w ≠ 0#64) :
    ∃ m, w.toNat = 2 ^ (w.ctz.toNat + 1) * m + 2 ^ w.ctz.toNat ∧
      (w - 1#64).toNat = 2 ^ (w.ctz.toNat + 1) * m + (2 ^ w.ctz.toNat - 1) := by
  set t := w.ctz.toNat with ht
  have hlow : ∀ j < t, w.getLsbD j = false := fun j hj ↦ BitVec.getLsbD_false_of_lt_ctz hj
  have hbit : w.getLsbD t = true := BitVec.getLsbD_true_ctz_of_ne_zero hw
  have hmod : w.toNat % 2 ^ t = 0 := by
    apply Nat.eq_of_testBit_eq
    intro j
    rw [Nat.testBit_mod_two_pow, Nat.zero_testBit]
    by_cases hj : j < t
    · simpa [hj, BitVec.getLsbD] using hlow j hj
    · simp [hj]
  have hodd : (w.toNat / 2 ^ t) % 2 = 1 := by
    have hb : w.toNat.testBit t = true := hbit
    rw [Nat.testBit_eq_decide_div_mod_eq] at hb
    simpa using hb
  obtain ⟨m, hm⟩ : ∃ m, w.toNat = 2 ^ t * (2 * m + 1) := by
    refine ⟨w.toNat / 2 ^ t / 2, ?_⟩
    have h1 := Nat.div_add_mod w.toNat (2 ^ t)
    have h2 := Nat.div_add_mod (w.toNat / 2 ^ t) 2
    rw [hmod] at h1
    rw [hodd] at h2
    rw [h2]
    omega
  have hpos : 0 < 2 ^ t := Nat.two_pow_pos t
  refine ⟨m, by rw [hm]; ring, ?_⟩
  have h1 : 1 ≤ w.toNat := by
    rw [hm]
    exact Nat.one_le_iff_ne_zero.mpr (by positivity)
  have h2 : (w - 1#64).toNat = w.toNat - 1 := by
    rw [BitVec.toNat_sub_of_le (by simpa [BitVec.le_def] using h1)]
    rfl
  rw [h2, hm, pow_succ]
  have : 2 ^ t * (2 * m + 1) = 2 ^ t * 2 * m + 2 ^ t := by ring
  omega

/-- The predecessor of a word: its lowest set bit is cleared and all below it are set. -/
theorem getLsbD_sub_one {w : Word} (hw : w ≠ 0#64) (i : Nat) :
    (w - 1#64).getLsbD i =
      (decide (i < w.ctz.toNat) || (w.getLsbD i && decide (i ≠ w.ctz.toNat))) := by
  obtain ⟨m, hm, hsub⟩ := toNat_at_ctz hw
  set t := w.ctz.toNat with ht
  change (w - 1#64).toNat.testBit i = (_ || (w.toNat.testBit i && _))
  rw [hsub, hm]
  have hlt2 : 2 ^ t < 2 ^ (t + 1) := Nat.pow_lt_pow_right (by decide) (Nat.lt_succ_self t)
  have hlt1 : 2 ^ t - 1 < 2 ^ (t + 1) := (Nat.sub_le _ _).trans_lt hlt2
  rw [Nat.testBit_two_pow_mul_add m hlt1, Nat.testBit_two_pow_mul_add m hlt2]
  by_cases hi : i < t + 1
  · simp only [hi, if_true, Nat.testBit_two_pow_sub_one, Nat.testBit_two_pow]
    by_cases he : t = i
    · simp [he]
    · simp [he]
  · have hne : i ≠ t := by omega
    have hge : ¬ i < t := by omega
    simp [hi, hne, hge]

/-- Taking the lowest set bit off a word clears that bit and no other. -/
theorem getLsbD_and_sub_one {w : Word} (hw : w ≠ 0#64) (i : Nat) :
    (w &&& (w - 1#64)).getLsbD i = (w.getLsbD i && decide (i ≠ w.ctz.toNat)) := by
  rw [BitVec.getLsbD_and, getLsbD_sub_one hw]
  by_cases hi : i < w.ctz.toNat
  · simp [BitVec.getLsbD_false_of_lt_ctz hi]
  · simp [hi]

theorem and_sub_one_lt {w : Word} (hw : w ≠ 0#64) : (w &&& (w - 1#64)).toNat < w.toNat := by
  have h1 : 1 ≤ w.toNat := Nat.one_le_iff_ne_zero.mpr fun h ↦ hw (BitVec.eq_of_toNat_eq h)
  have h2 : (w - 1#64).toNat = w.toNat - 1 := by
    rw [BitVec.toNat_sub_of_le (by simpa [BitVec.le_def] using h1)]
    rfl
  have h3 : (w &&& (w - 1#64)).toNat ≤ (w - 1#64).toNat := by
    rw [BitVec.toNat_and]
    exact Nat.and_le_right
  omega

/-- The loop that emits the lowest set bit of a word and takes it off. -/
def extractSetBits (base : Nat) (w : Word) : List Nat :=
  if _h : w = 0#64 then []
  else (base + w.ctz.toNat) :: extractSetBits base (w &&& (w - 1#64))
termination_by w.toNat
decreasing_by exact and_sub_one_lt _h

theorem extractSetBits_eq (base : Nat) (w : Word) :
    extractSetBits base w = bitPositions base w := by
  induction w using extractSetBits.induct with
  | case1 =>
      rw [extractSetBits, dif_pos rfl]
      simp [bitPositions]
  | case2 w h ih =>
      rw [extractSetBits, dif_neg h, ih]
      have hbit : w.getLsbD w.ctz.toNat = true := BitVec.getLsbD_true_ctz_of_ne_zero h
      have hmin : ∀ i, w.getLsbD i = true → w.ctz.toNat ≤ i := fun i hi ↦ by
        by_contra hlt
        rw [BitVec.getLsbD_false_of_lt_ctz (by omega)] at hi
        exact Bool.false_ne_true hi
      have hmem : ∀ v, v ∈ (base + w.ctz.toNat) :: bitPositions base (w &&& (w - 1#64)) ↔
          v ∈ bitPositions base w := by
        intro v
        rw [List.mem_cons, mem_bitPositions, mem_bitPositions, getLsbD_and_sub_one h]
        constructor
        · rintro (rfl | ⟨hle, hv⟩)
          · exact ⟨Nat.le_add_right _ _, by rwa [Nat.add_sub_cancel_left]⟩
          · exact ⟨hle, ((Bool.and_eq_true _ _).mp hv).1⟩
        · rintro ⟨hle, hv⟩
          by_cases he : v - base = w.ctz.toNat
          · exact .inl (by omega)
          · exact .inr ⟨hle, by simp [hv, he]⟩
      refine List.Pairwise.eq_of_mem_iff (r := (· < ·)) ?_ (bitPositions_ascending base w) hmem
      refine List.pairwise_cons.mpr ⟨fun v hv ↦ ?_, bitPositions_ascending base _⟩
      rw [mem_bitPositions, getLsbD_and_sub_one h] at hv
      obtain ⟨hle, hv⟩ := hv
      obtain ⟨hv, hne⟩ := (Bool.and_eq_true _ _).mp hv
      have := hmin _ hv
      have : v - base ≠ w.ctz.toNat := of_decide_eq_true hne
      omega

/-- Masking the low bits of a word off drops the positions below the mask. -/
theorem bitPositions_and_shiftLeft (base k : Nat) (w : Word) :
    bitPositions base (w &&& (BitVec.allOnes 64 <<< k)) =
      (bitPositions base w).filter (base + k ≤ ·) := by
  apply List.Pairwise.eq_of_mem_iff (r := (· < ·)) (bitPositions_ascending base _)
    ((bitPositions_ascending base w).filter _)
  intro v
  rw [List.mem_filter, mem_bitPositions, mem_bitPositions, BitVec.getLsbD_and,
    BitVec.getLsbD_shiftLeft, Bool.and_eq_true, decide_eq_true_eq]
  constructor
  · rintro ⟨hle, hbit, hmask⟩
    have hge : ¬ v - base < k := by
      intro hlt
      simp [hlt] at hmask
    exact ⟨⟨hle, hbit⟩, by omega⟩
  · rintro ⟨⟨hle, hbit⟩, hfrom⟩
    have hlt := BitVec.lt_of_getLsbD hbit
    have hge : ¬ v - base < k := by omega
    have hmask : v - base - k < 64 := by omega
    refine ⟨hle, hbit, ?_⟩
    rw [BitVec.getLsbD_allOnes]
    simp [hlt, hge, hmask]

/-! ## A block of words -/

abbrev Words (n : Nat) := Vector Word n

namespace Words

variable {n : Nat}

/-- Total access: a word outside the block is empty. -/
def word (ws : Words n) (i : Nat) : Word := ws[i]?.getD 0#64

def ofFn (n : Nat) (f : Nat → Word) : Words n := Vector.ofFn fun i ↦ f i

def contains (ws : Words n) (v : Nat) : Bool := (ws.word (v / 64)).getLsbD (v % 64)

/-- The number of members, one population count per word. -/
def count (ws : Words n) : Nat := ((List.range n).map fun i ↦ popcount (ws.word i)).sum

/-- The members in ascending order. -/
def values (ws : Words n) : List Nat := (List.range (64 * n)).filter ws.contains

@[simp] theorem word_ofFn (f : Nat → Word) {i : Nat} (hi : i < n) : (ofFn n f).word i = f i := by
  simp [word, ofFn, hi]

theorem word_of_le (ws : Words n) {i : Nat} (hi : n ≤ i) : ws.word i = 0#64 := by
  simp [word, hi]

theorem word_eq_getElem (ws : Words n) {i : Nat} (hi : i < n) : ws.word i = ws[i] := by
  simp [word, hi]

theorem ext_word {a b : Words n} (h : ∀ i < n, a.word i = b.word i) : a = b := by
  apply Vector.ext
  intro i hi
  have := h i hi
  rwa [word_eq_getElem a hi, word_eq_getElem b hi] at this

theorem contains_of_le (ws : Words n) {v : Nat} (hv : 64 * n ≤ v) : ws.contains v = false := by
  have : n ≤ v / 64 := by omega
  simp [contains, word_of_le ws this]

theorem contains_add (ws : Words n) {i j : Nat} (hj : j < 64) :
    ws.contains (64 * i + j) = (ws.word i).getLsbD j := by
  have h1 : (64 * i + j) / 64 = i := by omega
  have h2 : (64 * i + j) % 64 = j := by omega
  rw [contains, h1, h2]

@[simp] theorem mem_values {ws : Words n} {v : Nat} : v ∈ ws.values ↔ ws.contains v = true := by
  rw [values, List.mem_filter, List.mem_range]
  refine ⟨And.right, fun h ↦ ⟨?_, h⟩⟩
  by_contra hle
  rw [contains_of_le ws (by omega)] at h
  exact Bool.false_ne_true h

theorem values_ascending (ws : Words n) : ws.values.Pairwise (· < ·) :=
  List.pairwise_lt_range.filter _

theorem lt_of_mem_values {ws : Words n} {v : Nat} (h : v ∈ ws.values) : v < 64 * n :=
  List.mem_range.mp (List.mem_filter.mp h).1

/-- A concatenation of ascending blocks whose values lie in ascending ranges is ascending;
they need not be the words of a block. -/
theorem flatMap_bitPositions_ascending (f : Nat → Word) (a k : Nat) :
    ((List.range' a k).flatMap fun i ↦ bitPositions (64 * i) (f i)).Pairwise (· < ·) := by
  induction k generalizing a with
  | zero => exact List.Pairwise.nil
  | succ k ih =>
      rw [List.range'_succ, List.flatMap_cons]
      refine List.pairwise_append.mpr ⟨bitPositions_ascending _ _, ih (a + 1), fun u hu v hv ↦ ?_⟩
      obtain ⟨j, hj, hv⟩ := List.mem_flatMap.mp hv
      rw [mem_bitPositions] at hu hv
      have := BitVec.lt_of_getLsbD hu.2
      have := List.mem_range'_1.mp hj
      omega

/-- Word by word is the ascending order. -/
theorem values_eq_flatMap (ws : Words n) :
    ws.values = (List.range n).flatMap fun i ↦ bitPositions (64 * i) (ws.word i) := by
  have hasc := flatMap_bitPositions_ascending ws.word 0 n
  rw [← List.range_eq_range'] at hasc
  refine List.Pairwise.eq_of_mem_iff (r := (· < ·)) ws.values_ascending hasc fun v ↦ ?_
  rw [mem_values, List.mem_flatMap]
  constructor
  · intro h
    have hv : v < 64 * n := lt_of_mem_values (mem_values.mpr h)
    refine ⟨v / 64, List.mem_range.mpr (by omega), mem_bitPositions.mpr ⟨by omega, ?_⟩⟩
    have : v - 64 * (v / 64) = v % 64 := by omega
    rw [this]
    exact h
  · rintro ⟨i, -, hv⟩
    obtain ⟨hle, hbit⟩ := mem_bitPositions.mp hv
    have hlt := BitVec.lt_of_getLsbD hbit
    have : v = 64 * i + (v - 64 * i) := by omega
    rw [this, contains_add ws hlt]
    exact hbit

/-- The word counts add up to the number of members. -/
theorem count_eq_length_values (ws : Words n) : ws.count = ws.values.length := by
  rw [values_eq_flatMap, List.length_flatMap, count]
  congr 1
  exact List.map_congr_left fun i _ ↦ popcount_eq_length _ _

theorem count_le (ws : Words n) : ws.count ≤ 64 * n := by
  rw [count_eq_length_values, values]
  exact (List.length_filter_le _ _).trans (List.length_range).le

/-- The extraction loop over the whole block lists its members. -/
theorem flatMap_extractSetBits (ws : Words n) :
    ((List.range n).flatMap fun i ↦ extractSetBits (64 * i) (ws.word i)) = ws.values := by
  rw [values_eq_flatMap]
  simp only [extractSetBits_eq]

/-- The members from a number on: its word with the low bits masked off, and the
words behind it. -/
theorem values_filter_le (ws : Words n) {first : Nat} (hfirst : first < 64 * n) :
    ws.values.filter (first ≤ ·) =
      bitPositions (64 * (first / 64))
      (ws.word (first / 64) &&& (BitVec.allOnes 64 <<< (first % 64)))
        ++ (List.range' (first / 64 + 1) (n - (first / 64 + 1))).flatMap fun i ↦
          bitPositions (64 * i) (ws.word i) := by
  set wordAt := first / 64
  have hrange : List.range n = List.range' 0 wordAt ++ wordAt :: List.range' (wordAt + 1)
      (n - (wordAt + 1)) := by
    have hn : n = wordAt + (n - (wordAt + 1) + 1) := by omega
    rw [List.range_eq_range']
    conv_lhs => rw [hn, ← List.range'_append_1, Nat.zero_add, List.range'_succ]
  have hfilter : ∀ i, (bitPositions (64 * i) (ws.word i)).filter (first ≤ ·) =
      if i < wordAt then []
      else if i = wordAt then
        bitPositions (64 * i) (ws.word i &&& (BitVec.allOnes 64 <<< (first % 64)))
      else bitPositions (64 * i) (ws.word i) := by
    intro i
    split
    · rw [List.filter_eq_nil_iff]
      intro v hv
      have := BitVec.lt_of_getLsbD (mem_bitPositions.mp hv).2
      rw [decide_eq_true_eq]
      omega
    · split
      · rename_i heq
        rw [bitPositions_and_shiftLeft, heq]
        have hsplit : 64 * wordAt + first % 64 = first := Nat.div_add_mod first 64
        rw [hsplit]
      · rw [List.filter_eq_self]
        intro v hv
        have := (mem_bitPositions.mp hv).1
        rw [decide_eq_true_eq]
        omega
  rw [values_eq_flatMap, List.filter_flatMap, hrange, List.flatMap_append, List.flatMap_cons]
  have hfront : ((List.range' 0 wordAt).flatMap fun i ↦
      (bitPositions (64 * i) (ws.word i)).filter (first ≤ ·)) = [] := by
    rw [List.flatMap_eq_nil_iff]
    intro i hi
    rw [List.mem_range'_1] at hi
    rw [hfilter, if_pos (by omega)]
  rw [hfront, List.nil_append, hfilter, if_neg (Nat.lt_irrefl _), if_pos rfl]
  congr 1
  apply List.flatMap_congr
  intro i hi
  rw [List.mem_range'_1] at hi
  rw [hfilter, if_neg (by omega), if_neg (by omega)]

/-! ## Setting and clearing bits -/

def zeroed (n : Nat) : Words n := Vector.replicate n 0#64

def setWord (ws : Words n) (i : Nat) (w : Word) : Words n := ws.setIfInBounds i w

/-- `v` becomes a member. -/
def insert (ws : Words n) (v : Nat) : Words n :=
  ws.setWord (v / 64) (ws.word (v / 64) ||| 1#64 <<< (v % 64))

/-- `v` is a member no more. -/
def erase (ws : Words n) (v : Nat) : Words n :=
  ws.setWord (v / 64) (ws.word (v / 64) &&& ~~~(1#64 <<< (v % 64)))

@[simp] theorem contains_zeroed (v : Nat) : (zeroed n).contains v = false := by
  by_cases hv : v / 64 < n
  · rw [contains, word_eq_getElem _ hv]
    simp [zeroed]
  · rw [contains, word_of_le _ (Nat.le_of_not_lt hv)]
    simp

theorem word_setWord (ws : Words n) (w : Word) {i j : Nat} (hi : i < n) :
    (ws.setWord i w).word j = if j = i then w else ws.word j := by
  rcases eq_or_ne j i with rfl | hne
  · rw [if_pos rfl, word_eq_getElem _ hi, setWord]
    simp
  · rw [if_neg hne]
    by_cases hj : j < n
    · rw [word_eq_getElem _ hj, word_eq_getElem _ hj, setWord,
        Vector.getElem_setIfInBounds_ne hj hne.symm]
    · rw [word_of_le _ (Nat.le_of_not_lt hj), word_of_le _ (Nat.le_of_not_lt hj)]

theorem getLsbD_one_shiftLeft {i j : Nat} (hi : i < 64) (hj : j < 64) :
    (1#64 <<< i).getLsbD j = decide (j = i) := by
  rw [BitVec.getLsbD_shiftLeft]
  rcases lt_trichotomy j i with h | rfl | h
  · simp [h, h.ne]
  · simp [hj]
  · have hne : j - i ≠ 0 := Nat.sub_ne_zero_of_lt h
    simp [hj, h.not_gt, h.ne', BitVec.getLsbD_one, hne]

@[simp] theorem contains_insert (ws : Words n) {v : Nat} (hv : v < 64 * n) (u : Nat) :
    (ws.insert v).contains u = (decide (u = v) || ws.contains u) := by
  have hi : v / 64 < n := by omega
  rw [insert, contains, word_setWord _ _ hi, contains]
  by_cases hw : u / 64 = v / 64
  · rw [if_pos hw, BitVec.getLsbD_or, getLsbD_one_shiftLeft (Nat.mod_lt _ (by decide))
      (Nat.mod_lt _ (by decide)), hw, Bool.or_comm]
    congr 1
    exact decide_eq_decide.2 (by omega)
  · have hne : u ≠ v := fun h ↦ hw (h ▸ rfl)
    simp [hw, hne]

@[simp] theorem contains_erase (ws : Words n) {v : Nat} (hv : v < 64 * n) (u : Nat) :
    (ws.erase v).contains u = (ws.contains u && !decide (u = v)) := by
  have hi : v / 64 < n := by omega
  rw [erase, contains, word_setWord _ _ hi, contains]
  by_cases hw : u / 64 = v / 64
  · rw [if_pos hw, BitVec.getLsbD_and, BitVec.getLsbD_not, getLsbD_one_shiftLeft
      (Nat.mod_lt _ (by decide)) (Nat.mod_lt _ (by decide)), hw]
    have heq : decide (u % 64 = v % 64) = decide (u = v) := decide_eq_decide.2 (by omega)
    simp [heq, Nat.mod_lt]
  · have hne : u ≠ v := fun h ↦ hw (h ▸ rfl)
    simp [hw, hne]

/-- The numbers of a list become members. -/
def scatter (ws : Words n) (vs : List Nat) : Words n := vs.foldl insert ws

theorem contains_scatter (ws : Words n) {vs : List Nat} (h : ∀ v ∈ vs, v < 64 * n) (u : Nat) :
    (ws.scatter vs).contains u = (decide (u ∈ vs) || ws.contains u) := by
  induction vs generalizing ws with
  | nil => simp [scatter]
  | cons v vs ih =>
      rw [scatter, List.foldl_cons, ← scatter, ih _ fun w hw ↦ h w (List.mem_cons_of_mem v hw),
        contains_insert ws (h v List.mem_cons_self), ← Bool.or_assoc]
      congr 1
      simp only [List.mem_cons, Bool.decide_or, Bool.or_comm]

/-- An empty block that ascending numbers are scattered over lists them. -/
theorem values_scatter {vs : List Nat} (hasc : vs.Pairwise (· < ·)) (h : ∀ v ∈ vs, v < 64 * n) :
    ((zeroed n).scatter vs).values = vs := by
  refine List.Pairwise.eq_of_mem_iff (r := (· < ·)) (values_ascending _) hasc fun v ↦ ?_
  rw [mem_values, contains_scatter _ h]
  simp

end Words

end Lib
