import Mathlib
import Roaring.Lib.Words

/-!
# Ranks

The rank of a number in a list is how many values of the list are below it.  In
an ascending list the rank of a value is its position, so a value is known by its
rank; and a list made of pieces is ranked piece by piece.  In a word the rank of
a bit is the population count of the bits below it.
-/

namespace Lib

/-- How many values of a list are below a number. -/
def rank (values : List Nat) (x : Nat) : Nat := values.countP (· < x)

section Rank

variable {values front back : List Nat} {x v : Nat}

@[simp] theorem rank_nil (x : Nat) : rank [] x = 0 := rfl

theorem rank_append (front back : List Nat) (x : Nat) :
    rank (front ++ back) x = rank front x + rank back x := List.countP_append

theorem rank_le_length (values : List Nat) (x : Nat) : rank values x ≤ values.length :=
  List.countP_le_length

theorem rank_of_lt (h : ∀ v ∈ values, v < x) : rank values x = values.length :=
  List.countP_eq_length.mpr fun v hv ↦ decide_eq_true (h v hv)

theorem rank_of_le (h : ∀ v ∈ values, x ≤ v) : rank values x = 0 := by
  apply List.countP_eq_zero.mpr
  intro v hv
  rw [decide_eq_true_eq]
  exact Nat.not_lt_of_le (h v hv)

/-- A cut at the number. -/
theorem rank_cut (hfront : ∀ v ∈ front, v < x) (hback : ∀ v ∈ back, x ≤ v) :
    rank (front ++ back) x = front.length := by
  rw [rank_append, rank_of_lt hfront, rank_of_le hback, Nat.add_zero]

theorem rank_map_add (values : List Nat) (base x : Nat) :
    rank (values.map (base + ·)) (base + x) = rank values x := by
  rw [rank, rank, List.countP_map]
  apply List.countP_congr
  intro v _
  simp

/-- The rank of a value of an ascending list is its position. -/
theorem rank_getElem (hasc : values.Pairwise (· < ·)) {i : Nat} (hi : i < values.length) :
    rank values values[i] = i := by
  have hpair := hasc
  rw [← List.take_append_drop i values, List.drop_eq_getElem_cons hi, List.pairwise_append,
    List.pairwise_cons] at hpair
  conv_lhs => arg 1; rw [← List.take_append_drop i values, List.drop_eq_getElem_cons hi]
  rw [rank_cut (fun v hv ↦ hpair.2.2 v hv _ List.mem_cons_self), List.length_take_of_le hi.le]
  exact List.forall_mem_cons.mpr ⟨le_rfl, fun v hv ↦ (hpair.2.1.1 v hv).le⟩

/-- A value of an ascending list stands at its rank. -/
theorem getElem?_of_rank (hasc : values.Pairwise (· < ·)) (hv : v ∈ values) {r : Nat}
    (hr : rank values v = r) : values[r]? = some v := by
  obtain ⟨i, hi, rfl⟩ := List.getElem_of_mem hv
  rw [← hr, rank_getElem hasc hi]
  exact List.getElem?_eq_getElem hi

/-- In a sequence of blocks, those in front are below a number of the block. -/
theorem rank_flatMap {α : Type} (f : α → List Nat) {front back : List α} {a : α} {x : Nat}
    (hfront : ∀ b ∈ front, ∀ v ∈ f b, v < x) (hback : ∀ b ∈ back, ∀ v ∈ f b, x ≤ v) :
    rank ((front ++ a :: back).flatMap f) x = (front.flatMap f).length + rank (f a) x := by
  have hbelow : rank (front.flatMap f) x = (front.flatMap f).length := by
    apply rank_of_lt
    intro v hv
    obtain ⟨b, hb, hv⟩ := List.mem_flatMap.mp hv
    exact hfront b hb v hv
  have habove : rank (back.flatMap f) x = 0 := by
    apply rank_of_le
    intro v hv
    obtain ⟨b, hb, hv⟩ := List.mem_flatMap.mp hv
    exact hback b hb v hv
  rw [List.flatMap_append, List.flatMap_cons, rank_append, rank_append, hbelow, habove,
    Nat.add_zero]

theorem rank_range' (first n x : Nat) : rank (List.range' first n) x = min (x - first) n := by
  induction n generalizing first with
  | zero => rw [List.range'_zero, rank_nil, Nat.min_zero]
  | succ n ih =>
      have hone : rank [first] x = if first < x then 1 else 0 := by
        rw [rank, List.countP_singleton]
        simp only [decide_eq_true_eq]
      rw [List.range'_succ, ← List.singleton_append, rank_append, hone, ih]
      split <;> omega

end Rank

/-! ## Words -/

/-- The bits of a word below a position. -/
def lowBits (w : Word) (position : Nat) : Word := w &&& ((1#64 <<< position) - 1#64)

/-- How many bits of a word are set below a position. -/
def bitRank (w : Word) (position : Nat) : Nat := (List.range position).countP fun i ↦ w.getLsbD i

section Words

variable {w : Word} {position : Nat}

theorem getLsbD_lowBits (hp : position < 64) (i : Nat) :
    (lowBits w position).getLsbD i = (w.getLsbD i && decide (i < position)) := by
  have hpow : 2 ^ position < 2 ^ 64 := Nat.pow_lt_pow_right (by decide) hp
  have hone : (1#64 <<< position).toNat = 2 ^ position := by
    rw [BitVec.toNat_shiftLeft, Nat.shiftLeft_eq]
    simpa using Nat.mod_eq_of_lt hpow
  have hmask : ((1#64 <<< position) - 1#64).toNat = 2 ^ position - 1 := by
    rw [BitVec.toNat_sub_of_le, hone]
    · rfl
    · rw [BitVec.le_def, hone]
      exact Nat.one_le_two_pow
  rw [lowBits, BitVec.getLsbD_and]
  congr 1
  rw [BitVec.getLsbD, hmask, Nat.testBit_two_pow_sub_one]

theorem range_cut {p n : Nat} (h : p ≤ n) :
    List.range n = List.range p ++ List.range' p (n - p) := by
  obtain ⟨d, rfl⟩ := Nat.exists_eq_add_of_le h
  rw [Nat.add_sub_cancel_left, List.range_add, List.range'_eq_map_range]

/-- The population count of the bits below a position. -/
theorem popcount_lowBits (hp : position < 64) :
    popcount (lowBits w position) = bitRank w position := by
  rw [popcount, BitVec.toNat_cpop, cpopNatRec_eq_length_filter, ← List.countP_eq_length_filter,
    range_cut hp.le, List.countP_append, bitRank]
  have hfront : (List.range position).countP (fun i ↦ (lowBits w position).getLsbD i) =
      (List.range position).countP fun i ↦ w.getLsbD i := by
    apply List.countP_congr
    intro i hi
    rw [getLsbD_lowBits hp, decide_eq_true (List.mem_range.mp hi), Bool.and_true]
  have hback : (List.range' position (64 - position)).countP
      (fun i ↦ (lowBits w position).getLsbD i) = 0 := by
    apply List.countP_eq_zero.mpr
    intro i hi
    have hge := (List.mem_range'_1.mp hi).1
    rw [getLsbD_lowBits hp, decide_eq_false (Nat.not_lt_of_le hge), Bool.and_false]
    exact Bool.false_ne_true
  rw [hfront, hback, Nat.add_zero]

theorem bitRank_succ (w : Word) (position : Nat) :
    bitRank w (position + 1) = bitRank w position + if w.getLsbD position then 1 else 0 := by
  rw [bitRank, bitRank, List.range_succ, List.countP_append, List.countP_singleton]

/-- The bits below a position, and those of the word moved down by it. -/
theorem bitRank_add (w : Word) (position more : Nat) :
    bitRank w (position + more) = bitRank w position + bitRank (w >>> position) more := by
  rw [bitRank, bitRank, bitRank, List.range_add, List.countP_append, List.countP_map]
  congr 1
  apply List.countP_congr
  intro i _
  rw [Function.comp_apply, BitVec.getLsbD_ushiftRight]

theorem bitRank_mono (w : Word) {i j : Nat} (h : i ≤ j) : bitRank w i ≤ bitRank w j := by
  obtain ⟨d, rfl⟩ := Nat.exists_eq_add_of_le h
  rw [bitRank_add]
  exact Nat.le_add_right _ _

theorem popcount_eq_bitRank (w : Word) : popcount w = bitRank w 64 := by
  rw [popcount, BitVec.toNat_cpop, cpopNatRec_eq_length_filter, ← List.countP_eq_length_filter,
    bitRank]

/-- Ranks among the set bits of a word, moved up by a base. -/
theorem rank_bitPositions (base : Nat) (w : Word) (hp : position ≤ 64) :
    rank (bitPositions base w) (base + position) = bitRank w position := by
  rw [bitPositions, rank_map_add, rank, range_cut hp, List.filter_append, List.countP_append,
    bitRank,
    List.countP_filter, List.countP_filter]
  have hback : (List.range' position (64 - position)).countP
      (fun i ↦ decide (i < position) && w.getLsbD i) = 0 := by
    apply List.countP_eq_zero.mpr
    intro i hi
    have hge := (List.mem_range'_1.mp hi).1
    rw [decide_eq_false (Nat.not_lt_of_le hge), Bool.false_and]
    exact Bool.false_ne_true
  rw [hback, Nat.add_zero]
  apply List.countP_congr
  intro i hi
  rw [decide_eq_true (List.mem_range.mp hi), Bool.true_and]

/-- The bit at which a rank is passed is the set bit of that rank. -/
theorem getElem?_bitPositions (base : Nat) {r : Nat} (hle : bitRank w position ≤ r)
    (hlt : r < bitRank w (position + 1)) : (bitPositions base w)[r]? = some (base + position) := by
  rw [bitRank_succ] at hlt
  have hbit : w.getLsbD position = true := by
    by_contra hbit
    rw [if_neg hbit] at hlt
    omega
  rw [if_pos hbit] at hlt
  have hp := BitVec.lt_of_getLsbD hbit
  apply getElem?_of_rank (bitPositions_ascending base w)
  · rw [mem_bitPositions, Nat.add_sub_cancel_left]
    exact ⟨Nat.le_add_right base position, hbit⟩
  · rw [rank_bitPositions base w hp.le]
    omega

end Words

/-! ## The bit of a rank -/

/-- The bits of `source`, lowest first, laid onto the set bits of `mask`. -/
def pdep (source mask : Word) : Word :=
  BitVec.ofFnLE fun i : Fin 64 ↦ mask.getLsbD i && source.getLsbD (bitRank mask i)

/-- The search by halves: a low half that holds no more bits than the rank is passed. -/
def selectHalving (half : Nat) (word : Word) (rank position : Nat) : Nat :=
  if 0 < half then
    let below := popcount (lowBits word half)
    if below ≤ rank then selectHalving (half / 2) (word >>> half) (rank - below) (position + half)
    else selectHalving (half / 2) word rank position
  else position
termination_by half

section Select

variable {word : Word} {rank : Nat}

theorem selectHalving_spec {k : Nat} (hk : k ≤ 6) (word : Word) {rank : Nat}
    (hlt : rank < bitRank word (2 ^ k)) (position : Nat) :
    ∃ d, selectHalving (2 ^ k / 2) word rank position = position + d ∧ bitRank word d ≤ rank ∧
      rank < bitRank word (d + 1) := by
  induction k generalizing word rank position with
  | zero =>
      rw [selectHalving, if_neg (by decide)]
      exact ⟨0, rfl, Nat.zero_le rank, hlt⟩
  | succ k ih =>
      have hpow : 2 ^ (k + 1) = 2 ^ k + 2 ^ k := by rw [pow_succ, Nat.mul_two]
      have hhalf : 2 ^ (k + 1) / 2 = 2 ^ k := by rw [pow_succ, Nat.mul_div_cancel _ (by decide)]
      have hwidth : 2 ^ k < 64 := Nat.pow_lt_pow_right (by decide) (show k < 6 from hk)
      rw [selectHalving, hhalf, if_pos (Nat.two_pow_pos k)]
      dsimp only
      rw [popcount_lowBits hwidth]
      split
      · -- the bit is in the high half
        rename_i hle
        rw [hpow, bitRank_add] at hlt
        obtain ⟨d, heq, hlo, hhi⟩ := ih (by omega) (word >>> 2 ^ k)
          (show rank - bitRank word (2 ^ k) < _ by omega) (position + 2 ^ k)
        refine ⟨2 ^ k + d, heq.trans (Nat.add_assoc _ _ _), ?_, ?_⟩
        · rw [bitRank_add]
          omega
        · rw [Nat.add_assoc, bitRank_add]
          omega
      · rename_i hgt
        exact ih (by omega) word (Nat.lt_of_not_le hgt) position

/-- The bit at which a rank is passed. -/
theorem exists_bit_of_rank (h : rank < popcount word) :
    ∃ d, d < 64 ∧ bitRank word d ≤ rank ∧ rank < bitRank word (d + 1) := by
  rw [popcount_eq_bitRank] at h
  obtain ⟨d, -, hlo, hhi⟩ := selectHalving_spec le_rfl word h 0
  refine ⟨d, ?_, hlo, hhi⟩
  by_contra hge
  exact absurd (h.trans_le (bitRank_mono word (Nat.le_of_not_lt hge))) (Nat.not_lt_of_le hlo)

theorem getLsbD_of_bitRank {d : Nat} (hlo : bitRank word d ≤ rank)
    (hhi : rank < bitRank word (d + 1)) : word.getLsbD d = true ∧ bitRank word d = rank := by
  rw [bitRank_succ] at hhi
  by_cases hbit : word.getLsbD d = true
  · rw [if_pos hbit] at hhi
    exact ⟨hbit, by omega⟩
  · rw [if_neg hbit] at hhi
    omega

/-- The one bit of a deposited power of two is the set bit of that rank. -/
theorem ctz_pdep (h : rank < popcount word) :
    bitRank word (pdep (1#64 <<< rank) word).ctz.toNat ≤ rank ∧
      rank < bitRank word ((pdep (1#64 <<< rank) word).ctz.toNat + 1) := by
  obtain ⟨d, hd, hlo, hhi⟩ := exists_bit_of_rank h
  obtain ⟨hbit, hrank⟩ := getLsbD_of_bitRank hlo hhi
  have hr : rank < 64 := h.trans_le (popcount_le word)
  have hone : ∀ i, (1#64 <<< rank).getLsbD i = decide (i = rank) := by
    intro i
    rw [BitVec.getLsbD_shiftLeft, BitVec.getLsbD_one]
    by_cases hi : i = rank
    · subst hi
      simp [hr]
    · by_cases hlt : i < rank
      · simp [hlt, hi]
      · have : i - rank ≠ 0 := by omega
        simp [hi, this]
  have hdeposit : ∀ i, (pdep (1#64 <<< rank) word).getLsbD i = decide (i = d) := by
    intro i
    rw [pdep, BitVec.getLsbD_ofFnLE]
    split
    · rename_i hi
      rw [hone]
      by_cases hid : i = d
      · subst hid
        simp [hbit, hrank]
      · rw [decide_eq_false hid, Bool.and_eq_false_iff]
        by_cases hset : word.getLsbD i = true
        · right
          rw [decide_eq_false_iff_not]
          -- two set bits have different ranks
          intro heq
          have heq : bitRank word i = rank := heq
          rcases Nat.lt_or_gt_of_ne hid with hlt | hgt
          · have := bitRank_mono word (show i + 1 ≤ d from hlt)
            rw [bitRank_succ, if_pos hset] at this
            omega
          · have := bitRank_mono word (show d + 1 ≤ i from hgt)
            omega
        · exact .inl (Bool.eq_false_iff.mpr hset)
    · rename_i hi
      rw [eq_comm, decide_eq_false_iff_not]
      omega
  have hne : pdep (1#64 <<< rank) word ≠ 0#64 := by
    intro hzero
    have := hdeposit d
    rw [hzero, BitVec.getLsbD_zero, decide_eq_true rfl] at this
    exact Bool.false_ne_true this
  have hctz : (pdep (1#64 <<< rank) word).ctz.toNat = d := by
    have := BitVec.getLsbD_true_ctz_of_ne_zero hne
    rwa [hdeposit, decide_eq_true_eq] at this
  rw [hctz]
  exact ⟨hlo, hhi⟩

end Select

end Lib
