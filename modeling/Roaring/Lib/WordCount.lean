import Mathlib
import Roaring.Lib.Words

/-!
# Counts of words under masks

Bits that are set, cleared or turned under a mask move the population count of a word by
the number of those that change, and a block is counted anew by the one word that was
written.  A kernel that keeps a running count of a block rests on these facts alone.
-/

namespace Lib

/-! ## One word -/

section OneWord

variable {k : Nat} {w m : Word}

theorem popcount_eq_countP (w : Word) : popcount w = (List.range 64).countP w.getLsbD := by
  rw [popcount, BitVec.toNat_cpop, cpopNatRec_eq_length_filter, List.countP_eq_length_filter]

/-- The bits under a mask, and the others. -/
theorem popcount_split (w m : Word) : popcount w = popcount (w &&& m) + popcount (w &&& ~~~m) := by
  rw [popcount_eq_countP, popcount_eq_countP, popcount_eq_countP,
    List.countP_eq_countP_filter_add (List.range 64) w.getLsbD m.getLsbD,
    List.countP_filter, List.countP_filter]
  congr 1
  · refine List.countP_congr fun i _ ↦ ?_
    rw [BitVec.getLsbD_and]
  · refine List.countP_congr fun i hi ↦ ?_
    rw [BitVec.getLsbD_and, BitVec.getLsbD_not, decide_eq_true (List.mem_range.1 hi), Bool.true_and]

theorem popcount_or (w m : Word) : popcount (w ||| m) = popcount w + popcount (m &&& ~~~w) := by
  have hin : (w ||| m) &&& w = w := by
    ext i hi
    rw [BitVec.getElem_and, BitVec.getElem_or]
    cases w[i] <;> simp
  have hout : (w ||| m) &&& ~~~w = m &&& ~~~w := by
    ext i hi
    rw [BitVec.getElem_and, BitVec.getElem_and, BitVec.getElem_or, BitVec.getElem_not]
    cases w[i] <;> simp
  rw [popcount_split (w ||| m) w, hin, hout]

theorem popcount_andNot (w m : Word) : popcount (w &&& ~~~m) + popcount (m &&& w) = popcount w := by
  rw [popcount_split w m, BitVec.and_comm m w, Nat.add_comm]

theorem popcount_xor (w m : Word) : popcount (w ^^^ m) + 2 * popcount (w &&& m) =
    popcount w + popcount m := by
  have hin : (w ^^^ m) &&& w = w &&& ~~~m := by
    ext i hi
    rw [BitVec.getElem_and, BitVec.getElem_and, BitVec.getElem_xor, BitVec.getElem_not]
    cases w[i] <;> cases m[i] <;> rfl
  have hout : (w ^^^ m) &&& ~~~w = m &&& ~~~w := by
    ext i hi
    rw [BitVec.getElem_and, BitVec.getElem_and, BitVec.getElem_xor, BitVec.getElem_not]
    cases w[i] <;> cases m[i] <;> rfl
  have hleft := popcount_split w m
  have hright := popcount_split m w
  rw [BitVec.and_comm m w] at hright
  rw [popcount_split (w ^^^ m) w, hin, hout]
  omega

theorem popcount_bit (hk : k < 64) : popcount (1#64 <<< k) = 1 := by
  have hcount : (List.range 64).countP (1#64 <<< k).getLsbD = (List.range 64).count k := by
    refine List.countP_congr fun i hi ↦ ?_
    rw [Words.getLsbD_one_shiftLeft hk (List.mem_range.1 hi), decide_eq_true_iff, beq_iff_eq]
  rw [popcount_eq_countP, hcount, List.count_eq_one_of_mem List.nodup_range (List.mem_range.2 hk)]

/-- A single bit of a word. -/
theorem and_bit (w : Word) (hk : k < 64) : w &&& 1#64 <<< k = if w.getLsbD k = true then 1#64 <<< k
    else 0#64 := by
  apply BitVec.eq_of_getLsbD_eq
  intro i hi
  rw [BitVec.getLsbD_and, Words.getLsbD_one_shiftLeft hk hi]
  by_cases heq : i = k
  · subst heq
    cases hbit : w.getLsbD i
    · simp
    · simp [Words.getLsbD_one_shiftLeft hi hi]
  · rw [decide_eq_false heq, Bool.and_false]
    split
    · rw [Words.getLsbD_one_shiftLeft hk hi, decide_eq_false heq]
    · exact BitVec.getLsbD_zero.symm

theorem popcount_and_bit (w : Word) (hk : k < 64) : popcount (w &&& 1#64 <<< k) = if w.getLsbD k =
    true then 1 else 0 := by
  rw [and_bit w hk]
  split
  · exact popcount_bit hk
  · exact popcount_zero

theorem popcount_bit_andNot (w : Word) (hk : k < 64) :
    popcount (1#64 <<< k &&& ~~~w) = if w.getLsbD k = true then 0 else 1 := by
  rw [BitVec.and_comm, popcount_and_bit _ hk, BitVec.getLsbD_not, decide_eq_true hk, Bool.true_and]
  cases w.getLsbD k <;> rfl

theorem and_bit_eq_zero (w : Word) (hk : k < 64) : w &&& 1#64 <<< k = 0#64 ↔
    w.getLsbD k = false := by
  rw [and_bit w hk]
  split
  · rename_i hbit
    rw [hbit]
    refine iff_of_false (fun hzero ↦ ?_) (by simp)
    have hcount := popcount_bit hk
    rw [hzero, popcount_zero] at hcount
    exact absurd hcount (by decide)
  · rename_i hbit
    exact iff_of_true rfl (by simpa using hbit)

theorem shiftRight_and_one (w : Word) (k : Nat) : (w >>> k &&& 1#64).toNat = if w.getLsbD k = true
    then 1 else 0 := by
  have hone : w >>> k &&& 1#64 = if w.getLsbD k = true then 1#64 else 0#64 := by
    have hbit := and_bit (w >>> k) (show 0 < 64 by decide)
    rwa [BitVec.shiftLeft_zero, BitVec.getLsbD_ushiftRight, Nat.add_zero] at hbit
  rw [hone]
  split <;> rfl

end OneWord

/-! ## A block -/

namespace Words

variable {n i v : Nat} {f : Word → Word → Word} {g : Bool → Bool → Bool}

theorem sum_range_except {f g : Nat → Nat} (h : ∀ j, j ≠ i → f j = g j) (m : Nat) :
    ((List.range m).map f).sum + (if i < m then g i else 0) = ((List.range m).map g).sum +
      (if i < m then f i else 0) := by
  induction m with
  | zero => rfl
  | succ m ih =>
    rw [List.range_succ, List.map_append, List.map_append, List.sum_append, List.sum_append,
      List.map_singleton, List.map_singleton,
      List.sum_singleton, List.sum_singleton]
    by_cases hlast : m = i
    · subst hlast
      rw [if_neg (lt_irrefl m), if_neg (lt_irrefl m)] at ih
      rw [if_pos (Nat.lt_succ_self m), if_pos (Nat.lt_succ_self m)]
      omega
    · rw [h m hlast]
      have hiff : i < m + 1 ↔ i < m := by omega
      simp only [hiff]
      omega

/-- Writing one word counts a block anew. -/
theorem count_setWord (ws : Words n) (hi : i < n) (w : Word) :
    (ws.setWord i w).count + popcount (ws.word i) = ws.count + popcount w := by
  have hsum := sum_range_except (i := i) (f := fun j ↦ popcount ((ws.setWord i w).word j)) (g :=
    fun j ↦ popcount (ws.word j))
    (fun j hj ↦ by rw [word_setWord ws w hi, if_neg hj]) n
  rw [if_pos hi, if_pos hi, word_setWord ws w hi, if_pos rfl] at hsum
  exact hsum

theorem count_insert (ws : Words n) (hv : v < 64 * n) :
    (ws.insert v).count = ws.count + if ws.contains v = true then 0 else 1 := by
  have hi : v / 64 < n := by omega
  have hbit : v % 64 < 64 := Nat.mod_lt _ (by decide)
  have hcount := count_setWord ws hi (ws.word (v / 64) ||| 1#64 <<< (v % 64))
  rw [popcount_or, popcount_bit_andNot _ hbit] at hcount
  rw [insert, contains]
  omega

theorem count_erase (ws : Words n) (hv : v < 64 * n) :
    (ws.erase v).count + (if ws.contains v = true then 1 else 0) = ws.count := by
  have hi : v / 64 < n := by omega
  have hbit : v % 64 < 64 := Nat.mod_lt _ (by decide)
  have hcount := count_setWord ws hi (ws.word (v / 64) &&& ~~~(1#64 <<< (v % 64)))
  have hless := popcount_andNot (ws.word (v / 64)) (1#64 <<< (v % 64))
  rw [BitVec.and_comm (1#64 <<< _), popcount_and_bit _ hbit] at hless
  rw [erase, contains]
  omega

/-- The bit of `v` is turned. -/
def toggle (ws : Words n) (v : Nat) : Words n :=
  ws.setWord (v / 64) (ws.word (v / 64) ^^^ 1#64 <<< (v % 64))

theorem contains_toggle (ws : Words n) (hv : v < 64 * n) (u : Nat) :
    (ws.toggle v).contains u = (ws.contains u ^^ decide (u = v)) := by
  have hi : v / 64 < n := by omega
  rw [toggle, contains, word_setWord _ _ hi, contains]
  by_cases hw : u / 64 = v / 64
  · rw [if_pos hw, BitVec.getLsbD_xor, getLsbD_one_shiftLeft (Nat.mod_lt _ (by decide))
      (Nat.mod_lt _ (by decide)), hw]
    congr 1
    exact decide_eq_decide.2 (by omega)
  · have hne : u ≠ v := fun h ↦ hw (h ▸ rfl)
    rw [if_neg hw, decide_eq_false hne, Bool.xor_false]

theorem count_toggle (ws : Words n) (hv : v < 64 * n) :
    (ws.toggle v).count + 2 * (if ws.contains v = true then 1 else 0) = ws.count + 1 := by
  have hi : v / 64 < n := by omega
  have hbit : v % 64 < 64 := Nat.mod_lt _ (by decide)
  have hcount := count_setWord ws hi (ws.word (v / 64) ^^^ 1#64 <<< (v % 64))
  have hturned := popcount_xor (ws.word (v / 64)) (1#64 <<< (v % 64))
  rw [popcount_and_bit _ hbit, popcount_bit hbit] at hturned
  rw [toggle, contains]
  omega

/-- Two blocks, word by word. -/
def combine (f : Word → Word → Word) (a b : Words n) : Words n :=
  ofFn n fun i ↦ f (a.word i) (b.word i)

theorem contains_combine (hf : ∀ w m i, i < 64 → (f w m).getLsbD i = g (w.getLsbD i) (m.getLsbD i))
    (hg : g false false = false)
    (a b : Words n) (v : Nat) : (combine f a b).contains v = g (a.contains v) (b.contains v) := by
  rcases Nat.lt_or_ge (v / 64) n with hin | hout
  · rw [contains, combine, word_ofFn _ hin, hf _ _ _ (Nat.mod_lt _ (by decide)), contains, contains]
  · rw [contains_of_le _ (by omega), contains_of_le a (by omega), contains_of_le b (by omega), hg]

end Words

end Lib
