import Mathlib
import Roaring.Lib.Words

/-!
# Passes over blocks of words

A pass over a block takes its words in ascending order, full ones in stretches, and may
skip empty ones.  What it has seen is the part of the block below a word: its values
and their number.  The runs of set bits are counted by where they start, with the top
bit of the word before carried in.  A producer that finds a word in parts holds it back
until the next one, and a consumer may stop the pass.
-/

namespace Lib

/-! ## Where the runs of a word start -/

/-- The bit that a word carries into the next one. -/
def topBit (w : Word) : Word := w >>> 63

/-- The set bits whose neighbour below is clear. -/
def startBits (w carry : Word) : Word := w &&& ~~~(w <<< 1 ||| carry)

theorem getLsbD_topBit (w : Word) (i : Nat) :
    (topBit w).getLsbD i = (decide (i = 0) && w.getLsbD 63) := by
  rw [topBit, BitVec.getLsbD_ushiftRight]
  by_cases hi : i = 0
  · simp [hi]
  · rw [BitVec.getLsbD_of_ge _ _ (by omega)]
    simp [hi]

theorem topBit_zero : topBit 0#64 = 0#64 := by
  rw [topBit, BitVec.zero_ushiftRight]

theorem topBit_allOnes : topBit (BitVec.allOnes 64) = 1#64 := by decide

/-- A carry is a bit at the lowest place. -/
theorem getLsbD_startBits {w carry : Word} (hcarry : ∀ i, i ≠ 0 → carry.getLsbD i = false)
    (i : Nat) :
    (startBits w carry).getLsbD i =
      (w.getLsbD i && !(if i = 0 then carry.getLsbD 0 else w.getLsbD (i - 1))) := by
  by_cases hlt : i < 64
  · rw [startBits, BitVec.getLsbD_and, BitVec.getLsbD_not, BitVec.getLsbD_or,
      BitVec.getLsbD_shiftLeft]
    by_cases hi : i = 0
    · subst hi
      simp
    · have hge : ¬ i < 1 := by omega
      rw [hcarry i hi]
      simp [hlt, hi, hge]
  · rw [BitVec.getLsbD_of_ge _ _ (not_lt.1 hlt), BitVec.getLsbD_of_ge _ _ (not_lt.1 hlt)]
    rfl

/-- No bit of an empty word is set, up to its end. -/
theorem toNat_ctz_zero : (0#64).ctz.toNat = 64 := by
  have hreverse : (0#64).reverse = 0#64 := by
    refine BitVec.eq_of_getLsbD_eq fun i _ ↦ ?_
    rw [BitVec.getLsbD_reverse]
    simp
  rw [BitVec.ctz_eq_reverse_clz, hreverse, BitVec.clz_eq_iff_eq_zero.2 rfl]
  rfl

namespace Words

variable {n k : Nat}

/-! ## The part below a word -/

/-- The members below word `k`. -/
def valuesBelow (ws : Words n) (k : Nat) : List Nat :=
  (List.range k).flatMap fun i ↦ bitPositions (64 * i) (ws.word i)

/-- The number of members below word `k`. -/
def countBelow (ws : Words n) (k : Nat) : Nat :=
  ((List.range k).map fun i ↦ popcount (ws.word i)).sum

@[simp] theorem valuesBelow_zero (ws : Words n) : ws.valuesBelow 0 = [] := rfl

@[simp] theorem countBelow_zero (ws : Words n) : ws.countBelow 0 = 0 := rfl

theorem valuesBelow_succ (ws : Words n) (k : Nat) :
    ws.valuesBelow (k + 1) = ws.valuesBelow k ++ bitPositions (64 * k) (ws.word k) := by
  rw [valuesBelow, List.range_succ, List.flatMap_append, List.flatMap_singleton]
  rfl

theorem countBelow_succ (ws : Words n) (k : Nat) :
    ws.countBelow (k + 1) = ws.countBelow k + popcount (ws.word k) := by
  rw [countBelow, List.range_succ, List.map_append, List.sum_append, List.map_singleton,
    List.sum_singleton]
  rfl

theorem valuesBelow_all (ws : Words n) : ws.valuesBelow n = ws.values := ws.values_eq_flatMap.symm

theorem countBelow_all (ws : Words n) : ws.countBelow n = ws.count := rfl

theorem length_valuesBelow (ws : Words n) (k : Nat) :
    (ws.valuesBelow k).length = ws.countBelow k := by
  induction k with
  | zero => rfl
  | succ k ih => rw [valuesBelow_succ, countBelow_succ, List.length_append,
    ih, ← popcount_eq_length]

theorem countBelow_mono (ws : Words n) {k j : Nat} (hle : k ≤ j) :
    ws.countBelow k ≤ ws.countBelow j := by
  induction j, hle using Nat.le_induction with
  | base => exact le_rfl
  | succ j _ ih => exact ih.trans (by rw [countBelow_succ]; exact Nat.le_add_right _ _)

/-- The members below a word are the first ones. -/
theorem valuesBelow_prefix (ws : Words n) {k j : Nat} (hle : k ≤ j) :
    ws.valuesBelow k <+: ws.valuesBelow j := by
  induction j, hle using Nat.le_induction with
  | base => exact List.prefix_rfl
  | succ j _ ih => exact ih.trans (by rw [valuesBelow_succ]; exact List.prefix_append _ _)

/-- Empty words between two words. -/
def EmptyBetween (ws : Words n) (k j : Nat) : Prop := ∀ i, k ≤ i → i < j → ws.word i = 0#64

/-- Full words from `k` on, `count` of them. -/
def FullFrom (ws : Words n) (k count : Nat) : Prop := ∀ i, k ≤ i → i < k + count →
    ws.word i = BitVec.allOnes 64

theorem EmptyBetween.refl (ws : Words n) (k : Nat) : ws.EmptyBetween k k :=
  fun _ h1 h2 ↦ absurd h2 (not_lt.2 h1)

theorem EmptyBetween.trans {ws : Words n} {i j k : Nat} (h1 : ws.EmptyBetween i j)
    (h2 : ws.EmptyBetween j k) :
    ws.EmptyBetween i k := by
  intro l hl hk
  by_cases hlj : l < j
  · exact h1 l hl hlj
  · exact h2 l (not_lt.1 hlj) hk

theorem valuesBelow_skip {ws : Words n} {k j : Nat} (hle : k ≤ j) (h : ws.EmptyBetween k j) :
    ws.valuesBelow j = ws.valuesBelow k := by
  induction j, hle using Nat.le_induction with
  | base => rfl
  | succ j hj ih =>
    rw [valuesBelow_succ, ih fun i h1 h2 ↦ h i h1 (Nat.lt_succ_of_lt h2),
      h j hj (Nat.lt_succ_self j)]
    simp [bitPositions]

theorem countBelow_skip {ws : Words n} {k j : Nat} (hle : k ≤ j) (h : ws.EmptyBetween k j) :
    ws.countBelow j = ws.countBelow k := by
  rw [← length_valuesBelow, ← length_valuesBelow, valuesBelow_skip hle h]

theorem bitPositions_allOnes (base : Nat) : bitPositions base (BitVec.allOnes 64) = List.range' base
    64 := by
  have hall : ∀ i ∈ List.range 64, (BitVec.allOnes 64).getLsbD i = true := fun i hi ↦ by
    rw [BitVec.getLsbD_allOnes, decide_eq_true_iff]
    exact List.mem_range.1 hi
  rw [bitPositions, List.filter_eq_self.2 hall, List.range_eq_range', List.map_add_range',
    Nat.add_zero]

/-- Full words hold all numbers of their stretch. -/
theorem valuesBelow_full {ws : Words n} {count : Nat} (h : ws.FullFrom k count) :
    ws.valuesBelow (k + count) = ws.valuesBelow k ++ List.range' (64 * k) (64 * count) := by
  induction count with
  | zero => simp
  | succ count ih =>
    have hword : ws.word (k + count) = BitVec.allOnes 64 :=
      h _ (Nat.le_add_right k count) (by omega)
    rw [← Nat.add_assoc, valuesBelow_succ, ih fun i h1 h2 ↦ h i h1 (by omega), hword,
      bitPositions_allOnes,
      List.append_assoc, Nat.mul_add 64 k count, List.range'_append_1, Nat.mul_succ]

theorem countBelow_full {ws : Words n} {count : Nat} (h : ws.FullFrom k count) :
    ws.countBelow (k + count) = ws.countBelow k + 64 * count := by
  rw [← length_valuesBelow, valuesBelow_full h, List.length_append, length_valuesBelow,
    List.length_range']

/-! ## Where the runs of a block start -/

/-- The bit carried into word `i`. -/
def carryInto (ws : Words n) (i : Nat) : Word := if i = 0 then 0#64 else topBit (ws.word (i - 1))

/-- The members whose predecessor is no member. -/
def starts (ws : Words n) : Words n := ofFn n fun i ↦ startBits (ws.word i) (ws.carryInto i)

theorem word_starts (ws : Words n) (i : Nat) :
    ws.starts.word i = startBits (ws.word i) (ws.carryInto i) := by
  by_cases hi : i < n
  · exact word_ofFn _ hi
  · rw [word_of_le _ (not_lt.1 hi), word_of_le _ (not_lt.1 hi), startBits, BitVec.zero_and]

theorem getLsbD_carryInto (ws : Words n) (i j : Nat) :
    (ws.carryInto i).getLsbD j =
      (decide (j = 0) && (decide (i ≠ 0) && ws.contains (64 * i - 1))) := by
  rw [carryInto]
  split
  · rename_i hi
    simp [hi]
  · rename_i hi
    have hpred : 64 * i - 1 = 64 * (i - 1) + 63 := by omega
    rw [getLsbD_topBit, hpred, contains_add _ (by decide)]
    simp [hi]

theorem contains_starts (ws : Words n) (v : Nat) :
    ws.starts.contains v = (ws.contains v && !(decide (v ≠ 0) && ws.contains (v - 1))) := by
  have hcarry : ∀ i, i ≠ 0 → (ws.carryInto (v / 64)).getLsbD i = false := fun i hi ↦ by
    rw [getLsbD_carryInto, decide_eq_false hi, Bool.false_and]
  rw [contains, word_starts, getLsbD_startBits hcarry, ← contains]
  congr 2
  split
  · rename_i hlow
    have hv : 64 * (v / 64) = v := by omega
    rw [getLsbD_carryInto, hv]
    by_cases h0 : v = 0
    · simp [h0]
    · have hdiv : v / 64 ≠ 0 := by omega
      simp [h0, hdiv]
  · rename_i hlow
    have h0 : v ≠ 0 := fun h ↦ hlow (by rw [h])
    have hdiv : (v - 1) / 64 = v / 64 := by omega
    have hmod : (v - 1) % 64 = v % 64 - 1 := by omega
    rw [contains, hdiv, hmod]
    simp [h0]

/-- Behind an empty word nothing is carried. -/
theorem carryInto_skip {ws : Words n} {j : Nat} (hlt : k < j) (h : ws.EmptyBetween k j) :
    ws.carryInto j = 0#64 := by
  rw [carryInto, if_neg (Nat.ne_of_gt (Nat.zero_lt_of_lt hlt)), h (j - 1) (by omega) (by omega),
    topBit_zero]

theorem EmptyBetween.starts {ws : Words n} {j : Nat} (h : ws.EmptyBetween k j) :
    ws.starts.EmptyBetween k j := by
  intro i h1 h2
  rw [word_starts, h i h1 h2, startBits, BitVec.zero_and]

/-- In a stretch of full words a run starts at most at the first. -/
theorem countBelow_starts_full {ws : Words n} {count : Nat} (h : ws.FullFrom k count)
    (hpos : 0 < count) :
    ws.starts.countBelow (k + count) = ws.starts.countBelow k + if ws.carryInto k = 0#64 then 1
      else 0 := by
  obtain ⟨rest, rfl⟩ : ∃ rest, count = rest + 1 := ⟨count - 1, by omega⟩
  have hempty : ws.starts.EmptyBetween (k + 1) (k + (rest + 1)) := by
    intro i h1 h2
    rw [word_starts, carryInto, if_neg (by omega), h i (by omega) h2,
      h (i - 1) (by omega) (by omega), topBit_allOnes]
    decide
  rw [countBelow_skip (by omega) hempty, countBelow_succ, word_starts, h k le_rfl (by omega)]
  congr 1
  have hcarry : ws.carryInto k = 0#64 ∨ ws.carryInto k = 1#64 := by
    have hbits : ∀ j, (ws.carryInto k).getLsbD j = (decide (j = 0) && (ws.carryInto k).getLsbD 0) :=
        fun j ↦ by
      rw [getLsbD_carryInto, getLsbD_carryInto, decide_eq_true (rfl : 0 = 0), Bool.true_and]
    cases hlow : (ws.carryInto k).getLsbD 0
    · left
      exact BitVec.eq_of_getLsbD_eq fun j _ ↦ by rw [hbits, hlow]; simp
    · right
      exact BitVec.eq_of_getLsbD_eq fun j hj ↦ by rw [hbits, hlow, BitVec.getLsbD_one]; simp
  rcases hcarry with hc | hc <;> rw [hc] <;> decide

end Words

/-! ## Producers and consumers -/

/-- What a step leaves: a value to go on with, or the state in which the pass stopped. -/
def Outcome {α σ : Type} (P : α → Prop) (R : σ → Prop) : Except σ α → Prop
  | .ok a => P a
  | .error s => R s

theorem Outcome.bind {α β σ : Type} {P : α → Prop} {Q : β → Prop} {R : σ → Prop} {x : Except σ α}
    {f : α → Except σ β}
    (hx : Outcome P R x) (hf : ∀ a, P a → Outcome Q R (f a)) : Outcome Q R (x.bind f) := by
  cases x with
  | ok a => exact hf a hx
  | error s => exact hx

theorem Outcome.mono {α σ : Type} {P Q : α → Prop} {R : σ → Prop} {x : Except σ α}
    (hx : Outcome P R x) (h : ∀ a, P a → Q a) : Outcome Q R x := by
  cases x with
  | ok a => exact h a hx
  | error s => exact hx

/-- A consumer of words, and of stretches of full ones; it may stop the pass. -/
structure Sink (σ : Type) where
  word : Nat → Word → σ → Except σ σ
  ones : Nat → Nat → σ → Except σ σ

/-- A word that is held back, with its index. -/
abbrev Pending := Option (Nat × Word)

namespace Sink

variable {σ : Type}

def flush (sink : Sink σ) (pending : Pending) (s : σ) : Except σ σ :=
  match pending with
  | none => .ok s
  | some (index, survivors) => sink.word index survivors s

/-- A part of a word: it is added to the word held back, or that one is passed on first. -/
def put (sink : Sink σ) (index : Nat) (survivors : Word) (pending : Pending) (s : σ) :
    Except σ (Pending × σ) :=
  match pending with
  | some (pendingIndex, word) =>
    if index = pendingIndex then .ok (some (index, word ||| survivors), s)
    else (sink.word pendingIndex word s).map fun s ↦ (some (index, survivors), s)
  | none => .ok (some (index, survivors), s)

/-- What a consumer keeps of a block, `P k` when it has seen the part below word `k`, and `R` where
it stops. -/
structure Follows {n : Nat} (sink : Sink σ) (block : Words n) (P : Nat → σ → Prop) (R : σ → Prop) :
    Prop where
  skip : ∀ {k j s}, k ≤ j → block.EmptyBetween k j → P k s → P j s
  word : ∀ {i s}, i < n → P i s → Outcome (P (i + 1)) R (sink.word i (block.word i) s)
  ones : ∀ {i count s}, 0 < count → i + count ≤ n → block.FullFrom i count → P i s →
    Outcome (P (i + count)) R (sink.ones i count s)

/-- All below word `k` is passed on, or held back as its last word. -/
def Ready {n : Nat} (block : Words n) (P : Nat → σ → Prop) (k : Nat) (pending : Pending) (s : σ) :
    Prop :=
  match pending with
  | none => P k s
  | some (i, w) => P i s ∧ i < k ∧ i < n ∧ w = block.word i ∧ block.EmptyBetween (i + 1) k

variable {n k : Nat} {sink : Sink σ} {block : Words n} {P : Nat → σ → Prop} {R : σ → Prop}
  {pending : Pending} {s : σ}

theorem Follows.flush (h : sink.Follows block P R) (hready : Ready block P k pending s) :
    Outcome (P k) R (sink.flush pending s) := by
  cases pending with
  | none => exact hready
  | some held =>
    obtain ⟨hP, hlt, hin, hword, hempty⟩ := hready
    rw [Sink.flush, hword]
    exact (h.word hin hP).mono fun s hs ↦ h.skip hlt hempty hs

theorem Follows.skipReady {j : Nat} (h : sink.Follows block P R) (hle : k ≤ j)
    (hempty : block.EmptyBetween k j)
    (hready : Ready block P k pending s) : Ready block P j pending s := by
  cases pending with
  | none => exact h.skip hle hempty hready
  | some held =>
    obtain ⟨hP, hlt, hin, hword, hbetween⟩ := hready
    exact ⟨hP, hlt.trans_le hle, hin, hword, hbetween.trans hempty⟩

/-- A new word is held back once the old one is passed on. -/
theorem Follows.put (h : sink.Follows block P R) (hready : Ready block P k pending s) (w : Word) :
    Outcome (fun q ↦ q.1 = some (k, w) ∧ P k q.2) R (sink.put k w pending s) := by
  cases pending with
  | none => exact ⟨rfl, hready⟩
  | some held =>
    have hflush := h.flush hready
    obtain ⟨-, hlt, -⟩ := hready
    rw [Sink.put, if_neg hlt.ne']
    rw [Sink.flush] at hflush
    generalize sink.word held.1 held.2 s = x at hflush ⊢
    cases x with
    | ok a => exact ⟨rfl, hflush⟩
    | error a => exact hflush

theorem put_held (sink : Sink σ) (w part : Word) (s : σ) :
    sink.put k part (some (k, w)) s = .ok (some (k, w ||| part), s) := if_pos rfl

end Sink

end Lib
