import Mathlib
import Roaring.Lib.Blocks
import Roaring.Lib.StablePass

/-!
# Sorting unsorted keys

Many keys are sorted by their bytes, from the lowest on, between the array and a
scratch buffer.  The digits are counted once for all passes, and a digit that all keys
share takes no pass.  Keys that are in order already are recognised a block at a time.
-/

namespace Roaring

open Lib

/-! ## The radix sort -/

def digitOf (d key : Nat) : Nat := (key >>> (8 * d)) % 256

/-- A 32-bit counter. -/
def count32 (n : Nat) : Nat := n % 2 ^ 32

/-- The histogram of digit `d`. -/
def histogram (d : Nat) (keys : List Nat) : List Nat :=
  keys.foldl (fun bucket key ↦ bucket.set (digitOf d key)
    (count32 (bucket.getD (digitOf d key) 0 + 1))) (List.replicate 256 0)

/-- Each slot becomes the offset of its bucket. -/
def bucketOffsets : (offset : Nat) → List Nat → List Nat
  | _, [] => []
  | offset, n :: slots => offset :: bucketOffsets (count32 (offset + n)) slots

/-- One key goes to its bucket, whose cursor moves on. -/
def scatterKey (d : Nat) (state : List Nat × List Nat) (key : Nat) : List Nat × List Nat :=
  let (bucket, dest) := state
  (bucket.set (digitOf d key) (count32 (bucket.getD (digitOf d key) 0 + 1)),
    dest.set (bucket.getD (digitOf d key) 0) key)

/-- The array, the scratch buffer, and which of them is read. -/
structure SortBuffers where
  keys : List Nat
  scratch : List Nat
  fromKeys : Bool := true

namespace SortBuffers

def source (b : SortBuffers) : List Nat := if b.fromKeys then b.keys else b.scratch

/-- The buffer that is not read is written, and the two change places. -/
def swapTo (b : SortBuffers) (dest : List Nat) : SortBuffers :=
  if b.fromKeys then { b with scratch := dest, fromKeys := false }
  else { b with keys := dest, fromKeys := true }

def target (b : SortBuffers) : List Nat := if b.fromKeys then b.scratch else b.keys

end SortBuffers

/-- One pass, unless every key has this digit. -/
def radixPass (count : Nat) (bucket : List Nat) (d : Nat) (b : SortBuffers) : SortBuffers :=
  if bucket.getD (digitOf d (b.source.getD 0 0)) 0 = count then b
  else b.swapTo (b.source.foldl (scatterKey d) (bucketOffsets 0 bucket, b.target)).2

def radixThreshold : Nat := 512

/-- `sort_keys` of keys of `digits` bytes, over whatever the scratch buffer holds: what the array
holds at the end. -/
def sortKeys (digits : Nat) (scratch keys : List Nat) : List Nat :=
  let count := keys.length
  if count < radixThreshold then keys.mergeSort
  else
    let b := (List.range digits).foldl (fun b d ↦ radixPass count (histogram d keys) d b)
      ⟨keys, scratch, true⟩
    if b.fromKeys then b.keys else overwrite b.keys 0 (b.scratch.take count)

/-! ## The check for order -/

def ascendingBlock : Nat := 512

/-- `is_ascending` from an index on. -/
def isAscendingFrom (keys : List Nat) (start : Nat) : Bool :=
  if start + 1 < keys.length then
    let stop := min (keys.length - 1) (start + ascendingBlock)
    if (List.range' start (stop - start)).any fun i ↦ keys.getD (i + 1) 0 < keys.getD i 0 then false
    else isAscendingFrom keys stop
  else true
termination_by keys.length - start
decreasing_by
  have : start < stop := lt_min (by omega) (Nat.lt_add_of_pos_right (by decide))
  omega

def isAscending (keys : List Nat) : Bool := isAscendingFrom keys 0

/-! ## Counting -/

variable {keys : List Nat} {d : Nat}

theorem digitOf_lt (d key : Nat) : digitOf d key < 256 := Nat.mod_lt _ (by decide)

theorem count32_eq {n : Nat} (h : n < 2 ^ 32) : count32 n = n := Nat.mod_eq_of_lt h

/-- The counters count, since there are fewer keys than they can hold. -/
theorem histogram_spec (hcount : keys.length < 2 ^ 32) (d : Nat) :
    (histogram d keys).length = 256 ∧ ∀ c, c < 256 →
      (histogram d keys).getD c 0 = (bucketOf (digitOf d) keys c).length := by
  have hrun : ∀ {rest done bucket : List Nat}, keys = done ++ rest → bucket.length = 256 →
      (∀ c, c < 256 → bucket.getD c 0 = (bucketOf (digitOf d) done c).length) →
      let result :=
        rest.foldl
        (fun bucket key ↦ bucket.set (digitOf d key) (count32 (bucket.getD (digitOf d key) 0 + 1)))
        bucket
      result.length = 256 ∧ ∀ c, c < 256 →
        result.getD c 0 = (bucketOf (digitOf d) (done ++ rest) c).length := by
    intro rest
    induction rest with
    | nil =>
      intro done bucket _ hlen h
      rw [List.append_nil]
      exact ⟨hlen, h⟩
    | cons key rest ih =>
      intro done bucket hsplit hlen h
      have hassoc : done ++ key :: rest = (done ++ [key]) ++ rest := by simp
      rw [hassoc, List.foldl_cons]
      refine ih (hsplit.trans hassoc) (by rw [List.length_set]; exact hlen) fun c hc ↦ ?_
      have hfits : (bucketOf (digitOf d) done (digitOf d key)).length + 1 < 2 ^ 32 := by
        have hle : (bucketOf (digitOf d) done (digitOf d key)).length ≤ done.length :=
          List.length_filter_le _ _
        rw [hsplit, List.length_append, List.length_cons] at hcount
        omega
      rw [List.getD_eq_getElem?_getD, List.getElem?_set, h _ (digitOf_lt d key), count32_eq hfits,
        bucketOf_append, bucketOf_singleton,
        List.length_append]
      by_cases hcase : digitOf d key = c
      · rw [if_pos hcase, if_pos (by rw [hlen]; exact digitOf_lt d key), if_pos hcase, hcase]
        rfl
      · rw [if_neg hcase, ← List.getD_eq_getElem?_getD, h c hc, if_neg hcase]
        rfl
  refine hrun (List.nil_append keys).symm (List.length_replicate) fun c hc ↦ ?_
  rw [List.getD_replicate _ hc]
  rfl

/-- The offsets are where the buckets begin. -/
theorem bucketOffsets_spec {l : List Nat} {f : Nat → Nat} (hcount : l.length < 2 ^ 32)
    {slots : List Nat} {c₀ : Nat}
    (hslots : ∀ i, i < slots.length → slots.getD i 0 = (bucketOf f l (c₀ + i)).length) :
    (bucketOffsets (bucketStart f l c₀) slots).length = slots.length ∧
      ∀ i, i < slots.length → (bucketOffsets (bucketStart f l c₀) slots).getD i 0 = bucketStart f l
        (c₀ + i) := by
  induction slots generalizing c₀ with
  | nil => exact ⟨rfl, nofun⟩
  | cons n slots ih =>
    have hn : n = (bucketOf f l c₀).length := hslots 0 (Nat.succ_pos _)
    have hoffset : count32 (bucketStart f l c₀ + n) = bucketStart f l (c₀ + 1) := by
      rw [hn, ← bucketStart_succ, count32_eq ((bucketStart_le f l _).trans_lt hcount)]
    obtain ⟨hlen, hget⟩ := @ih (c₀ + 1) fun i hi ↦ by
      have hslot := hslots (i + 1) (Nat.succ_lt_succ hi)
      rw [List.getD_cons_succ] at hslot
      rw [hslot, Nat.add_assoc, Nat.add_comm 1 i]
    rw [bucketOffsets, hoffset]
    refine ⟨congrArg Nat.succ hlen, fun i hi ↦ ?_⟩
    cases i with
    | zero => rfl
    | succ i =>
      rw [List.getD_cons_succ, hget i (Nat.lt_of_succ_lt_succ hi), Nat.add_assoc, Nat.add_comm 1 i]

/-- The keys scattered by the histogram of their digits are in buckets. -/
theorem scatterKeys_eq {source target : List Nat} (hcount : keys.length < 2 ^ 32)
    (hperm : source.Perm keys) (htarget : target.length = keys.length) (d : Nat) :
    (source.foldl (scatterKey d) (bucketOffsets 0 (histogram d keys), target)).2 =
      bucketed (digitOf d) 256 source := by
  obtain ⟨hlen, hget⟩ := histogram_spec hcount d
  have hlength : source.length = keys.length := hperm.length_eq
  have hsame : ∀ c, (bucketOf (digitOf d) source c).length = (bucketOf (digitOf d) keys c).length :=
    length_bucketOf_perm hperm
  obtain ⟨hoffsets, hcursor⟩ :
      (bucketOffsets (bucketStart (digitOf d) source 0) (histogram d keys)).length =
      (histogram d keys).length ∧
      ∀ i, i < (histogram d keys).length →
        (bucketOffsets (bucketStart (digitOf d) source 0) (histogram d keys)).getD i 0 =
          bucketStart (digitOf d) source (0 + i) := by
    refine bucketOffsets_spec (by rw [hlength]; exact hcount) fun i hi ↦ ?_
    rw [Nat.zero_add, hget i (hlen ▸ hi), hsame]
  refine scatter_eq (fun a _ ↦ digitOf_lt d a) (fun state a _ hlt ↦ ?_) (hoffsets.trans hlen)
    (fun c hc ↦ ?_)
    (htarget.trans hlength.symm)
  · rw [scatterKey, count32_eq (by omega)]
    rfl
  · have hat := hcursor c (hlen ▸ hc)
    rwa [Nat.zero_add] at hat

/-! ## Passes -/

/-- The order of the keys by their lowest `d` digits. -/
def LowOrder (d a b : Nat) : Prop := a % 256 ^ d ≤ b % 256 ^ d

theorem mod_digits_succ (d key : Nat) : key % 256 ^ (d + 1) = key % 256 ^ d + 256 ^ d * digitOf d
    key := by
  have hpow : 2 ^ (8 * d) = 256 ^ d := Nat.pow_mul 2 8 d
  rw [Nat.mod_pow_succ, digitOf, Nat.shiftRight_eq_div_pow, hpow]

theorem LowOrder.of_same {a b : Nat} (hsame : digitOf d a = digitOf d b) (h : LowOrder d a b) :
    LowOrder (d + 1) a b := by
  rw [LowOrder, mod_digits_succ, mod_digits_succ, hsame]
  exact Nat.add_le_add_right h _

theorem LowOrder.of_less {a b : Nat} (hless : digitOf d a < digitOf d b) :
    LowOrder (d + 1) a b := by
  have hlt : a % 256 ^ d < 256 ^ d := Nat.mod_lt _ (Nat.pow_pos (by decide))
  rw [LowOrder, mod_digits_succ, mod_digits_succ]
  calc a % 256 ^ d + 256 ^ d * digitOf d a
      ≤ 256 ^ d * 1 + 256 ^ d * digitOf d a :=
        Nat.add_le_add_right (hlt.le.trans_eq (Nat.mul_one _).symm) _
    _ = 256 ^ d * (digitOf d a + 1) := by rw [← Nat.mul_add, Nat.add_comm]
    _ ≤ 256 ^ d * digitOf d b := Nat.mul_le_mul_left _ hless
    _ ≤ b % 256 ^ d + 256 ^ d * digitOf d b := Nat.le_add_left _ _

/-- The buffers behind the passes of the lowest `d` digits. -/
structure PassedDigits (keys : List Nat) (d : Nat) (b : SortBuffers) : Prop where
  perm : b.source.Perm keys
  ordered : b.source.Pairwise (LowOrder d)
  target : b.target.length = keys.length

/-- A pass orders by one digit more, also where it is skipped. -/
theorem radixPass_spec {b : SortBuffers} (hcount : keys.length < 2 ^ 32)
    (h : PassedDigits keys d b) :
    PassedDigits keys (d + 1) (radixPass keys.length (histogram d keys) d b) := by
  rw [radixPass]
  split
  · rename_i hall
    obtain ⟨-, hget⟩ := histogram_spec hcount d
    rw [hget _ (digitOf_lt d _), ← length_bucketOf_perm h.perm, ← h.perm.length_eq] at hall
    refine ⟨h.perm, h.ordered.imp_of_mem fun {x y} hx hy hxy ↦ hxy.of_same ?_, h.target⟩
    have hdigit : ∀ a ∈ b.source, digitOf d a = digitOf d (b.source.getD 0 0) := fun a ha ↦
      of_decide_eq_true (List.length_filter_eq_length_iff.1 hall a ha)
    exact (hdigit x hx).trans (hdigit y hy).symm
  · rw [scatterKeys_eq hcount h.perm h.target]
    have hperm := bucketed_perm (n := 256) fun a (_ : a ∈ b.source) ↦ digitOf_lt d a
    have hordered : (bucketed (digitOf d) 256 b.source).Pairwise (LowOrder (d + 1)) :=
      bucketed_pairwise h.ordered (fun _ _ _ _ hsame hxy ↦ hxy.of_same hsame) fun _ _ _ _ hless ↦
        LowOrder.of_less hless
    have hsource : ∀ dest, (b.swapTo dest).source = dest ∧ (b.swapTo dest).target = b.source := by
      intro dest
      rw [SortBuffers.swapTo, SortBuffers.source, SortBuffers.target, SortBuffers.source]
      cases b.fromKeys <;> exact ⟨rfl, rfl⟩
    obtain ⟨hdest, hback⟩ := hsource (bucketed (digitOf d) 256 b.source)
    refine ⟨?_, ?_, ?_⟩
    · rw [hdest]
      exact hperm.trans h.perm
    · rw [hdest]
      exact hordered
    · rw [hback, h.perm.length_eq]

/-- The passes leave the keys in order, in the array itself. -/
theorem sortKeys_sorts {digits : Nat} {scratch : List Nat} (hcount : keys.length < 2 ^ 32)
    (hwidth : ∀ key ∈ keys, key < 256 ^ digits) (hscratch : scratch.length = keys.length) :
    (sortKeys digits scratch keys).Perm keys ∧ (sortKeys digits scratch keys).Pairwise (· ≤ ·) := by
  rw [sortKeys]
  dsimp only
  split
  · refine ⟨List.mergeSort_perm _ _, ?_⟩
    have hsorted : keys.mergeSort.Pairwise fun a b ↦ decide (a ≤ b) = true := by
      refine List.pairwise_mergeSort (fun a b c hab hbc ↦ ?_) (fun a b ↦ ?_) keys
      · exact decide_eq_true ((of_decide_eq_true hab).trans (of_decide_eq_true hbc))
      · rw [← Bool.decide_or, decide_eq_true_iff]
        exact le_total a b
    exact hsorted.imp of_decide_eq_true
  · have hrun : ∀ d, PassedDigits keys d
        ((List.range d).foldl (fun b d ↦ radixPass keys.length (histogram d keys) d b)
          ⟨keys, scratch, true⟩) := by
      intro d
      induction d with
      | zero => exact ⟨List.Perm.refl keys, List.pairwise_of_forall fun a b ↦ by
        simp [LowOrder, Nat.mod_one], hscratch⟩
      | succ d ih =>
        rw [List.range_succ, List.foldl_append]
        exact radixPass_spec hcount ih
    have hend := hrun digits
    generalize (List.range digits).foldl (fun b d ↦ radixPass keys.length (histogram d keys) d b)
      ⟨keys, scratch, true⟩ = b at hend ⊢
    have hresult :
        (if b.fromKeys then b.keys else overwrite b.keys 0 (b.scratch.take keys.length)) =
        b.source := by
      have hlength := hend.perm.length_eq
      have htarget := hend.target
      rw [SortBuffers.source] at hlength ⊢
      rw [SortBuffers.target] at htarget
      split
      · rfl
      · rename_i hscratch
        rw [if_neg hscratch] at hlength htarget
        rw [overwrite, List.take_zero, List.nil_append, ← hlength, List.take_length, Nat.zero_add,
          hlength, ← htarget,
          List.drop_length, List.append_nil]
    rw [hresult]
    refine ⟨hend.perm, hend.ordered.imp_of_mem fun {x y} hx hy hxy ↦ ?_⟩
    rwa [LowOrder, Nat.mod_eq_of_lt (hwidth x (hend.perm.mem_iff.1 hx)),
      Nat.mod_eq_of_lt (hwidth y (hend.perm.mem_iff.1 hy))] at hxy

/-! ## The check -/

/-- A block is checked with the pair at its end. -/
theorem isAscendingFrom_iff {start : Nat} :
    isAscendingFrom keys start = true ↔ ∀ i, start ≤ i → i + 1 < keys.length →
      keys.getD i 0 ≤ keys.getD (i + 1) 0 := by
  fun_induction isAscendingFrom keys start with
  | case1 start hmore stop hdescent =>
    obtain ⟨i, hi, hlt⟩ := List.any_eq_true.1 hdescent
    have hstop : stop ≤ keys.length - 1 := min_le_left _ _
    have hrange := List.mem_range'_1.1 hi
    rw [decide_eq_true_eq] at hlt
    constructor
    · exact fun h ↦ absurd h Bool.false_ne_true
    · intro h
      exact absurd (h i hrange.1 (by omega)) (not_le.2 hlt)
  | case2 start hmore stop hascends ih =>
    have hstart : start ≤ stop := le_min (by omega) (Nat.le_add_right _ _)
    have hblock : ∀ i, start ≤ i → i < stop → keys.getD i 0 ≤ keys.getD (i + 1) 0 := by
      intro i h1 h2
      by_contra hlt
      refine hascends (List.any_eq_true.2 ⟨i, List.mem_range'_1.2 (by omega), ?_⟩)
      exact decide_eq_true (not_le.1 hlt)
    rw [ih]
    constructor
    · intro h i h1 h2
      by_cases hi : i < stop
      · exact hblock i h1 hi
      · exact h i (not_lt.1 hi) h2
    · intro h i h1 h2
      exact h i (hstart.trans h1) h2
  | case3 start hend =>
    refine iff_of_true rfl fun i h1 h2 ↦ ?_
    omega

theorem isAscending_iff (keys : List Nat) : isAscending keys = true ↔ keys.Pairwise (· ≤ ·) := by
  rw [isAscending, isAscendingFrom_iff, ← List.isChain_iff_pairwise, List.isChain_iff_getElem]
  constructor
  · intro h i hi
    have hle := h i (Nat.zero_le i) hi
    rwa [List.getD_eq_getElem _ _ (Nat.lt_of_succ_lt hi), List.getD_eq_getElem _ _ hi] at hle
  · intro h i _ hi
    rw [List.getD_eq_getElem _ _ (Nat.lt_of_succ_lt hi), List.getD_eq_getElem _ _ hi]
    exact h i hi

/-- Unsorted keys are sorted in place, and the check recognises the keys that need no sorting. -/
theorem sortKeys_spec {digits : Nat} {scratch : List Nat} (hcount : keys.length < 2 ^ 32)
    (hwidth : ∀ key ∈ keys, key < 256 ^ digits) (hscratch : scratch.length = keys.length) :
    (sortKeys digits scratch keys).Perm keys ∧ (sortKeys digits scratch keys).Pairwise (· ≤ ·) ∧
      (isAscending keys = true ↔ keys.Pairwise (· ≤ ·)) := by
  obtain ⟨hperm, hsorted⟩ := sortKeys_sorts hcount hwidth hscratch
  exact ⟨hperm, hsorted, isAscending_iff keys⟩

theorem sortKeys_spec_descending :
    (sortKeys 2 (List.replicate 700 0) (List.replicate 699 9 ++ [4])).Pairwise (· ≤ ·) ∧
      isAscending (List.replicate 699 9 ++ [4]) = false := by
  have hlen : (List.replicate 699 9 ++ [4]).length = 700 := by
    rw [List.length_append, List.length_replicate, List.length_singleton]
  have hwidth : ∀ key ∈ List.replicate 699 9 ++ [4], key < 256 ^ 2 := fun key hkey ↦ by
    rcases List.mem_append.1 hkey with hkey | hkey
    · rw [List.eq_of_mem_replicate hkey]
      decide
    · rw [List.mem_singleton.1 hkey]
      decide
  have hcount : (List.replicate 699 9 ++ [4]).length < 2 ^ 32 := hlen.trans_lt (by decide)
  obtain ⟨-, hsorted, hcheck⟩ := sortKeys_spec hcount hwidth (List.length_replicate.trans hlen.symm)
  refine ⟨hsorted, Bool.eq_false_iff.2 fun h ↦ ?_⟩
  have hle : (9 : Nat) ≤ 4 :=
    (List.pairwise_append.1 (hcheck.1 h)).2.2 9 (List.mem_replicate.2 ⟨by decide, rfl⟩) 4
      (List.mem_singleton_self 4)
  exact absurd hle (by decide)

end Roaring
