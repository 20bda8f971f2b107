import Mathlib
import Roaring.Lib.WordCount
import Roaring.Container.ArrayCombine
import Roaring.Container.RangeUpdate
import Roaring.Container.RunBitsetIntersect
import Roaring.Container.Settle

/-!
# Bitsets changed in place

A union or an exclusive-or of many operands is folded into one block of words.  Some of its
kernels keep the count of the header exact, by the bits that change or by counting the
words anew; others leave it stale, to be repaired once at the end.  A stale count may meet
a kernel that needs an exact one, and is settled there first.

A count that is stale is still never above the true one: a kernel that only adds bits keeps
it, and one that may clear bits puts zero in its place.  That is why a saturated count may
be acted upon even while it is stale.
-/

namespace Roaring

open Lib

/-- `bitset_ref`: the words of a handle, and its header. -/
structure BitsetRef where
  words : Words wordCount
  cardinality : Nat
  min : Nat
  max : Nat
  endpointsStale : Bool
  cardinalityStale : Bool

namespace BitsetRef

/-- The handle that is referred to. -/
def handle (b : BitsetRef) : ContainerHandle where
  payload := .bitset b.words
  cardinality := b.cardinality
  min := b.min
  max := b.max
  endpointsStale := b.endpointsStale
  cardinalityStale := b.cardinalityStale

/-- `set_cardinality`: an exact count makes a stale one exact. -/
def setCardinality (b : BitsetRef) (n : Nat) : BitsetRef :=
  { b with cardinality := n % 2 ^ 32, cardinalityStale := false }

/-- `adjust_cardinality`: a stale count stays stale. -/
def adjustCardinality (b : BitsetRef) (delta : Int) : BitsetRef :=
  { b with cardinality := (((b.cardinality : Int) + delta) % 2 ^ 32).toNat }

def markCardinalityStale (b : BitsetRef) : BitsetRef := { b with cardinalityStale := true }

def markCardinalityUnknown (b : BitsetRef) : BitsetRef :=
  { b with cardinality := 0, cardinalityStale := true }

def markEndpointsStale (b : BitsetRef) : BitsetRef := { b with endpointsStale := true }

/-- `settle_stale_cardinality`. -/
def settleStaleCardinality (b : BitsetRef) : BitsetRef :=
  if b.cardinalityStale = true then b.setCardinality b.words.count else b

end BitsetRef

/-- `container_is_known_full`. -/
def containerIsKnownFull (handle : ContainerHandle) : Bool :=
  if handle.cardinality ≠ lowDomainSize then false
  else
    match handle.payload with
    | .run runs => runs = [⟨0, lowTypeMax⟩]
    | _ => true

/-! ## The kernels -/

/-- The operation of a set operation on two words. -/
def SetOperation.onWords : SetOperation → Word → Word → Word
  | bitOr, a, b => a ||| b
  | bitAnd, a, b => a &&& b
  | bitAndnot, a, b => a &&& ~~~b
  | bitXor, a, b => a ^^^ b

/-- What `for_each_run_word_mask` calls its function with, for one run. -/
def runWordMasks (r : Run) : List (Nat × Word) :=
  let firstWord := r.first / 64
  let lastWord := r.last / 64
  let firstMask := 0#64 - 1#64 <<< (r.first % 64)
  let lastMask := 2#64 <<< (r.last % 64) - 1#64
  if firstWord = lastWord then [(firstWord, firstMask &&& lastMask)]
  else
    (firstWord, firstMask) :: (List.range' (firstWord + 1) (lastWord - (firstWord + 1))).map
      (fun i ↦ (i, BitVec.allOnes 64)) ++
      [(lastWord, lastMask)]

/-- `for_each_run_word_mask`. -/
def forEachRunWordMask {σ : Type} (runs : List Run) (apply : σ → Nat → Word → σ) (s : σ) : σ :=
  runs.foldl (fun s r ↦ (runWordMasks r).foldl (fun s p ↦ apply s p.1 p.2) s) s

/-- `kScatterGroupingSpanRatio`. -/
def scatterGroupingSpanRatio : Nat := 16

/-- The bits of the values at the front that lie in one word, and the values behind them. -/
def groupMask (wordIndex : Nat) : List Nat → Word → Word × List Nat
  | [], mask => (mask, [])
  | v :: vs, mask =>
    if v / 64 = wordIndex then groupMask wordIndex vs (mask ||| 1#64 <<< (v % 64))
    else (mask, v :: vs)

theorem length_groupMask_le (wordIndex : Nat) (vs : List Nat) (mask : Word) :
    (groupMask wordIndex vs mask).2.length ≤ vs.length := by
  induction vs generalizing mask with
  | nil => exact le_rfl
  | cons v vs ih =>
    rw [groupMask]
    split
    · exact (ih _).trans (Nat.le_succ _)
    · exact le_rfl

/-- A group of the scatter: its word, and the bits that were not yet set. -/
def orGroup (s : Words wordCount × Nat) (wordIndex : Nat) (mask : Word) : Words wordCount × Nat :=
  (s.1.setWord wordIndex (s.1.word wordIndex ||| mask),
    s.2 + popcount (mask &&& ~~~s.1.word wordIndex))

/-- The scatter where values share their words. -/
def orGroups (values : List Nat) (s : Words wordCount × Nat) : Words wordCount × Nat :=
  match values with
  | [] => s
  | v :: vs =>
    orGroups (groupMask (v / 64) vs (1#64 <<< (v % 64))).2
      (orGroup s (v / 64) (groupMask (v / 64) vs (1#64 <<< (v % 64))).1)
termination_by values.length
decreasing_by exact Nat.lt_succ_of_le (length_groupMask_le _ _ _)

/-- `set_bit`. -/
def setOneBit (s : Words wordCount × Nat) (v : Nat) : Words wordCount × Nat :=
  let bit := 1#64 <<< (v % 64)
  let word := s.1.word (v / 64)
  (s.1.setWord (v / 64) (word ||| bit), s.2 + if word &&& bit = 0#64 then 1 else 0)

/-- `or_array_into_bitset_inplace`.  The second scatter is unrolled by four in the source. -/
def orArrayIntoBitsetInplace (isLazy : Bool) (lhs : BitsetRef) (values : List Nat) : BitsetRef :=
  if values = [] then lhs
  else
    let lhs := if isLazy then lhs else lhs.settleStaleCardinality
    let span := values.getLastD 0 - values.headD 0 + 1
    let (words, gained) :=
      if span ≤ scatterGroupingSpanRatio * values.length then orGroups values (lhs.words, 0)
      else values.foldl setOneBit (lhs.words, 0)
    let lhs := { lhs with words := words }
    (if isLazy then lhs.markCardinalityStale else lhs.adjustCardinality gained).markEndpointsStale

/-- The flip of one value: its bit, and the sign of the change. -/
def flipBit (s : Words wordCount × Int) (v : Nat) : Words wordCount × Int :=
  let word := s.1.word (v / 64)
  (s.1.setWord (v / 64) (word ^^^ 1#64 <<< (v % 64)),
    s.2 + (1 - 2 * ((word >>> (v % 64) &&& 1#64).toNat : Int)))

/-- `xor_array_into_bitset_inplace`. -/
def xorArrayIntoBitsetInplace (isLazy : Bool) (lhs : BitsetRef) (values : List Nat) : BitsetRef :=
  let lhs := if isLazy then lhs else lhs.settleStaleCardinality
  let (words, delta) := values.foldl flipBit (lhs.words, 0)
  let lhs := { lhs with words := words }
  (if isLazy then lhs.markCardinalityUnknown
    else lhs.setCardinality (((lhs.cardinality : Int) + delta) % 2 ^ 32).toNat).markEndpointsStale

/-- `xor_runs_into_bitset_inplace`. -/
def xorRunsIntoBitsetInplace (isLazy : Bool) (lhs : BitsetRef) (runs : List Run) : BitsetRef :=
  let words := forEachRunWordMask runs (fun words i mask ↦ words.setWord i (words.word i ^^^ mask))
    lhs.words
  let lhs := { lhs with words := words }
  (if isLazy then lhs.markCardinalityUnknown else lhs.setCardinality words.count).markEndpointsStale

/-- `apply_runs_to_bitset_inplace`. -/
def applyRunsToBitsetInplace (set : Bool) (lhs : BitsetRef) (runs : List Run) : BitsetRef :=
  let lhs := lhs.settleStaleCardinality
  let (words, changed) := forEachRunWordMask runs (fun s i mask ↦
    let word := s.1.word i
    if set then (s.1.setWord i (word ||| mask), s.2 + popcount (mask &&& ~~~word))
    else (s.1.setWord i (word &&& ~~~mask), s.2 + popcount (mask &&& word))) (lhs.words, 0)
  let lhs := { lhs with words := words }
  (if set then lhs.adjustCardinality changed
    else lhs.adjustCardinality (-changed)).markEndpointsStale

/-- The bit of one value is cleared, and counted if it was set. -/
def clearBit (s : Words wordCount × Nat) (v : Nat) : Words wordCount × Nat :=
  let mask := 1#64 <<< (v % 64)
  let word := s.1.word (v / 64)
  (s.1.setWord (v / 64) (word &&& ~~~mask), s.2 + if word &&& mask ≠ 0#64 then 1 else 0)

/-- `difference_bitset_array_inplace`. -/
def differenceBitsetArrayInplace (lhs : BitsetRef) (values : List Nat) : BitsetRef :=
  let lhs := lhs.settleStaleCardinality
  let (words, removed) := values.foldl clearBit (lhs.words, 0)
  ({ lhs with words := words }.adjustCardinality (-removed)).markEndpointsStale

/-- `combine_bitset_bitset_inplace`: a saturated left side is not united with anything. -/
def combineBitsetBitsetInplace (op : SetOperation) (lhs : BitsetRef) (rhs : Words wordCount) :
    BitsetRef :=
  if op = .bitOr ∧ lhs.cardinality = wordCount * 64 then lhs
  else
    let words := Words.combine op.onWords lhs.words rhs
    ({ lhs with words := words }.setCardinality words.count).markEndpointsStale

/-- `or_bitset_bitset_inplace_lazy`. -/
def orBitsetBitsetInplaceLazy (lhs : BitsetRef) (rhs : Words wordCount) : BitsetRef :=
  { lhs with
    words := Words.combine SetOperation.bitOr.onWords lhs.words rhs
  }.markCardinalityStale.markEndpointsStale

/-- `or_bitset_bitset_inplace_bulk`. -/
def orBitsetBitsetInplaceBulk (haveX86V4 : Bool) (lhs : BitsetRef) (rhs : Words wordCount) :
    BitsetRef :=
  if haveX86V4 then
    if lhs.cardinality = wordCount * 64 then lhs
    else
      let words := Words.combine SetOperation.bitOr.onWords lhs.words rhs
      ({ lhs with words := words }.setCardinality words.count).markEndpointsStale
  else combineBitsetBitsetInplace .bitOr lhs rhs

/-- `xor_bitset_bitset_inplace_lazy`. -/
def xorBitsetBitsetInplaceLazy (lhs : BitsetRef) (rhs : Words wordCount) : BitsetRef :=
  { lhs with
    words := Words.combine SetOperation.bitXor.onWords lhs.words rhs
  }.markCardinalityUnknown.markEndpointsStale

/-- `repair_cardinality`, of one bitset. -/
def repairBitset (lhs : BitsetRef) : BitsetRef :=
  if lhs.cardinalityStale = true then (lhs.setCardinality lhs.words.count).markEndpointsStale
  else lhs

/-! ## What the kernels write -/

section Writes

variable {ws : Words wordCount} {r : Run} {runs : List Run} {vs : List Nat} {v i : Nat}

/-- The masks of a run are laid over its range. -/
theorem foldl_runWordMasks (f : Word → Word → Word) (ws : Words wordCount) (r : Run) :
    (runWordMasks r).foldl (fun ws p ↦ ws.setWord p.1 (f (ws.word p.1) p.2)) ws = ws.applyRange f
      r.first r.last := by
  have hfirst : r.first % 64 < 64 := Nat.mod_lt _ (by decide)
  have hlast : r.last % 64 < 64 := Nat.mod_lt _ (by decide)
  rw [runWordMasks, Words.applyRange]
  simp only [zero_sub_shiftLeft hfirst, two_shiftLeft_sub hlast]
  split
  · rfl
  · simp only [List.foldl_append, List.foldl_cons, List.foldl_nil, List.foldl_map]
    rfl

theorem forEachRunWordMask_eq (f : Word → Word → Word) (ws : Words wordCount) (runs : List Run) :
    forEachRunWordMask runs (fun ws i mask ↦ ws.setWord i (f (ws.word i) mask)) ws =
      runs.foldl (fun ws r ↦ ws.applyRange f r.first r.last) ws := by
  rw [forEachRunWordMask]
  simp only [foldl_runWordMasks]

/-- A running count beside the words does not change them. -/
theorem fst_forEachRunWordMask (f : Word → Word → Word)
    (g : Word → Word → Nat) (s : Words wordCount × Nat) (runs : List Run) :
    (forEachRunWordMask runs (fun s i mask ↦
    (s.1.setWord i (f (s.1.word i) mask), s.2 + g (s.1.word i) mask)) s).1 =
      runs.foldl (fun ws r ↦ ws.applyRange f r.first r.last) s.1 := by
  rw [← forEachRunWordMask_eq, forEachRunWordMask, forEachRunWordMask]
  refine (List.foldl_hom Prod.fst fun s r ↦ ?_).symm
  exact List.foldl_hom Prod.fst fun s p ↦ rfl

theorem index_runWordMasks (hr : r.first ≤ r.last) (hlast : r.last < lowDomainSize) :
    ∀ p ∈ runWordMasks r, p.1 < wordCount := by
  intro p hp
  have hin := run_inside hlast
  have hdiv : r.first / 64 ≤ r.last / 64 := Nat.div_le_div_right hr
  rw [runWordMasks] at hp
  split at hp
  · rw [List.mem_singleton.1 hp]
    exact hdiv.trans_lt hin
  · rw [List.mem_append, List.mem_cons, List.mem_map, List.mem_singleton] at hp
    rcases hp with (rfl | ⟨i, hi, rfl⟩) | rfl
    · exact hdiv.trans_lt hin
    · rw [List.mem_range'_1] at hi
      dsimp only
      omega
    · exact hin

/-- What every mask keeps, all of them keep. -/
theorem forEachRunWordMask_keeps {σ : Type} {P : σ → Prop} {apply : σ → Nat → Word → σ} {s : σ}
    (hc : Canonical runs)
    (hstep : ∀ s i mask, i < wordCount → P s → P (apply s i mask)) (hs : P s) :
    P (forEachRunWordMask runs apply s) := by
  refine List.foldlRecOn runs _ hs fun s hs r hr ↦ ?_
  refine List.foldlRecOn (runWordMasks r) _ hs fun s hs p hp ↦ ?_
  exact hstep s p.1 p.2 (index_runWordMasks (hc.forward r hr) (hc.bounded r hr) p hp) hs

/-- Ranges under one operation, one after the other: canonical runs are apart, so no bit is turned
twice. -/
theorem contains_foldl_applyRange (op : RangeOperation) (hc : Canonical runs) (ws : Words wordCount)
    (v : Nat) :
    (runs.foldl (fun words r ↦ applyRangeToWords words r.first r.last op) ws).contains v = true ↔
      op.holds (ws.contains v = true) (v ∈ runValues runs) := by
  induction runs generalizing ws with
  | nil => cases op <;> simp [RangeOperation.holds, Xor]
  | cons r rs ih =>
    have hapart : (r.first ≤ v ∧ v ≤ r.last) → v ∉ runValues rs := by
      intro hin hmem
      have hbehind := hc.behind hmem
      omega
    rw [List.foldl_cons, ih hc.tail,
      contains_applyRangeToWords hc.head_le (hc.bounded r List.mem_cons_self), runValues_cons,
      List.mem_append, Run.mem_values]
    generalize (r.first ≤ v ∧ v ≤ r.last) = inside at hapart ⊢
    cases op with
    | add => exact or_assoc
    | remove =>
      simp only [RangeOperation.holds]
      tauto
    | flip =>
      simp only [RangeOperation.holds, Xor]
      tauto

/-! ### Arrays -/

theorem setWord_setWord (ws : Words wordCount) (i : Nat) (x y : Word) :
    (ws.setWord i x).setWord i y = ws.setWord i y :=
  Vector.setIfInBounds_setIfInBounds ..

/-- The values that a group takes off the front, and their bits. -/
theorem groupMask_spec (wordIndex : Nat) (vs : List Nat) (mask : Word) :
    ∃ taken, vs = taken ++ (groupMask wordIndex vs mask).2 ∧ (∀ v ∈ taken, v / 64 = wordIndex) ∧
      (groupMask wordIndex vs mask).1 = taken.foldl (fun mask v ↦ mask ||| 1#64 <<< (v % 64))
        mask := by
  induction vs generalizing mask with
  | nil => exact ⟨[], rfl, nofun, rfl⟩
  | cons v vs ih =>
    rw [groupMask]
    split
    · rename_i hv
      obtain ⟨taken, hsplit, hin, hmask⟩ := ih (mask ||| 1#64 <<< (v % 64))
      refine ⟨v :: taken, congrArg (v :: ·) hsplit, fun u hu ↦ ?_, hmask⟩
      rcases List.mem_cons.1 hu with rfl | hu
      · exact hv
      · exact hin u hu
    · exact ⟨[], rfl, nofun, rfl⟩

/-- Bits that are set together are those that are set one by one. -/
theorem setWord_or_group (hi : i < wordCount) (hin : ∀ v ∈ vs, v / 64 = i) (mask : Word) :
    ws.setWord i (ws.word i ||| vs.foldl (fun mask v ↦ mask ||| 1#64 <<< (v % 64)) mask) =
      (ws.setWord i (ws.word i ||| mask)).scatter vs := by
  induction vs generalizing mask with
  | nil => rfl
  | cons v vs ih =>
    obtain rfl := hin v List.mem_cons_self
    rw [List.foldl_cons, ih (fun u hu ↦ hin u (List.mem_cons_of_mem v hu)), Words.scatter,
      Words.scatter, List.foldl_cons]
    congr 1
    rw [Words.insert, Words.word_setWord _ _ hi, if_pos rfl, setWord_setWord, BitVec.or_assoc]

/-- The grouped scatter sets the bits of the values, and counts those that are new. -/
theorem orGroups_spec (hlow : ∀ v ∈ vs, v < lowDomainSize) (s : Words wordCount × Nat) :
    (orGroups vs s).1 = s.1.scatter vs ∧
      (orGroups vs s).1.count + s.2 = s.1.count + (orGroups vs s).2 := by
  induction vs, s using orGroups.induct with
  | case1 s =>
    rw [orGroups]
    exact ⟨rfl, rfl⟩
  | case2 s v vs ih =>
    obtain ⟨taken, hsplit, hin, hmask⟩ := groupMask_spec (v / 64) vs (1#64 <<< (v % 64))
    have hi : v / 64 < wordCount := by
      have hv := hlow v List.mem_cons_self
      rw [lowDomainSize] at hv
      rw [wordCount]
      omega
    have hrest : ∀ u ∈ (groupMask (v / 64) vs (1#64 <<< (v % 64))).2, u < lowDomainSize := by
      intro u hu
      refine hlow u (List.mem_cons_of_mem v ?_)
      rw [hsplit]
      exact List.mem_append_right _ hu
    obtain ⟨hwords, hcount⟩ := ih hrest
    have hone :=
      Words.count_setWord s.1 hi
      (s.1.word (v / 64) ||| (groupMask (v / 64) vs (1#64 <<< (v % 64))).1)
    rw [popcount_or] at hone
    rw [orGroups]
    constructor
    · have hgroup : (orGroup s (v / 64) (groupMask (v / 64) vs (1#64 <<< (v % 64))).1).1 =
          s.1.scatter (v :: taken) := by
        rw [orGroup, hmask, setWord_or_group hi hin]
        rfl
      rw [hwords, hgroup, Words.scatter, Words.scatter, ← List.foldl_append,
        List.cons_append, ← hsplit]
      rfl
    · have hgroup :
          (orGroup s (v / 64) (groupMask (v / 64) vs (1#64 <<< (v % 64))).1).1.count + s.2 =
          s.1.count + (orGroup s (v / 64) (groupMask (v / 64) vs (1#64 <<< (v % 64))).1).2 := by
        rw [orGroup]
        dsimp only
        omega
      omega

theorem word_index_lt (hv : v < lowDomainSize) : v < 64 * wordCount := hv

/-- The scatter one by one. -/
theorem foldl_setOneBit (hlow : ∀ v ∈ vs, v < lowDomainSize) (s : Words wordCount × Nat) :
    (vs.foldl setOneBit s).1 = s.1.scatter vs ∧
      (vs.foldl setOneBit s).1.count + s.2 = s.1.count + (vs.foldl setOneBit s).2 := by
  refine ⟨(List.foldl_hom Prod.fst fun s v ↦ rfl).symm, ?_⟩
  refine List.foldlRecOn vs setOneBit (motive := fun t ↦ t.1.count + s.2 = s.1.count + t.2) rfl
    fun t ht v hv ↦ ?_
  have hadded := Words.count_insert t.1 (word_index_lt (hlow v hv))
  have hbit := and_bit_eq_zero (t.1.word (v / 64)) (Nat.mod_lt v (show 0 < 64 by decide))
  rw [Words.contains] at hadded
  change (t.1.insert v).count + s.2 =
    s.1.count + (t.2 + if t.1.word (v / 64) &&& 1#64 <<< (v % 64) = 0#64 then 1 else 0)
  simp only [hbit]
  cases hheld : (t.1.word (v / 64)).getLsbD (v % 64) <;> simp only [hheld] at hadded ⊢ <;>
    simp at hadded ⊢ <;> omega

/-- The bits of a list are cleared one by one. -/
theorem foldl_clearBit (hlow : ∀ v ∈ vs, v < lowDomainSize) (s : Words wordCount × Nat) :
    (vs.foldl clearBit s).1 = vs.foldl Words.erase s.1 ∧
      (vs.foldl clearBit s).1.count + (vs.foldl clearBit s).2 = s.1.count + s.2 := by
  refine ⟨(List.foldl_hom Prod.fst fun s v ↦ rfl).symm, ?_⟩
  refine List.foldlRecOn vs clearBit (motive := fun t ↦ t.1.count + t.2 = s.1.count + s.2) rfl
    fun t ht v hv ↦ ?_
  have hless := Words.count_erase t.1 (word_index_lt (hlow v hv))
  have hbit := and_bit_eq_zero (t.1.word (v / 64)) (Nat.mod_lt v (show 0 < 64 by decide))
  rw [Words.contains] at hless
  change (t.1.erase v).count +
    (t.2 + if t.1.word (v / 64) &&& 1#64 <<< (v % 64) ≠ 0#64 then 1 else 0) = s.1.count + s.2
  simp only [ne_eq, hbit]
  cases hheld : (t.1.word (v / 64)).getLsbD (v % 64) <;> simp only [hheld] at hless ⊢ <;>
    simp at hless ⊢ <;> omega

/-- The bits of a list are turned one by one, and the signs of the changes added up. -/
theorem foldl_flipBit (hlow : ∀ v ∈ vs, v < lowDomainSize) (s : Words wordCount × Int) :
    (vs.foldl flipBit s).1 = vs.foldl Words.toggle s.1 ∧
      ((vs.foldl flipBit s).1.count : Int) + s.2 = (s.1.count : Int) + (vs.foldl flipBit s).2 := by
  refine ⟨(List.foldl_hom Prod.fst fun s v ↦ rfl).symm, ?_⟩
  refine List.foldlRecOn vs flipBit (motive :=
    fun t ↦ (t.1.count : Int) + s.2 = (s.1.count : Int) + t.2) rfl fun t ht v hv ↦ ?_
  have hturned := Words.count_toggle t.1 (word_index_lt (hlow v hv))
  have hbit := shiftRight_and_one (t.1.word (v / 64)) (v % 64)
  rw [Words.contains, ← hbit] at hturned
  change ((t.1.toggle v).count : Int) + s.2 =
    (s.1.count : Int) + (t.2 + (1 - 2 * ((t.1.word (v / 64) >>> (v % 64) &&& 1#64).toNat : Int)))
  omega

/-- Values that differ are turned once each. -/
theorem contains_foldl_toggle (hlow : ∀ v ∈ vs, v < lowDomainSize) (hnodup : vs.Nodup)
    (ws : Words wordCount) (u : Nat) :
    (vs.foldl Words.toggle ws).contains u = true ↔ Xor (ws.contains u = true) (u ∈ vs) := by
  induction vs generalizing ws with
  | nil => simp [Xor]
  | cons v vs ih =>
    have hnot := (List.nodup_cons.1 hnodup).1
    rw [List.foldl_cons, ih (fun w hw ↦ hlow w (List.mem_cons_of_mem v hw)) hnodup.of_cons,
      Words.contains_toggle ws (word_index_lt (hlow v List.mem_cons_self)), List.mem_cons]
    rcases eq_or_ne u v with rfl | hne
    · cases ws.contains u <;> simp [Xor, hnot]
    · cases ws.contains u <;> simp [Xor, hne]

end Writes

/-! ## An honest header -/

/-- The bitset holds the values; its count is never above theirs, and is theirs unless it is
stale. -/
structure BitsetRef.Honest (b : BitsetRef) (held : Set Nat) : Prop where
  mem : ∀ v, b.words.contains v = true ↔ v ∈ held
  atMost : b.cardinality ≤ b.words.count
  exact : b.cardinalityStale = false → b.cardinality = b.words.count
  endpoints : b.endpointsStale = true ∨
    ∀ hne : b.words.values ≠ [], b.min = b.words.values.head hne ∧
      b.max = b.words.values.getLast hne

theorem count_mod (ws : Words wordCount) : ws.count % 2 ^ 32 = ws.count := by
  have hle : ws.count ≤ 65536 := ws.count_le
  omega

namespace BitsetRef

variable {b : BitsetRef} {held : Set Nat}

@[simp] theorem words_setCardinality (b : BitsetRef) (n : Nat) :
    (b.setCardinality n).words = b.words := rfl

@[simp] theorem cardinality_setCardinality (b : BitsetRef) (n : Nat) :
    (b.setCardinality n).cardinality = n % 2 ^ 32 := rfl

@[simp] theorem stale_setCardinality (b : BitsetRef) (n : Nat) :
    (b.setCardinality n).cardinalityStale = false := rfl

@[simp] theorem words_markEndpointsStale (b : BitsetRef) : b.markEndpointsStale.words = b.words :=
  rfl

@[simp] theorem stale_markEndpointsStale (b : BitsetRef) : b.markEndpointsStale.cardinalityStale =
    b.cardinalityStale := rfl

@[simp] theorem values_handle (b : BitsetRef) : b.handle.values = b.words.values := rfl

theorem honest_of_valid (h : b.handle.Valid) : b.Honest {v | v ∈ b.handle.values} := by
  have hcard : b.cardinality = b.words.count :=
    h.cardinality.trans b.words.count_eq_length_values.symm
  exact ⟨fun v ↦ Words.mem_values.symm, hcard.le, fun _ ↦ hcard, h.endpoints⟩

theorem Honest.valid (h : b.Honest held) (hexact : b.cardinalityStale = false) : b.handle.Valid :=
  ⟨.bitset b.words, hexact, (h.exact hexact).trans b.words.count_eq_length_values, h.endpoints⟩

/-- The words were counted anew. -/
theorem honest_counted {n : Nat}
    (hmem : ∀ v, b.words.contains v = true ↔ v ∈ held) (hn : n = b.words.count) :
    (b.setCardinality n).markEndpointsStale.Honest held := by
  have hcard : (b.setCardinality n).cardinality = b.words.count :=
    (congrArg (· % 2 ^ 32) hn).trans (count_mod b.words)
  exact ⟨hmem, hcard.le, fun _ ↦ hcard, .inl rfl⟩

/-- The count is no longer known. -/
theorem honest_unknown (hmem : ∀ v, b.words.contains v = true ↔ v ∈ held) :
    b.markCardinalityUnknown.markEndpointsStale.Honest held :=
  ⟨hmem, Nat.zero_le _, fun h ↦ absurd h.symm Bool.false_ne_true, .inl rfl⟩

/-- Bits were only added, and the count was kept. -/
theorem honest_kept
    (hmem : ∀ v, b.words.contains v = true ↔ v ∈ held) (hmost : b.cardinality ≤ b.words.count) :
    b.markCardinalityStale.markEndpointsStale.Honest held :=
  ⟨hmem, hmost, fun h ↦ absurd h.symm Bool.false_ne_true, .inl rfl⟩

/-- An exact count was moved by what changed. -/
theorem honest_adjusted {delta : Int} (hmem : ∀ v, b.words.contains v = true ↔ v ∈ held)
    (hmoved : (b.cardinality : Int) + delta = b.words.count) :
    (b.adjustCardinality delta).markEndpointsStale.Honest held := by
  have hcard : (b.adjustCardinality delta).cardinality = b.words.count := by
    have hmod := count_mod b.words
    rw [adjustCardinality, hmoved]
    dsimp only
    omega
  exact ⟨hmem, hcard.le, fun _ ↦ hcard, .inl rfl⟩

/-- A settled count is exact, and the words are as they were. -/
theorem Honest.settled (h : b.Honest held) : b.settleStaleCardinality.words = b.words ∧
    b.settleStaleCardinality.cardinality = b.words.count := by
  rw [settleStaleCardinality]
  split
  · exact ⟨words_setCardinality _ _, (cardinality_setCardinality _ _).trans (count_mod b.words)⟩
  · rename_i hexact
    exact ⟨rfl, h.exact (by simpa using hexact)⟩

end BitsetRef

/-- Saturated words hold every value. -/
theorem contains_of_saturated {ws : Words wordCount} (h : wordCount * 64 ≤ ws.count) {v : Nat}
    (hv : v < lowDomainSize) :
    ws.contains v = true := by
  rw [Words.count_eq_length_values, Words.values] at h
  have hall :=
    List.length_filter_eq_length_iff.1
    (le_antisymm (List.length_filter_le ws.contains (List.range (64 * wordCount)))
    (by rwa [List.length_range, Nat.mul_comm]))
  exact hall v (List.mem_range.2 hv)

/-! ## The steps of a fold -/

/-- The members that change a bitset in place, with their operand, and the repair. -/
inductive BitsetStep where
  | orArray (isLazy : Bool) (values : List Nat)
  | orBitsetLazy (words : Words wordCount)
  | orBitsetBulk (haveX86V4 : Bool) (words : Words wordCount)
  | xorArray (isLazy : Bool) (values : List Nat)
  | xorRuns (isLazy : Bool) (runs : List Run)
  | xorBitsetLazy (words : Words wordCount)
  | applyRuns (set : Bool) (runs : List Run)
  | differenceArray (values : List Nat)
  | combineBitset (op : SetOperation) (words : Words wordCount)
  | repair

namespace BitsetStep

def run : BitsetStep → BitsetRef → BitsetRef
  | orArray isLazy values, lhs => orArrayIntoBitsetInplace isLazy lhs values
  | orBitsetLazy words, lhs => orBitsetBitsetInplaceLazy lhs words
  | orBitsetBulk haveX86V4 words, lhs => orBitsetBitsetInplaceBulk haveX86V4 lhs words
  | xorArray isLazy values, lhs => xorArrayIntoBitsetInplace isLazy lhs values
  | xorRuns isLazy runs, lhs => xorRunsIntoBitsetInplace isLazy lhs runs
  | xorBitsetLazy words, lhs => xorBitsetBitsetInplaceLazy lhs words
  | applyRuns set runs, lhs => applyRunsToBitsetInplace set lhs runs
  | differenceArray values, lhs => differenceBitsetArrayInplace lhs values
  | combineBitset op words, lhs => combineBitsetBitsetInplace op lhs words
  | repair, lhs => repairBitset lhs

/-- The operand is a well-formed payload. -/
def WellFormed : BitsetStep → Prop
  | orArray _ values | xorArray _ values | differenceArray values =>
    (Payload.array values).WellFormed
  | xorRuns _ runs | applyRuns _ runs => (Payload.run runs).WellFormed
  | orBitsetLazy _ | orBitsetBulk _ _ | xorBitsetLazy _ | combineBitset _ _ | repair => True

/-- The operation on the values, and the values of the operand. -/
def meaning : BitsetStep → Option (SetOperation × Payload)
  | orArray _ values => some (.bitOr, .array values)
  | orBitsetLazy words | orBitsetBulk _ words => some (.bitOr, .bitset words)
  | xorArray _ values => some (.bitXor, .array values)
  | xorRuns _ runs => some (.bitXor, .run runs)
  | xorBitsetLazy words => some (.bitXor, .bitset words)
  | applyRuns set runs => some (if set then .bitOr else .bitAndnot, .run runs)
  | differenceArray values => some (.bitAndnot, .array values)
  | combineBitset op words => some (op, .bitset words)
  | repair => none

/-- What a step makes of a set. -/
def onSet (step : BitsetStep) (held : Set Nat) : Set Nat :=
  match step.meaning with
  | some (op, operand) => {v | op.Holds (v ∈ held) (v ∈ operand.values)}
  | none => held

end BitsetStep

section Steps

variable {b : BitsetRef} {held : Set Nat} {words : Words wordCount} {values : List Nat}
  {runs : List Run} {step : BitsetStep}
  {steps : List BitsetStep}

theorem xor_iff_holds (p q : Prop) : Xor p q ↔ SetOperation.bitXor.Holds p q := by
  rw [SetOperation.Holds, Xor, and_comm (a := q)]

theorem contains_combine_onWords (op : SetOperation) (a c : Words wordCount) (v : Nat) :
    (Words.combine op.onWords a c).contains v = true ↔
      op.Holds (a.contains v = true) (c.contains v = true) := by
  cases op with
  | bitOr =>
    rw [Words.contains_combine (f := SetOperation.bitOr.onWords) (g :=
      or) (fun w m i _ ↦ BitVec.getLsbD_or) rfl, Bool.or_eq_true]
    rfl
  | bitAnd =>
    rw [Words.contains_combine (f := SetOperation.bitAnd.onWords) (g :=
      and) (fun w m i _ ↦ BitVec.getLsbD_and) rfl, Bool.and_eq_true]
    rfl
  | bitAndnot =>
    rw [Words.contains_combine (f := SetOperation.bitAndnot.onWords) (g := fun x y ↦ x && !y)
        (fun w m i hi ↦ by
      rw [SetOperation.onWords, BitVec.getLsbD_and, BitVec.getLsbD_not, decide_eq_true hi,
        Bool.true_and]) rfl]
    cases a.contains v <;> cases c.contains v <;> simp [SetOperation.Holds]
  | bitXor =>
    rw [Words.contains_combine (f := SetOperation.bitXor.onWords) (g :=
      xor) (fun w m i _ ↦ BitVec.getLsbD_xor) rfl]
    cases a.contains v <;> cases c.contains v <;> simp [SetOperation.Holds]

theorem BitsetRef.Honest.combined (h : b.Honest held) (op : SetOperation) (words : Words wordCount)
    (v : Nat) :
    (Words.combine op.onWords b.words words).contains v = true ↔
      v ∈ {v | op.Holds (v ∈ held) (v ∈ words.values)} := by
  rw [contains_combine_onWords, h.mem, Set.mem_ofPred_eq, Words.mem_values]

/-- More values are counted in more words. -/
theorem count_le_of_contains {ws ws' : Words wordCount}
    (h : ∀ v, ws.contains v = true → ws'.contains v = true) : ws.count ≤ ws'.count := by
  rw [ws.count_eq_length_values, ws'.count_eq_length_values]
  exact length_le_of_ascending_subset ws.values_ascending fun v hv ↦
    Words.mem_values.2 (h v (Words.mem_values.1 hv))

theorem BitsetRef.Honest.combineBitset (h : b.Honest held) (op : SetOperation)
    (words : Words wordCount) :
    (combineBitsetBitsetInplace op b words).Honest
      {v | op.Holds (v ∈ held) (v ∈ words.values)} := by
  rw [combineBitsetBitsetInplace]
  split
  · -- a saturated left side already holds the union
    rename_i hfull
    obtain ⟨rfl, hfull⟩ := hfull
    refine ⟨fun v ↦ ?_, h.atMost, h.exact, h.endpoints⟩
    rw [h.mem, Set.mem_ofPred_eq, SetOperation.Holds, or_iff_left_of_imp]
    intro hv
    exact (h.mem v).1 (contains_of_saturated (hfull ▸ h.atMost) (Words.lt_of_mem_values hv))
  · exact BitsetRef.honest_counted (h.combined op words) rfl

theorem BitsetRef.Honest.orArray (h : b.Honest held) (isLazy : Bool)
    (hvalues : (Payload.array values).WellFormed) :
    (orArrayIntoBitsetInplace isLazy b values).Honest
      {v | SetOperation.bitOr.Holds (v ∈ held) (v ∈ values)} := by
  have hlow : ∀ v ∈ values, v < lowDomainSize := hvalues.values_lt
  rw [orArrayIntoBitsetInplace]
  split
  · rename_i hnone
    refine ⟨fun v ↦ ?_, h.atMost, h.exact, h.endpoints⟩
    rw [h.mem, Set.mem_ofPred_eq, SetOperation.Holds, hnone, or_iff_left List.not_mem_nil]
  · dsimp only
    -- either scatter sets the bits of the values and counts those that are new
    have hscatter : ∀ s : Words wordCount × Nat, ∀ t,
        t = (if values.getLastD 0 - values.headD 0 + 1 ≤ scatterGroupingSpanRatio * values.length
        then orGroups values s else values.foldl setOneBit s) → t.1 = s.1.scatter values ∧
          t.1.count + s.2 = s.1.count + t.2 := by
      rintro s t rfl
      split
      · exact orGroups_spec hlow s
      · exact foldl_setOneBit hlow s
    have hmem : ∀ v, (b.words.scatter values).contains v = true ↔
        v ∈ {v | SetOperation.bitOr.Holds (v ∈ held) (v ∈ values)} := by
      intro v
      rw [Words.contains_scatter _ hlow, Bool.or_eq_true, decide_eq_true_iff, h.mem, or_comm]
      rfl
    cases isLazy with
    | true =>
      obtain ⟨hwords, hcount⟩ := hscatter (b.words, 0) _ rfl
      rw [if_pos rfl, if_pos rfl, hwords]
      refine BitsetRef.honest_kept hmem (h.atMost.trans (count_le_of_contains fun v hv ↦ ?_))
      exact (hmem v).2 (.inl ((h.mem v).1 hv))
    | false =>
      obtain ⟨hsame, hcard⟩ := h.settled
      obtain ⟨hwords, hcount⟩ := hscatter (b.words, 0) _ rfl
      rw [if_neg Bool.false_ne_true, if_neg Bool.false_ne_true, hsame, hwords]
      rw [hwords] at hcount
      dsimp only at hcount
      refine BitsetRef.honest_adjusted hmem ?_
      dsimp only
      rw [hcard]
      omega

theorem BitsetRef.Honest.xorArray (h : b.Honest held) (isLazy : Bool)
    (hvalues : (Payload.array values).WellFormed) :
    (xorArrayIntoBitsetInplace isLazy b values).Honest
      {v | SetOperation.bitXor.Holds (v ∈ held) (v ∈ values)} := by
  have hlow : ∀ v ∈ values, v < lowDomainSize := hvalues.values_lt
  have hnodup : values.Nodup := hvalues.values_ascending.imp ne_of_lt
  have hmem : ∀ v, (values.foldl Words.toggle b.words).contains v = true ↔
      v ∈ {v | SetOperation.bitXor.Holds (v ∈ held) (v ∈ values)} := by
    intro v
    rw [contains_foldl_toggle hlow hnodup, h.mem, xor_iff_holds]
    rfl
  obtain ⟨hwords, hcount⟩ := foldl_flipBit hlow (b.words, 0)
  rw [xorArrayIntoBitsetInplace]
  dsimp only at hwords hcount ⊢
  cases isLazy with
  | true =>
    rw [if_pos rfl, if_pos rfl, hwords]
    exact BitsetRef.honest_unknown hmem
  | false =>
    obtain ⟨hsame, hcard⟩ := h.settled
    rw [if_neg Bool.false_ne_true, if_neg Bool.false_ne_true, hsame, hcard, hwords]
    rw [hwords] at hcount
    have hmoved : (((b.words.count : Int) + (values.foldl flipBit (b.words, 0)).2) % 2 ^ 32).toNat =
        (values.foldl Words.toggle b.words).count := by
      have hmod := count_mod (values.foldl Words.toggle b.words)
      omega
    exact BitsetRef.honest_counted hmem hmoved

theorem BitsetRef.Honest.xorRuns (h : b.Honest held) (isLazy : Bool) (hruns : Canonical runs) :
    (xorRunsIntoBitsetInplace isLazy b runs).Honest
      {v | SetOperation.bitXor.Holds (v ∈ held) (v ∈ runValues runs)} := by
  have hmem : ∀ v,
      (forEachRunWordMask runs (fun words i mask ↦ words.setWord i (words.word i ^^^ mask))
      b.words).contains v = true ↔
      v ∈ {v | SetOperation.bitXor.Holds (v ∈ held) (v ∈ runValues runs)} := by
    intro v
    have hflip := contains_foldl_applyRange .flip hruns b.words v
    rw [RangeOperation.holds, h.mem, xor_iff_holds] at hflip
    exact (iff_of_eq (congrArg (fun ws ↦ Words.contains ws v = true)
      (forEachRunWordMask_eq (fun w m ↦ w ^^^ m) b.words runs))).trans hflip
  rw [xorRunsIntoBitsetInplace]
  cases isLazy with
  | true => exact BitsetRef.honest_unknown hmem
  | false => exact BitsetRef.honest_counted hmem rfl

theorem BitsetRef.Honest.applyRuns (h : b.Honest held) (set : Bool) (hruns : Canonical runs) :
    (applyRunsToBitsetInplace set b runs).Honest
      {v | (if set = true then SetOperation.bitOr else .bitAndnot).Holds (v ∈ held)
        (v ∈ runValues runs)} := by
  obtain ⟨hsame, hcard⟩ := h.settled
  rw [applyRunsToBitsetInplace]
  cases set with
  | true =>
    simp only [if_true]
    have hwords := fst_forEachRunWordMask (fun w m ↦ w ||| m) (fun w m ↦ popcount (m &&& ~~~w))
      (b.words, 0) runs
    have hcount :
        (forEachRunWordMask runs (fun s i mask ↦
        (s.1.setWord i (s.1.word i ||| mask), s.2 + popcount (mask &&& ~~~s.1.word i)))
        (b.words, 0)).1.count = b.words.count + (forEachRunWordMask runs (fun s i mask ↦
          (s.1.setWord i (s.1.word i ||| mask), s.2 + popcount (mask &&& ~~~s.1.word i)))
            (b.words, 0)).2 := by
      refine forEachRunWordMask_keeps (P := fun s : Words wordCount × Nat ↦ s.1.count =
        b.words.count + s.2) hruns ?_ (Nat.add_zero _).symm
      intro s i mask hi hs
      have hone := Words.count_setWord s.1 hi (s.1.word i ||| mask)
      rw [popcount_or] at hone
      dsimp only
      omega
    rw [hsame]
    refine BitsetRef.honest_adjusted (fun v ↦ ?_) (by dsimp only; rw [hcard, hcount, Nat.cast_add])
    dsimp only
    rw [hwords]
    have hadd := contains_foldl_applyRange .add hruns b.words v
    rw [RangeOperation.holds, h.mem] at hadd
    exact hadd
  | false =>
    simp only [Bool.false_eq_true, if_false]
    have hwords := fst_forEachRunWordMask (fun w m ↦ w &&& ~~~m) (fun w m ↦ popcount (m &&& w))
      (b.words, 0) runs
    have hcount :
        (forEachRunWordMask runs (fun s i mask ↦
        (s.1.setWord i (s.1.word i &&& ~~~mask), s.2 + popcount (mask &&& s.1.word i)))
        (b.words, 0)).1.count + (forEachRunWordMask runs (fun s i mask ↦
          (s.1.setWord i (s.1.word i &&& ~~~mask), s.2 + popcount (mask &&& s.1.word i)))
            (b.words, 0)).2 = b.words.count := by
      refine forEachRunWordMask_keeps (P := fun s : Words wordCount × Nat ↦ s.1.count + s.2 =
        b.words.count) hruns ?_ (Nat.add_zero _)
      intro s i mask hi hs
      have hone := Words.count_setWord s.1 hi (s.1.word i &&& ~~~mask)
      have hless := popcount_andNot (s.1.word i) mask
      dsimp only
      omega
    rw [hsame]
    refine BitsetRef.honest_adjusted (fun v ↦ ?_) (by dsimp only; rw [hcard]; omega)
    dsimp only
    rw [hwords]
    have hremove := contains_foldl_applyRange .remove hruns b.words v
    rw [RangeOperation.holds, h.mem] at hremove
    exact hremove

theorem BitsetRef.Honest.differenceArray (h : b.Honest held)
    (hvalues : (Payload.array values).WellFormed) :
    (differenceBitsetArrayInplace b values).Honest
      {v | SetOperation.bitAndnot.Holds (v ∈ held) (v ∈ values)} := by
  have hlow : ∀ v ∈ values, v < lowDomainSize := hvalues.values_lt
  obtain ⟨hsame, hcard⟩ := h.settled
  obtain ⟨hwords, hcount⟩ := foldl_clearBit hlow (b.words, 0)
  rw [differenceBitsetArrayInplace]
  dsimp only at hwords hcount ⊢
  rw [hsame, hwords]
  rw [hwords] at hcount
  refine BitsetRef.honest_adjusted (fun v ↦ ?_) (by dsimp only; rw [hcard]; omega)
  rw [contains_foldl_erase hlow, h.mem]
  rfl

theorem BitsetRef.Honest.repaired (h : b.Honest held) : (repairBitset b).Honest held ∧
    (repairBitset b).cardinalityStale = false ∧
    (repairBitset b).words = b.words := by
  cases hstale : b.cardinalityStale with
  | true =>
    have hrepair : repairBitset b = (b.setCardinality b.words.count).markEndpointsStale := by
      rw [repairBitset, if_pos hstale]
    rw [hrepair]
    refine ⟨BitsetRef.honest_counted h.mem rfl, ?_, ?_⟩
    · rw [BitsetRef.stale_markEndpointsStale, BitsetRef.stale_setCardinality]
    · rw [BitsetRef.words_markEndpointsStale, BitsetRef.words_setCardinality]
  | false =>
    have hrepair : repairBitset b = b := by
      rw [repairBitset, hstale, if_neg Bool.false_ne_true]
    rw [hrepair]
    exact ⟨h, hstale, rfl⟩

/-- A step keeps the header honest, and does to the set what its operation says. -/
theorem BitsetStep.honest (hstep : step.WellFormed) (h : b.Honest held) :
    (step.run b).Honest (step.onSet held) := by
  cases step with
  | orArray isLazy values => exact h.orArray isLazy hstep
  | orBitsetLazy words =>
    refine BitsetRef.honest_kept (h.combined .bitOr words)
      (h.atMost.trans (count_le_of_contains fun v hv ↦ ?_))
    exact (h.combined .bitOr words v).2 (.inl ((h.mem v).1 hv))
  | orBitsetBulk haveX86V4 words =>
    have hbulk : orBitsetBitsetInplaceBulk haveX86V4 b words = combineBitsetBitsetInplace .bitOr b
        words := by
      rw [orBitsetBitsetInplaceBulk, combineBitsetBitsetInplace]
      simp only [true_and, ite_self]
    change (orBitsetBitsetInplaceBulk haveX86V4 b words).Honest _
    rw [hbulk]
    exact h.combineBitset .bitOr words
  | xorArray isLazy values => exact h.xorArray isLazy hstep
  | xorRuns isLazy runs =>
    cases hstep with
    | run canonical => exact h.xorRuns isLazy canonical
  | xorBitsetLazy words => exact BitsetRef.honest_unknown (h.combined .bitXor words)
  | applyRuns set runs =>
    cases hstep with
    | run canonical => exact h.applyRuns set canonical
  | differenceArray values => exact h.differenceArray hstep
  | combineBitset op words => exact h.combineBitset op words
  | repair => exact h.repaired.1

/-- So does a whole fold. -/
theorem BitsetStep.honest_fold (hsteps : ∀ step ∈ steps, step.WellFormed) (h : b.Honest held) :
    (steps.foldl (fun b step ↦ step.run b) b).Honest
    (steps.foldl (fun held step ↦ step.onSet held) held) := by
  induction steps generalizing b held with
  | nil => exact h
  | cons step steps ih =>
    exact ih (fun s hs ↦ hsteps s (List.mem_cons_of_mem step hs))
      (BitsetStep.honest (hsteps step List.mem_cons_self) h)

/-- Whatever kernels a fold takes, lazy or exact and in any order, the words hold what the
operations make of the values.  The count is never above theirs, a bitset that is known to be full
holds every value, and the repair leaves a valid bitset of the same values. -/
theorem bitsetSteps_denote (hsteps : ∀ step ∈ steps, step.WellFormed) (hvalid : b.handle.Valid) :
    ∃ last, last = steps.foldl (fun b step ↦ step.run b) b ∧
      (∀ v, v ∈ last.handle.values ↔
        v ∈ steps.foldl (fun held step ↦ step.onSet held) {v | v ∈ b.handle.values}) ∧
      last.cardinality ≤ last.handle.values.length ∧
      (last.cardinalityStale = false → last.cardinality = last.handle.values.length) ∧
      (containerIsKnownFull last.handle = true → ∀ v < lowDomainSize, v ∈ last.handle.values) ∧
      (repairBitset last).handle.Holds last.handle.values := by
  have h := BitsetStep.honest_fold hsteps (BitsetRef.honest_of_valid hvalid)
  generalize steps.foldl (fun held step ↦ step.onSet held) {v | v ∈ b.handle.values} = held at h
  generalize steps.foldl (fun b step ↦ step.run b) b = last at h
  have hmem : ∀ v, v ∈ last.handle.values ↔ last.words.contains v = true := fun v ↦ Words.mem_values
  have hlength : last.handle.values.length = last.words.count :=
    last.words.count_eq_length_values.symm
  obtain ⟨hrepaired, hexact, hwords⟩ := h.repaired
  refine ⟨last, rfl, fun v ↦ (hmem v).trans (h.mem v), hlength ▸ h.atMost,
    fun hfresh ↦ hlength ▸ h.exact hfresh, fun hfull v hv ↦ ?_,
    hrepaired.valid hexact, by rw [BitsetRef.values_handle, BitsetRef.values_handle, hwords]⟩
  rw [hmem]
  rw [containerIsKnownFull] at hfull
  split at hfull
  · exact absurd hfull Bool.false_ne_true
  · rename_i hcard
    refine contains_of_saturated ?_ hv
    have hsaturated : last.cardinality = wordCount * 64 := not_ne_iff.1 hcard
    exact hsaturated ▸ h.atMost

end Steps

/-- A lazy union that meets an exact difference before its repair. -/
theorem bitsetSteps_denote_mixed : ∃ last,
    last = [BitsetStep.orArray true [3, 5], .differenceArray [5], .xorArray true [9]].foldl
      (fun b step ↦ step.run b)
      ⟨Words.zeroed wordCount, 0, 0, 0, true, false⟩ ∧
    (∀ v, v ∈ last.handle.values ↔
      v ∈ [BitsetStep.orArray true [3, 5], .differenceArray [5], .xorArray true [9]].foldl
      (fun held step ↦ step.onSet held)
      {v | v ∈ (BitsetRef.handle ⟨Words.zeroed wordCount, 0, 0, 0, true, false⟩).values}) ∧
    last.cardinality ≤ last.handle.values.length ∧
    (last.cardinalityStale = false → last.cardinality = last.handle.values.length) ∧
    (containerIsKnownFull last.handle = true → ∀ v < lowDomainSize, v ∈ last.handle.values) ∧
    (repairBitset last).handle.Holds last.handle.values := by
  refine bitsetSteps_denote ?_ ⟨.bitset _, rfl, ?_, .inl rfl⟩
  · intro step hstep
    rcases List.mem_cons.1 hstep with rfl | hstep
    · exact .array (by decide) (by decide)
    · rcases List.mem_cons.1 hstep with rfl | hstep
      · exact .array (by decide) (by decide)
      · rw [List.mem_singleton.1 hstep]
        exact .array (by decide) (by decide)
  · have hnone : (Words.zeroed wordCount).values = [] := by
      refine List.eq_nil_iff_forall_not_mem.2 fun v hv ↦ ?_
      rw [Words.mem_values, Words.contains_zeroed] at hv
      exact Bool.false_ne_true hv
    exact (congrArg List.length hnone).symm

end Roaring
