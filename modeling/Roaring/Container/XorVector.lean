import Mathlib
import Roaring.Lib.BlockMerge
import Roaring.Container.VectorIntersect

/-!
# The vector symmetric difference of sorted arrays

Blocks of eight values are merged by four stages of minima, maxima and interleavings, one
merged block is held back, and of each lower half the values that equal no neighbour are
stored.  Whether a value is doubled is known when the one behind it is there, so the last
lane of a block is decided by the next one.

When the blocks of one array have run out, the block that is held back and the rest of that
array are sorted by insertion, equal pairs cancel, and a scalar merge finishes with what is
left of the other array.
-/

namespace Roaring

open Lib

/-! ## Instructions -/

/-- `_mm_unpacklo_epi16`. -/
def unpackLow (v t : Lanes) : Lanes := fun i ↦ if i % 2 = 0 then v (i / 2) else t (i / 2)

/-- `_mm_unpackhi_epi16`. -/
def unpackHigh (v t : Lanes) : Lanes := fun i ↦ if i % 2 = 0 then v (4 + i / 2) else t (4 + i / 2)

/-- `_mm_alignr_epi8` by a number of whole lanes: the lanes of `old` behind them, then those of
`fresh`. -/
def alignLanes (fresh old : Lanes) (bytes : Nat) : Lanes := fun i ↦
  if i + bytes / 2 < 8 then old (i + bytes / 2) else fresh (i + bytes / 2 - 8)

def reverseControl : List Nat := [14, 15, 12, 13, 10, 11, 8, 9, 6, 7, 4, 5, 2, 3, 0, 1]

/-! ## The kernel -/

/-- A stage of the merge. -/
def mergeStage (s : Lanes × Lanes) : Lanes × Lanes :=
  (unpackLow (minLanes s.1 s.2) (maxLanes s.1 s.2),
    unpackHigh (minLanes s.1 s.2) (maxLanes s.1 s.2))

/-- `merge_sorted_blocks_sse`: the lower half and the upper one. -/
def mergeSortedBlocksSse (a b : Lanes) : Lanes × Lanes :=
  mergeStage (mergeStage (mergeStage (mergeStage (a, shuffleBytes b reverseControl))))

/-- `store_unique_xor_sse`: the slot behind the values that are stored, and the buffer. -/
def storeUniqueXorSse (old fresh : Lanes) (pos : Nat) (out : List Nat) : Option (Nat × List Nat) :=
  let twoBack := alignLanes fresh old (16 - 4)
  let oneBack := alignLanes fresh old (16 - 2)
  let keep := fun i ↦ !(oneBack i == twoBack i || oneBack i == fresh i)
  (memmoveInto out pos (lanesOf 8 (shuffleBytes oneBack (compactControl keep)))).map fun out ↦
    (pos + popcountLanes 8 keep, out)

structure XorState where
  posA : Nat
  posB : Nat
  count : Nat
  high : Lanes
  last : Lanes
  out : List Nat

/-- A turn: the block whose head is smaller. -/
def xorTurn (as bs : List Nat) (s : XorState) : Option XorState :=
  let takeA := decide (as.getD (8 * s.posA) 0 ≤ bs.getD (8 * s.posB) 0)
  let next :=
    if takeA then loadRegister s.out (.apart as) (8 * s.posA)
    else loadRegister s.out (.apart bs) (8 * s.posB)
  let merged := mergeSortedBlocksSse s.high next
  (storeUniqueXorSse s.last merged.1 s.count s.out).map fun r ↦
    ⟨s.posA + (if takeA then 1 else 0), s.posB + (if takeA then 0 else 1), r.1, merged.2,
      merged.1, r.2⟩

/-- The block that is held back and the rest of the array whose blocks have run out, sorted and
cancelled, merged with the other rest. -/
def xorFinish (s : XorState) (rest subVector : List Nat) : Option (Nat × List Nat) :=
  (storeUniqueXorSse s.last s.high 0 (List.replicate 17 0)).bind fun stored ↦
    (storeAll ((if s.high 7 ≠ s.high 6 then [s.high 7] else []) ++ subVector) stored.1
        stored.2).bind fun pending ↦
      if pending.1 = 0 then
        (memmoveInto s.out s.count rest).map fun out ↦ (s.count + rest.length, out)
      else
        let kept := ((pending.2.take pending.1).foldl insertFromBack []).foldl cancelPair []
        xorSortedScalar (.apart kept) kept.length (.apart rest) rest.length s.count s.out

/-- What is left when the blocks of one array have run out. -/
def xorTail (as bs : List Nat) (s : XorState) : Option (Nat × List Nat) :=
  if s.posA = as.length / 8 then xorFinish s (bs.drop (8 * s.posB)) (as.drop (8 * (as.length / 8)))
  else xorFinish s (as.drop (8 * s.posA)) (bs.drop (8 * (bs.length / 8)))

/-- `xor_sorted_uint16_sse`.  A last turn behind the loop of the source is one more turn of the loop
here. -/
def xorSortedUint16Sse (as bs : List Nat) (out : List Nat) : Option (Nat × List Nat) :=
  let first :=
    mergeSortedBlocksSse (loadRegister out (.apart as) 0) (loadRegister out (.apart bs) 0)
  (storeUniqueXorSse (fun _ ↦ 0xFFFF) first.1 0 out).bind fun r ↦
    (loop (fun s ↦ decide (s.posA < as.length / 8 ∧ s.posB < bs.length / 8)) (xorTurn as bs)
      (as.length / 8 + bs.length / 8 + 1)
      ⟨1, 1, r.1, first.2, first.1, r.2⟩).bind (xorTail as bs)

/-! ## The network -/

section Network

variable {u v w a b : Lanes}

/-- Two registers as one of sixteen lanes. -/
def joinLanes (s : Lanes × Lanes) : Lanes := fun i ↦ if i < 8 then s.1 i else s.2 (i - 8)

/-- Where a stage of the merge puts what it compares at a place: the bits of the place, turned by
one. -/
def turnBits (p : Nat) : Nat := 2 * p % 16 + p / 8

theorem joinLanes_mergeStage (s : Lanes × Lanes) {p : Nat} (hp : p < 16) :
    joinLanes (mergeStage s) (turnBits p) = compareExchange 8 (joinLanes s) p := by
  rw [compareExchange, joinLanes, mergeStage, turnBits]
  rcases Nat.lt_or_ge p 8 with hlow | hhigh
  · have hzero : p / 8 = 0 := Nat.div_eq_of_lt hlow
    have hplace : 2 * p % 16 = 2 * p := Nat.mod_eq_of_lt (by omega)
    have heven : 2 * p % 2 = 0 := Nat.mul_mod_right 2 p
    have hhalf : 2 * p / 2 = p := Nat.mul_div_cancel_left p (by decide)
    rw [hzero, hplace, Nat.add_zero, Nat.zero_mod, if_pos rfl]
    have hleft : joinLanes s p = s.1 p := if_pos hlow
    have hright : joinLanes s (p + 8) = s.2 p := by
      rw [joinLanes, if_neg (by omega), Nat.add_sub_cancel]
    rw [hleft, hright]
    split
    · dsimp only
      rw [unpackLow, if_pos heven, hhalf]
      rfl
    · have heven' : (2 * p - 8) % 2 = 0 := by omega
      have hhalf' : 4 + (2 * p - 8) / 2 = p := by omega
      dsimp only
      rw [unpackHigh, if_pos heven', hhalf']
      rfl
  · have hone : p / 8 = 1 := by omega
    have hplace : 2 * p % 16 = 2 * (p - 8) := by omega
    rw [hone, hplace, Nat.one_mod, if_neg Nat.one_ne_zero]
    have hleft : joinLanes s (p - 8) = s.1 (p - 8) := if_pos (by omega)
    have hright : joinLanes s p = s.2 (p - 8) := if_neg (by omega)
    rw [hleft, hright]
    split
    · have hodd : ¬ (2 * (p - 8) + 1) % 2 = 0 := by omega
      have hhalf : (2 * (p - 8) + 1) / 2 = p - 8 := by omega
      dsimp only
      rw [unpackLow, if_neg hodd, hhalf]
      rfl
    · have hodd : ¬ (2 * (p - 8) + 1 - 8) % 2 = 0 := by omega
      have hhalf : 4 + (2 * (p - 8) + 1 - 8) / 2 = p - 8 := by omega
      dsimp only
      rw [unpackHigh, if_neg hodd, hhalf]
      rfl

/-- A stage on turned places compares at half the distance. -/
theorem mergeStage_turned {s : Lanes × Lanes} {r : Nat → Nat} {d : Nat}
    (hr : ∀ p < 16, r p < 16 ∧ r p / 8 % 2 = p / d % 2 ∧
      (p / d % 2 = 0 → p + d < 16 ∧ r p + 8 = r (p + d)) ∧
      (p / d % 2 ≠ 0 → r p - 8 = r (p - d)))
    (hv : ∀ p < 16, joinLanes s (r p) = v p) {p : Nat} (hp : p < 16) :
    joinLanes (mergeStage s) (turnBits (r p)) = compareExchange d v p := by
  obtain ⟨hlt, hbit, hlow, hhigh⟩ := hr p hp
  rw [joinLanes_mergeStage s hlt, compareExchange, compareExchange, hbit]
  split
  · rename_i hzero
    obtain ⟨hin, hother⟩ := hlow hzero
    rw [hother, hv p hp, hv (p + d) hin]
  · rename_i hone
    rw [hhigh hone, hv p hp, hv (p - d) (by omega)]

/-- Four stages are a bitonic merge: the places are back where they were. -/
theorem mergeStages_eq (s : Lanes × Lanes) {p : Nat} (hp : p < 16) :
    joinLanes (mergeStage (mergeStage (mergeStage (mergeStage s)))) p =
      bitonicMerge 4 (joinLanes s) p := by
  have h8 := fun p hp ↦ mergeStage_turned (s := s) (r := id) (d := 8) (v := joinLanes s) (by decide)
    (fun p _ ↦ rfl) (p := p) hp
  have h4 := fun p hp ↦ mergeStage_turned (r := turnBits) (d := 4) (by decide) h8 (p := p) hp
  have h2 := fun p hp ↦ mergeStage_turned (r := fun p ↦ turnBits (turnBits p)) (d := 2) (by decide)
    h4 (p := p) hp
  have h1 := mergeStage_turned (r := fun p ↦ turnBits (turnBits (turnBits p))) (d :=
    1) (by decide) h2 hp
  have hback : ∀ p < 16, turnBits (turnBits (turnBits (turnBits p))) = p := by decide
  rw [hback p hp] at h1
  exact h1

theorem shuffleBytes_reverse (hb : ∀ l < 8, b l < lowDomainSize) {i : Nat} (hi : i < 8) :
    shuffleBytes b reverseControl i = b (7 - i) := by
  have hbytes : ∀ i < 8, reverseControl.getD (2 * i) 0 = 2 * (7 - i) ∧
    reverseControl.getD (2 * i + 1) 0 = 2 * (7 - i) + 1 := by decide
  obtain ⟨hlow, hhigh⟩ := hbytes i hi
  rw [shuffleBytes, hlow, hhigh]
  exact namedByte_pair (by omega) (hb _ (by omega))

/-- The network merges two ascending blocks. -/
theorem mergeSortedBlocksSse_spec (ha : (lanesOf 8 a).Pairwise (· ≤ ·))
    (hb : (lanesOf 8 b).Pairwise (· ≤ ·)) (hlow : ∀ l < 8, b l < lowDomainSize) :
    MergedBlocks (lanesOf 8 a) (lanesOf 8 b) (lanesOf 8 (mergeSortedBlocksSse a b).1)
    (lanesOf 8 (mergeSortedBlocksSse a b).2) := by
  have hleft : ∀ i < 8, joinLanes (a, shuffleBytes b reverseControl) i = a i := fun i hi ↦ if_pos hi
  have hright : ∀ i < 8, joinLanes (a, shuffleBytes b reverseControl) (8 + i) = b (7 - i) := by
    intro i hi
    rw [joinLanes, if_neg (by omega), Nat.add_sub_cancel_left]
    exact shuffleBytes_reverse hlow hi
  have hmerge := bitonicMerge_blocks (k := 3) (fun i j hij hj ↦ lane_le_of_ascending ha hij hj)
    (fun i j hij hj ↦ lane_le_of_ascending hb hij hj) hleft hright
  have hfirst : ∀ i < 8, (mergeSortedBlocksSse a b).1 i =
      bitonicMerge 4 (joinLanes (a, shuffleBytes b reverseControl)) i := by
    intro i hi
    rw [← mergeStages_eq _ (show i < 16 by omega), joinLanes, if_pos hi]
    rfl
  have hsecond : ∀ i < 8, (mergeSortedBlocksSse a b).2 i =
      bitonicMerge 4 (joinLanes (a, shuffleBytes b reverseControl)) (8 + i) := by
    intro i hi
    rw [← mergeStages_eq _ (show 8 + i < 16 by omega), joinLanes, if_neg (by omega),
      Nat.add_sub_cancel_left]
    rfl
  have hrange : List.range' (2 ^ 3) (2 ^ 3) = (List.range' 0 8).map (8 + ·) := rfl
  rw [hrange, List.map_map] at hmerge
  rw [lanesOf_eq hfirst, lanesOf_eq hsecond]
  exact hmerge

end Network

/-! ## Storing -/

/-- Of consecutive values, those that differ from both neighbours. -/
theorem filter_neighbours_eq (w : Nat → Nat) (s n : Nat) :
    ((List.range' s n).filter fun i ↦ !(w (i + 1) == w i || w (i + 1) == w (i + 2))).map
      (fun i ↦ w (i + 1)) =
      survivors (w s) (w (s + 1)) ((List.range' s n).map fun i ↦ w (i + 2)) := by
  induction n generalizing s with
  | zero => rfl
  | succ n ih =>
    rw [List.range'_succ, List.filter_cons, List.map_cons, survivors]
    by_cases hdouble : w (s + 1) = w s ∨ w (s + 1) = w (s + 2)
    · have hdrop : ¬ (!(w (s + 1) == w s || w (s + 1) == w (s + 2))) = true := by
        rw [Bool.not_eq_true', Bool.or_eq_false_iff, beq_eq_false_iff_ne,
          beq_eq_false_iff_ne, ← not_or]
        exact not_not_intro hdouble
      rw [if_neg hdrop, if_pos hdouble, ih]
    · have hkeep : (!(w (s + 1) == w s || w (s + 1) == w (s + 2))) = true := by
        rw [Bool.not_eq_true', Bool.or_eq_false_iff, beq_eq_false_iff_ne,
          beq_eq_false_iff_ne, ← not_or]
        exact hdouble
      rw [if_pos hkeep, if_neg hdouble, List.map_cons, ih]

theorem storeUniqueXorSse_spec (old : Lanes) {fresh : Lanes} {pos : Nat} {out : List Nat}
    (hold : old 7 < lowDomainSize)
    (hfresh : ∀ l < 8, fresh l < lowDomainSize) (hfit : pos + 8 ≤ out.length) :
    ∃ out', storeUniqueXorSse old fresh pos out =
      some (pos + (survivors (old 6) (old 7) (lanesOf 8 fresh)).length, out') ∧
      out'.length = out.length ∧
      out'.take (pos + (survivors (old 6) (old 7) (lanesOf 8 fresh)).length) =
        out.take pos ++ survivors (old 6) (old 7) (lanesOf 8 fresh) := by
  -- the stream, two lanes of the old block in front
  obtain ⟨w, hw⟩ : ∃ w : Nat → Nat, ∀ i, w i = if i < 2 then old (i + 6) else fresh (i - 2) :=
    ⟨_, fun _ ↦ rfl⟩
  have htwo : alignLanes fresh old (16 - 4) = w := by
    funext i
    rw [hw, alignLanes]
    rcases Nat.lt_or_ge i 2 with hlt | hge
    · rw [if_pos (by omega), if_pos hlt]
    · rw [if_neg (by omega), if_neg (by omega)]
      congr 1
  have hone : alignLanes fresh old (16 - 2) = fun i ↦ w (i + 1) := by
    funext i
    rw [hw, alignLanes]
    rcases Nat.eq_zero_or_pos i with rfl | hpos
    · rfl
    · rw [if_neg (by omega), if_neg (by omega)]
      congr 1
  have hfreshes : fresh = fun i ↦ w (i + 2) := by
    funext i
    rw [hw]
    exact (if_neg (by omega)).symm
  have hlow : ∀ l < 8, (fun i ↦ w (i + 1)) l < lowDomainSize := by
    intro l hl
    change w (l + 1) < lowDomainSize
    rw [hw]
    rcases Nat.eq_zero_or_pos l with rfl | hpos
    · exact hold
    · rw [if_neg (by omega)]
      exact hfresh _ (by omega)
  have hkept :
      keptLanes 8 (fun i ↦ w (i + 1)) (fun i ↦ !(w (i + 1) == w i || w (i + 1) == w (i + 2))) =
      survivors (old 6) (old 7) (lanesOf 8 fresh) := by
    have hfirst : w 0 = old 6 := hw 0
    have hsecond : w (0 + 1) = old 7 := hw 1
    rw [keptLanes, filter_neighbours_eq, hfirst, hsecond, lanesOf]
    conv_rhs => rw [hfreshes]
  have hlanes : ∀ i < 8,
      shuffleBytes (fun i ↦ w (i + 1)) (compactControl fun i ↦
      !(w (i + 1) == w i || w (i + 1) == w (i + 2))) i =
      (keptLanes 8 (fun i ↦ w (i + 1)) fun i ↦ !(w (i + 1) == w i || w (i + 1) == w (i + 2))).getD i
        0 :=
    fun i hi ↦ shuffleBytes_compactControl hlow hi
  obtain ⟨out', hmove, hlength, hfront, -⟩ := storeKept_spec hlanes hfit
  rw [← length_keptLanes _ (fun i ↦ w (i + 1)), hkept] at hfront
  refine ⟨out', ?_, hlength, hfront⟩
  rw [storeUniqueXorSse, htwo, hone, ← hkept, length_keptLanes]
  conv_lhs => rw [hfreshes]
  dsimp only
  rw [hmove, Option.map_some]

/-! ## The blocks -/

/-- Whole blocks are taken: of the values passed on those that stand alone are stored, up to the
last one, which is not decided. -/
structure Xoring (as bs : List Nat) (size : Nat) (s : XorState) (raw : List Nat) : Prop where
  left_le : 8 * s.posA ≤ as.length
  right_le : 8 * s.posB ≤ bs.length
  taken : Taken as bs (8 * s.posA) (8 * s.posB) raw (lanesOf 8 s.high)
  last : ∃ us, raw = us ++ [s.last 6, s.last 7]
  written : s.count = (survivors 0xFFFF 0xFFFF raw).length
  front : s.out.take s.count = survivors 0xFFFF 0xFFFF raw
  size : s.out.length = size

section Run

variable {as bs raw : List Nat} {size : Nat} {s : XorState}

theorem Xoring.length_raw (h : Xoring as bs size s raw) :
    raw.length + 8 = 8 * s.posA + 8 * s.posB := by
  have hlen := h.taken.perm.length_eq
  rw [List.length_append, List.length_append, length_lanesOf, List.length_take, List.length_take,
    min_eq_left h.left_le,
    min_eq_left h.right_le] at hlen
  exact hlen

theorem Xoring.slots (h : Xoring as bs size s raw) : s.count + 8 ≤ 8 * s.posA + 8 * s.posB := by
  have hlen := h.length_raw
  have hle := length_survivors_le 0xFFFF 0xFFFF raw
  rw [h.written]
  omega

/-- The values of the stream are 16-bit values. -/
theorem low_of_taken {w pa pb : Nat} {held : List Nat} (h : Taken as bs pa pb raw held)
    (ha : ∀ v ∈ as, v < w) (hb : ∀ v ∈ bs, v < w) :
    ∀ v ∈ raw ++ held, v < w := by
  intro v hv
  rcases List.mem_append.1 (h.perm.mem_iff.1 hv) with hv | hv
  · exact ha v (List.mem_of_mem_take hv)
  · exact hb v (List.mem_of_mem_take hv)

theorem lanes_low {v : Lanes} (xs : List Nat) (h : ∀ u ∈ xs ++ lanesOf 8 v, u < lowDomainSize)
    {l : Nat} (hl : l < 8) : v l < lowDomainSize :=
  h _ (List.mem_append_right _ (mem_lanesOf.2 ⟨l, hl, rfl⟩))

/-- What survives of a block more. -/
theorem survivors_block {us : List Nat} {p q : Nat} (x : Nat) (hraw : raw = us ++ [p, q])
    (block : List Nat) :
    survivors x x (raw ++ block) = survivors x x raw ++ survivors p q block := by
  rw [hraw, List.append_assoc, List.cons_append, List.cons_append, List.nil_append,
    survivors_append]

/-- The lower half of a merge is stored. -/
theorem Xoring.emit (h : Xoring as bs size s raw) (halow : ∀ v ∈ as, v < lowDomainSize)
    (hblow : ∀ v ∈ bs, v < lowDomainSize)
    (hroom : as.length + bs.length ≤ size) {posA posB : Nat} {lo hi : Lanes}
    (hleft : 8 * posA ≤ as.length) (hright : 8 * posB ≤ bs.length)
    (hmore : s.posA + s.posB < posA + posB)
    (ht : Taken as bs (8 * posA) (8 * posB) (raw ++ lanesOf 8 lo) (lanesOf 8 hi)) :
    ∃ r, storeUniqueXorSse s.last lo s.count s.out = some r ∧
      Xoring as bs size ⟨posA, posB, r.1, hi, lo, r.2⟩ (raw ++ lanesOf 8 lo) := by
  obtain ⟨us, hraw⟩ := h.last
  have hslots := h.slots
  have hall := low_of_taken ht halow hblow
  have hlo : ∀ l < 8, lo l < lowDomainSize := fun l hl ↦
    lanes_low raw (fun u hu ↦ hall u (List.mem_append_left _ hu)) hl
  have hlast : s.last 7 < lowDomainSize := by
    refine hall _ (List.mem_append_left _ (List.mem_append_left _ ?_))
    rw [hraw]
    exact List.mem_append_right _ (List.mem_cons_of_mem _ List.mem_cons_self)
  obtain ⟨out', hrun, hlength, hfront⟩ :=
      storeUniqueXorSse_spec s.last hlast hlo (show s.count + 8 ≤ s.out.length by
    rw [h.size]
    omega)
  have hmerged := survivors_block 0xFFFF hraw (lanesOf 8 lo)
  rw [h.front, ← hmerged] at hfront
  refine ⟨_, hrun, hleft, hright, ht, ⟨raw ++ [lo 0, lo 1, lo 2, lo 3, lo 4, lo 5], ?_⟩, ?_, hfront,
    hlength.trans h.size⟩
  · rw [List.append_assoc]
    rfl
  · rw [hmerged, List.length_append, h.written]

/-- A turn of the loop. -/
theorem Xoring.turn (h : Xoring as bs size s raw) (ha : as.Pairwise (· < ·))
    (hb : bs.Pairwise (· < ·))
    (halow : ∀ v ∈ as, v < lowDomainSize) (hblow : ∀ v ∈ bs, v < lowDomainSize)
    (hroom : as.length + bs.length ≤ size)
    (hposA : s.posA < as.length / 8) (hposB : s.posB < bs.length / 8) :
    ∃ s' raw', xorTurn as bs s = some s' ∧ Xoring as bs size s' raw' ∧
      s.posA + s.posB < s'.posA + s'.posB := by
  have hheld := (List.pairwise_append.1 h.taken.ascending).2.1
  rw [xorTurn]
  by_cases hle : as.getD (8 * s.posA) 0 ≤ bs.getD (8 * s.posB) 0
  · have hholds : (Operand.apart as).Holds s.out (8 * s.posA) as := fun x _ _ ↦ rfl
    have hblock := lanesOf_loadRegister hholds (show 8 * s.posA + 8 ≤ as.length by omega)
    have hasc : (lanesOf 8 (loadRegister s.out (.apart as) (8 * s.posA))).Pairwise (· ≤ ·) := by
      rw [hblock]
      exact ascending_le ((ha.sublist (List.drop_sublist _ _)).sublist (List.take_sublist _ _))
    have hmerge := (mergeSortedBlocksSse_spec hheld hasc fun l hl ↦ lane_lt halow hblock l hl).swap
    rw [hblock] at hmerge
    have hhead : as[8 * s.posA]? = some (as.getD (8 * s.posA) 0) := by
      rw [List.getD_eq_getElem _ _ (by omega), List.getElem?_eq_getElem]
    have htaken :=
      h.taken.step ha hb hhead (fun y hy ↦ hle.trans (getD_le_of_mem_drop hb (by omega) hy)) hmerge
    rw [← Nat.mul_succ] at htaken
    obtain ⟨r, hrun, hnext⟩ := h.emit halow hblow hroom (by omega) h.right_le (by omega) htaken
    rw [decide_eq_true hle]
    refine ⟨_, _, ?_, hnext, by dsimp only; omega⟩
    simp only [if_true, hrun, Option.map_some]
    rfl
  · have hholds : (Operand.apart bs).Holds s.out (8 * s.posB) bs := fun x _ _ ↦ rfl
    have hblock := lanesOf_loadRegister hholds (show 8 * s.posB + 8 ≤ bs.length by omega)
    have hasc : (lanesOf 8 (loadRegister s.out (.apart bs) (8 * s.posB))).Pairwise (· ≤ ·) := by
      rw [hblock]
      exact ascending_le ((hb.sublist (List.drop_sublist _ _)).sublist (List.take_sublist _ _))
    have hmerge := (mergeSortedBlocksSse_spec hheld hasc fun l hl ↦ lane_lt hblow hblock l hl).swap
    rw [hblock] at hmerge
    have hhead : bs[8 * s.posB]? = some (bs.getD (8 * s.posB) 0) := by
      rw [List.getD_eq_getElem _ _ (by omega), List.getElem?_eq_getElem]
    have htaken :=
      (h.taken.swap.step hb ha hhead
      (fun y hy ↦ (not_le.1 hle).le.trans (getD_le_of_mem_drop ha (by omega) hy)) hmerge).swap
    rw [← Nat.mul_succ] at htaken
    obtain ⟨r, hrun, hnext⟩ := h.emit halow hblow hroom h.left_le (by omega) (by omega) htaken
    rw [decide_eq_false hle]
    refine ⟨_, _, ?_, hnext, by dsimp only; omega⟩
    simp only [Bool.false_eq_true, if_false, hrun, Option.map_some]
    rfl

/-! ## The tail -/

theorem mem_iff_count_eq_one {xs : List Nat} (h : xs.Pairwise (· < ·)) (v : Nat) :
    (v ∈ xs ↔ xs.count v = 1) ∧ xs.count v ≤ 1 := by
  have hnodup : xs.Nodup := h.imp ne_of_lt
  have hle := List.nodup_iff_count_le_one.1 hnodup v
  refine ⟨⟨fun hv ↦ ?_, fun hone ↦ List.count_pos_iff.1 (by omega)⟩, hle⟩
  have hpos := List.count_pos_iff.2 hv
  omega

/-- The values in exactly one of two ascending lists. -/
theorem mem_plainMerge_xor (ha : as.Pairwise (· < ·)) (hb : bs.Pairwise (· < ·)) (v : Nat) :
    v ∈ plainMerge ⟨true, true, false⟩ as bs ↔ Odd (as.count v + bs.count v) := by
  obtain ⟨hmemA, hleA⟩ := mem_iff_count_eq_one ha v
  obtain ⟨hmemB, hleB⟩ := mem_iff_count_eq_one hb v
  rw [mem_plainMerge ha hb, MergeRule.Keeps, hmemA, hmemB, Nat.odd_iff]
  simp only [Bool.false_eq_true, and_false, and_true, or_false]
  omega

/-- What is stored stands in front of everything that is not decided. -/
theorem Xoring.stored_lt (h : Xoring as bs size s raw) {u v : Nat}
    (hu : u ∈ survivors 0xFFFF 0xFFFF raw) (hv : ∀ x ∈ raw, x ≤ v) : u < v := by
  have hasc := (List.pairwise_append.1 h.taken.ascending).1
  cases raw with
  | nil => exact absurd hu List.not_mem_nil
  | cons w raw =>
    rw [survivors, if_pos (.inl rfl)] at hu
    obtain ⟨z, hz, hlt⟩ := exists_gt_of_mem_survivors hasc u hu
    exact hlt.trans_le (hv z (List.mem_cons_of_mem _ hz))

/-- The values of the stream that stand alone: those that are stored, and those of the block that is
held back. -/
theorem Xoring.alone (h : Xoring as bs size s raw) (hfirst : ∀ v ∈ raw.head?, v ≠ 0xFFFF) :
    (survivors 0xFFFF 0xFFFF raw ++ standalone (s.last 6) (s.last 7) (lanesOf 8 s.high)).Pairwise
      (· < ·) ∧
      ∀ u, u ∈ survivors 0xFFFF 0xFFFF raw ++ standalone (s.last 6) (s.last 7) (lanesOf 8 s.high) ↔
        (raw ++ lanesOf 8 s.high).count u = 1 := by
  obtain ⟨us, hraw⟩ := h.last
  have hwhole : survivors 0xFFFF 0xFFFF raw ++ standalone (s.last 6) (s.last 7) (lanesOf 8 s.high) =
      standalone 0xFFFF 0xFFFF (raw ++ lanesOf 8 s.high) := by
    rw [hraw, List.append_assoc, List.cons_append, List.cons_append, List.nil_append,
      standalone_append]
  rw [hwhole]
  have hasc := h.taken.ascending
  cases raw with
  | nil => exact absurd hraw (by simp)
  | cons w raw =>
    rw [List.cons_append] at hasc ⊢
    have hw : w ≠ 0xFFFF := hfirst w rfl
    obtain ⟨hstrict, hmem⟩ := standalone_spec (x := 0xFFFF) hasc
    rw [standalone, if_pos (.inl rfl)]
    exact ⟨hstrict, fun u ↦ (hmem u).trans (and_iff_right fun heq ↦ hw heq.1)⟩

/-- The pairs that cancel among the block held back and the rest of the array whose blocks have run
out. -/
theorem cancelled_spec (pend sub : List Nat) :
    (((pend ++ sub).foldl insertFromBack []).foldl cancelPair []).Pairwise (· < ·) ∧
      ∀ u, u ∈ ((pend ++ sub).foldl insertFromBack []).foldl cancelPair [] ↔
        Odd (pend.count u + sub.count u) := by
  obtain ⟨hasc, hperm⟩ := insertionFold_spec (pend ++ sub) List.Pairwise.nil
  obtain ⟨hstrict, hmem⟩ := cancelFold_spec (show ([] ++ _ : List Nat).Pairwise (· ≤ ·) from hasc)
    List.Pairwise.nil fun u ↦ by simp
  refine ⟨hstrict, fun u ↦ ?_⟩
  rw [hmem, List.nil_append, hperm.count_eq, List.nil_append, List.count_append]

/-- What is stored, and the values that the scalar merge adds, are the values in exactly one array.
-/
theorem Xoring.join (h : Xoring as bs size s raw) (ha : as.Pairwise (· < ·))
    (hb : bs.Pairwise (· < ·))
    (hfirst : ∀ v ∈ raw.head?, v ≠ 0xFFFF) {sub rest kept : List Nat} (hsub : sub.Pairwise (· < ·))
    (hrest : rest.Pairwise (· < ·))
    (hsubAbove : ∀ x ∈ raw, ∀ y ∈ sub, x ≤ y) (hrestAbove : ∀ x ∈ raw, ∀ y ∈ rest, x ≤ y)
    (hcount : ∀ v, as.count v + bs.count v = (raw ++ lanesOf 8 s.high).count v + sub.count v +
      rest.count v)
    (hkept : kept.Pairwise (· < ·))
    (hodd : ∀ u, u ∈ kept ↔
      Odd ((standalone (s.last 6) (s.last 7) (lanesOf 8 s.high)).count u + sub.count u)) :
    survivors 0xFFFF 0xFFFF raw ++ plainMerge ⟨true, true, false⟩ kept rest =
      plainMerge ⟨true, true, false⟩ as bs := by
  obtain ⟨halone, hmem⟩ := h.alone hfirst
  have habove : ∀ u ∈ survivors 0xFFFF 0xFFFF raw, ∀ v,
      v ∈ standalone (s.last 6) (s.last 7) (lanesOf 8 s.high) ∨ v ∈ sub ∨ v ∈ rest → u < v := by
    intro u hu v hv
    rcases hv with hv | hv | hv
    · exact (List.pairwise_append.1 halone).2.2 u hu v hv
    · exact h.stored_lt hu fun x hx ↦ hsubAbove x hx v hv
    · exact h.stored_lt hu fun x hx ↦ hrestAbove x hx v hv
  obtain ⟨-, hpend, -⟩ := List.pairwise_append.1 halone
  generalize standalone (s.last 6) (s.last 7) (lanesOf 8 s.high) = pend
    at halone hmem habove hpend hodd
  have hboth : ∀ v, (raw ++ lanesOf 8 s.high).count v ≤ 2 := by
    intro v
    have hperm := (h.taken.perm.count_eq v).trans List.count_append
    have hleA := (mem_iff_count_eq_one (ha.sublist (List.take_sublist (8 * s.posA) as)) v).2
    have hleB := (mem_iff_count_eq_one (hb.sublist (List.take_sublist (8 * s.posB) bs)) v).2
    omega
  refine List.Pairwise.eq_of_mem_iff (r :=
    (· < ·)) (List.pairwise_append.2 ⟨(List.pairwise_append.1 halone).1,
    plainMerge_ascending hkept hrest, fun u hu v hv ↦ habove u hu v ?_⟩)
      (plainMerge_ascending ha hb) fun v ↦ ?_
  · rw [mem_plainMerge hkept hrest, MergeRule.Keeps] at hv
    by_cases hin : v ∈ rest
    · exact .inr (.inr hin)
    · have hv' : v ∈ kept := by tauto
      have hpos := ((hodd v).1 hv').pos
      rcases Nat.eq_zero_or_pos (pend.count v) with hzero | hpos'
      · exact .inr (.inl (List.count_pos_iff.1 (by omega)))
      · exact .inl (List.count_pos_iff.1 hpos')
  · obtain ⟨hmemPend, hlePend⟩ := mem_iff_count_eq_one hpend v
    obtain ⟨hmemSub, hleSub⟩ := mem_iff_count_eq_one hsub v
    obtain ⟨hmemRest, hleRest⟩ := mem_iff_count_eq_one hrest v
    have hstream := hmem v
    have hpair := hboth v
    have hlow := habove v
    rw [List.mem_append] at hstream
    rw [List.mem_append, mem_plainMerge_xor ha hb, mem_plainMerge hkept hrest, MergeRule.Keeps,
      hodd, hmemRest, hcount]
    rw [hmemPend] at hstream
    simp only [Bool.false_eq_true, and_false, and_true, or_false, Nat.odd_iff]
    by_cases hstored : v ∈ survivors 0xFFFF 0xFFFF raw
    · have hnone : ¬ (v ∈ pend ∨ v ∈ sub ∨ v ∈ rest) := fun hin ↦ lt_irrefl v (hlow hstored v hin)
      rw [hmemPend, hmemSub, hmemRest] at hnone
      have hone := hstream.1 (.inl hstored)
      refine iff_of_true (.inl hstored) ?_
      omega
    · simp only [hstored, false_or] at hstream ⊢
      omega

theorem Xoring.first_ne (h : Xoring as bs size s raw) (ha : as.Pairwise (· < ·))
    (hb : bs.Pairwise (· < ·))
    (halow : ∀ v ∈ as, v < lowDomainSize) (hblow : ∀ v ∈ bs, v < lowDomainSize) : ∀ v ∈ raw.head?,
      v ≠ 0xFFFF := by
  rintro v hv rfl
  obtain ⟨rest, rfl⟩ := List.head?_eq_some_iff.1 hv
  -- otherwise all of the stream is the greatest value, which is in it twice at most
  have hall : ∀ u ∈ 0xFFFF :: rest ++ lanesOf 8 s.high, 0xFFFF = u := by
    intro u hu
    have hlt := low_of_taken h.taken halow hblow u hu
    have hge : 0xFFFF ≤ u := by
      rcases List.mem_cons.1 hu with rfl | hu
      · exact le_rfl
      · exact List.rel_of_pairwise_cons h.taken.ascending hu
    rw [lowDomainSize] at hlt
    omega
  have hcount := List.count_eq_length.2 hall
  have hperm := (h.taken.perm.count_eq 0xFFFF).trans List.count_append
  have hleA := (mem_iff_count_eq_one (ha.sublist (List.take_sublist (8 * s.posA) as)) 0xFFFF).2
  have hleB := (mem_iff_count_eq_one (hb.sublist (List.take_sublist (8 * s.posB) bs)) 0xFFFF).2
  rw [List.length_append, length_lanesOf] at hcount
  omega

/-- The finish, whichever array has run out of blocks. -/
theorem Xoring.finish (h : Xoring as bs size s raw) (ha : as.Pairwise (· < ·))
    (hb : bs.Pairwise (· < ·))
    (halow : ∀ v ∈ as, v < lowDomainSize) (hblow : ∀ v ∈ bs, v < lowDomainSize)
    (hroom : as.length + bs.length + 8 ≤ size)
    {sub rest : List Nat} (hsub : sub.Pairwise (· < ·)) (hrest : rest.Pairwise (· < ·))
    (hfew : sub.length < 8)
    (hsubAbove : ∀ x ∈ raw, ∀ y ∈ sub, x ≤ y) (hrestAbove : ∀ x ∈ raw, ∀ y ∈ rest, x ≤ y)
    (hlen : 8 * s.posA + 8 * s.posB + sub.length + rest.length = as.length + bs.length)
    (hcount : ∀ v, as.count v + bs.count v = (raw ++ lanesOf 8 s.high).count v + sub.count v +
      rest.count v) :
    LeavesValues (xorFinish s rest sub)
      size (plainMerge ⟨true, true, false⟩ as bs) := by
  have hall := low_of_taken h.taken halow hblow
  have hhigh : ∀ l < 8, s.high l < lowDomainSize := fun l hl ↦ lanes_low raw hall hl
  obtain ⟨us, hraw⟩ := h.last
  have hlast : s.last 7 < lowDomainSize := by
    refine hall _ (List.mem_append_left _ ?_)
    rw [hraw]
    exact List.mem_append_right _ (List.mem_cons_of_mem _ List.mem_cons_self)
  obtain ⟨scratch, hstore, hlength, hfront⟩ := storeUniqueXorSse_spec s.last hlast hhigh
    (show 0 + 8 ≤ (List.replicate 17 0).length by decide)
  have hmany := length_survivors_le (s.last 6) (s.last 7) (lanesOf 8 s.high)
  rw [length_lanesOf] at hmany
  rw [Nat.zero_add, List.take_zero, List.nil_append] at hfront
  rw [Nat.zero_add] at hstore
  rw [List.length_replicate] at hlength
  have hfilled : Filled 17 (survivors (s.last 6) (s.last 7) (lanesOf 8 s.high)) scratch :=
    ⟨hlength, by rw [← hfront]; exact List.take_prefix _ _⟩
  have htop : (if s.high 7 ≠ s.high 6 then [s.high 7] else []).length ≤ 1 := by
    split
    · exact le_rfl
    · exact Nat.zero_le _
  obtain ⟨scratch', hadd, hfilled'⟩ := storeAll_spec hfilled
    (show _ + ((if s.high 7 ≠ s.high 6 then [s.high 7] else []) ++ sub).length ≤ 17 by
      rw [List.length_append]
      omega)
  have hpend : survivors (s.last 6) (s.last 7) (lanesOf 8 s.high) ++
      (if s.high 7 ≠ s.high 6 then [s.high 7] else []) =
      standalone (s.last 6) (s.last 7) (lanesOf 8 s.high) := by
    have hlanes : lanesOf 8 s.high = [s.high 0, s.high 1, s.high 2, s.high 3, s.high 4, s.high 5] ++
      s.high 6 :: s.high 7 :: [] := rfl
    rw [hlanes, standalone_append, standalone]
    congr 1
    rw [ite_not]
  have hpending : scratch'.take ((survivors (s.last 6) (s.last 7) (lanesOf 8 s.high)).length +
      ((if s.high 7 ≠ s.high 6 then [s.high 7] else []) ++ sub).length) =
        standalone (s.last 6) (s.last 7) (lanesOf 8 s.high) ++ sub := by
    rw [← List.length_append, List.prefix_iff_eq_take.1 hfilled'.front |>.symm, ← List.append_assoc,
      hpend]
  have hpendLength : (standalone (s.last 6) (s.last 7) (lanesOf 8 s.high)).length ≤ 9 := by
    rw [← hpend, List.length_append]
    omega
  obtain ⟨hkept, hodd⟩ := cancelled_spec (standalone (s.last 6) (s.last 7) (lanesOf 8 s.high)) sub
  have hjoin := h.join ha hb (h.first_ne ha hb halow hblow) hsub hrest hsubAbove hrestAbove hcount
    hkept hodd
  have hslots := h.slots
  rw [LeavesValues, xorFinish, hstore, Option.bind_some, hadd, Option.bind_some, hpending,
    List.length_append, ← Nat.add_assoc, ← List.length_append,
    hpend, ← List.length_append]
  generalize standalone (s.last 6) (s.last 7) (lanesOf 8 s.high) = pend
    at hkept hodd hjoin hpendLength ⊢
  split
  · rename_i hnone
    rw [List.eq_nil_of_length_eq_zero hnone] at hjoin
    have hwhole : plainMerge ⟨true, true, false⟩ [] rest = rest := by
      rw [plainMerge_nil_left, kept, if_pos rfl]
    obtain ⟨out', hmove, hlength', hfront', -⟩ :=
        memmoveInto_spec rest (show s.count + rest.length ≤ s.out.length by
      rw [h.size]
      omega)
    rw [List.foldl_nil, List.foldl_nil, hwhole] at hjoin
    rw [h.front, hjoin] at hfront'
    rw [hmove, Option.map_some, ← hjoin, List.length_append, ← h.written]
    refine ⟨out', rfl, hlength'.trans h.size, ?_⟩
    rw [hfront', hjoin]
  · have hfewKept : (((pend ++ sub).foldl insertFromBack []).foldl cancelPair []).length ≤
        (pend ++ sub).length := by
      have hnodup : (((pend ++ sub).foldl insertFromBack []).foldl cancelPair []).Nodup :=
        hkept.imp ne_of_lt
      refine hnodup.length_le_of_subset fun u hu ↦ List.count_pos_iff.1 ?_
      rw [List.count_append]
      exact ((hodd u).1 hu).pos
    rw [List.length_append] at hfewKept
    dsimp only
    generalize ((pend ++ sub).foldl insertFromBack []).foldl cancelPair [] = kept
      at hkept hjoin hfewKept ⊢
    obtain ⟨out', hmerge, hlength', hfront'⟩ := mergeSortedScalar_spec (a := .apart kept) (b :=
      .apart rest) hkept hrest
      ⟨Operand.not_inOut_apart, Operand.not_inOut_apart⟩
      (show s.count + mergeCapacity ⟨true, true, false⟩ kept.length rest.length ≤ s.out.length by
        rw [mergeCapacity, if_pos rfl, if_pos rfl, h.size]
        omega) (fun x _ _ ↦ rfl) fun x _ _ ↦ rfl
    rw [h.front, hjoin] at hfront'
    rw [xorSortedScalar, hmerge, ← hjoin, List.length_append, ← h.written]
    refine ⟨out', rfl, hlength'.trans h.size, ?_⟩
    rw [hfront', hjoin]

/-- The tail. -/
theorem Xoring.tail (h : Xoring as bs size s raw) (ha : as.Pairwise (· < ·))
    (hb : bs.Pairwise (· < ·))
    (halow : ∀ v ∈ as, v < lowDomainSize) (hblow : ∀ v ∈ bs, v < lowDomainSize)
    (hroom : as.length + bs.length + 8 ≤ size)
    (hend : ¬ (s.posA < as.length / 8 ∧ s.posB < bs.length / 8)) :
    LeavesValues (xorTail as bs s)
      size (plainMerge ⟨true, true, false⟩ as bs) := by
  have hleft := h.left_le
  have hright := h.right_le
  have hperm := h.taken.perm.count_eq
  have hcut : ∀ (xs : List Nat) (n v : Nat),
      xs.count v = (xs.take n).count v + (xs.drop n).count v := by
    intro xs n v
    rw [← List.count_append, List.take_append_drop]
  rw [xorTail]
  split
  · rename_i hran
    rw [← hran]
    refine h.finish ha hb halow hblow hroom (ha.sublist (List.drop_sublist _ _))
      (hb.sublist (List.drop_sublist _ _)) ?_
      h.taken.before_left h.taken.before_right ?_ fun v ↦ ?_
    · rw [List.length_drop]
      omega
    · rw [List.length_drop, List.length_drop]
      omega
    · rw [hperm, List.count_append, hcut as (8 * s.posA), hcut bs (8 * s.posB)]
      omega
  · rename_i hran
    have hran' : s.posB = bs.length / 8 := by omega
    rw [← hran']
    refine h.finish ha hb halow hblow hroom (hb.sublist (List.drop_sublist _ _))
      (ha.sublist (List.drop_sublist _ _)) ?_
      h.taken.before_right h.taken.before_left ?_ fun v ↦ ?_
    · rw [List.length_drop]
      omega
    · rw [List.length_drop, List.length_drop]
      omega
    · rw [hperm, List.count_append, hcut as (8 * s.posA), hcut bs (8 * s.posB)]
      omega

/-- The kernel leaves the symmetric difference in front of the buffer. -/
theorem xorSortedUint16Sse_spec {out : List Nat} (ha : as.Pairwise (· < ·))
    (hb : bs.Pairwise (· < ·))
    (halow : ∀ v ∈ as, v < lowDomainSize) (hblow : ∀ v ∈ bs, v < lowDomainSize)
    (hblockA : 8 ≤ as.length) (hblockB : 8 ≤ bs.length)
    (hroom : as.length + bs.length + 8 ≤ out.length) :
    LeavesValues (xorSortedUint16Sse as bs out)
      out.length (plainMerge ⟨true, true, false⟩ as bs) := by
  have hholds : ∀ xs : List Nat, (Operand.apart xs).Holds out 0 xs := fun xs x _ _ ↦ rfl
  have hloadA := lanesOf_loadRegister (hholds as) (show 0 + 8 ≤ as.length by omega)
  have hloadB := lanesOf_loadRegister (hholds bs) (show 0 + 8 ≤ bs.length by omega)
  have hlowB : ∀ l < 8, loadRegister out (.apart bs) 0 l < lowDomainSize :=
    fun l hl ↦ lane_lt hblow hloadB l hl
  rw [List.drop_zero] at hloadA hloadB
  have hascA : (lanesOf 8 (loadRegister out (.apart as) 0)).Pairwise (· ≤ ·) := by
    rw [hloadA]
    exact ascending_le (ha.sublist (List.take_sublist _ _))
  have hascB : (lanesOf 8 (loadRegister out (.apart bs) 0)).Pairwise (· ≤ ·) := by
    rw [hloadB]
    exact ascending_le (hb.sublist (List.take_sublist _ _))
  have hmerge := mergeSortedBlocksSse_spec hascA hascB hlowB
  rw [hloadA, hloadB] at hmerge
  have htaken := Taken.start ha hb hmerge
  rw [xorSortedUint16Sse]
  generalize mergeSortedBlocksSse (loadRegister out (.apart as) 0)
    (loadRegister out (.apart bs) 0) = first at htaken ⊢
  have hall := low_of_taken htaken halow hblow
  have hlow : ∀ l < 8, first.1 l < lowDomainSize := fun l hl ↦
    lanes_low [] (fun u hu ↦ hall u (List.mem_append_left _ hu)) hl
  obtain ⟨out₁, hstore, hlength, hfront⟩ :=
    storeUniqueXorSse_spec (fun _ ↦ 0xFFFF) (show 0xFFFF < lowDomainSize by decide) hlow
    (show 0 + 8 ≤ out.length by omega)
  rw [Nat.zero_add, List.take_zero, List.nil_append] at hfront
  rw [Nat.zero_add] at hstore
  have hstart : Xoring as bs out.length ⟨1, 1, (survivors 0xFFFF 0xFFFF (lanesOf 8 first.1)).length,
      first.2, first.1, out₁⟩
      (lanesOf 8 first.1) :=
    ⟨by omega, by
      omega, htaken, ⟨[first.1 0, first.1 1, first.1 2, first.1 3, first.1 4, first.1 5],
      rfl⟩, rfl, hfront, hlength⟩
  obtain ⟨s, hloop, ⟨raw, hs⟩, hend⟩ :=
    loop_spec (fun s ↦ decide (s.posA < as.length / 8 ∧ s.posB < bs.length / 8))
    (xorTurn as bs) (fun s ↦ ∃ raw, Xoring as bs out.length s raw)
    (fun s ↦ as.length / 8 + bs.length / 8 - (s.posA + s.posB)) (fun s hs hagain ↦ by
      obtain ⟨raw, hs⟩ := hs
      obtain ⟨hposA, hposB⟩ := of_decide_eq_true hagain
      obtain ⟨s', raw', hrun, hs', hmore⟩ := hs.turn ha hb halow hblow (by omega) hposA hposB
      exact ⟨s', hrun, ⟨raw', hs'⟩, by omega⟩) (as.length / 8 + bs.length / 8 + 1) ⟨_, hstart⟩
        (by dsimp only; omega)
  rw [hstore, Option.bind_some, hloop, Option.bind_some]
  exact hs.tail ha hb halow hblow hroom (of_decide_eq_false hend)

/-- The kernel leaves exactly the values that are in one array and not in the other, ascending: no
pair of equal values escapes across the blocks, the remainders or the scalar finish, and the scratch
of seventeen values never overflows. -/
theorem xorSortedUint16Sse_differs {out : List Nat} (ha : as.Pairwise (· < ·))
    (hb : bs.Pairwise (· < ·))
    (halow : ∀ v ∈ as, v < lowDomainSize) (hblow : ∀ v ∈ bs, v < lowDomainSize)
    (hblockA : 8 ≤ as.length) (hblockB : 8 ≤ bs.length)
    (hroom : as.length + bs.length + 8 ≤ out.length) :
    ∃ n out', xorSortedUint16Sse as bs out = some (n, out') ∧ out'.length = out.length ∧
      (out'.take n).Pairwise (· < ·) ∧
      ∀ v, v ∈ out'.take n ↔ (v ∈ as ∧ v ∉ bs) ∨ (v ∉ as ∧ v ∈ bs) := by
  obtain ⟨out', hrun, hlength, hfront⟩ :=
    xorSortedUint16Sse_spec ha hb halow hblow hblockA hblockB hroom
  refine ⟨_, out', hrun, hlength, ?_, fun v ↦ ?_⟩
  · rw [hfront]
    exact plainMerge_ascending ha hb
  · rw [hfront, mem_plainMerge ha hb, MergeRule.Keeps]
    simp only [Bool.false_eq_true, and_false, and_true, or_false]

end Run

/-- Two blocks, and a value behind each. -/
theorem xorSortedUint16Sse_differs_blocks : ∃ n out',
    xorSortedUint16Sse (List.range' 0 9) (List.range' 4 9) (List.replicate 26 0) =
      some (n, out') ∧
    out'.length = 26 ∧ (out'.take n).Pairwise (· < ·) ∧
      ∀ v, v ∈ out'.take n ↔ (v ∈ List.range' 0 9 ∧ v ∉ List.range' 4 9) ∨
        (v ∉ List.range' 0 9 ∧ v ∈ List.range' 4 9) :=
  xorSortedUint16Sse_differs (List.pairwise_lt_range' 1) (List.pairwise_lt_range' 1) (by decide)
    (by decide) (by decide) (by decide)
    (by decide)

end Roaring
