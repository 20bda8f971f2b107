import Mathlib
import Roaring.Lib.Slots
import Roaring.Lib.WordRanges
import Roaring.Lib.WordPass

/-!
# The common bits of two blocks as values

The array of an intersection of two bitsets is decoded from their words, into a
buffer of as many slots as the blocks have bits in common.  The portable loops
store a fixed number of values for every word, whether it has as many bits or
not, and move on past the ones it has; the vector loop stores under a mask.
Neither stores outside the slots, and both leave the common bits in them.

A value is computed in 32 bits and stored in the `width` bits of a slot.
-/

namespace Roaring

open Lib

variable {n : Nat}

/-- `words1[ i ] & words2[ i ]`, the words the loops decode. -/
def commonWords (words1 words2 : Words n) : Words n :=
  Words.ofFn n fun i ↦ words1.word i &&& words2.word i

/-- `static_cast<T>` of a `uint32_t`. -/
def slotCast (width v : Nat) : Nat := v % 2 ^ 32 % 2 ^ width

/-! ## The portable loops -/

/-- The `K` values stored for a word: the word that is left of it, the next slot, and the buffer. -/
def storeSome (width base : Nat) : (count : Nat) → (w : Word) → (pos : Nat) → (out : List Nat) →
    Option (Word × Nat × List Nat)
  | 0, w, pos, out => some (w, pos, out)
  | count + 1, w, pos, out => do
      let out ← store out pos (slotCast width (base + (w ||| 1#64 <<< 63).ctz.toNat))
      storeSome width base count (w &&& (w - 1#64)) (if w = 0#64 then pos else pos + 1) out

/-- A word of a group: `K` values of it, and the rest of its bits. -/
def storeWord (K width base : Nat) (w : Word) (pos : Nat) (out : List Nat) :
    Option (Nat × List Nat) := do
  let (w, pos, out) ← storeSome width base K w pos out
  storeSetBits (slotCast width) base w pos out

/-- The first `g` words of the group from word `j` on. -/
def storeGroup (K width : Nat) (words : Words n) (j base : Nat) : (g pos : Nat) → (out : List Nat) →
    Option (Nat × List Nat)
  | 0, pos, out => some (pos, out)
  | g + 1, pos, out => do
      let (pos, out) ← storeGroup K width words j base g pos out
      storeWord K width ((base + 64 * g) % 2 ^ 32) (words.word (j + g)) pos out

/-- Where a decoding loop stands. -/
structure Decoding where
  index : Nat
  base : Nat
  pos : Nat
  out : List Nat

/-- `extract_intersection_setbits_branchless`. -/
def extractIntersectionSetbitsBranchless (K width : Nat) (words : Words n) (card : Nat)
    (s : Decoding) : Option Decoding :=
  if s.index + 4 ≤ n ∧ s.pos + 256 ≤ card then
    if words.word s.index ||| words.word (s.index + 1) ||| words.word (s.index + 2) ||| words.word
        (s.index + 3) = 0#64 then
      extractIntersectionSetbitsBranchless K width words card
        ⟨s.index + 4, (s.base + 256) % 2 ^ 32, s.pos, s.out⟩
    else do
      let (pos, out) ← storeGroup K width words s.index s.base 4 s.pos s.out
      extractIntersectionSetbitsBranchless K width words card
        ⟨s.index + 4, (s.base + 256) % 2 ^ 32, pos, out⟩
  else some s
termination_by n - s.index

/-- The plain loop behind it. -/
def extractIntersectionTail (width : Nat) (words : Words n) (card : Nat) (s : Decoding) :
    Option Decoding :=
  if s.index < n ∧ s.pos < card then do
    let (pos, out) ← storeSetBits (slotCast width) s.base (words.word s.index) s.pos s.out
    extractIntersectionTail width words card ⟨s.index + 1, (s.base + 64) % 2 ^ 32, pos, out⟩
  else some s
termination_by n - s.index

/-- How many values a group stores for every word of it: by the density of the common bits. -/
def valuesPerWord (n card : Nat) : Nat :=
  if card * 5 < n * 2 then 1
  else if card * 5 < n * 4 then 2
  else if card < n * 3 then 4
  else 8

/-- `extract_intersection_setbits_portable`: the buffer that it leaves. -/
def extractIntersectionSetbitsPortable (width : Nat) (words1 words2 : Words n) (out : List Nat)
    (card : Nat) : Option (List Nat) := do
  let s ← extractIntersectionSetbitsBranchless (valuesPerWord n card) width
    (commonWords words1 words2) card ⟨0, 0, 0, out⟩
  let s ← extractIntersectionTail width (commonWords words1 words2) card s
  return s.out

/-! ## The vector loop -/

/-- `_mm512_maskz_compress_epi8`: the lanes under the mask move to the front, the others are
zeros. -/
def maskzCompress (mask : Word) (lanes : List Nat) : List Nat :=
  let kept := ((List.range 64).filter fun i ↦ mask.getLsbD i).map fun i ↦ lanes.getD i 0
  kept ++ List.replicate (64 - kept.length) 0

/-- `_mm512_mask_storeu_epi16` of the first `l` lanes: those under the mask are stored, no other
slot is touched. -/
def maskStore (mask : Word) (lanes : List Nat) (pos : Nat) : (l : Nat) → (out : List Nat) →
    Option (List Nat)
  | 0, out => some out
  | l + 1, out => do
      let out ← maskStore mask lanes pos l out
      if mask.getLsbD l then store out (pos + l) (lanes.getD l 0) else some out

/-- The mask of the first `count` lanes. -/
def firstLanes (count : Nat) : Word :=
  if count = 64 then BitVec.allOnes 64 else 1#64 <<< count - 1#64

/-- `_mm512_add_epi16( base, … )` of bytes widened to 16 bits. -/
def addLanes (base : Nat) (bytes : List Nat) : List Nat := bytes.map fun v ↦ (base + v) % 2 ^ 16

/-- The two stores of a word, of 32 lanes each. -/
def storeLanes (base : Nat) (w : Word) (pos : Nat) (out : List Nat) : Option (List Nat) := do
  let count := popcount w
  let packed := maskzCompress w (List.range 64)
  let lanes := firstLanes count
  let out ← maskStore lanes (addLanes base (packed.take 32)) pos 32 out
  if 32 < count then maskStore (lanes >>> 32) (addLanes base (packed.drop 32)) (pos + 32) 32 out
  else some out

/-- `x86_v4::extract_intersection_setbits_uint16` from where it stands. -/
def extractIntersectionV4 (words : Words n) (card : Nat) (s : Decoding) : Option Decoding :=
  if s.index < n ∧ s.pos < card then do
    let out ← storeLanes s.base (words.word s.index) s.pos s.out
    extractIntersectionV4 words card
      ⟨s.index + 1, (s.base + 64) % 2 ^ 16, s.pos + popcount (words.word s.index), out⟩
  else some s
termination_by n - s.index

/-- `x86_v4::extract_intersection_setbits_uint16`: how many values it wrote, and the buffer that it
leaves. -/
def extractIntersectionSetbitsUint16 (words1 words2 : Words n) (out : List Nat) (card : Nat) :
    Option (Nat × List Nat) := do
  let s ← extractIntersectionV4 (commonWords words1 words2) card ⟨0, 0, 0, out⟩
  return (s.pos, s.out)

/-! ## What is to be stored -/

/-- The positions that two blocks have in common, ascending. -/
def commonValues (words1 words2 : Words n) : List Nat :=
  (List.range (64 * n)).filter fun v ↦ words1.contains v && words2.contains v

theorem word_commonWords (words1 words2 : Words n) (i : Nat) :
    (commonWords words1 words2).word i = words1.word i &&& words2.word i := by
  by_cases hi : i < n
  · rw [commonWords, Words.word_ofFn _ hi]
  · rw [Words.word_of_le _ (not_lt.1 hi), Words.word_of_le _ (not_lt.1 hi), BitVec.zero_and]

theorem values_commonWords (words1 words2 : Words n) : (commonWords words1 words2).values =
    commonValues words1 words2 := by
  apply List.filter_congr
  intro v _
  rw [Words.contains, word_commonWords, BitVec.getLsbD_and]
  rfl

theorem slotCast_mod (width a c : Nat) :
    slotCast width (a % 2 ^ 32 + c) = slotCast width (a + c) := by
  rw [slotCast, slotCast, Nat.mod_add_mod]

theorem map_slotCast_mod (width a : Nat) (w : Word) :
    (bitPositions (a % 2 ^ 32) w).map (slotCast width) = (bitPositions a w).map
      (slotCast width) := by
  rw [← bitPositions_map_add, ← bitPositions_map_add a, List.map_map, List.map_map]
  apply List.map_congr_left
  intro v _
  exact slotCast_mod width a v

/-- A decoding loop at the end of a word: the members below stand in front of the
buffer, and its base is that of the next word, in the `m` values it may take. -/
structure Decoded (m width : Nat) (words : Words n) (s : Decoding) : Prop where
  filled : Filled words.count ((words.valuesBelow s.index).map (slotCast width)) s.out
  pos : s.pos = words.countBelow s.index
  base : s.base = 64 * s.index % m
  index : s.index ≤ n

section Decoded

variable {m width : Nat} {words : Words n} {s : Decoding}

theorem length_map_valuesBelow (k : Nat) :
    ((words.valuesBelow k).map (slotCast width)).length = words.countBelow k := by
  rw [List.length_map, Words.length_valuesBelow]

theorem Decoded.start (m width : Nat) {out : List Nat} (hout : out.length = words.count) :
    Decoded m width words ⟨0, 0, 0, out⟩ where
  filled := hout ▸ Filled.nil out
  pos := rfl
  base := (Nat.zero_mod m).symm
  index := Nat.zero_le n

/-- A word of the block fits behind the words below it. -/
theorem countBelow_add_le {i : Nat} (hi : i < n) : words.countBelow i + popcount (words.word i) ≤
    words.count := by
  rw [← Words.countBelow_succ, ← Words.countBelow_all]
  exact words.countBelow_mono hi

/-- A loop that has no word left, or no slot, has stored all there is. -/
theorem Decoded.finish (h : Decoded m width words s)
    (hend : ¬ (s.index < n ∧ s.pos < words.count)) :
    s.pos = words.count ∧ s.out = words.values.map (slotCast width) := by
  have hcount : words.countBelow s.index = words.count := by
    rcases Nat.lt_or_eq_of_le h.index with hlt | heq
    · refine le_antisymm ?_ (not_lt.1 fun hpos ↦ hend ⟨hlt, h.pos ▸ hpos⟩)
      exact (words.countBelow_mono h.index).trans_eq words.countBelow_all
    · rw [heq, Words.countBelow_all]
  have hvalues : words.valuesBelow s.index = words.values := by
    rw [← Words.valuesBelow_all]
    apply (words.valuesBelow_prefix h.index).eq_of_length
    rw [Words.length_valuesBelow, Words.length_valuesBelow, hcount, Words.countBelow_all]
  refine ⟨h.pos.trans hcount, ?_⟩
  rw [← hvalues]
  apply h.filled.eq
  rw [length_map_valuesBelow, hcount]

/-- The word behind has been decoded. -/
theorem Decoded.next {out : List Nat} {pos base : Nat} (h : Decoded m width words s)
    (hi : s.index < n)
    (hbase : base = 64 * (s.index + 1) % m) (hpos : pos = s.pos + popcount (words.word s.index))
    (hfilled : Filled words.count ((words.valuesBelow s.index).map (slotCast width) ++
      (bitPositions (64 * s.index) (words.word s.index)).map (slotCast width)) out) :
    Decoded m width words ⟨s.index + 1, base, pos, out⟩ where
  filled := by
    rw [← List.map_append] at hfilled
    rwa [Words.valuesBelow_succ]
  pos := by rw [hpos, h.pos, Words.countBelow_succ]
  base := hbase
  index := hi

end Decoded

/-! ## A word of the portable loops -/

/-- The lowest bit of a word is where it was when the highest one is set too. -/
theorem ctz_or_topBit {w : Word} (hw : w ≠ 0#64) : (w ||| 1#64 <<< 63).ctz = w.ctz := by
  have hlt := ctz_lt hw
  have hbit : (w ||| 1#64 <<< 63).getLsbD w.ctz.toNat = true := by
    rw [BitVec.getLsbD_or, BitVec.getLsbD_true_ctz_of_ne_zero hw, Bool.true_or]
  have hne : w ||| 1#64 <<< 63 ≠ 0#64 := by
    intro hzero
    rw [hzero, BitVec.getLsbD_zero] at hbit
    exact Bool.false_ne_true hbit
  have hlt' := ctz_lt hne
  apply BitVec.eq_of_toNat_eq
  rcases Nat.lt_trichotomy (w ||| 1#64 <<< 63).ctz.toNat w.ctz.toNat with hbelow | heq | habove
  · have hlow := BitVec.getLsbD_true_ctz_of_ne_zero hne
    rw [BitVec.getLsbD_or, BitVec.getLsbD_false_of_lt_ctz hbelow, Bool.false_or,
      Words.getLsbD_one_shiftLeft (by decide) hlt', decide_eq_true_iff] at hlow
    omega
  · exact heq
  · rw [BitVec.getLsbD_false_of_lt_ctz habove] at hbit
    exact absurd hbit Bool.false_ne_true

section Loops

variable {size width : Nat} {vs out : List Nat}

/-- The values that are stored for a word whether it has them or not: the ones it
has are kept, and the slot the others land in is still to be written. -/
theorem storeSome_spec (base : Nat) {count : Nat} {w : Word} (h : Filled size vs out)
    (hfit : vs.length + popcount w ≤ size)
    (hroom : count ≤ popcount w ∨ vs.length + popcount w < size) :
    ∃ w' out' done, storeSome width base count w vs.length out =
      some (w', (vs ++ done).length, out') ∧
      Filled size (vs ++ done) out' ∧
      (bitPositions base w).map (slotCast width) = done ++ (bitPositions base w').map
        (slotCast width) := by
  induction count generalizing w vs out with
  | zero =>
    refine ⟨w, out, [], ?_, ?_, rfl⟩
    · rw [List.append_nil]
      rfl
    · rwa [List.append_nil]
  | succ count ih =>
    have hslot : vs.length < size := by
      rcases hroom with hle | hlt <;> omega
    obtain ⟨out', hstore, hfilled⟩ :=
      h.store hslot (slotCast width (base + (w ||| 1#64 <<< 63).ctz.toNat))
    by_cases hw : w = 0#64
    · -- nothing is left: the next store goes to the same slot
      subst hw
      have hlt : vs.length + popcount 0#64 < size := by
        rwa [popcount_zero]
      obtain ⟨w', last, done, hrun, hlast, hvalues⟩ := ih hfilled.of_append hfit (Or.inr hlt)
      refine ⟨w', last, done, ?_, hlast, hvalues⟩
      rw [storeSome, hstore, Option.bind_eq_bind, Option.bind_some, if_pos rfl, BitVec.zero_and]
      exact hrun
    · rw [ctz_or_topBit hw] at hstore hfilled
      rw [popcount_cons hw] at hfit hroom
      have hlen : (vs ++ [slotCast width (base + w.ctz.toNat)]).length = vs.length + 1 := by
        rw [List.length_append, List.length_singleton]
      have hroom' : count ≤ popcount (w &&& (w - 1#64)) ∨
          (vs ++ [slotCast width (base + w.ctz.toNat)]).length + popcount (w &&& (w - 1#64)) <
            size := by
        rw [hlen]
        omega
      obtain ⟨w', last, done, hrun, hlast, hvalues⟩ := ih hfilled (by rw [hlen]; omega) hroom'
      rw [hlen, List.append_assoc, List.singleton_append] at hrun
      rw [List.append_assoc, List.singleton_append] at hlast
      refine ⟨w', last, slotCast width (base + w.ctz.toNat) :: done, ?_, hlast, ?_⟩
      · rw [storeSome, ctz_or_topBit hw, hstore, Option.bind_eq_bind, Option.bind_some, if_neg hw]
        exact hrun
      · rw [bitPositions_cons hw, List.map_cons, hvalues, List.cons_append]

theorem storeWord_spec (base : Nat) {K : Nat} (hK : K < 64) (w : Word) (h : Filled size vs out)
    (hroom : vs.length + 64 ≤ size) :
    ∃ out', storeWord K width base w vs.length out = some (vs.length + popcount w, out') ∧
      Filled size (vs ++ (bitPositions base w).map (slotCast width)) out' := by
  have hle := popcount_le w
  have hcases : K ≤ popcount w ∨ vs.length + popcount w < size := by omega
  obtain ⟨w', mid, done, hsome, hmid, hvalues⟩ :=
    storeSome_spec base h (by omega) hcases
  have hcount : popcount w = done.length + popcount w' := by
    have hlen := congrArg List.length hvalues
    rw [List.length_append, List.length_map,
      List.length_map, ← popcount_eq_length, ← popcount_eq_length] at hlen
    exact hlen
  have hfit : (vs ++ done).length + popcount w' ≤ size := by
    rw [List.length_append]
    omega
  obtain ⟨out', hrest, hfilled⟩ := storeSetBits_spec base hmid hfit
  refine ⟨out', ?_, ?_⟩
  · rw [storeWord, hsome]
    change storeSetBits _ _ _ _ _ = _
    rw [hrest, hcount, List.length_append, Nat.add_assoc]
  · rwa [hvalues, ← List.append_assoc]

end Loops

/-! ## The portable loops -/

section Portable

variable {K width : Nat} {words : Words n} {s : Decoding}

theorem Decoded.fits (h : Decoded (2 ^ 32) width words s) {g : Nat}
    (hroom : s.pos + 64 * (g + 1) ≤ words.count) :
    ((words.valuesBelow (s.index + g)).map (slotCast width)).length + 64 ≤ words.count := by
  have hbelow : words.countBelow (s.index + g) ≤ s.pos + 64 * g := by
    rw [h.pos]
    clear hroom
    induction g with
    | zero => exact le_rfl
    | succ g ih =>
      have hle := popcount_le (words.word (s.index + g))
      rw [← Nat.add_assoc, Words.countBelow_succ]
      omega
  rw [length_map_valuesBelow]
  omega

/-- A group of words, each of them with all of its slots free. -/
theorem storeGroup_spec (hK : K < 64) (h : Decoded (2 ^ 32) width words s) {g : Nat}
    (hg : s.index + g ≤ n) (hroom : s.pos + 64 * g ≤ words.count) :
    ∃ out', storeGroup K width words s.index s.base g s.pos s.out =
      some (words.countBelow (s.index + g), out') ∧
      Filled words.count ((words.valuesBelow (s.index + g)).map (slotCast width)) out' := by
  induction g with
  | zero => exact ⟨s.out, by rw [storeGroup, h.pos]; rfl, h.filled⟩
  | succ g ih =>
    obtain ⟨mid, hmid, hfilled⟩ := ih (by omega) (by omega)
    obtain ⟨out', hword, hlast⟩ :=
      storeWord_spec ((s.base + 64 * g) % 2 ^ 32) hK (words.word (s.index + g)) hfilled
      (h.fits hroom)
    have hbase : (s.base + 64 * g) % 2 ^ 32 = 64 * (s.index + g) % 2 ^ 32 := by
      rw [h.base, Nat.mod_add_mod, Nat.mul_add]
    rw [length_map_valuesBelow, ← Words.countBelow_succ] at hword
    refine ⟨out', ?_, ?_⟩
    · rw [storeGroup, hmid]
      exact hword
    · rw [hbase, map_slotCast_mod, ← List.map_append, ← Words.valuesBelow_succ] at hlast
      exact hlast

/-- Four empty words are passed over, but not their place. -/
theorem Decoded.skip (h : Decoded (2 ^ 32) width words s) (hi : s.index + 4 ≤ n)
    (hempty : words.EmptyBetween s.index (s.index + 4)) :
    Decoded (2 ^ 32) width words ⟨s.index + 4, (s.base + 256) % 2 ^ 32, s.pos, s.out⟩ where
  filled := by
    rw [Words.valuesBelow_skip (Nat.le_add_right _ 4) hempty]
    exact h.filled
  pos := h.pos.trans (Words.countBelow_skip (Nat.le_add_right _ 4) hempty).symm
  base := by rw [h.base, Nat.mod_add_mod]; rfl
  index := hi

theorem emptyBetween_of_or {i : Nat}
    (h : words.word i ||| words.word (i + 1) ||| words.word (i + 2) ||| words.word (i + 3) = 0#64) :
    words.EmptyBetween i (i + 4) := by
  simp only [BitVec.or_eq_zero_iff] at h
  obtain ⟨⟨⟨h0, h1⟩, h2⟩, h3⟩ := h
  intro j hle hlt
  obtain rfl | rfl | rfl | rfl : j = i ∨ j = i + 1 ∨ j = i + 2 ∨ j = i + 3 := by omega
  · exact h0
  · exact h1
  · exact h2
  · exact h3

theorem extractIntersectionSetbitsBranchless_spec (hK : K < 64)
    (h : Decoded (2 ^ 32) width words s) :
    ∃ s', extractIntersectionSetbitsBranchless K width words words.count s = some s' ∧
      Decoded (2 ^ 32) width words s' := by
  induction hm : n - s.index using Nat.strong_induction_on generalizing s with
  | _ m ih =>
    rw [extractIntersectionSetbitsBranchless]
    split
    · rename_i hgo
      split
      · rename_i hempty
        exact ih _ (by change n - (s.index + 4) < m; omega)
          (h.skip hgo.1 (emptyBetween_of_or hempty)) rfl
      · obtain ⟨out', hgroup, hfilled⟩ := storeGroup_spec (g := 4) hK h hgo.1 hgo.2
        rw [hgroup]
        refine ih _ (by change n - (s.index + 4) < m; omega) ?_ rfl
        constructor
        · exact hfilled
        · rfl
        · change (s.base + 256) % 2 ^ 32 = _
          rw [h.base, Nat.mod_add_mod]
          rfl
        · exact hgo.1
    · exact ⟨s, rfl, h⟩

theorem extractIntersectionTail_spec (h : Decoded (2 ^ 32) width words s) :
    ∃ s', extractIntersectionTail width words words.count s = some s' ∧
      s'.out = words.values.map (slotCast width) := by
  induction hm : n - s.index using Nat.strong_induction_on generalizing s with
  | _ m ih =>
    rw [extractIntersectionTail]
    split
    · rename_i hgo
      have hfit : ((words.valuesBelow s.index).map (slotCast width)).length + popcount
          (words.word s.index) ≤ words.count := by
        rw [length_map_valuesBelow]
        exact countBelow_add_le hgo.1
      obtain ⟨out', hstore, hfilled⟩ := storeSetBits_spec s.base h.filled hfit
      rw [length_map_valuesBelow, ← h.pos] at hstore
      rw [h.base, map_slotCast_mod] at hfilled
      rw [hstore]
      refine ih _ (by change n - (s.index + 1) < m; omega) (h.next hgo.1 ?_ rfl hfilled) rfl
      rw [h.base, Nat.mod_add_mod, Nat.mul_add]
    · rename_i hend
      exact ⟨s, rfl, (h.finish hend).2⟩

theorem valuesPerWord_lt (n card : Nat) : valuesPerWord n card < 64 := by
  unfold valuesPerWord
  split
  · decide
  · split
    · decide
    · split <;> decide

end Portable

/-! ## The vector loop -/

section Vector

variable {words : Words n} {s : Decoding}

theorem getLsbD_firstLanes {count l : Nat} (hcount : count ≤ 64) :
    (firstLanes count).getLsbD l = decide (l < count) := by
  unfold firstLanes
  split
  · rename_i hall
    rw [BitVec.getLsbD_allOnes, hall]
  · rename_i hne
    have hlt : count < 64 := Nat.lt_of_le_of_ne hcount hne
    have hpow : (1#64 <<< count).toNat = 2 ^ count := by
      rw [BitVec.toNat_shiftLeft, Nat.shiftLeft_eq]
      change 1 * 2 ^ count % 2 ^ 64 = _
      rw [Nat.one_mul, Nat.mod_eq_of_lt (Nat.pow_lt_pow_right (by decide) hlt)]
    have hone : (1#64).toNat ≤ (1#64 <<< count).toNat := by
      rw [hpow]
      exact Nat.one_le_two_pow
    change (1#64 <<< count - 1#64).toNat.testBit l = _
    rw [BitVec.toNat_sub_of_le (by simpa [BitVec.le_def] using hone), hpow]
    exact Nat.testBit_two_pow_sub_one _ _

/-- A store under the mask of the first lanes stores just those. -/
theorem maskStore_spec {size c L : Nat} {mask : Word} {lanes vs out : List Nat}
    (hmask : ∀ l < L, mask.getLsbD l = decide (l < c)) (h : Filled size vs out)
    (hfit : vs.length + min c L ≤ size) (hlanes : L ≤ lanes.length) :
    ∃ out', maskStore mask lanes vs.length L out = some out' ∧
      Filled size (vs ++ lanes.take (min c L)) out' := by
  induction L with
  | zero =>
    refine ⟨out, rfl, ?_⟩
    rwa [Nat.min_zero, List.take_zero, List.append_nil]
  | succ L ih =>
    obtain ⟨mid, hmid, hfilled⟩ := ih (fun l hl ↦ hmask l (Nat.lt_succ_of_lt hl))
      (by omega) (Nat.le_of_succ_le hlanes)
    rw [maskStore, hmid, Option.bind_eq_bind, Option.bind_some, hmask L (Nat.lt_succ_self L)]
    by_cases hc : L < c
    · have hmin : min c L = L := by omega
      have hmin' : min c (L + 1) = L + 1 := by omega
      rw [hmin] at hfilled
      rw [hmin'] at hfit ⊢
      have hlen : (vs ++ lanes.take L).length = vs.length + L := by
        rw [List.length_append, List.length_take, min_eq_left (Nat.le_of_succ_le hlanes)]
      obtain ⟨out', hstore, hlast⟩ := hfilled.store (by rw [hlen]; omega) (lanes.getD L 0)
      rw [hlen] at hstore
      refine ⟨out', by rwa [if_pos (decide_eq_true hc)], ?_⟩
      rw [List.getD_eq_getElem _ _ hlanes, List.append_assoc,
        List.take_concat_get' _ _ hlanes] at hlast
      exact hlast
    · have hmin : min c (L + 1) = min c L := by omega
      rw [hmin, if_neg (by simpa using hc)]
      exact ⟨mid, rfl, hfilled⟩

/-- The set bits of a word stand in front of its compressed lanes. -/
theorem maskzCompress_range (w : Word) :
    maskzCompress w (List.range 64) = bitPositions 0 w ++ List.replicate (64 - popcount w) 0 := by
  have hkept : ((List.range 64).filter fun i ↦ w.getLsbD i).map (fun i ↦ (List.range 64).getD i 0) =
      bitPositions 0 w := by
    rw [bitPositions]
    apply List.map_congr_left
    intro i hi
    have hlt := List.mem_range.1 (List.mem_of_mem_filter hi)
    rw [List.getD_eq_getElem _ _ (by rwa [List.length_range]), List.getElem_range, Nat.zero_add]
  rw [maskzCompress, hkept, ← popcount_eq_length]

theorem length_maskzCompress (w : Word) : (maskzCompress w (List.range 64)).length = 64 := by
  have hle := popcount_le w
  rw [maskzCompress_range, List.length_append, ← popcount_eq_length, List.length_replicate]
  omega

/-- The lanes of a block's word, in 16 bits, are its values. -/
theorem addLanes_bitPositions (i : Nat) (w : Word) :
    addLanes (64 * i % 2 ^ 16) (bitPositions 0 w) = (bitPositions (64 * i) w).map
      (slotCast 16) := by
  rw [← bitPositions_map_add (64 * i), List.map_map, addLanes]
  apply List.map_congr_left
  intro v _
  rw [Nat.mod_add_mod]
  exact (Nat.mod_mod_of_dvd _ (Nat.pow_dvd_pow 2 (by decide))).symm

/-- Both stores of a word: its values are stored, and nothing else is. -/
theorem storeLanes_spec {size : Nat} (base : Nat) {w : Word} {vs out : List Nat}
    (h : Filled size vs out) (hfit : vs.length + popcount w ≤ size) :
    ∃ out', storeLanes base w vs.length out = some out' ∧
      Filled size (vs ++ addLanes base (bitPositions 0 w)) out' := by
  have hle := popcount_le w
  have hbits := popcount_eq_length 0 w
  have hpacked := length_maskzCompress w
  have hlow : ∀ l < 32, (firstLanes (popcount w)).getLsbD l = decide (l < popcount w) :=
    fun l _ ↦ getLsbD_firstLanes hle
  have hlowlen : 32 ≤ (addLanes base ((maskzCompress w (List.range 64)).take 32)).length := by
    rw [addLanes, List.length_map, List.length_take, hpacked]
    decide
  obtain ⟨mid, hmid, hfilled⟩ := maskStore_spec hlow h (by omega) hlowlen
  have hfront : (addLanes base ((maskzCompress w (List.range 64)).take 32)).take
      (min (popcount w) 32) =
      addLanes base ((bitPositions 0 w).take 32) := by
    rw [addLanes, addLanes, ← List.map_take, List.take_take, min_eq_left (min_le_right _ 32),
      maskzCompress_range,
      List.take_append_of_le_length (by omega), min_comm, ← List.take_take, hbits, List.take_length]
  rw [hfront] at hfilled
  rw [storeLanes]
  simp only [hmid, Option.bind_eq_bind, Option.bind_some]
  by_cases hmore : 32 < popcount w
  · have hhigh : ∀ l < 32, (firstLanes (popcount w) >>> 32).getLsbD l =
        decide (l < popcount w - 32) := by
      intro l _
      rw [BitVec.getLsbD_ushiftRight, getLsbD_firstLanes hle]
      exact decide_eq_decide.2 (by omega)
    have hhighlen : 32 ≤ (addLanes base ((maskzCompress w (List.range 64)).drop 32)).length := by
      rw [addLanes, List.length_map, List.length_drop, hpacked]
    have hlen : (vs ++ addLanes base ((bitPositions 0 w).take 32)).length = vs.length + 32 := by
      rw [List.length_append, addLanes, List.length_map, List.length_take, ← hbits]
      omega
    obtain ⟨out', hout, hlast⟩ := maskStore_spec hhigh hfilled (by rw [hlen]; omega) hhighlen
    rw [hlen] at hout
    refine ⟨out', by rwa [if_pos hmore], ?_⟩
    have hback : (addLanes base ((maskzCompress w (List.range 64)).drop 32)).take
        (min (popcount w - 32) 32) =
        addLanes base ((bitPositions 0 w).drop 32) := by
      have hmin : min (popcount w - 32) 32 = ((bitPositions 0 w).drop 32).length := by
        rw [List.length_drop, ← hbits]
        omega
      rw [addLanes, addLanes, ← List.map_take, maskzCompress_range,
        List.drop_append_of_le_length (by omega), hmin,
        List.take_left]
    rw [hback, List.append_assoc, addLanes, addLanes, ← List.map_append,
      List.take_append_drop] at hlast
    exact hlast
  · refine ⟨mid, if_neg hmore, ?_⟩
    rwa [List.take_of_length_le (by omega)] at hfilled

theorem extractIntersectionV4_spec (h : Decoded (2 ^ 16) 16 words s) :
    ∃ s', extractIntersectionV4 words words.count s = some s' ∧ s'.pos = words.count ∧
      s'.out = words.values.map (slotCast 16) := by
  induction hm : n - s.index using Nat.strong_induction_on generalizing s with
  | _ m ih =>
    rw [extractIntersectionV4]
    split
    · rename_i hgo
      have hlen : ((words.valuesBelow s.index).map (slotCast 16)).length = s.pos := by
        rw [length_map_valuesBelow, h.pos]
      have hfit : ((words.valuesBelow s.index).map (slotCast 16)).length + popcount
          (words.word s.index) ≤ words.count := by
        rw [length_map_valuesBelow]
        exact countBelow_add_le hgo.1
      obtain ⟨out', hstore, hfilled⟩ := storeLanes_spec s.base h.filled hfit
      rw [hlen] at hstore
      rw [h.base, addLanes_bitPositions] at hfilled
      rw [hstore]
      refine ih _ (by change n - (s.index + 1) < m; omega) (h.next hgo.1 ?_ rfl hfilled) rfl
      rw [h.base, Nat.mod_add_mod, Nat.mul_add]
    · rename_i hend
      exact ⟨s, rfl, h.finish hend⟩

end Vector

/-! ## The decoders -/

/-- For every two blocks of any length and a buffer of as many slots as they have
common bits, whatever the slots hold: no store leaves the buffer, and the values
of the common bits fill it in ascending order, in the bits that a slot has. -/
theorem extractIntersection_spec (width : Nat) (words1 words2 : Words n) (out : List Nat)
    (hout : out.length = (commonValues words1 words2).length) :
    extractIntersectionSetbitsPortable width words1 words2 out out.length =
        some ((commonValues words1 words2).map (slotCast width)) ∧
      extractIntersectionSetbitsUint16 words1 words2 out out.length =
        some (out.length, (commonValues words1 words2).map (slotCast 16)) ∧
      (commonValues words1 words2).Pairwise (· < ·) ∧
      (64 * n ≤ 2 ^ 32 → 64 * n ≤ 2 ^ width →
        (commonValues words1 words2).map (slotCast width) = commonValues words1 words2) := by
  rw [← values_commonWords] at hout ⊢
  rw [← Words.count_eq_length_values] at hout
  refine ⟨?_, ?_, Words.values_ascending _, ?_⟩
  · obtain ⟨s, hfour, hdecoded⟩ := extractIntersectionSetbitsBranchless_spec
      (valuesPerWord_lt n (commonWords words1 words2).count) (Decoded.start (2 ^ 32) width hout)
    obtain ⟨last, htail, hlast⟩ := extractIntersectionTail_spec hdecoded
    rw [extractIntersectionSetbitsPortable, hout, hfour, Option.bind_eq_bind,
      Option.bind_some, htail]
    exact congrArg some hlast
  · obtain ⟨last, hrun, hpos, hlast⟩ := extractIntersectionV4_spec (Decoded.start (2 ^ 16) 16 hout)
    rw [extractIntersectionSetbitsUint16, hout, hrun]
    exact congrArg some (Prod.ext hpos hlast)
  · intro hwide hwidth
    conv_rhs => rw [← List.map_id (commonWords words1 words2).values]
    apply List.map_congr_left
    intro v hv
    have hlt := Words.lt_of_mem_values hv
    rw [slotCast, Nat.mod_eq_of_lt (hlt.trans_le hwide), Nat.mod_eq_of_lt (hlt.trans_le hwidth)]
    rfl

/-- Four words without a common bit, which are passed over together, a group of four full ones
behind them, and one more for the tail. -/
theorem extractIntersection_spec_groups :
    let words1 : Words 9 := Words.ofFn 9 fun _ ↦ BitVec.allOnes 64
    let words2 : Words 9 := Words.ofFn 9 fun i ↦ if i < 4 then 0#64 else BitVec.allOnes 64
    let out := List.replicate 320 9
    extractIntersectionSetbitsPortable 16 words1 words2 out 320 = some (List.range' 256 320) ∧
      extractIntersectionSetbitsUint16 words1 words2 out 320 =
        some (320, List.range' 256 320) := by
  intro words1 words2 out
  have hcommon : commonValues words1 words2 = List.range' 256 320 := by decide +kernel
  have hout : out.length = 320 := List.length_replicate
  obtain ⟨hportable, hvector, -, hvalues⟩ := extractIntersection_spec 16 words1 words2 out
    (by rw [hcommon, hout, List.length_range'])
  rw [hvalues (by decide) (by decide), hcommon, hout] at hportable hvector
  exact ⟨hportable, hvector⟩

end Roaring
