import Mathlib
import Roaring.Lib.BlockMatch
import Roaring.Container.ArrayUnion
import Roaring.Container.Handle

/-!
# Vector intersections of sorted arrays

The kernels compare a block of one array with a block of the other, every lane with every
lane, put the lanes that match in front of a register, and move on in the array whose
block ends lower; what is left of the last blocks is matched one value at a time.

The walk over the blocks is one definition, whatever becomes of the lanes that match: they
are stored behind each other, or staged beside the array until it may be written over, or
counted.
-/

namespace Roaring

open Lib

/-! ## Instructions -/

/-- A row of `array_intersect_compact_table`: the bytes of the lanes that are kept, in front, and
behind them bytes that name none. -/
def compactControl (keep : Nat → Bool) : List Nat :=
  let kept := (List.range' 0 8).filter keep
  kept.flatMap (fun lane ↦ [2 * lane, 2 * lane + 1]) ++ List.replicate (2 * (8 - kept.length)) 0x80

/-- The byte that a control byte of `_mm_shuffle_epi8` names: none if its high bit is set. -/
def namedByte (v : Lanes) (control : Nat) : Nat :=
  if control.testBit 7 then 0 else v (control % 16 / 2) / 256 ^ (control % 2) % 256

/-- `_mm_shuffle_epi8`. -/
def shuffleBytes (v : Lanes) (control : List Nat) : Lanes := fun i ↦
  namedByte v (control.getD (2 * i) 0) + 256 * namedByte v (control.getD (2 * i + 1) 0)

/-- `_mm_cmpestrm`, equal any: the lanes of the first `la` of `va` that are among the first `lb` of
`vb`. -/
def cmpestrm (vb : Lanes) (lb : Nat) (va : Lanes) (la : Nat) : Nat → Bool := fun i ↦
  decide (i < la) && (List.range' 0 lb).any fun j ↦ vb j == va i

/-- The implicit length: the lanes in front of the first zero. -/
def implicitLength (v : Lanes) : Nat := ((List.range' 0 8).takeWhile fun i ↦ v i != 0).length

/-- `_mm_cmpistrm`. -/
def cmpistrm (vb va : Lanes) : Nat → Bool := cmpestrm vb (implicitLength vb) va (implicitLength va)

/-- The eight compares with a broadcast lane, and their disjunction. -/
def compareBroadcast (vb va : Lanes) : Nat → Bool := fun i ↦
  va i == vb 0 || (va i == vb 1 || va i == vb 2) || (va i == vb 3 || va i == vb 4) ||
    (va i == vb 5 || va i == vb 6) || va i == vb 7

/-- `_mm512_2intersect_epi32`, the mask of the first operand. -/
def twoIntersect (vb va : Lanes) : Nat → Bool := fun i ↦ (List.range' 0 16).any fun j ↦ vb j == va i

/-- How many of the first `w` lanes are kept. -/
def popcountLanes (w : Nat) (keep : Nat → Bool) : Nat := ((List.range' 0 w).filter keep).length

/-! ## The walk over the blocks -/

/-- What becomes of the lanes that match. -/
structure BlockSink (σ : Type) where
  emit : (v : Lanes) → (keep : Nat → Bool) → σ → Option σ
  /-- after the first array has moved on -/
  flush : σ → Option σ
  buffer : σ → List Nat

structure BlockWalk (σ : Type) where
  ia : Nat
  ib : Nat
  va : Lanes
  vb : Lanes
  sink : σ
  ended : Bool

section Walk

variable {σ : Type} (K : BlockSink σ) (a : Operand) (sta : Nat) (b : Operand) (stb : Nat)

/-- `ia += vl`. -/
def moveLeft (s : BlockWalk σ) : Option (BlockWalk σ) :=
  (K.flush s.sink).map fun sink ↦
    if s.ia + 8 = sta then { s with ia := s.ia + 8, sink := sink, ended := true }
    else { s with ia := s.ia + 8, sink := sink, va := loadRegister (K.buffer sink) a (s.ia + 8) }

/-- `ib += vl`. -/
def moveRight (s : BlockWalk σ) : BlockWalk σ :=
  if s.ib + 8 = stb then { s with ib := s.ib + 8, ended := true }
  else { s with ib := s.ib + 8, vb := loadRegister (K.buffer s.sink) b (s.ib + 8) }

/-- A turn: the two blocks are compared, and the one that ends lower is left behind. -/
def blockTurn (compare : Lanes → Lanes → Nat → Bool) (s : BlockWalk σ) : Option (BlockWalk σ) :=
  (K.emit s.va (compare s.vb s.va) s.sink).bind fun sink ↦
    let amax := a.read (K.buffer sink) (s.ia + 7)
    let bmax := b.read (K.buffer sink) (s.ib + 7)
    (if amax ≤ bmax then moveLeft K a sta { s with sink := sink }
        else some { s with sink := sink }).map fun t ↦
      if t.ended then t else if bmax ≤ amax then moveRight K b stb t else t

/-- Whether one of the current blocks starts with a zero, at which the implicit length would end. -/
def startsWithZero (s : BlockWalk σ) : Bool :=
  a.read (K.buffer s.sink) s.ia == 0 || b.read (K.buffer s.sink) s.ib == 0

/-- The blocks of eight, with explicit lengths while one starts with a zero. -/
def walkBlocksSse42 (sink : σ) : Option (BlockWalk σ) :=
  let start : BlockWalk σ :=
    ⟨0, 0, loadRegister (K.buffer sink) a 0, loadRegister (K.buffer sink) b 0, sink, false⟩
  if 0 < sta ∧ 0 < stb then
    (loop (fun s ↦ !s.ended && startsWithZero K a b s)
      (blockTurn K a sta b stb fun vb va ↦ cmpestrm vb 8 va 8) (sta + stb + 1) start).bind fun s ↦
        if s.ia < sta ∧ s.ib < stb then
          loop (fun s ↦ !s.ended) (blockTurn K a sta b stb cmpistrm) (sta + stb + 1) s
        else some s
  else some start

/-- The blocks of eight, with broadcast lanes. -/
def walkBlocksNeon (sink : σ) : Option (BlockWalk σ) :=
  let start : BlockWalk σ :=
    ⟨0, 0, loadRegister (K.buffer sink) a 0, loadRegister (K.buffer sink) b 0, sink, false⟩
  if 0 < sta ∧ 0 < stb then
    loop (fun s ↦ !s.ended) (blockTurn K a sta b stb compareBroadcast) (sta + stb + 1) start
  else some start

end Walk

/-! ## The kernels -/

/-- A step of the scalar tail. -/
def matchStep (a b : Operand) (s : MergeState) : Option MergeState :=
  let av := a.read s.out s.i
  let bv := b.read s.out s.j
  if av < bv then some ⟨s.i + 1, s.j, s.k, s.out⟩
  else if bv < av then some ⟨s.i, s.j + 1, s.k, s.out⟩
  else (store s.out s.k av).map fun out ↦ ⟨s.i + 1, s.j + 1, s.k + 1, out⟩

/-- The scalar tail: the number of values, and the buffer. -/
def matchTail (a : Operand) (sa : Nat) (b : Operand) (sb : Nat) (s : MergeState) :
    Option (Nat × List Nat) :=
  (loop (fun s ↦ decide (s.i < sa ∧ s.j < sb)) (matchStep a b) (sa + sb + 1) s).map fun s ↦
    (s.k, s.out)

/-- The matches are stored behind each other, a whole register at a time: the count, and the
buffer. -/
def storingSink : BlockSink (Nat × List Nat) where
  emit v keep s := (memmoveInto s.2 s.1 (lanesOf 8 (shuffleBytes v (compactControl keep)))).map
    fun out ↦ (s.1 + popcountLanes 8 keep, out)
  flush s := some s
  buffer s := s.2

/-- `intersect_array_array_sse42`, and `intersect_array_array_neon`. -/
def intersectArrayArrayWith
    (walk : {σ : Type} → BlockSink σ → Operand → Nat → Operand → Nat → σ → Option (BlockWalk σ))
    (a : Operand) (sa : Nat) (b : Operand) (sb : Nat) (out : List Nat) : Option (Nat × List Nat) :=
  (walk storingSink a (sa / 8 * 8) b (sb / 8 * 8) (0, out)).bind fun s ↦
    matchTail a sa b sb ⟨s.ia, s.ib, s.sink.1, s.sink.2⟩

def intersectArrayArraySse42 : (a : Operand) → (sa : Nat) → (b : Operand) → (sb : Nat) →
    (out : List Nat) → Option (Nat × List Nat) :=
  intersectArrayArrayWith walkBlocksSse42

def intersectArrayArrayNeon : (a : Operand) → (sa : Nat) → (b : Operand) → (sb : Nat) →
    (out : List Nat) → Option (Nat × List Nat) :=
  intersectArrayArrayWith walkBlocksNeon

/-- Where the matches wait until the first array has moved on. -/
structure Staging where
  count : Nat
  tmp : List Nat
  tmpCount : Nat
  out : List Nat

/-- The matches are staged, and flushed over the part of the array that has been read. -/
def stagingSink : BlockSink Staging where
  emit v keep s :=
    (memmoveInto s.tmp s.tmpCount (lanesOf 8 (shuffleBytes v (compactControl keep)))).map
      fun tmp ↦ { s with tmp := tmp, tmpCount := s.tmpCount + popcountLanes 8 keep }
  flush s := (memmoveInto s.out s.count (s.tmp.take 8)).bind fun out ↦
    (memmoveInto s.tmp 0 (List.replicate 8 0)).map fun tmp ↦ ⟨s.count + s.tmpCount, tmp, 0, out⟩
  buffer s := s.out

/-- `intersect_array_array_inplace_sse42`, and `intersect_array_array_inplace_neon`: `a` is the
buffer. -/
def intersectArrayArrayInplaceWith
    (walk : {σ : Type} → BlockSink σ → Operand → Nat → Operand → Nat → σ → Option (BlockWalk σ))
    (out : List Nat) (b : Operand) (sb : Nat) : Option (Nat × List Nat) :=
  let sa := out.length
  (walk stagingSink (.inOut 0) (sa / 8 * 8) b (sb / 8 * 8) ⟨0, List.replicate 16 0, 0, out⟩).bind
      fun s ↦
    (storeAll (s.sink.tmp.take s.sink.tmpCount) s.sink.count s.sink.out).bind fun r ↦
      -- the lanes at the front of the block were matched against all that may hold them
      matchTail (.inOut 0) sa b sb ⟨s.ia + s.sink.tmpCount, s.ib, r.1, r.2⟩

def intersectArrayArrayInplaceSse42 : (out : List Nat) → (b : Operand) → (sb : Nat) →
    Option (Nat × List Nat) :=
  intersectArrayArrayInplaceWith walkBlocksSse42

def intersectArrayArrayInplaceNeon : (out : List Nat) → (b : Operand) → (sb : Nat) →
    Option (Nat × List Nat) :=
  intersectArrayArrayInplaceWith walkBlocksNeon

/-- The matches are counted. -/
def countingSink : BlockSink Nat where
  emit _ keep s := some (s + popcountLanes 8 keep)
  flush s := some s
  buffer _ := []

/-- A step of the counting tail: both cursors move at a common value. -/
def countStep (a b : Operand) (s : Nat × Nat × Nat) : Nat × Nat × Nat :=
  let av := a.read [] s.1
  let bv := b.read [] s.2.1
  (s.1 + (if av ≤ bv then 1 else 0), s.2.1 + (if bv ≤ av then 1 else 0),
    s.2.2 + (if av = bv then 1 else 0))

/-- `intersect_cardinality_array_array_sse42`. -/
def intersectCardinalityArrayArraySse42 (a : Operand) (sa : Nat) (b : Operand) (sb : Nat) :
    Option Nat :=
  (walkBlocksSse42 countingSink a (sa / 8 * 8) b (sb / 8 * 8) 0).bind fun s ↦
    (loop (fun s ↦ decide (s.1 < sa ∧ s.2.1 < sb)) (fun s ↦ some (countStep a b s)) (sa + sb + 1)
      (s.ia, s.ib, s.sink)).map fun t ↦ t.2.2

/-- A turn of the wide kernel: `(ia, ib, count, out)`. -/
def wideTurn (a b : Operand) (s : MergeState) : Option MergeState :=
  let va := loadRegister s.out a s.i
  let keep := twoIntersect (loadRegister s.out b s.j) va
  (memmoveInto s.out s.k
      (lanesOf 16 fun i ↦ (((List.range' 0 16).filter keep).map va).getD i 0)).map fun out ↦
    let amax := a.read out (s.i + 15)
    let bmax := b.read out (s.j + 15)
    ⟨s.i + (if amax ≤ bmax then 16 else 0), s.j + (if bmax ≤ amax then 16 else 0),
      s.k + popcountLanes 16 keep, out⟩

/-- `x86_vp2::intersect_sorted_uint16`. -/
def intersectSortedUint16 (a : Operand) (sa : Nat) (b : Operand) (sb : Nat) (out : List Nat) :
    Option (Nat × List Nat) :=
  (loop (fun s ↦ decide (s.i < sa / 16 * 16 ∧ s.j < sb / 16 * 16)) (wideTurn a b) (sa + sb + 1)
    ⟨0, 0, 0, out⟩).bind (matchTail a sa b sb)

/-! ## What the instructions do -/

/-- The lanes that are kept, in order. -/
def keptLanes (w : Nat) (v : Lanes) (keep : Nat → Bool) : List Nat :=
  ((List.range' 0 w).filter keep).map v

section Instructions

variable {v va vb : Lanes} {keep : Nat → Bool} {w : Nat}

theorem length_keptLanes (w : Nat) (v : Lanes) (keep : Nat → Bool) :
    (keptLanes w v keep).length = popcountLanes w keep :=
  List.length_map _

theorem popcountLanes_le (w : Nat) (keep : Nat → Bool) : popcountLanes w keep ≤ w :=
  (List.length_filter_le _ _).trans_eq (List.length_range' ..)

theorem getD_pairs {kept : List Nat} (rest : List Nat) {i : Nat} (hi : i < kept.length) :
    (kept.flatMap (fun lane ↦ [2 * lane, 2 * lane + 1]) ++ rest).getD (2 * i) 0 = 2 * kept[i] ∧
      (kept.flatMap (fun lane ↦ [2 * lane, 2 * lane + 1]) ++ rest).getD (2 * i + 1) 0 =
        2 * kept[i] + 1 := by
  induction kept generalizing i with
  | nil => exact absurd hi (Nat.not_lt_zero _)
  | cons lane kept ih =>
    cases i with
    | zero => exact ⟨rfl, rfl⟩
    | succ i => exact ih (Nat.lt_of_succ_lt_succ hi)

theorem namedByte_pair {l : Nat} (hl : l < 8) (hv : v l < lowDomainSize) :
    namedByte v (2 * l) + 256 * namedByte v (2 * l + 1) = v l := by
  have hfacts : ∀ l < 8, (2 * l).testBit 7 = false ∧ (2 * l + 1).testBit 7 = false ∧
      2 * l % 16 / 2 = l ∧ (2 * l + 1) % 16 / 2 = l ∧
      2 * l % 2 = 0 ∧ (2 * l + 1) % 2 = 1 := by decide
  obtain ⟨hlow, hhigh, hlane, hlane', hfirst, hsecond⟩ := hfacts l hl
  rw [namedByte, namedByte, hlow, hhigh, hlane, hlane', hfirst, hsecond, if_neg Bool.false_ne_true,
    if_neg Bool.false_ne_true,
    pow_zero, pow_one, Nat.div_one]
  rw [lowDomainSize] at hv
  omega

/-- The shuffle puts the lanes that are kept in front. -/
theorem shuffleBytes_compactControl (hv : ∀ l < 8, v l < lowDomainSize) {i : Nat} (hi : i < 8) :
    shuffleBytes v (compactControl keep) i = (keptLanes 8 v keep).getD i 0 := by
  have hcount := popcountLanes_le 8 keep
  rw [popcountLanes] at hcount
  have hlanes : ∀ l ∈ (List.range' 0 8).filter keep, l < 8 := by
    intro l hl
    have hrange := List.mem_range'_1.1 (List.mem_of_mem_filter hl)
    omega
  rw [shuffleBytes, compactControl, keptLanes]
  generalize (List.range' 0 8).filter keep = kept at hcount hlanes
  rcases Nat.lt_or_ge i kept.length with hlt | hge
  · obtain ⟨hlow, hhigh⟩ := getD_pairs (List.replicate (2 * (8 - kept.length)) 0x80) hlt
    have hlane := hlanes kept[i] (List.getElem_mem hlt)
    rw [hlow, hhigh, namedByte_pair hlane (hv _ hlane),
      List.getD_eq_getElem _ _ (by rwa [List.length_map]), List.getElem_map]
  · have hlen : (kept.flatMap fun lane ↦ [2 * lane, 2 * lane + 1]).length = 2 * kept.length := by
      rw [List.length_flatMap]
      simp only [List.length_cons, List.length_nil, List.map_const', List.sum_replicate,
        smul_eq_mul, Nat.mul_comm]
    have hnone : ∀ x, 2 * kept.length ≤ x → x < 16 →
        (kept.flatMap (fun lane ↦ [2 * lane, 2 * lane + 1]) ++ List.replicate
          (2 * (8 - kept.length)) 0x80).getD x 0 = 0x80 := by
      intro x hx hx'
      rw [List.getD_eq_getElem?_getD, List.getElem?_append_right (by rw [hlen]; exact hx), hlen,
        List.getElem?_replicate,
        if_pos (by omega)]
      rfl
    have hzero : namedByte v 0x80 = 0 := rfl
    rw [hnone _ (by omega) (by omega), hnone _ (by omega) (by omega), hzero,
      List.getD_eq_default _ _ (by rwa [List.length_map])]

/-- The front of a register that is stored. -/
theorem take_lanesOf_kept (h : ∀ i < w, v i = (keptLanes w va keep).getD i 0) :
    (lanesOf w v).take (popcountLanes w keep) = keptLanes w va keep := by
  have hle := popcountLanes_le w keep
  apply List.ext_getElem
  · rw [List.length_take, length_lanesOf, length_keptLanes, Nat.min_eq_left hle]
  · intro i hi hi'
    rw [List.length_take, length_lanesOf] at hi
    rw [List.getElem_take]
    simp only [lanesOf, List.getElem_map, List.getElem_range', Nat.one_mul, Nat.zero_add]
    rw [h i (by omega)]
    exact List.getD_eq_getElem _ _ hi'

theorem mem_lanesOf {u : Nat} : u ∈ lanesOf w v ↔ ∃ i < w, v i = u := by
  rw [lanesOf, List.mem_map]
  constructor
  · rintro ⟨i, hi, rfl⟩
    rw [List.mem_range'_1, Nat.zero_add] at hi
    exact ⟨i, hi.2, rfl⟩
  · rintro ⟨i, hi, rfl⟩
    exact ⟨i, by rw [List.mem_range'_1, Nat.zero_add]; exact ⟨Nat.zero_le _, hi⟩, rfl⟩

/-- The lanes that are kept, if the mask goes by their values. -/
theorem mem_keptLanes (P : Nat → Prop) (h : ∀ i < w, keep i = true ↔ P (va i)) {u : Nat} :
    u ∈ keptLanes w va keep ↔ u ∈ lanesOf w va ∧ P u := by
  rw [keptLanes, List.mem_map, mem_lanesOf]
  constructor
  · rintro ⟨i, hi, rfl⟩
    obtain ⟨hrange, hkeep⟩ := List.mem_filter.1 hi
    rw [List.mem_range'_1, Nat.zero_add] at hrange
    exact ⟨⟨i, hrange.2, rfl⟩, (h i hrange.2).1 hkeep⟩
  · rintro ⟨⟨i, hi, rfl⟩, hmem⟩
    refine ⟨i, List.mem_filter.2 ⟨?_, (h i hi).2 hmem⟩, rfl⟩
    rw [List.mem_range'_1, Nat.zero_add]
    exact ⟨Nat.zero_le _, hi⟩

theorem keptLanes_sublist (w : Nat) (v : Lanes) (keep : Nat → Bool) :
    (keptLanes w v keep).Sublist (lanesOf w v) :=
  List.filter_sublist.map v

theorem cmpestrm_iff {i : Nat} (hi : i < 8) : cmpestrm vb 8 va 8 i = true ↔
    va i ∈ lanesOf 8 vb := by
  rw [cmpestrm, decide_eq_true hi, Bool.true_and, List.any_eq_true, lanesOf, List.mem_map]
  simp only [beq_iff_eq]

theorem implicitLength_eq (h : ∀ i < 8, v i ≠ 0) : implicitLength v = 8 := by
  rw [implicitLength, List.takeWhile_eq_self_iff.2, List.length_range']
  intro i hi
  rw [List.mem_range'_1] at hi
  exact bne_iff_ne.2 (h i (by omega))

theorem cmpistrm_iff (ha : ∀ i < 8, va i ≠ 0) (hb : ∀ i < 8, vb i ≠ 0) {i : Nat} (hi : i < 8) :
    cmpistrm vb va i = true ↔ va i ∈ lanesOf 8 vb := by
  rw [cmpistrm, implicitLength_eq ha, implicitLength_eq hb, cmpestrm_iff hi]

theorem compareBroadcast_iff {i : Nat} : compareBroadcast vb va i = true ↔ va i ∈ lanesOf 8 vb := by
  have hlanes : lanesOf 8 vb = [vb 0, vb 1, vb 2, vb 3, vb 4, vb 5, vb 6, vb 7] := rfl
  rw [compareBroadcast, hlanes]
  simp only [Bool.or_eq_true, beq_iff_eq, List.mem_cons, List.not_mem_nil, or_false, or_assoc]

theorem twoIntersect_iff {i : Nat} : twoIntersect vb va i = true ↔ va i ∈ lanesOf 16 vb := by
  rw [twoIntersect, List.any_eq_true, lanesOf, List.mem_map]
  simp only [beq_iff_eq]

end Instructions

/-! ## The walk -/

/-- What a sink promises: with the first `i` values of the first array left behind it has taken the
matches `zs`. -/
structure SinkLaws {σ : Type} (K : BlockSink σ) (a : Operand) (as bs : List Nat)
    (Inv : σ → Nat → List Nat → Prop) : Prop where
  emit : ∀ c i j zs v keep, Inv c i zs → i + 8 ≤ as.length → lanesOf 8 v = (as.drop i).take 8 →
    BlocksMatched as bs 8 i j (zs ++ keptLanes 8 v keep) → ∃ c', K.emit v keep c = some c' ∧
      Inv c' i (zs ++ keptLanes 8 v keep)
  flush : ∀ c i zs, Inv c i zs → i + 8 ≤ as.length → ∃ c', K.flush c = some c' ∧ Inv c' (i + 8) zs
  holds : ∀ c i zs, Inv c i zs → a.Holds (K.buffer c) i as

/-- The walk stands in front of two blocks, or at the end of the blocks of one array. -/
structure Walking {σ : Type} (as bs : List Nat) (Inv : σ → Nat → List Nat → Prop) (s : BlockWalk σ)
    (zs : List Nat) : Prop where
  left_le : s.ia ≤ as.length / 8 * 8
  left_block : s.ia % 8 = 0
  right_le : s.ib ≤ bs.length / 8 * 8
  right_block : s.ib % 8 = 0
  ended : s.ended = true ↔ s.ia = as.length / 8 * 8 ∨ s.ib = bs.length / 8 * 8
  left : s.ended = false → lanesOf 8 s.va = (as.drop s.ia).take 8
  right : s.ended = false → lanesOf 8 s.vb = (bs.drop s.ib).take 8
  matched : Matched as bs s.ia s.ib zs
  sink : Inv s.sink s.ia zs

section Blocks

variable {σ : Type} {K : BlockSink σ} {a : Operand} {as bs zs : List Nat}
  {Inv : σ → Nat → List Nat → Prop} {s : BlockWalk σ}

theorem Walking.room (h : Walking as bs Inv s zs) (hgo : s.ended = false) :
    s.ia + 8 ≤ as.length / 8 * 8 ∧ s.ib + 8 ≤ bs.length / 8 * 8 := by
  have hnot : ¬ (s.ia = as.length / 8 * 8 ∨ s.ib = bs.length / 8 * 8) := fun hend ↦
    Bool.false_ne_true (hgo.symm.trans (h.ended.2 hend))
  have hleft := h.left_le
  have hblock := h.left_block
  have hright := h.right_le
  have hblock' := h.right_block
  omega

/-- What the first array moving on leaves. -/
theorem Walking.moveLeft (h : Walking as bs Inv s zs) (hlaws : SinkLaws K a as bs Inv)
    (hgo : s.ended = false) {c : σ} {ms : List Nat}
    (hsink : Inv c s.ia (zs ++ ms)) (hmatched : Matched as bs (s.ia + 8) s.ib (zs ++ ms)) :
    ∃ t, Roaring.moveLeft K a (as.length / 8 * 8) { s with sink := c } = some t ∧
      Walking as bs Inv t (zs ++ ms) ∧
      t.ia = s.ia + 8 ∧ t.ib = s.ib := by
  obtain ⟨hroom, hroom'⟩ := h.room hgo
  have hblock := h.left_block
  obtain ⟨c', hflush, hnext⟩ := hlaws.flush c s.ia _ hsink (by omega)
  rw [Roaring.moveLeft, hflush, Option.map_some]
  by_cases hend : s.ia + 8 = as.length / 8 * 8
  · rw [if_pos hend]
    refine ⟨_, rfl,
      ⟨hend.le, by
      dsimp only; omega, h.right_le, h.right_block, iff_of_true rfl
      (.inl hend), ?_, ?_, hmatched, hnext⟩, rfl, rfl⟩
    · exact fun h ↦ absurd h.symm Bool.false_ne_true
    · exact fun h ↦ absurd h.symm Bool.false_ne_true
  · rw [if_neg hend]
    refine ⟨_, rfl,
      ⟨by dsimp only; omega, by
      dsimp only; omega, h.right_le, h.right_block, ?_, fun _ ↦ ?_, fun _ ↦ h.right hgo, hmatched,
      hnext⟩, rfl, rfl⟩
    · dsimp only
      rw [hgo]
      exact iff_of_false Bool.false_ne_true (by omega)
    · exact lanesOf_loadRegister (hlaws.holds c' _ _ hnext) (show s.ia + 8 + 8 ≤ as.length by omega)

/-- What the second array moving on leaves. -/
theorem Walking.moveRight (h : Walking as bs Inv s zs) (hgo : s.ended = false) {c : σ}
    {ms : List Nat} (hsink : Inv c s.ia ms) (hmatched : Matched as bs s.ia (s.ib + 8) ms) :
    ∃ t, Roaring.moveRight K (.apart bs) (bs.length / 8 * 8) { s with sink := c } = t ∧
      Walking as bs Inv t ms ∧ t.ia = s.ia ∧
      t.ib = s.ib + 8 := by
  obtain ⟨hroom, hroom'⟩ := h.room hgo
  have hblock := h.right_block
  rw [Roaring.moveRight]
  by_cases hend : s.ib + 8 = bs.length / 8 * 8
  · rw [if_pos hend]
    refine ⟨_, rfl,
      ⟨h.left_le, h.left_block,
      hend.le, by dsimp only; omega, iff_of_true rfl (.inr hend), ?_, ?_, hmatched, hsink⟩,
      rfl, rfl⟩
    · exact fun h ↦ absurd h.symm Bool.false_ne_true
    · exact fun h ↦ absurd h.symm Bool.false_ne_true
  · rw [if_neg hend]
    refine ⟨_, rfl,
      ⟨h.left_le, h.left_block, by dsimp only; omega, by
      dsimp only; omega, ?_, fun _ ↦ h.left hgo, fun _ ↦ ?_, hmatched,
      hsink⟩, rfl, rfl⟩
    · dsimp only
      rw [hgo]
      exact iff_of_false Bool.false_ne_true (by omega)
    · have hapart : (Operand.apart bs).Holds (K.buffer c) (s.ib + 8) bs := fun x _ _ ↦ rfl
      exact lanesOf_loadRegister hapart (show s.ib + 8 + 8 ≤ bs.length by omega)

/-- A turn of the walk. -/
theorem Walking.turn (h : Walking as bs Inv s zs) (hlaws : SinkLaws K a as bs Inv)
    (ha : as.Pairwise (· < ·)) (hb : bs.Pairwise (· < ·))
    (hgo : s.ended = false) {compare : Lanes → Lanes → Nat → Bool}
    (hcompare : ∀ i < 8, compare s.vb s.va i = true ↔ s.va i ∈ lanesOf 8 s.vb) :
    ∃ t ms, blockTurn K a (as.length / 8 * 8) (.apart bs) (bs.length / 8 * 8) compare s = some t ∧
      Walking as bs Inv t (zs ++ ms) ∧
      s.ia ≤ t.ia ∧ s.ib ≤ t.ib ∧ s.ia + s.ib < t.ia + t.ib := by
  obtain ⟨hroom, hroom'⟩ := h.room hgo
  have hblocks : BlocksMatched as bs 8 s.ia s.ib (zs ++ keptLanes 8 s.va (compare s.vb s.va)) := by
    refine h.matched.compare ha hb ?_ fun v ↦ ?_
    · refine List.Pairwise.sublist (keptLanes_sublist 8 s.va _) ?_
      rw [h.left hgo]
      exact (ha.sublist (List.drop_sublist _ _)).sublist (List.take_sublist _ _)
    · rw [mem_keptLanes (· ∈ lanesOf 8 s.vb) hcompare, h.left hgo, h.right hgo]
  obtain ⟨c, hemit, hsink⟩ := hlaws.emit s.sink s.ia s.ib zs s.va _ h.sink (by omega)
    (h.left hgo) hblocks
  generalize keptLanes 8 s.va (compare s.vb s.va) = ms at hblocks hsink
  have hamax := hlaws.holds c s.ia _ hsink (s.ia + 7) (Nat.le_add_right _ _) (by omega)
  have hx : as[s.ia + 8 - 1]? = some (as.getD (s.ia + 7) 0) := by
    rw [List.getD_eq_getElem _ _ (by omega)]
    exact List.getElem?_eq_getElem (by omega)
  have hy : bs[s.ib + 8 - 1]? = some (bs.getD (s.ib + 7) 0) := by
    rw [List.getD_eq_getElem _ _ (by omega)]
    exact List.getElem?_eq_getElem (by omega)
  have hbmax : (Operand.apart bs).read (K.buffer c) (s.ib + 7) = bs.getD (s.ib + 7) 0 := rfl
  rw [blockTurn, hemit, Option.bind_some]
  dsimp only
  rw [hamax, hbmax]
  generalize as.getD (s.ia + 7) 0 = x at hx
  generalize bs.getD (s.ib + 7) 0 = y at hy
  by_cases hle : x ≤ y
  · have hpassed := hblocks.left ha hb (by decide) hx hy hle
    obtain ⟨t, hmove, ht, hia, hib⟩ := h.moveLeft hlaws hgo hsink hpassed
    rw [if_pos hle, hmove, Option.map_some]
    cases hended : t.ended with
    | true => exact ⟨t, ms, by rw [if_pos rfl], ht, by omega, by omega, by omega⟩
    | false =>
      rw [if_neg Bool.false_ne_true]
      by_cases hge : y ≤ x
      · have hboth := hblocks.both ha hb (by decide) hx hy (le_antisymm hle hge)
        rw [← hia, ← hib] at hboth
        obtain ⟨u, hmove', hu, hia', hib'⟩ := ht.moveRight (K := K) hended ht.sink hboth
        exact ⟨u, ms, by rw [if_pos hge, ← hmove'], hu, by omega, by omega, by omega⟩
      · exact ⟨t, ms, by rw [if_neg hge], ht, by omega, by omega, by omega⟩
  · have hge : y ≤ x := (not_le.1 hle).le
    obtain ⟨t, hmove, ht, hia, hib⟩ :=
      h.moveRight (K := K) hgo hsink (hblocks.right ha hb (by decide) hx hy hge)
    rw [if_neg hle, Option.map_some, if_pos hge, hmove, hgo, if_neg Bool.false_ne_true]
    exact ⟨t, ms, rfl, ht, by omega, by omega, by omega⟩

/-- The walk is done. -/
structure Walked {σ : Type} (as bs : List Nat) (Inv : σ → Nat → List Nat → Prop) (s : BlockWalk σ)
    (zs : List Nat) : Prop where
  left_le : s.ia ≤ as.length / 8 * 8
  left_block : s.ia % 8 = 0
  right_le : s.ib ≤ bs.length / 8 * 8
  ended : s.ia = as.length / 8 * 8 ∨ s.ib = bs.length / 8 * 8
  matched : Matched as bs s.ia s.ib zs
  sink : Inv s.sink s.ia zs

theorem Walking.done (h : Walking as bs Inv s zs) (hend : s.ended = true) : Walked as bs Inv s zs :=
  ⟨h.left_le, h.left_block, h.right_le, h.ended.1 hend, h.matched, h.sink⟩

/-- The walk before its first turn. -/
theorem Walking.start (hlaws : SinkLaws K a as bs Inv) {c : σ} (hc : Inv c 0 [])
    (hblocks : 0 < as.length / 8 * 8 ∧ 0 < bs.length / 8 * 8) :
    Walking as bs Inv ⟨0, 0, loadRegister (K.buffer c) a 0, loadRegister (K.buffer c) (.apart bs) 0,
      c, false⟩ [] := by
  have hapart : (Operand.apart bs).Holds (K.buffer c) 0 bs := fun x _ _ ↦ rfl
  refine ⟨Nat.zero_le _, rfl, Nat.zero_le _, rfl, ?_, fun _ ↦ ?_, fun _ ↦ ?_,
    Matched.start as bs, hc⟩
  · exact iff_of_false Bool.false_ne_true (by dsimp only; omega)
  · exact lanesOf_loadRegister (hlaws.holds c 0 [] hc) (by omega)
  · exact lanesOf_loadRegister hapart (by omega)

/-- Without a whole block on one side there is no turn. -/
theorem Walked.none {c : σ} {va vb : Lanes} (hc : Inv c 0 []) 
    (hnot : ¬ (0 < as.length / 8 * 8 ∧ 0 < bs.length / 8 * 8)) :
    Walked as bs Inv ⟨0, 0, va, vb, c, false⟩ [] :=
  ⟨Nat.zero_le _, rfl, Nat.zero_le _, by dsimp only; omega, Matched.start as bs, hc⟩

/-- What is asked of a walk, whatever its sink. -/
def WalksBlocks
    (walk : {σ : Type} → BlockSink σ → Operand → Nat → Operand → Nat → σ →
      Option (BlockWalk σ)) : Prop :=
  ∀ {σ : Type} {K : BlockSink σ} {a : Operand} {as bs : List Nat} {Inv : σ → Nat → List Nat → Prop}
    {c : σ},
    SinkLaws K a as bs Inv → as.Pairwise (· < ·) → bs.Pairwise (· < ·) → Inv c 0 [] →
      ∃ s zs, walk K a (as.length / 8 * 8) (.apart bs) (bs.length / 8 * 8) c = some s ∧
        Walked as bs Inv s zs

/-- Turns with a compare that is right wherever the walk stands bring it to its end. -/
theorem Walking.run (h : Walking as bs Inv s zs) (hlaws : SinkLaws K a as bs Inv)
    (ha : as.Pairwise (· < ·)) (hb : bs.Pairwise (· < ·))
    (again : BlockWalk σ → Bool) (compare : Lanes → Lanes → Nat → Bool)
    (hagain : ∀ t, again t = true → t.ended = false)
    (hcompare : ∀ t ws, Walking as bs Inv t ws → t.ended = false → s.ia ≤ t.ia → s.ib ≤ t.ib →
      ∀ i < 8, compare t.vb t.va i = true ↔ t.va i ∈ lanesOf 8 t.vb) :
    ∃ t ws, loop again (blockTurn K a (as.length / 8 * 8) (.apart bs) (bs.length / 8 * 8) compare)
        (as.length / 8 * 8 + bs.length / 8 * 8 + 1) s = some t ∧ Walking as bs Inv t ws ∧
          again t = false := by
  obtain ⟨t, hrun, ⟨ws, ht, -, -⟩, hend⟩ := loop_spec again
    (blockTurn K a (as.length / 8 * 8) (.apart bs) (bs.length / 8 * 8) compare)
    (fun t ↦ ∃ ws, Walking as bs Inv t ws ∧ s.ia ≤ t.ia ∧ s.ib ≤ t.ib)
    (fun t ↦ as.length / 8 * 8 + bs.length / 8 * 8 - (t.ia + t.ib)) (fun t ht hmore ↦ by
      obtain ⟨ws, ht, hia, hib⟩ := ht
      have hgo := hagain t hmore
      obtain ⟨u, ms, hturn, hu, hia', hib', hless⟩ :=
        ht.turn hlaws ha hb hgo (hcompare t ws ht hgo hia hib)
      have hroom := ht.room hgo
      exact ⟨u, hturn, ⟨_, hu, hia.trans hia', hib.trans hib'⟩, by omega⟩)
    (as.length / 8 * 8 + bs.length / 8 * 8 + 1) ⟨zs, h, le_rfl, le_rfl⟩ (by omega)
  exact ⟨t, ws, hrun, ht, hend⟩

/-- Behind a value that is not zero no lane of a block is. -/
theorem lane_ne_zero {v : Lanes} {xs : List Nat} (hxs : xs.Pairwise (· < ·)) {i j : Nat}
    (hi : xs.getD i 0 ≠ 0) (hij : i ≤ j)
    (hv : lanesOf 8 v = (xs.drop j).take 8) : ∀ l < 8, v l ≠ 0 := by
  intro l hl hzero
  have hmem : v l ∈ (xs.drop j).take 8 := hv ▸ mem_lanesOf.2 ⟨l, hl, rfl⟩
  have hlt : i < xs.length := by
    by_contra hnot
    exact hi (List.getD_eq_default _ _ (not_lt.1 hnot))
  have hdrop : v l ∈ xs.drop i := by
    have hlater := List.mem_of_mem_take hmem
    rw [← Nat.add_sub_cancel' hij, ← List.drop_drop] at hlater
    exact List.mem_of_mem_drop hlater
  have hle := getD_le_of_mem_drop hxs hlt hdrop
  omega

theorem walkBlocksSse42_spec : WalksBlocks walkBlocksSse42 := by
  intro σ K a as bs Inv c hlaws ha hb hc
  unfold walkBlocksSse42
  dsimp only
  split
  · rename_i hblocks
    obtain ⟨s, zs, hfirst, hs, hend⟩ := (Walking.start hlaws hc hblocks).run hlaws ha hb
      (fun s ↦ !s.ended && startsWithZero K a (.apart bs) s) (fun vb va ↦ cmpestrm vb 8 va 8)
      (fun t ht ↦ by
        rw [Bool.and_eq_true, Bool.not_eq_true'] at ht
        exact ht.1) (fun t ws _ _ _ _ i hi ↦ cmpestrm_iff hi)
    rw [hfirst, Option.bind_some]
    split
    · rename_i hmore
      have hgo : s.ended = false := by
        rw [Bool.eq_false_iff]
        intro hended
        have hstop := hs.ended.1 hended
        omega
      rw [hgo, Bool.not_false, Bool.true_and, startsWithZero, Bool.or_eq_false_iff,
        beq_eq_false_iff_ne, beq_eq_false_iff_ne,
        hlaws.holds s.sink s.ia zs hs.sink s.ia le_rfl (by omega)] at hend
      obtain ⟨t, ws, hsecond, ht, hdone⟩ := hs.run hlaws ha hb (fun s ↦ !s.ended) cmpistrm
        (fun t ht ↦ by rwa [Bool.not_eq_true'] at ht) (fun t ws ht hgo hia hib i hi ↦
          cmpistrm_iff (lane_ne_zero ha hend.1 hia (ht.left hgo))
            (lane_ne_zero hb hend.2 hib (ht.right hgo)) hi)
      exact ⟨t, ws, hsecond, ht.done (by rwa [Bool.not_eq_false'] at hdone)⟩
    · rename_i hstop
      have hleft := hs.left_le
      have hright := hs.right_le
      exact ⟨s, zs, rfl, hs.done (hs.ended.2 (by omega))⟩
  · rename_i hnot
    exact ⟨_, [], rfl, Walked.none hc hnot⟩

theorem walkBlocksNeon_spec : WalksBlocks walkBlocksNeon := by
  intro σ K a as bs Inv c hlaws ha hb hc
  unfold walkBlocksNeon
  dsimp only
  split
  · rename_i hblocks
    obtain ⟨t, ws, hrun, ht, hdone⟩ :=
      (Walking.start hlaws hc hblocks).run hlaws ha hb (fun s ↦ !s.ended)
      compareBroadcast (fun t ht ↦ by rwa [Bool.not_eq_true'] at ht)
        (fun t ws _ _ _ _ i _ ↦ compareBroadcast_iff)
    exact ⟨t, ws, hrun, ht.done (by rwa [Bool.not_eq_false'] at hdone)⟩
  · rename_i hnot
    exact ⟨_, [], rfl, Walked.none hc hnot⟩

end Blocks

/-! ## The scalar tail -/

/-- The intersection as a merge. -/
theorem eq_intersection {as bs zs : List Nat} (ha : as.Pairwise (· < ·)) (hb : bs.Pairwise (· < ·))
    (hzs : zs.Pairwise (· < ·))
    (hmem : ∀ v, v ∈ zs ↔ v ∈ as ∧ v ∈ bs) : zs = plainMerge ⟨false, false, true⟩ as bs := by
  refine List.Pairwise.eq_of_mem_iff (r := (· < ·)) hzs (plainMerge_ascending ha hb) fun v ↦ ?_
  rw [hmem, mem_plainMerge ha hb, MergeRule.Keeps]
  simp only [Bool.false_eq_true, and_false, and_true, false_or]

theorem length_intersection_le {as bs : List Nat} (ha : as.Pairwise (· < ·))
    (hb : bs.Pairwise (· < ·)) :
    (plainMerge ⟨false, false, true⟩ as bs).length ≤ min as.length bs.length := by
  have hmem : ∀ v ∈ plainMerge ⟨false, false, true⟩ as bs, v ∈ as ∧ v ∈ bs := by
    intro v hv
    rw [mem_plainMerge ha hb, MergeRule.Keeps] at hv
    simpa only [Bool.false_eq_true, and_false, and_true, false_or] using hv
  exact le_min (length_le_of_ascending_subset (plainMerge_ascending ha hb) fun v hv ↦ (hmem v hv).1)
    (length_le_of_ascending_subset (plainMerge_ascending ha hb) fun v hv ↦ (hmem v hv).2)

/-- The tail has matched what lies in front of its cursors. -/
structure Tailing (a : Operand) (as bs : List Nat) (size : Nat) (s : MergeState) (zs : List Nat) :
    Prop where
  left_le : s.i ≤ as.length
  right_le : s.j ≤ bs.length
  matched : Matched as bs s.i s.j zs
  written : s.k = zs.length
  front : s.out.take s.k = zs
  size : s.out.length = size
  holds : a.Holds s.out s.i as
  behind : a.Behind s.k s.i

section Tail

variable {a : Operand} {as bs zs : List Nat} {size : Nat} {s : MergeState}

/-- A step of the tail. -/
theorem Tailing.step (h : Tailing a as bs size s zs) (ha : as.Pairwise (· < ·))
    (hb : bs.Pairwise (· < ·))
    (hroom : min as.length bs.length ≤ size) (hi : s.i < as.length) (hj : s.j < bs.length) :
    ∃ t ws, matchStep a (.apart bs) s = some t ∧ Tailing a as bs size t ws ∧
      s.i + s.j < t.i + t.j := by
  have hx : as[s.i]? = some (as.getD s.i 0) := by
    rw [List.getD_eq_getElem _ _ hi, List.getElem?_eq_getElem]
  have hy : bs[s.j]? = some (bs.getD s.j 0) := by
    rw [List.getD_eq_getElem _ _ hj, List.getElem?_eq_getElem]
  have hbehind : ∀ n ≤ s.k, ∀ i, s.i ≤ i → a.Behind n i := fun n hn i hle offset hoffset ↦ by
    have hlater := h.behind offset hoffset
    omega
  have hleastLeft : ∀ v ∈ as.drop s.i, as.getD s.i 0 ≤ v := fun v ↦ getD_le_of_mem_drop ha hi
  have hleastRight : ∀ v ∈ bs.drop s.j, bs.getD s.j 0 ≤ v := fun v ↦ getD_le_of_mem_drop hb hj
  have hright : (Operand.apart bs).read s.out s.j = bs.getD s.j 0 := rfl
  rw [matchStep, h.holds s.i le_rfl hi, hright]
  generalize as.getD s.i 0 = x at hx hleastLeft
  generalize bs.getD s.j 0 = y at hy hleastRight
  rcases Nat.lt_trichotomy x y with hlt | rfl | hgt
  · rw [if_pos hlt]
    refine ⟨_, zs, rfl, ⟨hi, h.right_le, h.matched.pass hx fun hmem ↦ ?_, h.written, h.front,
      h.size, h.holds.mono (Nat.le_succ _),
      hbehind _ le_rfl _ (Nat.le_succ _)⟩, by dsimp only; omega⟩
    exact absurd (hleastRight x hmem) (not_le.2 hlt)
  · have hboth := h.matched.both ha hb hx hy
    have hmany :=
      le_min (length_le_of_ascending_subset hboth.ascending fun v hv ↦ ((hboth.mem v).1 hv).1.1)
      (length_le_of_ascending_subset hboth.ascending fun v hv ↦ ((hboth.mem v).1 hv).1.2)
    rw [List.length_append, List.length_singleton, ← h.written] at hmany
    have hin : s.k < s.out.length := by
      rw [h.size]
      omega
    rw [if_neg (lt_irrefl _), if_neg (lt_irrefl _), store, if_pos hin, Option.map_some]
    refine ⟨_, zs ++ [x], rfl, ⟨hi, hj, hboth, ?_, ?_, ?_, ?_, ?_⟩, by dsimp only; omega⟩
    · rw [List.length_append, List.length_singleton, ← h.written]
    · have hkept := take_set_kept hin true x
      rw [kept, if_pos rfl, List.length_singleton, h.front] at hkept
      exact hkept
    · rw [List.length_set, h.size]
    · refine (h.holds.mono (Nat.le_succ _)).store fun offset hoffset ↦ .inl ?_
      have hlater := h.behind offset hoffset
      omega
    · intro offset hoffset
      have hlater := h.behind offset hoffset
      dsimp only
      omega
  · rw [if_neg (Nat.lt_asymm hgt), if_pos hgt]
    refine ⟨_, zs, rfl, ⟨h.left_le, hj, (h.matched.swap.pass hy fun hmem ↦ ?_).swap, h.written,
      h.front, h.size, h.holds, h.behind⟩,
      by dsimp only; omega⟩
    exact absurd (hleastLeft y hmem) (not_le.2 hgt)

/-- The tail ends with all that is common in front of the buffer. -/
theorem matchTail_spec (h : Tailing a as bs size s zs) (ha : as.Pairwise (· < ·))
    (hb : bs.Pairwise (· < ·)) (hroom : min as.length bs.length ≤ size) :
    LeavesValues (matchTail a as.length (.apart bs) bs.length s)
      size (plainMerge ⟨false, false, true⟩ as bs) := by
  obtain ⟨t, hrun, ⟨ws, ht⟩, hend⟩ := loop_spec (fun s ↦ decide (s.i < as.length ∧ s.j < bs.length))
    (matchStep a (.apart bs))
    (fun s ↦ ∃ zs, Tailing a as bs size s zs) (fun s ↦ as.length + bs.length - (s.i + s.j))
        (fun s hs hagain ↦ by
      obtain ⟨zs, hs⟩ := hs
      obtain ⟨hi, hj⟩ := of_decide_eq_true hagain
      obtain ⟨t, ws, hstep, ht, hmore⟩ := hs.step ha hb hroom hi hj
      exact ⟨t, hstep, ⟨ws, ht⟩, by omega⟩) (as.length + bs.length + 1) ⟨zs, h⟩ (by omega)
  have hdone := of_decide_eq_false hend
  have hall := eq_intersection ha hb ht.matched.ascending (ht.matched.all (by omega))
  have hwritten := ht.written
  have hfront := ht.front
  rw [hwritten] at hfront
  rw [hall] at hwritten hfront
  exact ⟨t.out, by rw [matchTail, hrun, Option.map_some, hwritten], ht.size, hfront⟩

end Tail

/-! ## The intersections -/

/-- A register whose front are the lanes that are kept. -/
theorem storeKept_spec {w pos : Nat} {v va : Lanes} {keep : Nat → Bool} {out : List Nat}
    (hv : ∀ i < w, v i = (keptLanes w va keep).getD i 0) (hfit : pos + w ≤ out.length) :
    ∃ out', memmoveInto out pos (lanesOf w v) = some out' ∧ out'.length = out.length ∧
      out'.take (pos + popcountLanes w keep) = out.take pos ++ keptLanes w va keep ∧
        ∀ x, pos + w ≤ x → out'.getD x 0 = out.getD x 0 := by
  obtain ⟨out', hmove, hlength, hfront, hsame⟩ := memmoveInto_spec (lanesOf w v)
    (show pos + (lanesOf w v).length ≤ out.length by rwa [length_lanesOf])
  rw [length_lanesOf] at hfront hsame
  refine ⟨out', hmove, hlength, ?_, hsame⟩
  have hle := popcountLanes_le w keep
  have hcut : out'.take (pos + popcountLanes w keep) = (out'.take (pos + w)).take
      (pos + popcountLanes w keep) := by
    rw [List.take_take, min_eq_left (by omega)]
  have hlen : (out.take pos).length = pos := by
    rw [List.length_take]
    omega
  rw [hcut, hfront, List.take_append, hlen, Nat.add_sub_cancel_left, take_lanesOf_kept hv,
    List.take_of_length_le (by rw [hlen]; exact Nat.le_add_right _ _)]

/-- The matches stand in front of the buffer. -/
def Stored (size : Nat) (c : Nat × List Nat) (_ : Nat) (zs : List Nat) : Prop :=
  c.1 = zs.length ∧ c.2.take c.1 = zs ∧ c.2.length = size

section Intersect

variable {as bs out : List Nat} {size : Nat}

theorem lane_lt {v : Lanes} {i : Nat} (hlow : ∀ v ∈ as, v < lowDomainSize)
    (hv : lanesOf 8 v = (as.drop i).take 8) : ∀ l < 8, v l < lowDomainSize :=
  fun l hl ↦ hlow _ (List.mem_of_mem_drop (List.mem_of_mem_take (hv ▸ mem_lanesOf.2 ⟨l, hl, rfl⟩)))

theorem storingSink_laws (hlow : ∀ v ∈ as, v < lowDomainSize)
    (hroom : min as.length bs.length + 8 ≤ size) :
    SinkLaws storingSink (.apart as) as bs (Stored size) := by
  refine ⟨fun c i j zs v keep hc hblock hv hblocks ↦ ?_, fun c i zs hc _ ↦ ⟨c, rfl, hc⟩,
    fun c i zs hc x _ _ ↦ rfl⟩
  obtain ⟨hcount, hfront, hsize⟩ := hc
  have hmany := hblocks.length_le
  rw [List.length_append] at hmany
  obtain ⟨out', hmove, hlength, hfront', -⟩ := storeKept_spec
    (fun i hi ↦ shuffleBytes_compactControl (lane_lt hlow hv) hi)
      (show c.1 + 8 ≤ c.2.length by omega)
  refine ⟨(c.1 + popcountLanes 8 keep, out'), ?_, ?_, ?_, hlength.trans hsize⟩
  · change Option.map _ (memmoveInto c.2 c.1 _) = _
    rw [hmove]
    rfl
  · rw [List.length_append, length_keptLanes, hcount]
  · rw [hfront', hfront]

/-- A kernel that stores what matches. -/
theorem intersectArrayArrayWith_spec
    {walk : {σ : Type} → BlockSink σ → Operand → Nat → Operand → Nat → σ → Option (BlockWalk σ)}
    (hwalk : WalksBlocks walk) (ha : as.Pairwise (· < ·)) (hb : bs.Pairwise (· < ·))
    (hlow : ∀ v ∈ as, v < lowDomainSize) (hroom : min as.length bs.length + 8 ≤ out.length) :
    LeavesValues (intersectArrayArrayWith walk (.apart as) as.length (.apart bs) bs.length out)
      out.length (plainMerge ⟨false, false, true⟩ as bs) := by
  obtain ⟨s, zs, hrun, hs⟩ := hwalk (storingSink_laws hlow hroom) ha hb (c := (0, out))
    ⟨rfl, List.take_zero, rfl⟩
  obtain ⟨hcount, hfront, hsize⟩ := hs.sink
  have hleft := hs.left_le
  have hright := hs.right_le
  have htail : Tailing (.apart as) as bs out.length ⟨s.ia, s.ib, s.sink.1, s.sink.2⟩ zs :=
    ⟨by dsimp only; omega, by dsimp only; omega, hs.matched, hcount, hfront, hsize,
      fun x _ _ ↦ rfl, Operand.not_inOut_apart⟩
  dsimp only at hrun
  rw [intersectArrayArrayWith, hrun, Option.bind_some]
  exact matchTail_spec htail ha hb (by omega)

/-- The stores one by one are a copy. -/
theorem storeAll_eq_memmove (vs : List Nat) {pos : Nat} {out : List Nat}
    (hfit : pos + vs.length ≤ out.length) :
    storeAll vs pos out = (memmoveInto out pos vs).map fun out ↦ (pos + vs.length, out) := by
  induction vs generalizing pos out with
  | nil =>
    rw [memmoveInto, if_pos hfit, List.length_nil, Nat.add_zero, List.append_nil,
      List.take_append_drop, storeAll, Option.map_some]
  | cons v vs ih =>
    rw [List.length_cons] at hfit
    have hin : pos < out.length := by omega
    have hfit' : pos + 1 + vs.length ≤ (out.set pos v).length := by
      rw [List.length_set]
      omega
    have hkept := take_set_kept hin true v
    rw [kept, if_pos rfl, List.length_singleton] at hkept
    rw [storeAll, store, if_pos hin]
    change storeAll vs (pos + 1) (out.set pos v) = _
    rw [ih hfit', memmoveInto, if_pos hfit', memmoveInto, if_pos (by rw [List.length_cons]; omega),
      Option.map_some, Option.map_some, hkept,
      List.drop_set, if_pos (by omega), List.length_cons, List.append_assoc (out.take pos),
        List.singleton_append,
      show pos + 1 + vs.length = pos + (vs.length + 1) by omega]

/-- The matches are `flushed` and `staged`: the first stand in front of the array, the others are
values of its current block. -/
structure Staged (as : List Nat) (c : Staging) (i : Nat) (flushed staged : List Nat) : Prop where
  count : c.count = flushed.length
  count_le : c.count ≤ i
  front : c.out.take c.count = flushed
  size : c.out.length = as.length
  tmp : c.tmp.length = 16
  tmpCount : c.tmpCount = staged.length
  aside : c.tmp.take c.tmpCount = staged
  block : ∀ v ∈ staged, v ∈ (as.drop i).take 8
  ascending : staged.Pairwise (· < ·)
  holds : (Operand.inOut 0).Holds c.out i as

theorem Staged.few {c : Staging} {i : Nat} {flushed staged : List Nat}
    (h : Staged as c i flushed staged) : c.tmpCount ≤ 8 := by
  rw [h.tmpCount]
  refine (length_le_of_ascending_subset h.ascending h.block).trans ?_
  rw [List.length_take]
  exact min_le_left _ _

theorem stagingSink_laws (hlow : ∀ v ∈ as, v < lowDomainSize) :
    SinkLaws stagingSink (.inOut 0) as bs fun c i zs ↦ ∃ flushed staged, zs = flushed ++ staged ∧
      Staged as c i flushed staged := by
  refine ⟨?_, ?_, ?_⟩
  · rintro c i j _ v keep ⟨flushed, staged, rfl, hc⟩ hblock hv hblocks
    have hascending := hblocks.ascending
    rw [List.append_assoc] at hascending
    have hmore : ∀ u ∈ staged ++ keptLanes 8 v keep, u ∈ (as.drop i).take 8 := by
      intro u hu
      rcases List.mem_append.1 hu with hu | hu
      · exact hc.block u hu
      · exact hv ▸ (keptLanes_sublist 8 v keep).subset hu
    have hfew := hc.few
    obtain ⟨tmp', hmove, hlength, hfront, -⟩ := storeKept_spec
      (fun i hi ↦ shuffleBytes_compactControl (lane_lt hlow hv) hi)
        (show c.tmpCount + 8 ≤ c.tmp.length by rw [hc.tmp]; omega)
    refine ⟨{ c with tmp := tmp', tmpCount := c.tmpCount + popcountLanes 8 keep }, ?_, flushed,
      staged ++ keptLanes 8 v keep,
      List.append_assoc .., hc.count, hc.count_le, hc.front, hc.size, hlength.trans hc.tmp, ?_,
        ?_, hmore,
      (List.pairwise_append.1 hascending).2.1, hc.holds⟩
    · change Option.map _ (memmoveInto c.tmp c.tmpCount _) = _
      rw [hmove]
      rfl
    · rw [List.length_append, length_keptLanes, hc.tmpCount]
    · rw [hfront, hc.aside]
  · rintro c i _ ⟨flushed, staged, rfl, hc⟩ hblock
    have hfew := hc.few
    have hcount := hc.count_le
    have hlen : (c.tmp.take 8).length = 8 := by
      rw [List.length_take, hc.tmp]
      rfl
    obtain ⟨out', hmove, hlength, hfront, hsame⟩ := memmoveInto_spec (c.tmp.take 8)
      (show c.count + (c.tmp.take 8).length ≤ c.out.length by rw [hlen, hc.size]; omega)
    obtain ⟨tmp', hclear, hlength', -, -⟩ := memmoveInto_spec (List.replicate 8 0)
      (show 0 + (List.replicate 8 0).length ≤ c.tmp.length by
        rw [List.length_replicate, hc.tmp]; decide)
    rw [hlen] at hfront hsame
    refine ⟨⟨c.count + c.tmpCount, tmp', 0, out'⟩, ?_, flushed ++ staged, [],
      (List.append_nil _).symm, ?_, ?_, ?_,
      hlength.trans hc.size, hlength'.trans hc.tmp, rfl, List.take_zero, List.forall_mem_nil _,
        List.Pairwise.nil, ?_⟩
    · change (memmoveInto c.out c.count _).bind _ = _
      rw [hmove, Option.bind_some, hclear]
      rfl
    · rw [List.length_append, hc.count, hc.tmpCount]
    · dsimp only
      omega
    · have hcut : out'.take (c.count + c.tmpCount) = (out'.take (c.count + 8)).take
          (c.count + c.tmpCount) := by
        rw [List.take_take, min_eq_left (by omega)]
      have hflushed : (c.out.take c.count).length = c.count := by rw [hc.front, hc.count]
      have haside : (c.tmp.take 8).take c.tmpCount = staged := by
        rw [List.take_take, min_eq_left hfew, hc.aside]
      dsimp only
      rw [hcut, hfront, List.take_append, hflushed, Nat.add_sub_cancel_left, haside,
        List.take_of_length_le (by rw [hflushed]; exact Nat.le_add_right _ _), hc.front]
    · refine hc.holds.write (Nat.le_add_right _ _) (fun offset hoffset ↦ ?_) hsame
      omega
  · rintro c i _ ⟨flushed, staged, rfl, hc⟩
    exact hc.holds

/-- Of an ascending list no prefix ends above as many of its values. -/
theorem exists_ge_of_mem_take {xs ys : List Nat} (hxs : xs.Pairwise (· < ·))
    (hys : ys.Pairwise (· < ·)) (hsub : ∀ y ∈ ys, y ∈ xs) :
    ∀ v ∈ xs.take ys.length, ∃ y ∈ ys, v ≤ y := by
  intro v hv
  by_contra hnone
  have hless : ∀ y ∈ ys, y < v := by
    intro y hy
    by_contra hge
    exact hnone ⟨y, hy, not_lt.1 hge⟩
  obtain ⟨i, hi, hget⟩ := List.mem_take_iff_getElem.1 hv
  have hlt : i < xs.length := by omega
  have hsmall : ∀ y ∈ ys, y ∈ xs.take i := by
    intro y hy
    refine ((mem_take_or_drop _ i).1 (hsub y hy)).resolve_right fun hdrop ↦ ?_
    have hle := getD_le_of_mem_drop hxs hlt hdrop
    rw [List.getD_eq_getElem _ _ hlt, hget] at hle
    exact absurd (hless y hy) (not_lt.2 hle)
  have hmany := length_le_of_ascending_subset hys hsmall
  rw [List.length_take] at hmany
  omega

/-- A kernel that writes the matches over its first operand. -/
theorem intersectArrayArrayInplaceWith_spec
    {walk : {σ : Type} → BlockSink σ → Operand → Nat → Operand → Nat → σ → Option (BlockWalk σ)}
    (hwalk : WalksBlocks walk) (ha : as.Pairwise (· < ·)) (hb : bs.Pairwise (· < ·))
    (hlow : ∀ v ∈ as, v < lowDomainSize) :
    LeavesValues (intersectArrayArrayInplaceWith walk as (.apart bs) bs.length)
      as.length (plainMerge ⟨false, false, true⟩ as bs) := by
  obtain ⟨s, zs, hrun, hs⟩ :=
    hwalk (stagingSink_laws hlow) ha hb (c := ⟨0, List.replicate 16 0, 0, as⟩)
    ⟨[], [], rfl, rfl, le_rfl, List.take_zero, rfl, List.length_replicate, rfl, List.take_zero,
      List.forall_mem_nil _,
      List.Pairwise.nil, .own⟩
  obtain ⟨flushed, staged, rfl, hc⟩ := hs.sink
  have hleft := hs.left_le
  have hright := hs.right_le
  have hcount := hc.count_le
  have hstaged : ∀ v ∈ staged, v ∈ as.drop s.ia := fun v hv ↦ List.mem_of_mem_take (hc.block v hv)
  have hmany := length_le_of_ascending_subset hc.ascending hstaged
  rw [← hc.tmpCount, List.length_drop] at hmany
  obtain ⟨out', hmove, hlength, hfront, hsame⟩ := memmoveInto_spec staged
    (show s.sink.count + staged.length ≤ s.sink.out.length by rw [hc.size, ← hc.tmpCount]; omega)
  rw [← hc.tmpCount] at hfront hsame
  have hpassed : Matched as bs (s.ia + s.sink.tmpCount) s.ib (flushed ++ staged) := by
    refine hs.matched.passMany fun v hv hmem ↦ ?_
    rw [hc.tmpCount] at hv
    obtain ⟨y, hy, hle⟩ := exists_ge_of_mem_take (ha.sublist (List.drop_sublist _ _)) hc.ascending
      hstaged v hv
    have hplace : y ∈ bs.take s.ib := by
      refine ((hs.matched.mem y).1 (List.mem_append_right _ hy)).2.resolve_left fun htake ↦ ?_
      exact lt_irrefl _ (lt_of_take_drop ha htake (hstaged y hy))
    exact absurd (lt_of_take_drop hb hplace hmem) (not_lt.2 hle)
  have htail : Tailing (.inOut 0) as bs as.length
      ⟨s.ia + s.sink.tmpCount, s.ib, s.sink.count + s.sink.tmpCount, out'⟩
      (flushed ++ staged) := by
    refine ⟨by dsimp only; omega, by
      dsimp only; omega, hpassed, ?_, ?_, hlength.trans hc.size, ?_, fun offset hoffset ↦ ?_⟩
    · rw [List.length_append, hc.count, hc.tmpCount]
    · dsimp only
      rw [hfront, hc.front]
    · exact hc.holds.write (Nat.le_add_right _ _) (fun offset hoffset ↦ by dsimp only; omega) hsame
    · dsimp only
      omega
  dsimp only at hrun
  rw [intersectArrayArrayInplaceWith, hrun, Option.bind_some, hc.aside,
    storeAll_eq_memmove staged (by rw [hc.size, ← hc.tmpCount]; omega), hmove, Option.map_some,
    Option.bind_some, ← hc.tmpCount]
  exact matchTail_spec htail ha hb (min_le_left _ _)

theorem countingSink_laws : SinkLaws countingSink (.apart as) as bs fun c _ zs ↦ c = zs.length := by
  refine ⟨fun c i j zs v keep hc _ _ _ ↦ ⟨_, rfl, ?_⟩, fun c i zs hc _ ↦ ⟨c, rfl, hc⟩,
    fun c i zs hc x _ _ ↦ rfl⟩
  rw [List.length_append, length_keptLanes, hc]

/-- A step of the counting tail. -/
theorem countStep_spec (ha : as.Pairwise (· < ·)) (hb : bs.Pairwise (· < ·)) {s : Nat × Nat × Nat}
    {zs : List Nat} (h : Matched as bs s.1 s.2.1 zs) (hn : s.2.2 = zs.length) (hi : s.1 < as.length)
    (hj : s.2.1 < bs.length) :
    ∃ ws, Matched as bs (countStep (.apart as) (.apart bs) s).1
      (countStep (.apart as) (.apart bs) s).2.1 ws ∧
      (countStep (.apart as) (.apart bs) s).2.2 = ws.length ∧
      s.1 + s.2.1 < (countStep (.apart as) (.apart bs) s).1 +
        (countStep (.apart as) (.apart bs) s).2.1 := by
  have hx : as[s.1]? = some (as.getD s.1 0) := by
    rw [List.getD_eq_getElem _ _ hi, List.getElem?_eq_getElem]
  have hy : bs[s.2.1]? = some (bs.getD s.2.1 0) := by
    rw [List.getD_eq_getElem _ _ hj, List.getElem?_eq_getElem]
  have hleastLeft : ∀ v ∈ as.drop s.1, as.getD s.1 0 ≤ v := fun v ↦ getD_le_of_mem_drop ha hi
  have hleastRight : ∀ v ∈ bs.drop s.2.1, bs.getD s.2.1 0 ≤ v := fun v ↦ getD_le_of_mem_drop hb hj
  have hleft : (Operand.apart as).read [] s.1 = as.getD s.1 0 := rfl
  have hright : (Operand.apart bs).read [] s.2.1 = bs.getD s.2.1 0 := rfl
  rw [countStep, hleft, hright]
  generalize as.getD s.1 0 = x at hx hleastLeft
  generalize bs.getD s.2.1 0 = y at hy hleastRight
  dsimp only
  rcases Nat.lt_trichotomy x y with hlt | rfl | hgt
  · rw [if_pos hlt.le, if_neg (not_le.2 hlt), if_neg hlt.ne]
    exact ⟨zs, h.pass hx fun hmem ↦ absurd (hleastRight x hmem) (not_le.2 hlt), hn, by omega⟩
  · rw [if_pos le_rfl, if_pos rfl]
    exact ⟨zs ++ [x], h.both ha hb hx hy, by rw [List.length_append, hn, List.length_singleton], by
      omega⟩
  · rw [if_neg (not_le.2 hgt), if_pos hgt.le, if_neg hgt.ne']
    exact ⟨zs, (h.swap.pass hy fun hmem ↦ absurd (hleastLeft y hmem) (not_le.2 hgt)).swap,
      hn, by omega⟩

/-- The count of the matches. -/
theorem intersectCardinalityArrayArraySse42_spec (ha : as.Pairwise (· < ·))
    (hb : bs.Pairwise (· < ·)) :
    intersectCardinalityArrayArraySse42 (.apart as) as.length (.apart bs) bs.length =
      some (plainMerge ⟨false, false, true⟩ as bs).length := by
  obtain ⟨s, zs, hrun, hs⟩ := walkBlocksSse42_spec countingSink_laws ha hb (c := 0) rfl
  have hleft := hs.left_le
  have hright := hs.right_le
  obtain ⟨t, htail, ⟨ws, ht, hn⟩, hend⟩ :=
    loop_spec (fun s : Nat × Nat × Nat ↦ decide (s.1 < as.length ∧ s.2.1 < bs.length))
    (fun s ↦ some (countStep (.apart as) (.apart bs) s))
    (fun s ↦ ∃ zs, Matched as bs s.1 s.2.1 zs ∧ s.2.2 = zs.length)
    (fun s ↦ as.length + bs.length - (s.1 + s.2.1)) (fun s hs hagain ↦ by
      obtain ⟨zs, hs, hn⟩ := hs
      obtain ⟨hi, hj⟩ := of_decide_eq_true hagain
      obtain ⟨ws, hnext, hn', hmore⟩ := countStep_spec ha hb hs hn hi hj
      exact ⟨_, rfl, ⟨ws, hnext, hn'⟩, by omega⟩) (as.length + bs.length + 1) (s :=
        (s.ia, s.ib, s.sink)) ⟨zs, hs.matched, hs.sink⟩
    (by dsimp only; omega)
  have hdone := of_decide_eq_false hend
  dsimp only at hrun
  rw [intersectCardinalityArrayArraySse42, hrun, Option.bind_some, htail, Option.map_some, hn,
    eq_intersection ha hb ht.ascending (ht.all (by omega))]

/-- The wide kernel has matched what its cursors have passed. -/
structure WideMatching (as bs : List Nat) (size : Nat) (s : MergeState) (zs : List Nat) : Prop where
  left_le : s.i ≤ as.length / 16 * 16
  left_block : s.i % 16 = 0
  right_le : s.j ≤ bs.length / 16 * 16
  right_block : s.j % 16 = 0
  matched : Matched as bs s.i s.j zs
  written : s.k = zs.length
  front : s.out.take s.k = zs
  size : s.out.length = size

theorem WideMatching.turn {s : MergeState} {zs : List Nat} (h : WideMatching as bs size s zs)
    (ha : as.Pairwise (· < ·))
    (hb : bs.Pairwise (· < ·)) (hroom : min as.length bs.length + 16 ≤ size)
    (hi : s.i < as.length / 16 * 16) (hj : s.j < bs.length / 16 * 16) :
    ∃ t ws, wideTurn (.apart as) (.apart bs) s = some t ∧ WideMatching as bs size t ws ∧
      s.i + s.j < t.i + t.j := by
  have hblock := h.left_block
  have hblock' := h.right_block
  have hroomA : s.i + 16 ≤ as.length / 16 * 16 := by omega
  have hroomB : s.j + 16 ≤ bs.length / 16 * 16 := by omega
  have hapart : ∀ (xs : List Nat) (i : Nat), (Operand.apart xs).Holds s.out i xs :=
    fun xs i x _ _ ↦ rfl
  have hva := lanesOf_loadRegister (hapart as s.i) (show s.i + 16 ≤ as.length by omega)
  have hvb := lanesOf_loadRegister (hapart bs s.j) (show s.j + 16 ≤ bs.length by omega)
  rw [wideTurn]
  generalize loadRegister s.out (.apart as) s.i = va at hva
  generalize loadRegister s.out (.apart bs) s.j = vb at hvb
  have hblocks : BlocksMatched as bs 16 s.i s.j (zs ++ keptLanes 16 va (twoIntersect vb va)) := by
    refine h.matched.compare ha hb ?_ fun v ↦ ?_
    · refine List.Pairwise.sublist (keptLanes_sublist 16 va _) ?_
      rw [hva]
      exact (ha.sublist (List.drop_sublist _ _)).sublist (List.take_sublist _ _)
    · rw [mem_keptLanes (· ∈ lanesOf 16 vb) fun i _ ↦ twoIntersect_iff, hva, hvb]
  have hmany := hblocks.length_le
  rw [List.length_append, ← h.written] at hmany
  obtain ⟨out', hmove, hlength, hfront, -⟩ :=
    storeKept_spec (v := fun i ↦ (keptLanes 16 va (twoIntersect vb va)).getD i 0)
    (fun i _ ↦ rfl) (show s.k + 16 ≤ s.out.length by rw [h.size]; omega)
  have hstored :
      memmoveInto s.out s.k
      (lanesOf 16 fun i ↦ (((List.range' 0 16).filter (twoIntersect vb va)).map va).getD i 0) =
      some out' :=
    hmove
  have hx : as[s.i + 16 - 1]? = some (as.getD (s.i + 15) 0) := by
    rw [List.getD_eq_getElem _ _ (by omega)]
    exact List.getElem?_eq_getElem (by omega)
  have hy : bs[s.j + 16 - 1]? = some (bs.getD (s.j + 15) 0) := by
    rw [List.getD_eq_getElem _ _ (by omega)]
    exact List.getElem?_eq_getElem (by omega)
  have hamax : (Operand.apart as).read out' (s.i + 15) = as.getD (s.i + 15) 0 := rfl
  have hbmax : (Operand.apart bs).read out' (s.j + 15) = bs.getD (s.j + 15) 0 := rfl
  dsimp only
  rw [hstored, Option.map_some, hamax, hbmax]
  generalize as.getD (s.i + 15) 0 = x at hx
  generalize bs.getD (s.j + 15) 0 = y at hy
  have hcount : s.k + popcountLanes 16 (twoIntersect vb va) =
      (zs ++ keptLanes 16 va (twoIntersect vb va)).length := by
    rw [List.length_append, length_keptLanes, h.written]
  rw [h.front] at hfront
  refine ⟨_, zs ++ keptLanes 16 va (twoIntersect vb va), rfl,
    ⟨?_, ?_, ?_, ?_, ?_, hcount, hfront, hlength.trans h.size⟩, ?_⟩
  · dsimp only
    split_ifs <;> omega
  · dsimp only
    split_ifs <;> omega
  · dsimp only
    split_ifs <;> omega
  · dsimp only
    split_ifs <;> omega
  · dsimp only
    rcases Nat.lt_trichotomy x y with hlt | heq | hgt
    · rw [if_pos hlt.le, if_neg (not_le.2 hlt)]
      exact hblocks.left ha hb (by decide) hx hy hlt.le
    · rw [if_pos heq.le, if_pos heq.ge]
      exact hblocks.both ha hb (by decide) hx hy heq
    · rw [if_neg (not_le.2 hgt), if_pos hgt.le]
      exact hblocks.right ha hb (by decide) hx hy hgt.le
  · dsimp only
    split_ifs <;> omega

theorem intersectSortedUint16_spec (ha : as.Pairwise (· < ·)) (hb : bs.Pairwise (· < ·))
    (hroom : min as.length bs.length + 16 ≤ out.length) :
    LeavesValues (intersectSortedUint16 (.apart as) as.length (.apart bs) bs.length out)
      out.length (plainMerge ⟨false, false, true⟩ as bs) := by
  obtain ⟨s, hrun, ⟨zs, hs⟩, -⟩ :=
    loop_spec (fun s ↦ decide (s.i < as.length / 16 * 16 ∧ s.j < bs.length / 16 * 16))
    (wideTurn (.apart as) (.apart bs)) (fun s ↦ ∃ zs, WideMatching as bs out.length s zs)
    (fun s ↦ as.length + bs.length - (s.i + s.j)) (fun s hs hagain ↦ by
      obtain ⟨zs, hs⟩ := hs
      obtain ⟨hi, hj⟩ := of_decide_eq_true hagain
      obtain ⟨t, ws, hturn, ht, hmore⟩ := hs.turn ha hb hroom hi hj
      exact ⟨t, hturn, ⟨ws, ht⟩, by omega⟩) (as.length + bs.length + 1) (s := ⟨0, 0, 0, out⟩)
    ⟨[], Nat.zero_le _, rfl, Nat.zero_le _, rfl, Matched.start as bs, rfl, List.take_zero, rfl⟩
      (by dsimp only; omega)
  have hleft := hs.left_le
  have hright := hs.right_le
  have htail : Tailing (.apart as) as bs out.length s zs :=
    ⟨by omega, by
      omega, hs.matched, hs.written, hs.front, hs.size, fun x _ _ ↦ rfl, Operand.not_inOut_apart⟩
  rw [intersectSortedUint16, hrun, Option.bind_some]
  exact matchTail_spec htail ha hb (by omega)

/-- Whether the matches are stored, staged in front of the first array itself, or counted, and by
which instructions the blocks are compared, zeros among their values or not, every kernel finds the
common values, ascending, in slots that are there. -/
theorem vectorIntersections_agree {wideOut : List Nat} (ha : as.Pairwise (· < ·))
    (hb : bs.Pairwise (· < ·))
    (hlow : ∀ v ∈ as, v < lowDomainSize) (hroom : min as.length bs.length + 8 ≤ out.length)
    (hwide : min as.length bs.length + 16 ≤ wideOut.length) :
    ∃ values : List Nat, values.Pairwise (· < ·) ∧ (∀ v, v ∈ values ↔ v ∈ as ∧ v ∈ bs) ∧
      (∃ out', intersectArrayArraySse42 (.apart as) as.length (.apart bs) bs.length out =
        some (values.length, out') ∧
        out'.take values.length = values) ∧
      (∃ out', intersectArrayArrayNeon (.apart as) as.length (.apart bs) bs.length out =
        some (values.length, out') ∧
        out'.take values.length = values) ∧
      (∃ out', intersectSortedUint16 (.apart as) as.length (.apart bs) bs.length wideOut =
        some (values.length, out') ∧
        out'.take values.length = values) ∧
      (∃ out', intersectArrayArrayInplaceSse42 as (.apart bs) bs.length =
        some (values.length, out') ∧
        out'.take values.length = values) ∧
      (∃ out', intersectArrayArrayInplaceNeon as (.apart bs) bs.length =
        some (values.length, out') ∧
        out'.take values.length = values) ∧
      intersectCardinalityArrayArraySse42 (.apart as) as.length (.apart bs) bs.length =
        some values.length := by
  obtain ⟨out₁, hrun₁, -, hfront₁⟩ := intersectArrayArrayWith_spec walkBlocksSse42_spec ha hb
    hlow hroom
  obtain ⟨out₂, hrun₂, -, hfront₂⟩ :=
    intersectArrayArrayWith_spec walkBlocksNeon_spec ha hb hlow hroom
  obtain ⟨out₃, hrun₃, -, hfront₃⟩ := intersectSortedUint16_spec ha hb hwide
  obtain ⟨out₄, hrun₄, -, hfront₄⟩ := intersectArrayArrayInplaceWith_spec walkBlocksSse42_spec
    ha hb hlow
  obtain ⟨out₅, hrun₅, -, hfront₅⟩ := intersectArrayArrayInplaceWith_spec walkBlocksNeon_spec
    ha hb hlow
  refine ⟨plainMerge ⟨false, false, true⟩ as bs, plainMerge_ascending ha hb, fun v ↦ ?_,
    ⟨out₁, hrun₁, hfront₁⟩, ⟨out₂, hrun₂, hfront₂⟩,
    ⟨out₃, hrun₃, hfront₃⟩, ⟨out₄, hrun₄, hfront₄⟩, ⟨out₅, hrun₅, hfront₅⟩,
      intersectCardinalityArrayArraySse42_spec ha hb⟩
  rw [mem_plainMerge ha hb, MergeRule.Keeps]
  simp only [Bool.false_eq_true, and_false, and_true, false_or]

end Intersect

/-- Two blocks and a remainder on both sides, with zero among the values of both. -/
theorem vectorIntersections_agree_blocks :
    let as := List.range' 0 19
    let bs := 0 :: List.range' 5 20
    let room := List.replicate 35 7
    ∃ values : List Nat, values.Pairwise (· < ·) ∧ (∀ v, v ∈ values ↔ v ∈ as ∧ v ∈ bs) ∧
      (∃ out', intersectArrayArraySse42 (.apart as) as.length (.apart bs) bs.length room =
          some (values.length, out') ∧
        out'.take values.length = values) ∧
      (∃ out', intersectArrayArrayNeon (.apart as) as.length (.apart bs) bs.length room =
          some (values.length, out') ∧
        out'.take values.length = values) ∧
      (∃ out', intersectSortedUint16 (.apart as) as.length (.apart bs) bs.length room =
          some (values.length, out') ∧
        out'.take values.length = values) ∧
      (∃ out', intersectArrayArrayInplaceSse42 as (.apart bs) bs.length =
          some (values.length, out') ∧
        out'.take values.length = values) ∧
      (∃ out', intersectArrayArrayInplaceNeon as (.apart bs) bs.length =
          some (values.length, out') ∧
        out'.take values.length = values) ∧
      intersectCardinalityArrayArraySse42 (.apart as) as.length (.apart bs) bs.length =
        some values.length :=
  vectorIntersections_agree (by decide) (by decide) (by decide) (by decide) (by decide)

end Roaring
