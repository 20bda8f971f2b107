import Mathlib
import Roaring.Interop.Streams

/-!
# Queries of an interval of keys

The fast paths of an interval open the two chunks in which it ends and trust the counts
of those between them.  They answer what the walk along the interval's source answers.
The sizes are kept one short of the interval's, as the interval of every 64-bit key has
one more than 64 bits count.
-/

namespace Roaring

open Lib

/-! ## The fast paths -/

variable {T : KeyType} {sb : Bool}

/-- Where an interval that holds keys, clipped to the key type, begins and ends. -/
structure IntervalBounds where
  firstChunk : Nat
  lastChunk : Nat
  firstLow : Nat
  lastLow : Nat

namespace IntervalBounds

def make (T : KeyType) (range : KeyRange) : IntervalBounds where
  firstChunk := chunkKey range.first
  lastChunk := chunkKey (min range.last T.layout.maxKey)
  firstLow := lowKey range.first
  lastLow := lowKey (min range.last T.layout.maxKey)

/-- The part of a chunk that the interval covers. -/
def part (i : IntervalBounds) (key : Nat) : Run where
  first := if key = i.firstChunk then i.firstLow else 0
  last := if key = i.lastChunk then i.lastLow else lowDomainSize - 1

/-- All of a chunk is covered. -/
def whole (r : Run) : Bool := decide (r.first = 0) && decide (r.last = lowDomainSize - 1)

end IntervalBounds

/-- The bits of the type of a chunk key. -/
def KeyType.chunkBits : KeyType → Nat
  | .u64 => 64
  | _ => 16

/-- The loop of `and_cardinality_interval`. -/
def countInterval (i : IntervalBounds) : List Chunk → Nat → Nat
  | [], count => count
  | c :: cs, count =>
    if i.lastChunk < c.key then count
    else
      let r := i.part c.key
      countInterval i cs (count + if IntervalBounds.whole r then c.slot.cardinality
        else c.slot.countInRange r.first r.last)

def andCardinalityInterval (T : KeyType) (b : Bitmap) (range : KeyRange) : Nat :=
  if range.empty ∨ T.layout.maxKey < range.first then 0
  else
    let i := IntervalBounds.make T range
    countInterval i (Stepper.entriesFrom Chunk.key i.firstChunk b.chunks) 0

/-- The test of one chunk: a part that is the whole chunk needs no look at its values. -/
def lacksPart (slot : ContainerHandle) (r : Run) : Bool :=
  if IntervalBounds.whole r then slot.cardinality ≠ lowDomainSize
  else !slot.coversRange r.first r.last

/-- The loop of `is_superset_of_interval`, whose chunk counter has the bits of a chunk key. -/
def holdsInterval (T : KeyType) (i : IntervalBounds) : List Chunk → Nat → Bool
  | [], _ => false
  | c :: cs, chunk =>
    if c.key ≠ chunk then false
    else if lacksPart c.slot (i.part chunk) then false
    else if chunk = i.lastChunk then true
    else holdsInterval T i cs ((chunk + 1) % 2 ^ T.chunkBits)

def isSupersetOfInterval (T : KeyType) (b : Bitmap) (range : KeyRange) : Bool :=
  if range.empty ∨ T.layout.maxKey < range.first then true
  else
    let i := IntervalBounds.make T range
    -- `find`: the entry of the key, or the end
    holdsInterval T i (b.chunks.dropWhile fun c ↦ c.key ≠ i.firstChunk) i.firstChunk

/-! ## Sizes -/

def operandIntervalHoldsKeys (T : KeyType) (range : KeyRange) : Bool :=
  !range.empty && decide (range.first ≤ T.layout.maxKey)

/-- The keys of an interval that holds some, but the first. -/
def intervalKeysAfterFirst (T : KeyType) (range : KeyRange) : Nat :=
  min range.last T.layout.maxKey - range.first

/-- The size in 64 bits. -/
def operandSize (T : KeyType) (range : KeyRange) : Nat :=
  if operandIntervalHoldsKeys T range then (intervalKeysAfterFirst T range + 1) % 2 ^ 64 else 0

def operandHasMoreThan (T : KeyType) (range : KeyRange) (count : Nat) : Bool :=
  operandIntervalHoldsKeys T range && decide (count ≤ intervalKeysAfterFirst T range)

/-- `size() + operand_size - and_cardinality`, in 64 bits. -/
def orCardinality (T : KeyType) (b : Bitmap) (range : KeyRange) : Nat :=
  (b.size + operandSize T range + 2 ^ 64 - andCardinalityInterval T b range % 2 ^ 64) % 2 ^ 64

/-- `is_subset_of`: the stream along the interval's source, for a bitmap that is not empty. -/
def isSubsetOfInterval (T : KeyType) (K : PieceKernels T.layout.wordCount) (b : Bitmap)
    (range : KeyRange) : Option Bool :=
  if b.size = 0 then some true
  else subsetStream (IntervalSource.source T.layout) K b (IntervalSource.make T.layout range)

def isStrictSubsetOfInterval (T : KeyType) (K : PieceKernels T.layout.wordCount) (b : Bitmap)
    (range : KeyRange) : Option Bool :=
  if operandHasMoreThan T range b.size then isSubsetOfInterval T K b range else some false

/-! ## The source of an interval -/

/-- The keys of an interval that the key type has. -/
def clippedKeys (T : KeyType) (range : KeyRange) : Set Nat := {k ∈ range.keys | k ≤ T.layout.maxKey}

variable {range : KeyRange}

theorem clippedKeys_eq_empty (h : range.empty ∨ T.layout.maxKey < range.first) :
    clippedKeys T range = ∅ := by
  rw [Set.eq_empty_iff_forall_notMem]
  rintro x ⟨hx, hmax⟩
  rcases h with hempty | hbeyond
  · exact absurd (of_decide_eq_true hempty) (not_lt.mpr (hx.1.trans hx.2))
  · exact absurd (hx.1.trans hmax) (not_le.mpr hbeyond)

theorem clippedKeys_eq :
    clippedKeys T range = {k | range.first ≤ k ∧ k ≤ min range.last T.layout.maxKey} := by
  ext k
  change (range.first ≤ k ∧ k ≤ range.last) ∧ k ≤ T.layout.maxKey ↔ range.first ≤ k ∧
    k ≤ min range.last T.layout.maxKey
  rw [le_min_iff, and_assoc]

/-- The pieces of an interval are single runs, so its source is served by any kernels. -/
theorem interval_serves (K : PieceKernels T.layout.wordCount) (range : KeyRange) :
    Serves (IntervalSource.source T.layout) K range.keys (clippedKeys T range)
    (IntervalSource.Inv T.layout range) := by
  refine ⟨IntervalSource.source_walks T.layout range, fun x hx ↦ hx, ?_⟩
  intro s t p c hs hpos hpiece
  have hlive : s.done = false := by
    rcases Bool.eq_false_or_eq_true s.done with hdone | hlive
    · rw [Stepper.position, IntervalSource.source, if_pos hdone] at hpos
      cases hpos
    · exact hlive
  rw [Stepper.position, IntervalSource.source, if_neg (by simp [hlive])] at hpos
  obtain rfl := Option.some.inj hpos
  obtain rfl : s.piece.2 = p := congrArg Prod.snd (Option.some.inj hpiece)
  have hholds := IntervalSource.piece_holds hs hlive
  refine ⟨hholds, fun _ ↦ ?_⟩
  have hrun : ∃ r, s.piece.2.payload = .run [r] ∧ r.first ≤ r.last := by
    rw [IntervalSource.piece]
    have hfull : (IntervalSource.madeFull T.layout).payload =
      .run [⟨0, T.layout.lowDomainSize - 1⟩] := rfl
    split
    · split
      · rename_i full hmade
        rw [hs.full full hmade]
        exact ⟨_, hfull, Nat.zero_le _⟩
      · exact ⟨_, hfull, Nat.zero_le _⟩
    · exact ⟨s.covered, rfl, IntervalSource.covered_le hs hlive⟩
  obtain ⟨r, hpayload, hle⟩ := hrun
  exact answer_of_single K hpayload hle hholds.cardinality

/-! ## What the fast paths answer -/

/-- An interval that holds keys. -/
structure HoldsKeys (T : KeyType) (range : KeyRange) : Prop where
  le : range.first ≤ min range.last T.layout.maxKey

theorem holdsKeys_of_not (h : ¬ (range.empty = true ∨ T.layout.maxKey < range.first)) :
    HoldsKeys T range := by
  rw [not_or, KeyRange.empty, decide_eq_true_eq, not_lt, not_lt] at h
  exact ⟨le_min h.1 h.2⟩

namespace HoldsKeys

variable {key v : Nat} (h : HoldsKeys T range)

include h

theorem chunks_le : (IntervalBounds.make T range).firstChunk ≤
    (IntervalBounds.make T range).lastChunk :=
  Nat.div_le_div_right h.le

/-- A state of the interval's source that stands on a chunk of it. -/
theorem inv_at (hfirst : (IntervalBounds.make T range).firstChunk ≤ key)
    (hlast : key ≤ (IntervalBounds.make T range).lastChunk) :
    ∃ s : IntervalSource T.layout, IntervalSource.Inv T.layout range s ∧ s.done = false ∧
      s.chunk = key ∧
      s.covered = (IntervalBounds.make T range).part key := by
  have hmax := h.le.trans (min_le_right _ _)
  have hnot : ¬ (range.empty = true ∨ T.layout.maxKey < range.first) := by
    rw [not_or, KeyRange.empty, decide_eq_true_eq, not_lt, not_lt]
    exact ⟨h.le.trans (min_le_left _ _), hmax⟩
  obtain ⟨hinv, -⟩ := IntervalSource.make_inv T.layout range
  have hmake : IntervalSource.make T.layout range =
      { firstChunk := T.layout.chunkKey range.first
        lastChunk := T.layout.chunkKey (min range.last T.layout.maxKey)
        firstLow := T.layout.lowKey range.first
        lastLow := T.layout.lowKey (min range.last T.layout.maxKey)
        chunk := T.layout.chunkKey range.first } := by
    rw [IntervalSource.make, if_neg hnot]
  have hfc : T.layout.chunkKey range.first = chunkKey range.first := T.layout_chunkKey hmax
  have hlc : T.layout.chunkKey (min range.last T.layout.maxKey) =
      chunkKey (min range.last T.layout.maxKey) :=
    T.layout_chunkKey (min_le_right _ _)
  rw [hmake] at hinv
  refine ⟨{ firstChunk := T.layout.chunkKey range.first
            lastChunk := T.layout.chunkKey (min range.last T.layout.maxKey)
            firstLow := T.layout.lowKey range.first
            lastLow := T.layout.lowKey (min range.last T.layout.maxKey)
            chunk := key }, ⟨.inr ⟨?_, ?_, ?_⟩, hinv.bounds, hinv.full⟩, rfl, rfl, ?_⟩
  · exact (hinv.span.resolve_left Bool.false_ne_true).1
  · change T.layout.chunkKey range.first ≤ key
    rw [hfc]
    exact hfirst
  · change key ≤ T.layout.chunkKey (min range.last T.layout.maxKey)
    rw [hlc]
    exact hlast
  · rw [IntervalSource.covered, IntervalBounds.part]
    simp only [hfc, hlc, KeyType.layout_lowKey, KeyType.layout_lowDomainSize]
    rfl

/-- The covered part of a chunk holds what the interval has there. -/
theorem mem_part (hfirst : (IntervalBounds.make T range).firstChunk ≤ key)
    (hlast : key ≤ (IntervalBounds.make T range).lastChunk) :
    ((IntervalBounds.make T range).part key).first ≤ v ∧
      v ≤ ((IntervalBounds.make T range).part key).last ↔
      v < lowDomainSize ∧ compose key v ∈ clippedKeys T range := by
  obtain ⟨s, hs, hlive, rfl, hcovered⟩ := h.inv_at hfirst hlast
  have hmem := IntervalSource.mem_covered hs hlive v
  rw [hcovered, KeyType.layout_lowDomainSize] at hmem
  exact hmem

theorem part_le (hfirst : (IntervalBounds.make T range).firstChunk ≤ key)
    (hlast : key ≤ (IntervalBounds.make T range).lastChunk) :
    ((IntervalBounds.make T range).part key).first ≤
      ((IntervalBounds.make T range).part key).last := by
  obtain ⟨s, hs, hlive, rfl, hcovered⟩ := h.inv_at hfirst hlast
  have hle := IntervalSource.covered_le hs hlive
  rwa [hcovered] at hle

end HoldsKeys

/-- The interval has nothing outside its chunks. -/
theorem chunk_of_mem_clippedKeys {key v : Nat} (hv : v < lowDomainSize)
    (hmem : compose key v ∈ clippedKeys T range) :
    (IntervalBounds.make T range).firstChunk ≤ key ∧
      key ≤ (IntervalBounds.make T range).lastChunk := by
  rw [clippedKeys_eq] at hmem
  have hfirst := Nat.div_le_div_right (c := lowDomainSize) hmem.1
  have hlast := Nat.div_le_div_right (c := lowDomainSize) hmem.2
  have hkey : compose key v / lowDomainSize = key := chunkKey_compose hv
  rw [hkey] at hfirst hlast
  exact ⟨hfirst, hlast⟩

theorem whole_iff {r : Run} : IntervalBounds.whole r = true ↔ r.first = 0 ∧
    r.last = lowDomainSize - 1 := by
  rw [IntervalBounds.whole, Bool.and_eq_true, decide_eq_true_eq, decide_eq_true_eq]

/-- One chunk's part of the count. -/
theorem share_eq {c : Chunk} (h : HoldsKeys T range) (hc : c.Valid T sb)
    (hfirst : (IntervalBounds.make T range).firstChunk ≤ c.key)
    (hlast : c.key ≤ (IntervalBounds.make T range).lastChunk) :
    (if IntervalBounds.whole ((IntervalBounds.make T range).part c.key) then c.slot.cardinality
      else c.slot.countInRange ((IntervalBounds.make T range).part c.key).first
        ((IntervalBounds.make T range).part c.key).last) = c.share (clippedKeys T range) := by
  classical
  set r := (IntervalBounds.make T range).part c.key with hr
  have hmem : ∀ v ∈ c.slot.values,
      (r.first ≤ v ∧ v ≤ r.last ↔ compose c.key v ∈ clippedKeys T range) := by
    intro v hv
    rw [hr, h.mem_part hfirst hlast]
    exact and_iff_right (hc.slot.values_lt v hv)
  have hshare : c.share (clippedKeys T range) =
      (c.slot.values.filter fun v ↦ decide (r.first ≤ v ∧ v ≤ r.last)).length := by
    rw [Chunk.share]
    congr 1
    exact List.filter_congr fun v hv ↦ decide_eq_decide.2 (hmem v hv).symm
  rw [hshare]
  split
  · rename_i hall
    obtain ⟨hzero, htop⟩ := whole_iff.1 hall
    rw [hc.slot.cardinality, List.filter_eq_self.2]
    intro v hv
    have hlt := hc.slot.values_lt v hv
    rw [decide_eq_true_eq, hzero, htop]
    exact ⟨Nat.zero_le v, Nat.le_sub_one_of_lt hlt⟩
  · exact hc.slot.countInRange_eq (h.part_le hfirst hlast)

theorem countInterval_eq (h : HoldsKeys T range) {cs : List Chunk} (hvalid : ∀ c ∈ cs, c.Valid T sb)
    (hasc : cs.Pairwise fun c d ↦ c.key < d.key)
    (hfirst : ∀ c ∈ cs, (IntervalBounds.make T range).firstChunk ≤ c.key) (count : Nat) :
    countInterval (IntervalBounds.make T range) cs count =
      count + (cs.map (Chunk.share (clippedKeys T range))).sum := by
  induction cs generalizing count with
  | nil => rfl
  | cons c cs ih =>
    rw [countInterval]
    split
    · rename_i hbeyond
      have hnone : ∀ n ∈ (c :: cs).map (Chunk.share (clippedKeys T range)), n = 0 := by
        intro n hn
        obtain ⟨d, hd, rfl⟩ := List.mem_map.1 hn
        apply Chunk.share_eq_zero
        intro v hv hmem
        have hle := (chunk_of_mem_clippedKeys ((hvalid d hd).slot.values_lt v hv) hmem).2
        rcases List.mem_cons.1 hd with rfl | hd
        · exact absurd hle (not_le.2 hbeyond)
        · have hlt := List.rel_of_pairwise_cons hasc hd
          omega
      rw [List.sum_eq_zero hnone, Nat.add_zero]
    · rename_i hwithin
      have hc := hvalid c List.mem_cons_self
      dsimp only
      rw [ih (fun d hd ↦ hvalid d (List.mem_cons_of_mem c hd)) hasc.of_cons
        (fun d hd ↦ hfirst d (List.mem_cons_of_mem c hd)),
          share_eq h hc (hfirst c List.mem_cons_self) (not_lt.1 hwithin),
        List.map_cons, List.sum_cons, Nat.add_assoc]

/-- The fast path counts the keys that the bitmap has of the interval. -/
theorem andCardinalityInterval_eq {b : Bitmap} (hb : b.Valid T sb) (range : KeyRange) :
    andCardinalityInterval T b range = (b.keys ∩ clippedKeys T range).ncard := by
  rw [andCardinalityInterval]
  split
  · rename_i hnone
    rw [clippedKeys_eq_empty hnone, Set.inter_empty, Set.ncard_empty]
  · rename_i hsome
    have h := holdsKeys_of_not hsome
    set i := IntervalBounds.make T range with hi
    have hsub : (Stepper.entriesFrom Chunk.key i.firstChunk b.chunks).Sublist b.chunks :=
      Stepper.entriesFrom_sublist _ _
    dsimp only
    rw [countInterval_eq h (fun c hc ↦ hb.chunks c (hsub.subset hc)) (hb.ascending.sublist hsub)
      (fun c hc ↦ ((Stepper.mem_entriesFrom hb.ascending).1 hc).2), Nat.zero_add,
        hb.ncard_keys_inter]
    -- the chunks in front of the interval share nothing with it
    have hkeep :
        ((Stepper.entriesFrom Chunk.key i.firstChunk b.chunks).map
        (Chunk.share (clippedKeys T range))).sum =
        (b.chunks.map (Chunk.share (clippedKeys T range))).sum ∧
          ∀ c ∈ Stepper.entriesFrom Chunk.key i.firstChunk b.chunks, c.Valid T sb := by
      refine Stepper.entriesFrom_induction
        (P := fun cs ↦ (cs.map (Chunk.share (clippedKeys T range))).sum =
          (b.chunks.map (Chunk.share (clippedKeys T range))).sum ∧ ∀ c ∈ cs, c.Valid T sb) ?_
            ⟨rfl, hb.chunks⟩
      rintro c cs hlt ⟨hsum, hvalid⟩
      have hnone : c.share (clippedKeys T range) = 0 := Chunk.share_eq_zero fun v hv hmem ↦
        absurd (chunk_of_mem_clippedKeys ((hvalid c List.mem_cons_self).slot.values_lt v hv) hmem).1
          (not_le.2 hlt)
      rw [List.map_cons, List.sum_cons, hnone, Nat.zero_add] at hsum
      exact ⟨hsum, fun d hd ↦ hvalid d (List.mem_cons_of_mem c hd)⟩
    exact hkeep.1

/-- One chunk's part of the test. -/
theorem lacksPart_iff {c : Chunk} (h : HoldsKeys T range) (hc : c.Valid T sb)
    (hfirst : (IntervalBounds.make T range).firstChunk ≤ c.key)
    (hlast : c.key ≤ (IntervalBounds.make T range).lastChunk) :
    lacksPart c.slot ((IntervalBounds.make T range).part c.key) = false ↔
      ∀ v < lowDomainSize, compose c.key v ∈ clippedKeys T range → v ∈ c.slot.values := by
  set r := (IntervalBounds.make T range).part c.key with hr
  have hmem : ∀ v,
      (r.first ≤ v ∧ v ≤ r.last ↔ v < lowDomainSize ∧ compose c.key v ∈ clippedKeys T range) :=
    fun v ↦ h.mem_part hfirst hlast
  have hall : (∀ v < lowDomainSize, compose c.key v ∈ clippedKeys T range → v ∈ c.slot.values) ↔
      ∀ v, r.first ≤ v → v ≤ r.last → v ∈ c.slot.values := by
    constructor
    · intro hin v h1 h2
      obtain ⟨hv, hkey⟩ := (hmem v).1 ⟨h1, h2⟩
      exact hin v hv hkey
    · intro hin v hv hkey
      obtain ⟨h1, h2⟩ := (hmem v).2 ⟨hv, hkey⟩
      exact hin v h1 h2
  rw [hall, lacksPart]
  split
  · rename_i hwhole
    obtain ⟨hzero, htop⟩ := whole_iff.1 hwhole
    rw [decide_eq_false_iff_not, not_not, hc.slot.cardinality, hzero, htop]
    constructor
    · intro hcard v _ hle
      exact mem_of_length_eq hc.slot.values_ascending hc.slot.values_lt hcard
        (by unfold lowDomainSize at *; omega)
    · intro hin
      have hsub : ∀ v ∈ List.range lowDomainSize, v ∈ c.slot.values :=
        fun v hv ↦ hin v (Nat.zero_le v) (Nat.le_sub_one_of_lt (List.mem_range.1 hv))
      have hge := length_le_of_ascending List.pairwise_lt_range hsub
      have hle := length_le_of_ascending hc.slot.values_ascending
        fun v hv ↦ List.mem_range.2 (hc.slot.values_lt v hv)
      rw [List.length_range] at hge hle
      exact le_antisymm hle hge
  · rw [Bool.not_eq_false']
    exact hc.slot.coversRange_iff (h.part_le hfirst hlast)

/-- The chunk counter stays below the chunk keys' bound, so it does not wrap. -/
theorem KeyType.succ_mod_chunkBits {chunk : Nat} (h : chunk + 1 < T.chunkDomainSize) :
    (chunk + 1) % 2 ^ T.chunkBits = chunk + 1 := by
  refine Nat.mod_eq_of_lt (h.trans_le ?_)
  rw [KeyType.chunkDomainSize]
  exact Nat.pow_le_pow_right (by decide) (by cases T <;> decide)

theorem lastChunk_lt (T : KeyType) (range : KeyRange) : (IntervalBounds.make T range).lastChunk <
    T.chunkDomainSize := by
  have hmax : min range.last T.layout.maxKey ≤ T.layout.maxKey := min_le_right _ _
  have hlt := Layout.chunkKey_lt hmax
  rw [T.layout_chunkKey hmax, KeyType.layout_chunkCount] at hlt
  exact hlt

/-- The loop goes on while the chunks follow each other and each holds its part. -/
theorem holdsInterval_iff (h : HoldsKeys T range) {cs : List Chunk}
    (hvalid : ∀ c ∈ cs, c.Valid T sb) (hasc : cs.Pairwise fun c d ↦ c.key < d.key) {chunk : Nat}
    (hfirst : (IntervalBounds.make T range).firstChunk ≤ chunk)
    (hlast : chunk ≤ (IntervalBounds.make T range).lastChunk) (hahead : ∀ c ∈ cs, chunk ≤ c.key) :
    holdsInterval T (IntervalBounds.make T range) cs chunk = true ↔
      ∀ key, chunk ≤ key → key ≤ (IntervalBounds.make T range).lastChunk →
        ∃ c ∈ cs, c.key = key ∧ ∀ v < lowDomainSize, compose key v ∈ clippedKeys T range →
          v ∈ c.slot.values := by
  induction cs generalizing chunk with
  | nil =>
    refine ⟨nofun, fun hall ↦ ?_⟩
    obtain ⟨c, hc, -⟩ := hall chunk le_rfl hlast
    exact absurd hc List.not_mem_nil
  | cons c cs ih =>
    have hc := hvalid c List.mem_cons_self
    rw [holdsInterval]
    split
    · rename_i hne
      refine ⟨nofun, fun hall ↦ ?_⟩
      obtain ⟨d, hd, hkey, -⟩ := hall chunk le_rfl hlast
      rcases List.mem_cons.1 hd with rfl | hd
      · exact absurd hkey hne
      · have hlt := List.rel_of_pairwise_cons hasc hd
        have hle := hahead c List.mem_cons_self
        omega
    · rename_i heq
      obtain rfl : c.key = chunk := not_not.1 heq
      have hpart := lacksPart_iff h hc hfirst hlast
      -- the entry of this chunk is the one at the cursor
      have honly : ∀ d ∈ c :: cs, d.key = c.key → d = c := by
        intro d hd hkey
        rcases List.mem_cons.1 hd with rfl | hd
        · rfl
        · exact absurd hkey (Nat.ne_of_gt (List.rel_of_pairwise_cons hasc hd))
      split
      · rename_i hfail
        refine ⟨nofun, fun hall ↦ ?_⟩
        obtain ⟨d, hd, hkey, hin⟩ := hall c.key le_rfl hlast
        obtain rfl := honly d hd hkey
        have hpass := hpart.2 hin
        rw [hfail] at hpass
        exact absurd hpass nofun
      · rename_i hpass
        have hin := hpart.1 (Bool.eq_false_iff.2 hpass)
        split
        · rename_i hend
          refine ⟨fun _ key h1 h2 ↦ ?_, fun _ ↦ rfl⟩
          obtain rfl : c.key = key := by omega
          exact ⟨c, List.mem_cons_self, rfl, hin⟩
        · rename_i hmore
          have hlt : c.key < (IntervalBounds.make T range).lastChunk :=
            Nat.lt_of_le_of_ne hlast hmore
          rw [KeyType.succ_mod_chunkBits (lt_of_le_of_lt hlt (lastChunk_lt T range)),
            ih (fun d hd ↦ hvalid d (List.mem_cons_of_mem c hd)) hasc.of_cons
              (hfirst.trans (Nat.le_succ _)) hlt
              (fun d hd ↦ List.rel_of_pairwise_cons hasc hd)]
          constructor
          · intro hall key h1 h2
            rcases Nat.lt_or_eq_of_le h1 with hbehind | rfl
            · obtain ⟨d, hd, hrest⟩ := hall key hbehind h2
              exact ⟨d, List.mem_cons_of_mem c hd, hrest⟩
            · exact ⟨c, List.mem_cons_self, rfl, hin⟩
          · intro hall key h1 h2
            obtain ⟨d, hd, hkey, hrest⟩ := hall key (Nat.le_of_succ_le h1) h2
            rcases List.mem_cons.1 hd with rfl | hd
            · omega
            · exact ⟨d, hd, hkey, hrest⟩

/-- The fast path tells whether the bitmap holds the interval. -/
theorem isSupersetOfInterval_iff {b : Bitmap} (hb : b.Valid T sb) (range : KeyRange) :
    isSupersetOfInterval T b range = true ↔ clippedKeys T range ⊆ b.keys := by
  rw [isSupersetOfInterval]
  split
  · rename_i hnone
    rw [clippedKeys_eq_empty hnone]
    exact ⟨fun _ ↦ Set.empty_subset _, fun _ ↦ rfl⟩
  · rename_i hsome
    have h := holdsKeys_of_not hsome
    set i := IntervalBounds.make T range with hi
    set cs := b.chunks.dropWhile fun c ↦ decide (c.key ≠ i.firstChunk) with hcs
    have hsub : cs.Sublist b.chunks := List.dropWhile_sublist _
    have hasc := hb.ascending.sublist hsub
    -- what is found, and what is in front of it
    have hhead : ∀ c ∈ cs.head?, c.key = i.firstChunk := by
      intro c hc
      have hnot := List.head?_dropWhile_not (fun c : Chunk ↦ decide (c.key ≠ i.firstChunk)) b.chunks
      rw [← hcs, hc] at hnot
      simpa using hnot
    have hahead : ∀ c ∈ cs, i.firstChunk ≤ c.key := by
      intro c hc
      cases hcons : cs with
      | nil =>
        rw [hcons] at hc
        exact absurd hc List.not_mem_nil
      | cons d ds =>
        rw [hcons] at hc hhead hasc
        have hd := hhead d rfl
        rcases List.mem_cons.1 hc with rfl | hc
        · exact hd.ge
        · exact hd ▸ (List.rel_of_pairwise_cons hasc hc).le
    have hfound : ∀ c ∈ b.chunks, i.firstChunk ≤ c.key → (∃ d ∈ b.chunks, d.key = i.firstChunk) →
        c ∈ cs := by
      rintro c hc hle ⟨d, hd, hkey⟩
      rw [← List.takeWhile_append_dropWhile (p := fun c : Chunk ↦ decide (c.key ≠ i.firstChunk))
        (l := b.chunks),
        ← hcs, List.mem_append] at hc hd
      have hfront : ∀ e ∈ b.chunks.takeWhile (fun c ↦ decide (c.key ≠ i.firstChunk)),
          e.key ≠ i.firstChunk :=
        fun e he ↦ by
          have hp := List.mem_takeWhile_imp he
          exact of_decide_eq_true hp
      have hsorted := hb.ascending
      rw [← List.takeWhile_append_dropWhile (p := fun c : Chunk ↦ decide (c.key ≠ i.firstChunk))
        (l := b.chunks),
        ← hcs, List.pairwise_append] at hsorted
      rcases hd with hd | hd
      · exact absurd hkey (hfront d hd)
      · rcases hc with hc | hc
        · have hlt := hsorted.2.2 c hc d hd
          omega
        · exact hc
    rw [holdsInterval_iff h (fun c hc ↦ hb.chunks c (hsub.subset hc)) hasc le_rfl
      h.chunks_le hahead]
    constructor
    · intro hall x hx
      have hself : compose (chunkKey x) (lowKey x) = x := compose_chunkKey_lowKey x
      rw [← hself] at hx ⊢
      obtain ⟨h1, h2⟩ := chunk_of_mem_clippedKeys (lowKey_lt x) hx
      obtain ⟨c, hc, hkey, hin⟩ := hall _ h1 h2
      exact (hb.mem_keys_compose (lowKey_lt x)).2 ⟨c, hsub.subset hc, hkey, hin _ (lowKey_lt x) hx⟩
    · intro hin key h1 h2
      have hchunk : ∀ key, i.firstChunk ≤ key → key ≤ i.lastChunk →
          ∃ d ∈ b.chunks, d.key = key := by
        intro key h1 h2
        obtain ⟨hlt, hmem⟩ := (h.mem_part h1 h2).1 ⟨le_rfl, h.part_le h1 h2⟩
        obtain ⟨d, hd, hkey, -⟩ := (hb.mem_keys_compose hlt).1 (hin hmem)
        exact ⟨d, hd, hkey⟩
      obtain ⟨c, hc, rfl⟩ := hchunk key h1 h2
      refine ⟨c, hfound c hc h1 (hchunk _ le_rfl h.chunks_le), rfl, fun v hv hmem ↦ ?_⟩
      obtain ⟨d, hd, hkey, hvd⟩ := (hb.mem_keys_compose hv).1 (hin hmem)
      exact hb.eq_of_key_eq hd hc hkey ▸ hvd

/-! ## The sizes -/

theorem operandIntervalHoldsKeys_iff : operandIntervalHoldsKeys T range = true ↔
    HoldsKeys T range := by
  rw [operandIntervalHoldsKeys, Bool.and_eq_true, KeyRange.empty, decide_eq_true_eq,
    Bool.not_eq_true',
    decide_eq_false_iff_not, not_lt, ← le_min_iff]
  exact ⟨HoldsKeys.mk, HoldsKeys.le⟩

theorem clippedKeys_finite (T : KeyType) (range : KeyRange) : (clippedKeys T range).Finite :=
  (Set.finite_le_nat T.layout.maxKey).subset fun _ hx ↦ hx.2

theorem HoldsKeys.ncard_eq (h : HoldsKeys T range) :
    (clippedKeys T range).ncard = intervalKeysAfterFirst T range + 1 := by
  have hicc : clippedKeys T range = ↑(Finset.Icc range.first (min range.last T.layout.maxKey)) := by
    rw [clippedKeys_eq]
    ext k
    simp
  have hle := h.le
  rw [hicc, Set.ncard_coe_finset, Nat.card_Icc, intervalKeysAfterFirst]
  omega

theorem clippedKeys_eq_empty_of_not (h : ¬ HoldsKeys T range) : clippedKeys T range = ∅ := by
  apply clippedKeys_eq_empty
  by_contra hnot
  exact h (holdsKeys_of_not hnot)

theorem operandSize_eq (T : KeyType) (range : KeyRange) :
    operandSize T range = (clippedKeys T range).ncard % 2 ^ 64 := by
  rw [operandSize]
  split
  · rename_i hkeys
    rw [(operandIntervalHoldsKeys_iff.1 hkeys).ncard_eq]
  · rename_i hnone
    rw [clippedKeys_eq_empty_of_not fun h ↦ hnone (operandIntervalHoldsKeys_iff.2 h),
      Set.ncard_empty]
    rfl

theorem operandHasMoreThan_iff {count : Nat} :
    operandHasMoreThan T range count = true ↔ count < (clippedKeys T range).ncard := by
  rw [operandHasMoreThan, Bool.and_eq_true, decide_eq_true_eq, operandIntervalHoldsKeys_iff]
  constructor
  · rintro ⟨h, hle⟩
    rw [h.ncard_eq]
    exact Nat.lt_succ_of_le hle
  · intro hlt
    have h : HoldsKeys T range := by
      by_contra hnot
      rw [clippedKeys_eq_empty_of_not hnot, Set.ncard_empty] at hlt
      exact Nat.not_lt_zero _ hlt
    rw [h.ncard_eq] at hlt
    exact ⟨h, Nat.le_of_lt_succ hlt⟩

namespace Bitmap.Valid

variable {b : Bitmap} (hb : b.Valid T sb)

include hb

theorem ncard_keys : b.keys.ncard = b.size := by
  have hnodup : b.values.Nodup := hb.values_ascending.imp Nat.ne_of_lt
  have hkeys : b.keys = ↑b.values.toFinset := by
    ext x
    rw [Finset.mem_coe, List.mem_toFinset]
    rfl
  rw [hb.size_eq_length_values, hkeys, Set.ncard_coe_finset, List.toFinset_card_of_nodup hnodup]

theorem keys_le_maxKey : ∀ x ∈ b.keys, x ≤ T.layout.maxKey := by
  intro x hx
  obtain ⟨c, hc, v, hv, rfl⟩ := Bitmap.mem_keys.1 hx
  exact ((hb.chunks c hc).le_maxKey hv).1

/-- The sizes add up in 64 bits. -/
theorem orCardinality_eq (range : KeyRange) :
    orCardinality T b range = (b.keys ∪ clippedKeys T range).ncard % 2 ^ 64 := by
  have hkeys : b.keys.Finite := List.finite_toSet b.values
  have hsum := Set.ncard_union_add_ncard_inter b.keys (clippedKeys T range) hkeys
    (clippedKeys_finite T range)
  rw [hb.ncard_keys, ← andCardinalityInterval_eq hb] at hsum
  rw [orCardinality, operandSize_eq]
  omega

/-- The union of a bitmap and an interval is counted in 64 bits unless it is every 64-bit key. -/
theorem ncard_union_lt_iff (range : KeyRange) :
    (b.keys ∪ clippedKeys T range).ncard < 2 ^ 64 ↔
      ¬ (T = .u64 ∧ b.keys ∪ clippedKeys T range = {k | k < 2 ^ 64}) := by
  have hall : ({k | k < 2 ^ 64} : Set Nat).ncard = 2 ^ 64 := by
    have hrange : ({k | k < 2 ^ 64} : Set Nat) = ↑(Finset.range (2 ^ 64)) := by
      ext k
      simp
    rw [hrange, Set.ncard_coe_finset, Finset.card_range]
  have hsub : b.keys ∪ clippedKeys T range ⊆ ↑(Finset.range (2 ^ T.digits)) := by
    have hpos := Nat.two_pow_pos T.digits
    have hmax : ∀ x ≤ T.layout.maxKey, x < 2 ^ T.digits := fun x hx ↦ by
      rw [KeyType.layout_maxKey] at hx
      omega
    rintro x (hx | hx)
    · exact Finset.mem_coe.2 (Finset.mem_range.2 (hmax x (hb.keys_le_maxKey x hx)))
    · exact Finset.mem_coe.2 (Finset.mem_range.2 (hmax x hx.2))
  have hle := Set.ncard_le_ncard hsub (Finset.finite_toSet _)
  rw [Set.ncard_coe_finset, Finset.card_range] at hle
  constructor
  · rintro hlt ⟨-, heq⟩
    rw [heq, hall] at hlt
    exact Nat.lt_irrefl _ hlt
  · intro hnot
    have hdigits : T.digits = 64 → T = .u64 := by cases T <;> simp [KeyType.digits]
    by_contra hge
    have hpow : 2 ^ T.digits ≤ 2 ^ 64 := Nat.pow_le_pow_right (by decide) (by cases T <;> decide)
    have heq : 2 ^ T.digits = 2 ^ 64 := le_antisymm hpow ((not_lt.1 hge).trans hle)
    have hu64 := hdigits (Nat.pow_right_injective (le_refl 2) heq)
    rw [heq] at hsub
    have hsame := Set.eq_of_subset_of_ncard_le hsub
      (by rw [Set.ncard_coe_finset, Finset.card_range]; exact not_lt.1 hge) (Finset.finite_toSet _)
    refine hnot ⟨hu64, ?_⟩
    rw [hsame]
    ext k
    simp

theorem isSubsetOfInterval_iff (K : PieceKernels T.layout.wordCount) (range : KeyRange) :
    ∃ r, isSubsetOfInterval T K b range = some r ∧ (r = true ↔ b.keys ⊆ clippedKeys T range) := by
  obtain ⟨hinv, hstart⟩ := IntervalSource.make_inv T.layout range
  rw [isSubsetOfInterval]
  split
  · rename_i hzero
    have hfinite : b.keys.Finite := List.finite_toSet b.values
    have hempty : b.keys = ∅ := by
      rwa [← hb.ncard_keys, Set.ncard_eq_zero hfinite] at hzero
    exact ⟨true, rfl, by simp [hempty]⟩
  · exact subsetStream_iff (interval_serves K range) hb hinv hstart

theorem isStrictSubsetOfInterval_iff (K : PieceKernels T.layout.wordCount) (range : KeyRange) :
    ∃ r, isStrictSubsetOfInterval T K b range = some r ∧
      (r = true ↔ b.keys ⊂ clippedKeys T range) := by
  have hlt : b.keys ⊂ clippedKeys T range → b.size < (clippedKeys T range).ncard := fun h ↦
    hb.ncard_keys ▸ Set.ncard_lt_ncard h (clippedKeys_finite T range)
  rw [isStrictSubsetOfInterval]
  split
  · rename_i hmore
    rw [operandHasMoreThan_iff] at hmore
    obtain ⟨r, hr, hiff⟩ := hb.isSubsetOfInterval_iff K range
    refine ⟨r, hr, hiff.trans ⟨fun hsub ↦ hsub.ssubset_of_ne ?_, fun h ↦ h.subset⟩⟩
    rintro heq
    rw [← heq, hb.ncard_keys] at hmore
    exact Nat.lt_irrefl _ hmore
  · rename_i hfew
    exact ⟨false, rfl, nofun, fun h ↦ absurd (operandHasMoreThan_iff.2 (hlt h)) hfew⟩

end Bitmap.Valid

/-! ## The queries -/

/-- The queries of a range of a container and of an interval of keys answer by definition, as the
walk along the interval's source does; the size of a union is that of the set unless this is every
64-bit key. -/
theorem intervalQueries_spec (sb : Bool) (K : PieceKernels T.layout.wordCount) (range : KeyRange) :
    (∀ (h : ContainerHandle) (first last : Nat), h.Valid → first ≤ last → last < lowDomainSize →
      (h.anyInRange first last = true ↔ ∃ v ∈ h.values, first ≤ v ∧ v ≤ last) ∧
      h.countInRange first last = (h.values.filter fun v ↦ decide (first ≤ v ∧ v ≤ last)).length ∧
      (h.coversRange first last = true ↔ ∀ v, first ≤ v → v ≤ last → v ∈ h.values)) ∧
    ∀ b : Bitmap, b.Valid T sb →
      andCardinalityInterval T b range = (b.keys ∩ clippedKeys T range).ncard ∧
      andCardinalityStream (IntervalSource.source T.layout) K b
        (IntervalSource.make T.layout range) =
        some (andCardinalityInterval T b range) ∧
      (isSupersetOfInterval T b range = true ↔ clippedKeys T range ⊆ b.keys) ∧
      (∃ total, supersetStream (IntervalSource.source T.layout) K IntervalSource.truncated b
        (IntervalSource.make T.layout range) = some (isSupersetOfInterval T b range, total)) ∧
      (orCardinality T b range = (b.keys ∪ clippedKeys T range).ncard ↔
        ¬ (T = .u64 ∧ b.keys ∪ clippedKeys T range = {k | k < 2 ^ 64})) ∧
      ∃ r, isStrictSubsetOfInterval T K b range = some r ∧
        (r = true ↔ b.keys ⊂ clippedKeys T range) := by
  refine ⟨fun h first last hv hle _ ↦
    ⟨hv.anyInRange_iff hle, hv.countInRange_eq hle, hv.coversRange_iff hle⟩, ?_⟩
  intro b hb
  obtain ⟨hinv, hstart⟩ := IntervalSource.make_inv T.layout range
  have hserves := interval_serves K range
  refine ⟨andCardinalityInterval_eq hb range, ?_, isSupersetOfInterval_iff hb range, ?_, ?_,
    hb.isStrictSubsetOfInterval_iff K range⟩
  · rw [andCardinalityInterval_eq hb range]
    exact andCardinalityStream_eq hserves hb hinv hstart
  · -- the walk of an interval is never cut off
    have hwhole : ∀ s, IntervalSource.Inv T.layout range s →
        (IntervalSource.source T.layout).atEnd s = true →
        (s.truncated = false ↔ True) := fun _ _ _ ↦ ⟨fun _ ↦ trivial, fun _ ↦ rfl⟩
    obtain ⟨⟨r, total⟩, hr, hiff⟩ := supersetStream_iff hserves hb hinv hstart hwhole
    refine ⟨total, ?_⟩
    have hsame : isSupersetOfInterval T b range = r := by
      rw [Bool.eq_iff_iff, isSupersetOfInterval_iff hb range, hiff, and_true]
    rw [hr, hsame]
  · rw [hb.orCardinality_eq range, ← hb.ncard_union_lt_iff range]
    exact ⟨fun h ↦ h ▸ Nat.mod_lt _ (by decide), Nat.mod_eq_of_lt⟩

/-- Kernels for the source of an interval, which never asks them. -/
def noKernels (n : Nat) : PieceKernels n := ⟨fun _ _ ↦ 0, fun _ _ ↦ false⟩

/-- The words that begin a chunk, and two values behind them. -/
def firstWords : Words wordCount := (Words.zeroed wordCount).scatter (List.range 66 ++ [70, 500])

/-- An array, a run that is a whole chunk, and a bitset. -/
def threeKinds : Bitmap where
  chunks := [⟨0, .syncHeader [5, 60, 70, 65535]⟩, ⟨1, .makeRunFrom [⟨0, 65535⟩] 65536⟩,
    ⟨2, .makeBitsetFrom firstWords 68⟩]
  size := 65608

theorem values_firstWords : firstWords.values = List.range 66 ++ [70, 500] :=
  Words.values_scatter (by decide) (by decide)

theorem threeKinds_valid (T : KeyType) (hT : 2 < T.chunkDomainSize) (sb : Bool) :
    threeKinds.Valid T sb := by
  have hcount : firstWords.count = 68 := by
    rw [Words.count_eq_length_values, values_firstWords]
    decide
  have hfull : Canonical [⟨0, 65535⟩] := ⟨by decide, List.pairwise_singleton _ _, by decide⟩
  refine ⟨by decide, fun c hc ↦ ?_, rfl⟩
  simp only [threeKinds, List.mem_cons, List.not_mem_nil, or_false] at hc
  rcases hc with rfl | rfl | rfl
  · exact ⟨(Nat.zero_le 2).trans_lt hT, ContainerHandle.syncHeader_valid (by decide) (by decide),
      List.cons_ne_nil _ _, fun _ values hv ↦ by cases hv; decide⟩
  · exact ⟨Nat.one_lt_two.le.trans_lt hT, ContainerHandle.makeRunFrom_valid hfull rfl,
      hfull.values_ne_nil (List.cons_ne_nil _ _), nofun⟩
  · refine ⟨hT, ContainerHandle.makeBitsetFrom_valid hcount, ?_, nofun⟩
    change firstWords.values ≠ []
    rw [values_firstWords]
    exact List.cons_ne_nil _ _

/-- From the last value of the array, over all of the run, into the second word of the bitset. -/
theorem intervalQueries_spec_threeKinds :
    (∃ v ∈ (ContainerHandle.makeBitsetFrom firstWords 68).values, 60 ≤ v ∧ v ≤ 500) ∧
      ((ContainerHandle.makeBitsetFrom firstWords 68).values.filter fun v ↦ decide
        (60 ≤ v ∧ v ≤ 70)).length = 7 ∧
      (∀ v, 1 ≤ v → v ≤ 65 → v ∈ (ContainerHandle.makeBitsetFrom firstWords 68).values) ∧
      (threeKinds.keys ∩ clippedKeys .u32 ⟨65535, 131137⟩).ncard = 65603 ∧
      andCardinalityStream (IntervalSource.source KeyType.u32.layout) (noKernels _) threeKinds
        (IntervalSource.make KeyType.u32.layout ⟨65535, 131137⟩) = some 65603 ∧
      clippedKeys .u32 ⟨65535, 131137⟩ ⊆ threeKinds.keys ∧
      (∃ total, supersetStream (IntervalSource.source KeyType.u32.layout) (noKernels _)
        IntervalSource.truncated
        threeKinds (IntervalSource.make KeyType.u32.layout ⟨65535, 131137⟩) = some (true, total)) ∧
      (threeKinds.keys ∪ clippedKeys .u32 ⟨65535, 131137⟩).ncard = 65608 ∧
      ¬ threeKinds.keys ⊂ clippedKeys .u32 ⟨65535, 131137⟩ := by
  have hvalid := threeKinds_valid .u32 (by decide) true
  obtain ⟨hcontainer, hbitmap⟩ :=
    intervalQueries_spec (T := .u32) true (noKernels _) ⟨65535, 131137⟩
  have hslot : (ContainerHandle.makeBitsetFrom firstWords 68).Valid :=
    (hvalid.chunks _ (List.mem_cons_of_mem _ (List.mem_cons_of_mem _ List.mem_cons_self))).slot
  obtain ⟨hcount, hcounted, hsuper, ⟨total, htotal⟩, hunion, r, hr, hstrict⟩ :=
    hbitmap threeKinds hvalid
  have hcounts : andCardinalityInterval .u32 threeKinds ⟨65535, 131137⟩ = 65603 := by decide +kernel
  have hholds : isSupersetOfInterval .u32 threeKinds ⟨65535, 131137⟩ = true := by decide +kernel
  have hsize : orCardinality .u32 threeKinds ⟨65535, 131137⟩ = 65608 := by decide +kernel
  have hless : isStrictSubsetOfInterval .u32 (noKernels _) threeKinds ⟨65535, 131137⟩ =
      some false := by
    decide +kernel
  have hany : (ContainerHandle.makeBitsetFrom firstWords 68).anyInRange 60 500 = true := by
    decide +kernel
  have hseven : (ContainerHandle.makeBitsetFrom firstWords 68).countInRange 60 70 = 7 := by
    decide +kernel
  have hcovers : (ContainerHandle.makeBitsetFrom firstWords 68).coversRange 1 65 = true := by
    decide +kernel
  rw [hcounts] at hcount hcounted
  rw [hholds] at htotal
  rw [hless] at hr
  obtain rfl := Option.some.inj hr
  refine ⟨((hcontainer _ 60 500 hslot (by decide) (by decide)).1).1 hany,
    (hcontainer _ 60 70 hslot (by decide) (by decide)).2.1.symm.trans hseven,
    (hcontainer _ 1 65 hslot (by decide) (by decide)).2.2.1 hcovers,
    hcount.symm, hcounted, hsuper.1 hholds, ⟨total, htotal⟩, ?_,
      fun h ↦ Bool.false_ne_true (hstrict.2 h)⟩
  rw [← hsize]
  exact (hunion.2 fun h ↦ KeyType.noConfusion h.1).symm

/-- A bitmap of the key 0. -/
def zeroKey : Bitmap := ⟨[⟨0, ContainerHandle.syncHeader [0]⟩], 1⟩

theorem zeroKey_valid (T : KeyType) (sb : Bool) : zeroKey.Valid T sb := by
  have hslot : (ContainerHandle.syncHeader [0]).Valid :=
    ContainerHandle.syncHeader_valid (List.pairwise_singleton _ _) fun v hv ↦ by
      rw [List.mem_singleton.1 hv]
      decide
  refine ⟨List.pairwise_singleton _ _, fun c hc ↦ ?_, rfl⟩
  obtain rfl := List.mem_singleton.1 hc
  exact ⟨Nat.two_pow_pos _, hslot, List.cons_ne_nil _ _, fun _ values hv ↦ by cases hv; decide⟩

/-- The interval of every 64-bit key but 0, together with 0, has a size that 64 bits do not hold. -/
theorem orCardinality_wraps :
    zeroKey.Valid .u64 true ∧ clippedKeys .u64 ⟨1, 2 ^ 64 - 1⟩ ≠ {k | k < 2 ^ 64} ∧
      orCardinality .u64 zeroKey ⟨1, 2 ^ 64 - 1⟩ ≠
        (zeroKey.keys ∪ clippedKeys .u64 ⟨1, 2 ^ 64 - 1⟩).ncard := by
  have hzero : (0 : Nat) ∉ clippedKeys .u64 ⟨1, 2 ^ 64 - 1⟩ := fun h ↦ Nat.not_succ_le_zero 0 h.1.1
  refine ⟨zeroKey_valid .u64 true, fun h ↦ hzero (h ▸ Nat.two_pow_pos 64), ?_⟩
  have hval : orCardinality .u64 zeroKey ⟨1, 2 ^ 64 - 1⟩ = 0 := by decide +kernel
  rw [hval]
  have hmem : (0 : Nat) ∈ zeroKey.keys ∪ clippedKeys .u64 ⟨1, 2 ^ 64 - 1⟩ := .inl List.mem_cons_self
  have hfinite : (zeroKey.keys ∪ clippedKeys .u64 ⟨1, 2 ^ 64 - 1⟩).Finite :=
    Set.Finite.union (List.finite_toSet zeroKey.values) (clippedKeys_finite _ _)
  exact ((Set.ncard_pos hfinite).2 ⟨0, hmem⟩).ne

end Roaring
