import Mathlib
import Roaring.Wire.FrozenRoundTrip
import Roaring.Wire.RankedBounds

/-!
# Rank blocks

What the writer stores behind a run or bitset payload, and what the view makes of
it: over a rank block that holds the counts in front of each run or word, the
position of a low key is its rank in the container, and the key of an ordinal is
the value that stands there.
-/

namespace Roaring

open Lib

/-! ## The counts -/

def runLengths (runs : List Run) : List Nat := runs.map Run.length

def wordPopcounts (words : Words wordCount) : List Nat :=
  (List.range wordCount).map fun i ↦ popcount (words.word i)

/-- The counts of a rank block: the values before each run or each word. -/
def rankBlock (h : ContainerHandle) : List Nat :=
  match h.payload with
  | .array _ => []
  | .run runs => (List.range runs.length).map (before (runLengths runs))
  | .bitset words => (List.range wordCount).map (before (wordPopcounts words))

theorem frozenRunRanks_eq (runs : List Run) (start : Nat) :
    frozenRunRanks runs start =
      ((List.range runs.length).map fun k ↦ start + before (runLengths runs) k).flatMap
        (leBytes 2) := by
  induction runs generalizing start with
  | nil => rfl
  | cons r rs ih =>
      have hnext : ∀ k, start + before (runLengths (r :: rs)) (k + 1) =
          start + r.length + before (runLengths rs) k := fun k ↦ (Nat.add_assoc _ _ _).symm
      rw [frozenRunRanks, ih, List.length_cons, List.range_succ_eq_map, List.map_cons, List.map_map,
        List.flatMap_cons]
      congr 2
      apply List.map_congr_left
      intro k _
      exact (hnext k).symm

theorem frozenWordRanks_eq (words : Words wordCount) (remaining i start : Nat) :
    frozenWordRanks words remaining i start =
      ((List.range remaining).map fun k ↦ start +
        before ((List.range' i remaining).map fun j ↦ popcount (words.word j)) k).flatMap
          (leBytes 2) := by
  induction remaining generalizing i start with
  | zero => rfl
  | succ remaining ih =>
      rw [frozenWordRanks, ih, List.range_succ_eq_map, List.map_cons, List.map_map,
        List.flatMap_cons]
      congr 2
      apply List.map_congr_left
      intro k _
      rw [Function.comp_apply, List.range'_succ, List.map_cons]
      exact Nat.add_assoc _ _ _

section Block

variable {h : ContainerHandle}

/-- The bytes of the rank block are its counts. -/
theorem frozenBody_ranks_eq (h : ContainerHandle) :
    (frozenBody h).ranks = (rankBlock h).flatMap (leBytes 2) := by
  rw [frozenBody, rankBlock]
  cases h.payload with
  | array values => rfl
  | run runs =>
      dsimp only
      rw [frozenRunRanks_eq]
      simp only [Nat.zero_add]
  | bitset words =>
      dsimp only
      rw [frozenWordRanks_eq, wordPopcounts, List.range_eq_range']
      simp only [Nat.zero_add]

theorem runLengths_getD {runs : List Run} {i : Nat} (hi : i < runs.length) :
    (runLengths runs).getD i 0 = (runs.getD i ⟨0, 0⟩).length := by
  have hlen : i < (runLengths runs).length := hi.trans_eq (List.length_map Run.length).symm
  rw [List.getD_eq_getElem _ _ hlen, List.getD_eq_getElem _ _ hi]
  exact List.getElem_map _

theorem wordPopcounts_getD (words : Words wordCount) {i : Nat} (hi : i < wordCount) :
    (wordPopcounts words).getD i 0 = popcount (words.word i) := by
  rw [wordPopcounts, List.getD_eq_getElem _ _ (by rwa [List.length_map, List.length_range]),
    List.getElem_map, List.getElem_range]

@[simp] theorem length_wordPopcounts (words : Words wordCount) :
    (wordPopcounts words).length = wordCount := by
  rw [wordPopcounts, List.length_map, List.length_range]

theorem before_wordPopcounts_le (words : Words wordCount) {k : Nat} (hk : k ≤ wordCount) :
    before (wordPopcounts words) k ≤ 64 * k := by
  induction k with
  | zero => exact le_rfl
  | succ k ih =>
      rw [before_succ (by rwa [length_wordPopcounts]), wordPopcounts_getD words hk]
      have := popcount_le (words.word k)
      have := ih (by omega)
      omega

/-- Every count fits its 16 bits. -/
theorem rankBlock_lt (hv : h.Valid) : ∀ n ∈ rankBlock h, n < 256 ^ 2 := by
  have hwf := hv.payload
  rw [rankBlock]
  cases hp : h.payload with
  | array values => exact nofun
  | run runs =>
      rw [hp] at hwf
      cases hwf with
      | run canonical =>
          have htotal : (runLengths runs).sum ≤ lowDomainSize := by
            have := (Payload.WellFormed.run canonical).length_le
            rwa [Payload.values, canonical.length_values] at this
          intro n hn
          obtain ⟨k, hk, rfl⟩ := List.mem_map.mp hn
          rw [List.mem_range] at hk
          have hlen : (runLengths runs).length = runs.length := List.length_map _
          have hle := before_le_sum (runLengths runs) (k + 1)
          rw [before_succ (hlen.symm ▸ hk)] at hle
          have hpos : 0 < (runLengths runs).getD k 0 := by
            rw [runLengths_getD hk]
            exact Nat.succ_pos _
          unfold lowDomainSize at htotal
          omega
  | bitset words =>
      intro n hn
      obtain ⟨k, hk, rfl⟩ := List.mem_map.mp hn
      rw [List.mem_range] at hk
      have := before_wordPopcounts_le words hk.le
      unfold wordCount at hk
      omega

theorem length_rankBlock (h : ContainerHandle) :
    (rankBlock h).length = match h.payload with
      | .array _ => 0
      | .run runs => runs.length
      | .bitset _ => wordCount := by
  rw [rankBlock]
  cases h.payload with
  | array values => rfl
  | run runs => rw [List.length_map, List.length_range]
  | bitset words => rw [List.length_map, List.length_range]

end Block

/-- What the ranked reader relies on besides `EntryOf`: the bytes behind the payload are
the rank block of the chunk. -/
def RanksOf (data : List UInt8) (e : FrozenChunkIndex) (c : Chunk) : Prop :=
  units 2 (rankBlock c.slot).length (data.drop (e.payloadOffset + e.payloadBytes)) =
    rankBlock c.slot

/-- The written rank blocks stand behind the payloads. -/
theorem ranksOf_frozenEntries {K : KeyType} {sb : Bool} {cs : List Chunk}
    (hv : ∀ c ∈ cs, c.Valid K sb) {data front : List UInt8} {offset base : Nat}
    (hdata : data = front ++ frozenBodies true offset cs) (hfront : front.length = offset) :
    List.Forall₂ (RanksOf data) (frozenEntries true offset base cs) cs := by
  induction cs generalizing front offset base with
  | nil => exact .nil
  | cons c cs ih =>
      have hc := hv c List.mem_cons_self
      rw [frozenBodies] at hdata
      refine .cons ?_ ?_
      · set aligned := alignUp offset (frozenPayloadLayout c.slot).1
        have hle : offset ≤ aligned := le_alignUp (frozenPayloadLayout_pos c.slot)
        have hpad : (front ++ List.replicate (aligned - offset) (0 : UInt8) ++
            (frozenBody c.slot).payload).length = aligned + (frozenPayloadLayout c.slot).2 := by
          rw [List.length_append, List.length_append, List.length_replicate, hfront,
            length_frozenBody_payload]
          omega
        have hdrop : data.drop (aligned + (frozenPayloadLayout c.slot).2) =
            (frozenBody c.slot).ranks ++ frozenBodies true (frozenNext true offset c) cs := by
          rw [hdata, frozenChunkBytes, if_pos rfl]
          simp only [List.append_assoc]
          rw [← List.append_assoc front, ← List.append_assoc (front ++ _), List.drop_left' hpad]
        show units 2 _ (data.drop (aligned + (frozenPayloadLayout c.slot).2)) = _
        rw [hdrop, frozenBody_ranks_eq]
        exact units_flatMap_leBytes 2 (rankBlock_lt hc.slot) _
      · apply ih (fun d hd ↦ hv d (List.mem_cons_of_mem c hd))
        · exact hdata.trans (List.append_assoc _ _ _).symm
        · rw [List.length_append, hfront]
          exact length_frozenChunkBytes true offset c

/-! ## Ranks in runs -/

section Runs

variable {runs front back : List Run} {r : Run} {value : Nat}

theorem Canonical.of_append (h : Canonical (front ++ back)) : Canonical front where
  forward s hs := h.forward s (List.mem_append_left back hs)
  apart := (List.pairwise_append.mp h.apart).1
  bounded s hs := h.bounded s (List.mem_append_left back hs)

/-- The search cuts the runs behind the last one that begins at or below the value. -/
theorem lastRun_cases (h : Canonical runs) (value : Nat) :
    (lastRun runs value < 0 ∧ ∀ s ∈ runs, value < s.first) ∨
      ∃ front r back, runs = front ++ r :: back ∧ lastRun runs value = front.length ∧
        r.first ≤ value ∧ ∀ s ∈ back, value < s.first := by
  obtain ⟨k, hk⟩ := exists_runPoint h value
  have hsearch := interleavedBinarySearch_spec h hk 0 (runs.length - 1) le_rfl
    (Int.natCast_nonneg k) (by have := hk.le; omega) (by omega) (fun hlt ↦ by omega)
  have hcut : ∀ last (hlast : last < runs.length), lastRun runs value = last →
      runs[last].first ≤ value →
      (∀ j, last < j → j < runs.length → value < (runs.getD j ⟨0, 0⟩).first) →
      ∃ front r back, runs = front ++ r :: back ∧ lastRun runs value = front.length ∧
        r.first ≤ value ∧ ∀ s ∈ back, value < s.first := by
    intro last hlast hat hle hbehind
    refine ⟨runs.take last, runs[last], runs.drop (last + 1), ?_, ?_, hle, ?_⟩
    · rw [← List.drop_eq_getElem_cons hlast, List.take_append_drop]
    · rw [hat, List.length_take_of_le hlast.le]
    · intro s hs
      obtain ⟨i, hi, rfl⟩ := List.getElem_of_mem hs
      rw [List.length_drop] at hi
      have hj : last + 1 + i < runs.length := by omega
      have := hbehind (last + 1 + i) (by omega) hj
      rwa [List.getD_eq_getElem _ _ hj, ← List.getElem_drop] at this
  rw [lastRun] at hcut ⊢
  generalize interleavedBinarySearch runs value 0 (runs.length - 1) = found at hsearch hcut ⊢
  rcases hsearch with ⟨hnonneg, hfound, hlt, hfirst⟩ | ⟨hfound, hafter⟩
  · -- a run begins at the value
    right
    rw [List.getD_eq_getElem _ _ hlt] at hfirst
    refine hcut k hlt (by rw [if_neg (by omega)]; exact hfound) hfirst.le ?_
    intro j hkj hj
    have := h.first_lt hkj hj
    rw [List.getD_eq_getElem _ _ hlt] at this
    omega
  · have habove : ∀ j, k ≤ j → j < runs.length → value < (runs.getD j ⟨0, 0⟩).first := by
      intro j hkj hj
      have hkey := hafter (hkj.trans_lt hj)
      rcases Nat.lt_or_eq_of_le hkj with hlt | rfl
      · have := h.first_lt hlt hj
        omega
      · exact hkey
    rcases Nat.eq_zero_or_pos k with rfl | hpos
    · left
      refine ⟨by rw [if_pos (by omega)]; omega, fun s hs ↦ ?_⟩
      obtain ⟨j, hj, rfl⟩ := List.getElem_of_mem hs
      rw [← List.getD_eq_getElem _ ⟨0, 0⟩ hj]
      exact habove j (Nat.zero_le j) hj
    · right
      have hlt : k - 1 < runs.length := by
        have := hk.le
        omega
      refine hcut (k - 1) hlt (by rw [if_pos (by omega)]; omega) ?_ fun j hj ↦ habove j (by omega)
      have hbegin := hk.of_lt (k - 1) (by omega)
      rw [BeginsBelow, List.getD_eq_getElem _ _ hlt] at hbegin
      exact hbegin.le

theorem rank_runValues_cut (h : Canonical (front ++ r :: back)) (hle : r.first ≤ value)
    (hback : ∀ s ∈ back, value < s.first) :
    rank (runValues (front ++ r :: back)) value =
      (runValues front).length + (min value (r.last + 1) - r.first) := by
  have hfront : ∀ s ∈ front, ∀ v ∈ s.values, v < value := by
    intro s hs v hv
    have hapart := (List.pairwise_append.mp h.apart).2.2 s hs r List.mem_cons_self
    have := (Run.mem_values.mp hv).2
    omega
  have hbehind : ∀ s ∈ back, ∀ v ∈ s.values, value ≤ v := fun s hs v hv ↦
    (hback s hs).le.trans (Run.mem_values.mp hv).1
  rw [runValues, rank_flatMap Run.values hfront hbehind, Run.values, rank_range', ← runValues]
  omega

theorem mem_runValues_cut (h : Canonical (front ++ r :: back)) (hle : r.first ≤ value)
    (hback : ∀ s ∈ back, value < s.first) :
    value ∈ runValues (front ++ r :: back) ↔ value ≤ r.last := by
  rw [mem_runValues]
  constructor
  · rintro ⟨s, hs, hfirst, hlast⟩
    rcases List.mem_append.mp hs with hs | hs
    · have := (List.pairwise_append.mp h.apart).2.2 s hs r List.mem_cons_self
      omega
    · rcases List.mem_cons.mp hs with rfl | hs
      · exact hlast
      · exact absurd hfirst (Nat.not_le_of_lt (hback s hs))
  · intro hlast
    exact ⟨r, List.mem_append_right front List.mem_cons_self, hle, hlast⟩

theorem before_runLengths (h : Canonical (front ++ r :: back)) :
    before (runLengths (front ++ r :: back)) front.length = (runValues front).length := by
  rw [h.of_append.length_values, before, runLengths, ← List.map_take, List.take_left]
  rfl

end Runs

/-! ## Ranks in words -/

section Words

variable {words : Words wordCount}

/-- The values in front of a word are those its count says, and the rank inside it is
the masked population count. -/
theorem rank_words (words : Words wordCount) {low : Nat} (hlow : low < lowDomainSize) :
    rank words.values low =
      before (wordPopcounts words) (low / 64) + bitRank (words.word (low / 64)) (low % 64) := by
  have hword : low / 64 < wordCount := Nat.div_lt_of_lt_mul hlow
  have hsplit : List.range wordCount = List.range (low / 64) ++
      (low / 64) :: List.range' (low / 64 + 1) (wordCount - (low / 64 + 1)) := by
    rw [range_cut hword.le]
    congr 1
    have hsucc : wordCount - low / 64 = wordCount - (low / 64 + 1) + 1 := by omega
    rw [hsucc, List.range'_succ]
  have hfront : ∀ i ∈ List.range (low / 64), ∀ v ∈ bitPositions (64 * i) (words.word i),
      v < low := by
    intro i hi v hv
    have hbit := BitVec.lt_of_getLsbD (mem_bitPositions.mp hv).2
    have := List.mem_range.mp hi
    omega
  have hback : ∀ i ∈ List.range' (low / 64 + 1) (wordCount - (low / 64 + 1)),
      ∀ v ∈ bitPositions (64 * i) (words.word i), low ≤ v := by
    intro i hi v hv
    have hle := (mem_bitPositions.mp hv).1
    have := (List.mem_range'_1.mp hi).1
    omega
  have hlen :
      ((List.range (low / 64)).flatMap fun i ↦ bitPositions (64 * i) (words.word i)).length =
      before (wordPopcounts words) (low / 64) := by
    have hcounts : (wordPopcounts words).take (low / 64) =
        (List.range (low / 64)).map fun i ↦ (bitPositions (64 * i) (words.word i)).length := by
      rw [wordPopcounts, ← List.map_take, List.take_range, Nat.min_eq_left hword.le]
      exact List.map_congr_left fun i _ ↦ popcount_eq_length _ _
    rw [List.length_flatMap, before, hcounts]
  have hdiv : 64 * (low / 64) + low % 64 = low := Nat.div_add_mod low 64
  have hbits := rank_bitPositions (64 * (low / 64)) (words.word (low / 64))
    (show low % 64 ≤ 64 from (Nat.mod_lt low (by decide)).le)
  rw [hdiv] at hbits
  rw [words.values_eq_flatMap, hsplit, rank_flatMap _ hfront hback, hlen, hbits]

end Words

end Roaring
