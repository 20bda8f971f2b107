import Mathlib
import Roaring.Lib.WordPass
import Roaring.Lib.WordRanges
import Roaring.Container.RunAlgebra

/-!
# Runs without the bits of a bitset

What a run container keeps when a bitset is taken out of it are the clear bits of the
bitset under the runs.  One scan reports them as words and stretches of full words, and
it is done twice: it counts the survivors and their runs, which decides the form of the
result, and then writes that form.  A result of too many runs is written as words.
-/

namespace Roaring

open Lib

/-! ## The scan -/

section Scan

variable {σ : Type} (sink : Sink σ) (bits : Words wordCount)

/-- A stretch of words that are all like one, four at a time. -/
def stretchFours (combine : Word → Word → Word) (like : Word) (last stop : Nat) : Nat :=
  if stop + 4 ≤ last ∧
      combine (combine (combine (bits.word stop) (bits.word (stop + 1))) (bits.word (stop + 2)))
        (bits.word (stop + 3)) = like then
    stretchFours combine like last (stop + 4)
  else stop
termination_by last - stop

/-- The rest of a stretch, one at a time. -/
def stretchOnes (like : Word) (last stop : Nat) : Nat :=
  if stop < last ∧ bits.word stop = like then stretchOnes like last (stop + 1) else stop
termination_by last - stop

def stretchEnd (combine : Word → Word → Word) (like : Word) (last stop : Nat) : Nat :=
  stretchOnes bits like last (stretchFours bits combine like last stop)

theorem le_stretchFours (combine : Word → Word → Word) (like : Word) (last stop : Nat) :
    stop ≤ stretchFours bits combine like last stop := by
  fun_induction stretchFours bits combine like last stop with
  | case1 stop h ih => omega
  | case2 stop h => exact le_rfl

theorem le_stretchOnes (like : Word) (last stop : Nat) :
    stop ≤ stretchOnes bits like last stop := by
  fun_induction stretchOnes bits like last stop with
  | case1 stop h ih => omega
  | case2 stop h => exact le_rfl

theorem le_stretchEnd (combine : Word → Word → Word) (like : Word) (last stop : Nat) :
    stop ≤ stretchEnd bits combine like last stop :=
  (le_stretchFours bits combine like last stop).trans (le_stretchOnes bits like last _)

/-- The words inside a run: an empty word of the bitset is part of a stretch of survivors, and a
full one is passed by. -/
def scanInside (last index : Nat) (pending : Pending) (s : σ) : Except σ (Pending × σ) :=
  if index < last then
    let word := bits.word index
    if word ≠ 0#64 ∧ word ≠ BitVec.allOnes 64 then
      (sink.flush pending s).bind fun s ↦ (sink.word index (~~~word) s).bind fun s ↦
        scanInside last (index + 1) none s
    else if word = 0#64 then
      let stop := stretchEnd bits (· ||| ·) 0#64 last (index + 1)
      (sink.flush pending s).bind fun s ↦ (sink.ones index (stop - index) s).bind fun s ↦
        scanInside last stop none s
    else scanInside last (stretchEnd bits (· &&& ·) (BitVec.allOnes 64) last (index + 1)) pending s
  else .ok (pending, s)
termination_by last - index
decreasing_by
  · omega
  · have := le_stretchEnd bits (· ||| ·) 0#64 last (index + 1)
    omega
  · have := le_stretchEnd bits (· &&& ·) (BitVec.allOnes 64) last (index + 1)
    omega

def scanRun (r : Run) (pending : Pending) (s : σ) : Except σ (Pending × σ) :=
  let firstWord := r.first / 64
  let lastWord := r.last / 64
  let firstMask := maskFrom (r.first % 64)
  let lastMask := maskTo (r.last % 64)
  if firstWord = lastWord then
    sink.put firstWord (firstMask &&& lastMask &&& ~~~bits.word firstWord) pending s
  else
    (sink.put firstWord (firstMask &&& ~~~bits.word firstWord) pending s).bind fun (pending, s) ↦
      (scanInside sink bits lastWord (firstWord + 1) pending s).bind fun (pending, s) ↦
        sink.put lastWord (lastMask &&& ~~~bits.word lastWord) pending s

/-- `scan_run_bitset_difference`, from a word that is held back. -/
def scanRuns : List Run → Pending → σ → Except σ σ
  | [], pending, s => sink.flush pending s
  | r :: rs, pending, s =>
    (scanRun sink bits r pending s).bind fun (pending, s) ↦ scanRuns rs pending s

def scanRunBitsetDifference (runs : List Run) (s : σ) : Except σ σ := scanRuns sink bits runs none s

end Scan

/-! ## The counter -/

/-- `run_survivor_counter`; before the first word, the next index wraps around to zero. -/
structure SurvivorCounter where
  cardinality : Nat := 0
  runs : Nat := 0
  lastIndex : Nat := sizeTypeMax
  lastTop : Word := 0#64

/-- The index behind one, in 64 bits. -/
def nextIndex (index : Nat) : Nat := (index + 1) % 2 ^ 64

namespace SurvivorCounter

def carryInto (c : SurvivorCounter) (index : Nat) : Word :=
  if index = nextIndex c.lastIndex then c.lastTop else 0#64

def within (runLimit : Nat) (c : SurvivorCounter) : Except SurvivorCounter SurvivorCounter :=
  if c.runs ≤ runLimit then .ok c else .error c

def sink (runLimit : Nat) : Sink SurvivorCounter where
  word index survivors c := within runLimit
    { cardinality := c.cardinality + popcount survivors
      runs := c.runs + popcount (startBits survivors (c.carryInto index))
      lastIndex := index
      lastTop := topBit survivors }
  ones firstIndex count c := within runLimit
    { cardinality := c.cardinality + count * 64
      runs := c.runs + if c.carryInto firstIndex = 0#64 then 1 else 0
      lastIndex := firstIndex + count - 1
      lastTop := 1#64 }

end SurvivorCounter

/-! ## The writers -/

/-- `countr_one`. -/
def trailingOnes (w : Word) : Nat := firstClear w

@[simp] theorem trailingOnes_allOnes : trailingOnes (BitVec.allOnes 64) = 64 := by
  have hzero : ~~~BitVec.allOnes 64 = 0#64 := by decide
  rw [trailingOnes, firstClear, hzero, toNat_ctz_zero]

theorem trailingOnes_spec (w : Word) :
    trailingOnes w ≤ 64 ∧ (∀ j, j < trailingOnes w → w.getLsbD j = true) ∧
      w.getLsbD (trailingOnes w) = false := by
  by_cases hall : w = BitVec.allOnes 64
  · rw [hall, trailingOnes_allOnes]
    refine ⟨le_rfl, fun j hj ↦ ?_, BitVec.getLsbD_of_ge _ _ le_rfl⟩
    rw [BitVec.getLsbD_allOnes, decide_eq_true hj]
  · exact ⟨(firstClear_lt hall).le, fun j hj ↦ getLsbD_of_lt_firstClear hall hj,
      getLsbD_firstClear hall⟩

theorem trailingOnes_pos {w : Word} (hw : w.getLsbD 0 = true) : 0 < trailingOnes w := by
  refine Nat.pos_of_ne_zero fun hzero ↦ ?_
  have hclear := (trailingOnes_spec w).2.2
  rw [hzero, hw] at hclear
  exact Bool.false_ne_true hclear.symm

/-- The lowest set bit starts a stretch. -/
theorem trailingOnes_ctz_pos {w : Word} (hw : w ≠ 0#64) : 0 < trailingOnes (w >>> w.ctz.toNat) := by
  apply trailingOnes_pos
  rw [BitVec.getLsbD_ushiftRight, Nat.add_zero]
  exact BitVec.getLsbD_true_ctz_of_ne_zero hw

/-- The stretch that starts at the lowest set bit. -/
theorem stretch_spec {w : Word} (hw : w ≠ 0#64) :
    let stop := w.ctz.toNat + trailingOnes (w >>> w.ctz.toNat)
    w.ctz.toNat < stop ∧ stop ≤ 64 ∧ (∀ j, j < w.ctz.toNat → w.getLsbD j = false) ∧
      (∀ j, w.ctz.toNat ≤ j → j < stop → w.getLsbD j = true) ∧ w.getLsbD stop = false := by
  obtain ⟨-, hset, hclear⟩ := trailingOnes_spec (w >>> w.ctz.toNat)
  have hall : ∀ j, w.ctz.toNat ≤ j → j < w.ctz.toNat + trailingOnes (w >>> w.ctz.toNat) →
      w.getLsbD j = true := by
    intro j h1 h2
    have hbit := hset (j - w.ctz.toNat) (by omega)
    rwa [BitVec.getLsbD_ushiftRight, Nat.add_sub_cancel' h1] at hbit
  refine ⟨Nat.lt_add_of_pos_right (trailingOnes_ctz_pos hw), ?_,
    fun j hj ↦ BitVec.getLsbD_false_of_lt_ctz hj, hall, ?_⟩
  · by_contra hover
    have hlt := ctz_lt hw
    have hbit := hall 64 hlt.le (not_le.1 hover)
    rw [BitVec.getLsbD_of_ge _ _ le_rfl] at hbit
    exact Bool.false_ne_true hbit
  · rwa [BitVec.getLsbD_ushiftRight] at hclear

/-- The lowest stretch of a word, with what is above it, gets the word smaller. -/
theorem and_maskFrom_lt {w : Word} (hw : w ≠ 0#64) {k : Nat} (hk : w.ctz.toNat < k) :
    (w &&& maskFrom k).toNat < w.toNat := by
  have hle : (w &&& maskFrom k).toNat ≤ w.toNat := by
    rw [BitVec.toNat_and]
    exact Nat.and_le_left
  refine lt_of_le_of_ne hle fun heq ↦ ?_
  have hbit : w.getLsbD w.ctz.toNat = true := BitVec.getLsbD_true_ctz_of_ne_zero hw
  have hclear : (w &&& maskFrom k).getLsbD w.ctz.toNat = false := by
    rw [BitVec.getLsbD_and, getLsbD_maskFrom (ctz_lt hw), decide_eq_false (Nat.not_le.2 hk),
      Bool.and_false]
  rw [BitVec.eq_of_toNat_eq heq, hbit] at hclear
  exact Bool.false_ne_true hclear.symm

/-- `run_survivor_writer`; no runs are left when one was written past the end of the buffer. -/
structure RunSurvivorWriter where
  out : Option (List Run) := some []
  opened : Bool := false
  openBegin : Nat := 0
  lastIndex : Nat := sizeTypeMax

namespace RunSurvivorWriter

variable (capacity : Nat)

def write (w : RunSurvivorWriter) (r : Run) : RunSurvivorWriter :=
  { w with out := w.out.bind fun out ↦ writeRun capacity out r }

def closeAt (w : RunSurvivorWriter) (last : Nat) : RunSurvivorWriter :=
  { w.write capacity ⟨w.openBegin, last⟩ with opened := false }

def leaveOpenRunIfNotAdjacent (w : RunSurvivorWriter) (index : Nat) : RunSurvivorWriter :=
  if w.opened ∧ index ≠ nextIndex w.lastIndex then w.closeAt capacity (w.lastIndex * 64 + 63) else w

/-- The stretches of one word; the one that reaches its end is left open. -/
def stretches (base : Nat) (w : RunSurvivorWriter) (survivors : Word) : RunSurvivorWriter :=
  if _h : survivors = 0#64 then w
  else
    let start := survivors.ctz.toNat
    let length := trailingOnes (survivors >>> start)
    if start + length = 64 then { w with opened := true, openBegin := base + start }
    else
      stretches base (w.write capacity ⟨base + start, base + start + length - 1⟩)
        (survivors &&& maskFrom (start + length))
termination_by survivors.toNat
decreasing_by exact and_maskFrom_lt _h (Nat.lt_add_of_pos_right (trailingOnes_ctz_pos _h))

def sink : Sink RunSurvivorWriter where
  word index survivors w :=
    let w := w.leaveOpenRunIfNotAdjacent capacity index
    let base := index * 64
    if w.opened then
      let lead := trailingOnes survivors
      if lead = 64 then .ok { w with lastIndex := index }
      else
        let w := w.closeAt capacity (base + lead - 1)
        .ok { w.stretches capacity base (survivors &&& maskFrom lead) with lastIndex := index }
    else .ok { w.stretches capacity base survivors with lastIndex := index }
  ones firstIndex count w :=
    let w := w.leaveOpenRunIfNotAdjacent capacity firstIndex
    let w := if w.opened then w else { w with opened := true, openBegin := firstIndex * 64 }
    .ok { w with lastIndex := firstIndex + count - 1 }

def finish (w : RunSurvivorWriter) : RunSurvivorWriter :=
  if w.opened then w.closeAt capacity (w.lastIndex * 64 + 63) else w

end RunSurvivorWriter

/-- Values behind those of a buffer of `capacity` places. -/
def writeValues (capacity : Nat) (out vs : List Nat) : Option (List Nat) :=
  if out.length + vs.length ≤ capacity then some (out ++ vs) else none

/-- `array_survivor_writer`. -/
def arraySurvivorWriter (capacity : Nat) : Sink (Option (List Nat)) where
  word index survivors out :=
    .ok (out.bind fun out ↦ writeValues capacity out (extractSetBits (index * 64) survivors))
  ones firstIndex count out :=
    .ok (out.bind fun out ↦ writeValues capacity out (List.range' (firstIndex * 64) (count * 64)))

/-! ## The result as words -/

/-- Words from `a` on, `count` of them. -/
def fillWords (f : Nat → Word) (out : Words wordCount) (a count : Nat) : Words wordCount :=
  (List.range' a count).foldl (fun out i ↦ out.setWord i (f i)) out

/-- The words of one run, and the word behind the last one written. -/
def writeRunWords (bits : Words wordCount) (state : Words wordCount × Nat) (r : Run) :
    Words wordCount × Nat :=
  let (out, nextWord) := state
  let firstWord := r.first / 64
  let lastWord := r.last / 64
  let firstMask := maskFrom (r.first % 64)
  let lastMask := maskTo (r.last % 64)
  let part := firstMask &&& (if firstWord = lastWord then lastMask else BitVec.allOnes 64) &&&
    ~~~bits.word firstWord
  let out :=
    if firstWord < nextWord then out.setWord firstWord (out.word firstWord ||| part)
    else (fillWords (fun _ ↦ 0#64) out nextWord (firstWord - nextWord)).setWord firstWord part
  let out :=
    if firstWord ≠ lastWord then
      (fillWords (fun i ↦ ~~~bits.word i) out (firstWord + 1) (lastWord - (firstWord + 1))).setWord
        lastWord (lastMask &&& ~~~bits.word lastWord)
    else out
  (out, lastWord + 1)

/-- The survivors as words, over whatever the new block holds. -/
def survivorWords (uninitialized bits : Words wordCount) (runs : List Run) : Words wordCount :=
  let (out, nextWord) := runs.foldl (writeRunWords bits) (uninitialized, 0)
  fillWords (fun _ ↦ 0#64) out nextWord (wordCount - nextWord)

/-! ## The smallest form -/

def isBitsetCardinality (cardinality bitsetThreshold : Nat) : Bool :=
  bitsetThreshold ≤ cardinality ∧ bitsetBytes ≤ cardinality * lowTypeBytes

/-- `choose_run_container_kind`. -/
def chooseRunContainerKind (cardinality runCount bitsetThreshold : Nat) : ContainerKind :=
  let arrayBytes := cardinality * lowTypeBytes
  let runBytes := runCount * runBytesPerRun + lowTypeBytes
  let bitsetWins := isBitsetCardinality cardinality bitsetThreshold
  if runBytes ≤ arrayBytes ∧ ¬ (bitsetWins ∧ bitsetBytes < runBytes) then .run
  else if bitsetWins then .bitset else .array

/-- `array_from_bitset`: the set bits fill an array of `cardinality` places. -/
def arrayFromBitset (words : Words wordCount) (cardinality : Nat) : Option ContainerHandle :=
  let values := (List.range wordCount).flatMap fun i ↦ extractSetBits (64 * i) (words.word i)
  if values.length = cardinality then some (.syncHeader values) else none

/-- The state a scan ends in, whether it was stopped or not. -/
def finalState {σ : Type} : Except σ σ → σ
  | .ok s => s
  | .error s => s

/-- More runs than this take more bytes than a bitset. -/
def runLimit : Nat := bitsetBytes / runBytesPerRun

/-- `difference_run_bitset`; nothing is returned when a form is not written in just the places that
were counted for it. -/
def differenceRunBitset (uninitialized : Words wordCount) (runs : List Run) (bits : Words wordCount)
    (bitsetThreshold : Nat) : Option ContainerHandle :=
  let scanned := scanRunBitsetDifference (SurvivorCounter.sink runLimit) bits runs {}
  let counted := scanned.isOk
  let counter := finalState scanned
  if counted ∧ counter.cardinality = 0 then some (.makeArrayFromSorted [])
  else match if counted then chooseRunContainerKind counter.cardinality counter.runs bitsetThreshold
      else .bitset with
    | .array =>
      (finalState (scanRunBitsetDifference (arraySurvivorWriter counter.cardinality) bits runs
          (some []))).bind fun out ↦
        if out.length = counter.cardinality then some (.syncHeader out) else none
    | .run =>
      let writer :=
        finalState (scanRunBitsetDifference (RunSurvivorWriter.sink counter.runs) bits runs {})
      (writer.finish counter.runs).out.bind fun out ↦
        if out.length = counter.runs then some (handleFromRunContainer out) else none
    | .bitset =>
      let out := survivorWords uninitialized bits runs
      let cardinality := if counted then counter.cardinality else out.count
      if cardinality = 0 then some (.makeArrayFromSorted [])
      else if !isBitsetCardinality cardinality bitsetThreshold then arrayFromBitset out cardinality
      else some (.makeBitsetFrom out cardinality)

/-! ## What the scan reports -/

variable {σ : Type} {sink : Sink σ} {bits survivors : Words wordCount} {P : Nat → σ → Prop}
  {R : σ → Prop}
  {pending : Pending} {s : σ} {r : Run} {rs done : List Run}

theorem stretchFours_spec (bits : Words wordCount) {combine : Word → Word → Word} {like : Word}
    (hcombine : ∀ a b, combine a b = like ↔ a = like ∧ b = like)
    {last stop : Nat} (hle : stop ≤ last) :
    stretchFours bits combine like last stop ≤ last ∧
      ∀ i, stop ≤ i → i < stretchFours bits combine like last stop → bits.word i = like := by
  fun_induction stretchFours bits combine like last stop with
  | case1 stop h ih =>
    obtain ⟨hfits, hlike⟩ := h
    simp only [hcombine] at hlike
    obtain ⟨⟨⟨h0, h1⟩, h2⟩, h3⟩ := hlike
    obtain ⟨hend, hrest⟩ := ih hfits
    refine ⟨hend, fun i hi hlt ↦ ?_⟩
    by_cases hfour : stop + 4 ≤ i
    · exact hrest i hfour hlt
    · obtain rfl | rfl | rfl | rfl : i = stop ∨ i = stop + 1 ∨ i = stop + 2 ∨
        i = stop + 3 := by omega
      · exact h0
      · exact h1
      · exact h2
      · exact h3
  | case2 stop h => exact ⟨hle, fun i hi hlt ↦ absurd hlt (not_lt.2 hi)⟩

theorem stretchOnes_spec (bits : Words wordCount) (like : Word) {last stop : Nat}
    (hle : stop ≤ last) :
    stretchOnes bits like last stop ≤ last ∧ ∀ i, stop ≤ i → i < stretchOnes bits like last stop →
      bits.word i = like := by
  fun_induction stretchOnes bits like last stop with
  | case1 stop h ih =>
    obtain ⟨hend, hrest⟩ := ih h.1
    refine ⟨hend, fun i hi hlt ↦ ?_⟩
    rcases Nat.eq_or_lt_of_le hi with rfl | hlater
    · exact h.2
    · exact hrest i hlater hlt
  | case2 stop h => exact ⟨hle, fun i hi hlt ↦ absurd hlt (not_lt.2 hi)⟩

/-- The words of a stretch are alike, and it stays in front of the last word. -/
theorem stretchEnd_spec (bits : Words wordCount) {combine : Word → Word → Word} {like : Word}
    (hcombine : ∀ a b, combine a b = like ↔ a = like ∧ b = like)
    {last stop : Nat} (hle : stop ≤ last) :
    stretchEnd bits combine like last stop ≤ last ∧
      ∀ i, stop ≤ i → i < stretchEnd bits combine like last stop → bits.word i = like := by
  obtain ⟨hfours, hlike⟩ := stretchFours_spec bits hcombine hle
  obtain ⟨hones, hlike'⟩ := stretchOnes_spec bits like hfours
  refine ⟨hones, fun i hi hlt ↦ ?_⟩
  by_cases hfour : i < stretchFours bits combine like last stop
  · exact hlike i hi hfour
  · exact hlike' i (not_lt.1 hfour) hlt

theorem or_eq_zero_iff (a b : Word) : a ||| b = 0#64 ↔ a = 0#64 ∧ b = 0#64 := BitVec.or_eq_zero_iff

theorem and_eq_allOnes_iff (a b : Word) : a &&& b = BitVec.allOnes 64 ↔ a = BitVec.allOnes 64 ∧
    b = BitVec.allOnes 64 :=
  BitVec.and_eq_allOnes_iff

/-- Inside a run, the survivors are the clear bits. -/
theorem scanInside_spec (h : sink.Follows survivors P R) {last index : Nat} (hle : index ≤ last)
    (hlast : last ≤ wordCount)
    (hinside : ∀ i, index ≤ i → i < last → survivors.word i = ~~~bits.word i)
    (hready : Sink.Ready survivors P index pending s) :
    Outcome (fun q ↦ Sink.Ready survivors P last q.1 q.2) R
      (scanInside sink bits last index pending s) := by
  fun_induction scanInside sink bits last index pending s with
  | case1 index pending s hlt word hmixed ih =>
    have hword : ~~~word = survivors.word index := (hinside index le_rfl hlt).symm
    refine (h.flush hready).bind fun s hs ↦ ?_
    rw [hword]
    refine (h.word (hlt.trans_le hlast) hs).bind fun s hs ↦ ?_
    exact ih s hlt (fun i h1 h2 ↦ hinside i (Nat.le_of_succ_le h1) h2) hs
  | case2 index pending s hlt word hmixed hzero stop ih =>
    have hge : index + 1 ≤ stop := le_stretchEnd bits _ _ last (index + 1)
    obtain ⟨hend, hlike⟩ := stretchEnd_spec bits or_eq_zero_iff (Nat.succ_le_of_lt hlt)
    have hcount : index + (stop - index) = stop := by omega
    have hfull : survivors.FullFrom index (stop - index) := by
      intro i h1 h2
      rw [hcount] at h2
      have hclear : bits.word i = 0#64 := by
        rcases Nat.eq_or_lt_of_le h1 with rfl | hlater
        · exact hzero
        · exact hlike i hlater h2
      rw [hinside i h1 (h2.trans_le hend), hclear, BitVec.not_zero]
    refine (h.flush hready).bind fun s hs ↦
      (h.ones (by omega) (hcount.trans_le (hend.trans hlast)) hfull hs).bind fun s hs ↦ ?_
    rw [hcount] at hs
    exact ih s hend (fun i h1 h2 ↦ hinside i (by omega) h2) hs
  | case3 index pending s hlt word hmixed hzero ih =>
    obtain ⟨hend, hlike⟩ := stretchEnd_spec bits and_eq_allOnes_iff (Nat.succ_le_of_lt hlt)
    have hge := le_stretchEnd bits (· &&& ·) (BitVec.allOnes 64) last (index + 1)
    have hfull : word = BitVec.allOnes 64 := by
      by_contra hne
      exact hmixed ⟨hzero, hne⟩
    have hempty :
        survivors.EmptyBetween index
        (stretchEnd bits (· &&& ·) (BitVec.allOnes 64) last (index + 1)) := by
      intro i h1 h2
      have hset : bits.word i = BitVec.allOnes 64 := by
        rcases Nat.eq_or_lt_of_le h1 with rfl | hlater
        · exact hfull
        · exact hlike i hlater h2
      rw [hinside i h1 (h2.trans_le hend), hset, BitVec.not_allOnes]
    exact ih hend (fun i h1 h2 ↦ hinside i (by omega) h2) (h.skipReady (by omega) hempty hready)
  | case4 index pending s hend =>
    have heq : index = last := le_antisymm hle (not_lt.1 hend)
    rw [heq] at hready
    exact hready

/-- Word `i` of what is left of some runs. -/
def Part (bits : Words wordCount) (done : List Run) (i : Nat) (w : Word) : Prop :=
  ∀ j, j < 64 → w.getLsbD j = (decide (64 * i + j ∈ runValues done) && !bits.contains (64 * i + j))

/-- All of the words are what is left of the runs. -/
def Leaves (bits : Words wordCount) (runs : List Run) (survivors : Words wordCount) : Prop :=
  ∀ i, i < wordCount → Part bits runs i (survivors.word i)

/-- A word is settled by the runs that reach it. -/
theorem Part.congr {runs : List Run} {i : Nat} {w : Word} (h : Part bits done i w)
    (hsame : ∀ j, j < 64 → (64 * i + j ∈ runValues done ↔ 64 * i + j ∈ runValues runs)) :
    Part bits runs i w := by
  intro j hj
  rw [h j hj, decide_eq_decide.2 (hsame j hj)]

theorem Part.unique {runs : List Run} {i : Nat} {w w' : Word} (h : Part bits runs i w)
    (h' : Part bits runs i w') : w = w' :=
  BitVec.eq_of_getLsbD_eq fun j hj ↦ (h j hj).trans (h' j hj).symm

theorem Part.empty {i : Nat} (h : ∀ j, j < 64 → 64 * i + j ∉ runValues done) :
    Part bits done i 0#64 := by
  intro j hj
  rw [decide_eq_false (h j hj), Bool.false_and, BitVec.getLsbD_zero]

/-- A run adds its part of the word. -/
theorem Part.add {i : Nat} {w mask : Word} (h : Part bits done i w)
    (hmask : ∀ j, j < 64 → mask.getLsbD j = decide (r.first ≤ 64 * i + j ∧ 64 * i + j ≤ r.last)) :
    Part bits (done ++ [r]) i (w ||| mask &&& ~~~bits.word i) := by
  intro j hj
  have hmem : (64 * i + j ∈ runValues (done ++ [r])) ↔
      64 * i + j ∈ runValues done ∨ (r.first ≤ 64 * i + j ∧ 64 * i + j ≤ r.last) := by
    rw [runValues_append, List.mem_append, runValues_cons, runValues_nil, List.append_nil,
      Run.mem_values]
  rw [BitVec.getLsbD_or, BitVec.getLsbD_and, BitVec.getLsbD_not, h j hj, hmask j hj,
    Words.contains_add bits hj,
    decide_eq_decide.2 hmem, decide_eq_true hj, Bool.true_and, Bool.decide_or,
      Bool.and_or_distrib_right]

/-- The runs `done` are scanned, up to what they leave of word `f`. -/
def Before (bits survivors : Words wordCount) (P : Nat → σ → Prop) (done : List Run) (f : Nat)
    (pending : Pending) (s : σ) : Prop :=
  ∃ w, Part bits done f w ∧
    ((pending = some (f, w) ∧ P f s) ∨ (w = 0#64 ∧ Sink.Ready survivors P f pending s))

theorem Before.put (h : sink.Follows survivors P R) {f : Nat} {mask : Word}
    (hbefore : Before bits survivors P done f pending s)
    (hmask : ∀ j, j < 64 → mask.getLsbD j = decide (r.first ≤ 64 * f + j ∧ 64 * f + j ≤ r.last)) :
    Outcome (fun q ↦ ∃ w, Part bits (done ++ [r]) f w ∧ q.1 = some (f, w) ∧ P f q.2) R
      (sink.put f (mask &&& ~~~bits.word f) pending s) := by
  obtain ⟨w, hpart, ⟨rfl, hP⟩ | ⟨rfl, hready⟩⟩ := hbefore
  · rw [Sink.put_held]
    exact ⟨_, hpart.add hmask, rfl, hP⟩
  · refine (h.put hready _).mono fun q hq ↦ ⟨_, ?_, hq⟩
    have hadd := hpart.add hmask
    rwa [BitVec.zero_or] at hadd

/-- The runs around one run keep away from it. -/
theorem Canonical.around (hc : Canonical (done ++ r :: rs)) :
    (∀ v ∈ runValues done, v + 1 < r.first) ∧ r.first ≤ r.last ∧ r.last < lowDomainSize ∧
      ∀ v ∈ runValues rs, r.last + 1 < v := by
  refine ⟨fun v hv ↦ ?_, hc.right.head_le, hc.right.bounded r List.mem_cons_self,
    fun v hv ↦ hc.right.behind hv⟩
  obtain ⟨x, hx, -, hle⟩ := mem_runValues.1 hv
  have hapart := (List.pairwise_append.1 hc.apart).2.2 x hx r List.mem_cons_self
  omega

theorem mem_runValues_around {v : Nat} :
    v ∈ runValues (done ++ r :: rs) ↔ v ∈ runValues done ∨ (r.first ≤ v ∧ v ≤ r.last) ∨
      v ∈ runValues rs := by
  rw [runValues_append, runValues_cons, List.mem_append, List.mem_append, Run.mem_values]

/-- The words up to the last one of a run are settled by the runs so far. -/
theorem Leaves.part (hleaves : Leaves bits (done ++ r :: rs) survivors) {i : Nat}
    (hi : i < wordCount) (hlow : ∀ v ∈ runValues rs, 64 * i + 63 < v) :
    Part bits (done ++ [r]) i (survivors.word i) := by
  refine (hleaves i hi).congr fun j hj ↦ ?_
  have hnot : 64 * i + j ∉ runValues rs := fun hv ↦ by
    have := hlow _ hv
    omega
  rw [mem_runValues_around, mem_runValues_around, runValues_nil]
  simp [hnot]

/-- One run is scanned; what it leaves of its last word is held back. -/
theorem scanRun_spec (h : sink.Follows survivors P R) (hc : Canonical (done ++ r :: rs))
    (hleaves : Leaves bits (done ++ r :: rs) survivors)
    (hbefore : Before bits survivors P done (r.first / 64) pending s) :
    Outcome (fun q ↦ ∃ w, Part bits (done ++ [r]) (r.last / 64) w ∧ q.1 = some (r.last / 64, w) ∧
      P (r.last / 64) q.2) R
      (scanRun sink bits r pending s) := by
  obtain ⟨hlow, hforward, hlast, hhigh⟩ := hc.around
  have hcount : r.last / 64 < wordCount := by
    rw [lowDomainSize] at hlast
    rw [wordCount]
    omega
  rw [scanRun]
  split
  · rename_i hone
    rw [← hone]
    refine hbefore.put h fun j hj ↦ ?_
    rw [BitVec.getLsbD_and, getLsbD_maskFrom hj,
      getLsbD_maskTo (Nat.mod_lt _ (by decide)), ← Bool.decide_and]
    exact decide_eq_decide.2 (by omega)
  · rename_i hmany
    have hlt : r.first / 64 < r.last / 64 := lt_of_le_of_ne (Nat.div_le_div_right hforward) hmany
    have hfirst : Outcome (fun q ↦ ∃ w, Part bits (done ++ [r]) (r.first / 64) w ∧
        q.1 = some (r.first / 64, w) ∧
        P (r.first / 64) q.2) R
          (sink.put (r.first / 64) (maskFrom (r.first % 64) &&& ~~~bits.word (r.first / 64)) pending
          s) := by
      refine hbefore.put h fun j hj ↦ ?_
      rw [getLsbD_maskFrom hj]
      exact decide_eq_decide.2 (by omega)
    refine hfirst.bind ?_
    rintro ⟨pending, s⟩ ⟨w, hpart, rfl, hP⟩
    -- the first word of the run is complete, since no later run reaches it
    have hword : w = survivors.word (r.first / 64) := by
      refine hpart.unique (hleaves.part (hlt.trans hcount) fun v hv ↦ ?_)
      have := hhigh v hv
      omega
    have hready : Sink.Ready survivors P (r.first / 64 + 1) (some (r.first / 64, w)) s :=
      ⟨hP, Nat.lt_succ_self _, hlt.trans hcount, hword, .refl survivors _⟩
    have hinside : ∀ i, r.first / 64 + 1 ≤ i → i < r.last / 64 →
        survivors.word i = ~~~bits.word i := by
      intro i h1 h2
      refine BitVec.eq_of_getLsbD_eq fun j hj ↦ ?_
      have hmem : 64 * i + j ∈ runValues (done ++ r :: rs) :=
        mem_runValues_around.2 (.inr (.inl (by omega)))
      rw [hleaves i (h2.trans hcount) j hj, decide_eq_true hmem, Bool.true_and, BitVec.getLsbD_not,
        decide_eq_true hj,
        Bool.true_and, Words.contains_add bits hj]
    refine (scanInside_spec h hlt hcount.le hinside hready).bind ?_
    rintro ⟨pending, s⟩ hready
    have hbehind : Before bits survivors P done (r.last / 64) pending s := by
      refine ⟨0#64, .empty fun j hj hv ↦ ?_, .inr ⟨rfl, hready⟩⟩
      have := hlow _ hv
      omega
    refine hbehind.put h fun j hj ↦ ?_
    rw [getLsbD_maskTo (Nat.mod_lt _ (by decide))]
    exact decide_eq_decide.2 (by omega)

/-- The word at which the next run begins. -/
def nextWord : List Run → Nat
  | [] => wordCount
  | r :: _ => r.first / 64

theorem scanRuns_spec (h : sink.Follows survivors P R) (hc : Canonical (done ++ rs))
    (hleaves : Leaves bits (done ++ rs) survivors)
    (hbefore : Before bits survivors P done (nextWord rs) pending s)
    (hwithin : ∀ i w, pending = some (i, w) → i < wordCount) :
    Outcome (P wordCount) R (scanRuns sink bits rs pending s) := by
  induction rs generalizing done pending s with
  | nil =>
    obtain ⟨w, -, ⟨hp, -⟩ | ⟨-, hready⟩⟩ := hbefore
    · exact absurd (hwithin _ _ hp) (lt_irrefl _)
    · exact h.flush hready
  | cons r rs ih =>
    rw [scanRuns]
    refine (scanRun_spec h hc hleaves hbefore).bind ?_
    rintro ⟨pending, s⟩ ⟨w, hpart, rfl, hP⟩
    obtain ⟨hlow, hforward, hlast, hhigh⟩ := hc.around
    have hcount : r.last / 64 < wordCount := by
      rw [lowDomainSize] at hlast
      rw [wordCount]
      omega
    have happend : done ++ r :: rs = (done ++ [r]) ++ rs := by simp
    have hnext : r.last / 64 ≤ nextWord rs ∧ ∀ v ∈ runValues rs, 64 * nextWord rs ≤ v := by
      cases rs with
      | nil => exact ⟨hcount.le, nofun⟩
      | cons q qs =>
        have hq := hc.right.head_apart (List.mem_cons_self (a := q) (l := qs))
        refine ⟨Nat.div_le_div_right (by omega), fun v hv ↦ ?_⟩
        have := hc.right.tail.head_le_values hv
        rw [nextWord]
        omega
    refine ih (happend ▸ hc) (happend ▸ hleaves) ?_ ?_
    · rcases Nat.eq_or_lt_of_le hnext.1 with heq | hlt
      · rw [← heq]
        exact ⟨w, hpart, .inl ⟨rfl, hP⟩⟩
      · refine ⟨0#64, .empty fun j hj hv ↦ ?_, .inr ⟨rfl, hP, hlt, hcount, ?_, fun i h1 h2 ↦ ?_⟩⟩
        · rw [runValues_append, runValues_cons, runValues_nil, List.append_nil, List.mem_append,
            Run.mem_values] at hv
          rcases hv with hv | hv
          · have := hlow _ hv
            omega
          · omega
        · refine hpart.unique (hleaves.part hcount fun v hv ↦ ?_)
          have := hnext.2 v hv
          omega
        · by_cases hi : i < wordCount
          · refine (hleaves i hi).unique (.empty fun j hj hv ↦ ?_)
            rcases mem_runValues_around.1 hv with hv | hv | hv
            · have := hlow _ hv
              omega
            · omega
            · have := hnext.2 _ hv
              omega
          · exact survivors.word_of_le (not_lt.1 hi)
    · intro i w hp
      obtain ⟨rfl, -⟩ := Prod.mk.inj (Option.some.inj hp)
      exact hcount

/-- The rule of the scan: a consumer that keeps its invariant word by word has seen all survivors,
or stopped. -/
theorem scanRunBitsetDifference_rule (h : sink.Follows survivors P R) (hc : Canonical rs)
    (hleaves : Leaves bits rs survivors)
    (hs : P 0 s) : Outcome (P wordCount) R (scanRunBitsetDifference sink bits rs s) := by
  have hempty : ∀ i, i < nextWord rs → survivors.word i = 0#64 := by
    intro i hi
    by_cases hin : i < wordCount
    · refine (hleaves i hin).unique (.empty fun j hj hv ↦ ?_)
      cases rs with
      | nil => exact absurd hv (by simp)
      | cons r rs =>
        have := hc.head_le_values hv
        rw [nextWord] at hi
        omega
    · exact survivors.word_of_le (not_lt.1 hin)
  have hc' : Canonical ([] ++ rs) := hc
  have hleaves' : Leaves bits ([] ++ rs) survivors := hleaves
  refine scanRuns_spec h hc' hleaves' ⟨0#64, .empty fun j _ ↦ by simp, .inr ⟨rfl, ?_⟩⟩ nofun
  exact h.skip (Nat.zero_le _) (fun i _ hi ↦ hempty i hi) hs

/-! ## The counter -/

namespace SurvivorCounter

/-- The counter has counted what lies below word `k`. -/
structure Counts (survivors : Words wordCount) (k : Nat) (c : SurvivorCounter) : Prop where
  cardinality : c.cardinality = survivors.countBelow k
  runs : c.runs = survivors.starts.countBelow k
  next : nextIndex c.lastIndex ≤ k
  carry : c.carryInto k = survivors.carryInto k

/-- The counter stopped with too many runs. -/
def GaveUp (survivors : Words wordCount) (runLimit : Nat) (_ : SurvivorCounter) : Prop :=
  runLimit < survivors.starts.count

theorem nextIndex_eq {i : Nat} (hi : i < wordCount) : nextIndex i = i + 1 := by
  rw [wordCount] at hi
  exact Nat.mod_eq_of_lt (by omega)

/-- What the counter keeps while it is not stopped. -/
def Within (survivors : Words wordCount) (runLimit k : Nat) (c : SurvivorCounter) : Prop :=
  Counts survivors k c ∧ c.runs ≤ runLimit

theorem Counts.within {k runLimit : Nat} {c : SurvivorCounter} (h : Counts survivors k c)
    (hk : k ≤ wordCount) :
    Outcome (Within survivors runLimit k) (GaveUp survivors runLimit) (within runLimit c) := by
  rw [SurvivorCounter.within]
  split
  · rename_i hle
    exact ⟨h, hle⟩
  · rename_i hover
    have hle := survivors.starts.countBelow_mono hk
    rw [Words.countBelow_all, ← h.runs] at hle
    exact (not_le.1 hover).trans_le hle

theorem carryInto_next {i : Nat} {c : SurvivorCounter} (hlast : c.lastIndex = i)
    (hi : i < wordCount) (htop : c.lastTop = topBit (survivors.word i)) :
    c.carryInto (i + 1) = survivors.carryInto (i + 1) := by
  rw [carryInto, hlast, nextIndex_eq hi, if_pos rfl, Words.carryInto, if_neg (Nat.succ_ne_zero i),
    Nat.add_sub_cancel, htop]

theorem sink_follows (survivors : Words wordCount) (runLimit : Nat) :
    (SurvivorCounter.sink runLimit).Follows survivors (Within survivors runLimit)
      (GaveUp survivors runLimit) := by
  constructor
  · rintro k j c hle hempty ⟨hc, hlimit⟩
    rcases Nat.eq_or_lt_of_le hle with rfl | hlt
    · exact ⟨hc, hlimit⟩
    · have hnext := hc.next
      refine ⟨⟨?_, ?_, hnext.trans hle, ?_⟩, hlimit⟩
      · rw [hc.cardinality, Words.countBelow_skip hle hempty]
      · rw [hc.runs, Words.countBelow_skip hle hempty.starts]
      · rw [Words.carryInto_skip hlt hempty, carryInto, if_neg (by omega)]
  · rintro i c hi ⟨hc, -⟩
    refine Counts.within ⟨?_, ?_, (nextIndex_eq hi).le, carryInto_next rfl hi rfl⟩ hi
    · rw [Words.countBelow_succ, hc.cardinality]
    · rw [Words.countBelow_succ, Words.word_starts, hc.runs, hc.carry]
  · rintro i count c hpos hle hfull ⟨hc, -⟩
    have hlast : i + count - 1 < wordCount := by omega
    have hend : i + count - 1 + 1 = i + count := by omega
    have hcarry : ∀ c : SurvivorCounter, c.lastIndex = i + count - 1 → c.lastTop = 1#64 →
        c.carryInto (i + count) = survivors.carryInto (i + count) := by
      intro c hindex htop
      rw [← hend]
      refine carryInto_next hindex hlast ?_
      rw [hfull _ (by omega) (by omega), topBit_allOnes, htop]
    refine Counts.within ⟨?_, ?_, ((nextIndex_eq hlast).trans hend).le, hcarry _ rfl rfl⟩ hle
    · rw [Words.countBelow_full hfull, hc.cardinality, Nat.mul_comm]
    · rw [Words.countBelow_starts_full hfull hpos, hc.runs, hc.carry]

theorem counts_start (survivors : Words wordCount) : Counts survivors 0 {} := by
  refine ⟨rfl, rfl, le_of_eq ?_, ?_⟩
  · rfl
  · rw [Words.carryInto, if_pos rfl, carryInto]
    exact ite_self _

end SurvivorCounter

/-! ## The array writer -/

theorem arraySurvivorWriter_follows {capacity : Nat} (hcap : survivors.values.length ≤ capacity) :
    (arraySurvivorWriter capacity).Follows survivors
      (fun k out ↦ out = some (survivors.valuesBelow k)) fun _ ↦ False := by
  have hwrite : ∀ {k j vs}, j ≤ wordCount →
      survivors.valuesBelow j = survivors.valuesBelow k ++ vs →
      (some (survivors.valuesBelow k)).bind (fun out ↦ writeValues capacity out vs) =
        some (survivors.valuesBelow j) := by
    intro k j vs hj hvs
    have hlen := (survivors.valuesBelow_prefix hj).length_le
    rw [Words.valuesBelow_all, hvs, List.length_append] at hlen
    rw [Option.bind_some, writeValues, if_pos (hlen.trans hcap), hvs]
  constructor
  · rintro k j out hle hempty rfl
    rw [Words.valuesBelow_skip hle hempty]
  · rintro i out hi rfl
    refine hwrite hi ?_
    rw [Words.valuesBelow_succ, extractSetBits_eq, Nat.mul_comm]
  · rintro i count out hpos hle hfull rfl
    refine hwrite hle ?_
    rw [Words.valuesBelow_full hfull, Nat.mul_comm i, Nat.mul_comm count]

/-! ## The run writer -/

/-- The maximal runs of the survivors below `m`, where no run goes across `m`. -/
structure RunsBelow (survivors : Words wordCount) (m : Nat) (out : List Run) : Prop where
  canonical : Canonical out
  mem : ∀ v, v ∈ runValues out ↔ v < m ∧ survivors.contains v = true

/-- No run of the survivors goes across `m`. -/
def Border (survivors : Words wordCount) (m : Nat) : Prop :=
  m = 0 ∨ survivors.contains (m - 1) = false ∨ survivors.contains m = false

namespace RunsBelow

variable {m : Nat} {out : List Run}

theorem start (survivors : Words wordCount) : RunsBelow survivors 0 [] :=
  ⟨.nil, fun v ↦ by simp⟩

theorem extend {m' : Nat} (h : RunsBelow survivors m out) (hle : m ≤ m')
    (hnone : ∀ v, m ≤ v → v < m' → survivors.contains v = false) : RunsBelow survivors m' out := by
  refine ⟨h.canonical,
    fun v ↦ (h.mem v).trans (and_congr_left fun hv ↦ ⟨fun hlt ↦ hlt.trans_le hle, fun hlt ↦ ?_⟩)⟩
  by_contra hge
  rw [hnone v (not_lt.1 hge) hlt] at hv
  exact Bool.false_ne_true hv

/-- The next maximal run. -/
theorem push (h : RunsBelow survivors m out) (hborder : Border survivors m) (hle : m ≤ r.first)
    (hforward : r.first ≤ r.last) (hlast : r.last < lowDomainSize)
    (hnone : ∀ v, m ≤ v → v < r.first → survivors.contains v = false)
    (hall : ∀ v, r.first ≤ v → v ≤ r.last → survivors.contains v = true) :
    RunsBelow survivors (r.last + 1) (out ++ [r]) := by
  have hbelow : ∀ v ∈ runValues out, v + 1 < r.first := by
    intro v hv
    obtain ⟨hlt, hset⟩ := (h.mem v).1 hv
    have hfirst := hall r.first le_rfl hforward
    rcases hborder with hzero | hclear | hclear
    · omega
    · have hne : v ≠ m - 1 := fun heq ↦ by
        rw [heq, hclear] at hset
        exact Bool.false_ne_true hset
      omega
    · have hne : r.first ≠ m := fun heq ↦ by
        rw [heq, hclear] at hfirst
        exact Bool.false_ne_true hfirst
      omega
  refine ⟨Canonical.append_singleton_iff.2 ⟨h.canonical, hforward, hlast, fun o ho ↦ ?_⟩,
    fun v ↦ ?_⟩
  · exact hbelow o.last (mem_runValues.2 ⟨o, ho, h.canonical.forward o ho, le_rfl⟩)
  · rw [runValues_append, List.mem_append, h.mem, runValues_cons, runValues_nil, List.append_nil,
      Run.mem_values]
    constructor
    · rintro (⟨hlt, hset⟩ | ⟨h1, h2⟩)
      · exact ⟨by omega, hset⟩
      · exact ⟨by omega, hall v h1 h2⟩
    · rintro ⟨hlt, hset⟩
      by_cases hv : v < r.first
      · refine .inl ⟨?_, hset⟩
        by_contra hge
        rw [hnone v (not_lt.1 hge) hv] at hset
        exact Bool.false_ne_true hset
      · exact .inr ⟨not_lt.1 hv, Nat.le_of_lt_succ hlt⟩

theorem firsts_ascending (h : RunsBelow survivors m out) :
    (out.map Run.first).Pairwise (· < ·) := by
  refine List.pairwise_map.2 (h.canonical.apart.imp_of_mem fun {a b} ha _ hab ↦ ?_)
  have hforward := h.canonical.forward a ha
  omega

/-- Each run begins where one of the survivors starts. -/
theorem first_mem (h : RunsBelow survivors m out) {o : Run} (ho : o ∈ out) :
    o.first ∈ survivors.starts.values := by
  have hfirst : o.first ∈ runValues out := mem_runValues.2 ⟨o, ho, le_rfl, h.canonical.forward o ho⟩
  obtain ⟨hlt, hset⟩ := (h.mem _).1 hfirst
  rw [Words.mem_values, Words.contains_starts, hset, Bool.true_and, Bool.not_eq_true',
    Bool.and_eq_false_imp, decide_eq_true_iff]
  intro hne
  by_contra hpred
  have hmem : o.first - 1 ∈ runValues out := (h.mem _).2 ⟨by omega, by simpa using hpred⟩
  obtain ⟨q, hq, hbegin, hend⟩ := mem_runValues.1 hmem
  have hforward := h.canonical.forward o ho
  have hsep : q ≠ o → q.last + 1 < o.first ∨ o.last + 1 < q.first := by
    have hpairs : out.Pairwise fun a b ↦ a.last + 1 < b.first ∨ b.last + 1 < a.first :=
      h.canonical.apart.imp Or.inl
    have hsymm : Std.Symm fun a b : Run ↦ a.last + 1 < b.first ∨ b.last + 1 < a.first :=
      ⟨fun _ _ hab ↦ hab.symm⟩
    exact hpairs.forall hq ho
  by_cases heq : q = o
  · rw [heq] at hbegin
    omega
  · have := hsep heq
    omega

theorem length_le (h : RunsBelow survivors m out) : out.length ≤ survivors.starts.count := by
  have hsub : (out.map Run.first) ⊆ survivors.starts.values := by
    intro v hv
    obtain ⟨o, ho, rfl⟩ := List.mem_map.1 hv
    exact h.first_mem ho
  have hnodup : (out.map Run.first).Nodup := h.firsts_ascending.imp ne_of_lt
  rw [Words.count_eq_length_values, ← List.length_map Run.first]
  exact (hnodup.subperm hsub).length_le

end RunsBelow

namespace RunSurvivorWriter

variable {capacity m i k : Nat} {out : List Run} {w : RunSurvivorWriter}

theorem write_eq (hout : w.out = some out) (hbuilt : RunsBelow survivors m (out ++ [r]))
    (hcap : survivors.starts.count ≤ capacity) :
    w.write capacity r = { w with out := some (out ++ [r]) } := by
  have hlen := hbuilt.length_le
  rw [List.length_append, List.length_singleton] at hlen
  rw [RunSurvivorWriter.write, hout, Option.bind_some, writeRun, if_pos (by omega)]

theorem closeAt_eq {last : Nat} (hout : w.out = some out)
    (hbuilt : RunsBelow survivors m (out ++ [⟨w.openBegin, last⟩]))
    (hcap : survivors.starts.count ≤ capacity) :
    w.closeAt capacity last =
      { w with out := some (out ++ [⟨w.openBegin, last⟩]), opened := false } := by
  rw [closeAt, write_eq hout hbuilt hcap]

/-- No run is open, and those below `m` are written. -/
def Closed (survivors : Words wordCount) (m : Nat) (w : RunSurvivorWriter) : Prop :=
  w.opened = false ∧ Border survivors m ∧ ∃ out, w.out = some out ∧ RunsBelow survivors m out

/-- A run is open that reaches up to `m`, and those in front of it are written. -/
def Opened (survivors : Words wordCount) (m : Nat) (w : RunSurvivorWriter) : Prop :=
  w.opened = true ∧ Border survivors w.openBegin ∧ w.openBegin < m ∧
    (∀ v, w.openBegin ≤ v → v < m → survivors.contains v = true) ∧ ∃ out, w.out = some out ∧
      RunsBelow survivors w.openBegin out

/-- The writer below word `k`. -/
def Writes (survivors : Words wordCount) (k : Nat) (w : RunSurvivorWriter) : Prop :=
  Closed survivors (64 * k) w ∨
    (w.lastIndex < wordCount ∧ w.lastIndex + 1 ≤ k ∧ survivors.EmptyBetween (w.lastIndex + 1) k ∧
      Opened survivors (64 * (w.lastIndex + 1)) w)

theorem Closed.congr {w' : RunSurvivorWriter} (h : Closed survivors m w)
    (hopened : w'.opened = w.opened) (hout : w'.out = w.out) :
    Closed survivors m w' := by
  obtain ⟨h1, h2, out, h3, h4⟩ := h
  exact ⟨hopened.trans h1, h2, out, hout.trans h3, h4⟩

/-- The open run is closed. -/
theorem Opened.close {last : Nat} (h : Opened survivors m w) (hlast : last + 1 = m)
    (hlt : m ≤ lowDomainSize) (hcap : survivors.starts.count ≤ capacity) :
    ∃ out, w.closeAt capacity last = { w with out := some out, opened := false } ∧
      RunsBelow survivors m out := by
  obtain ⟨-, hborder, hbegin, hall, out, hout, hbuilt⟩ := h
  have hpush : RunsBelow survivors (last + 1) (out ++ [⟨w.openBegin, last⟩]) := by
    refine hbuilt.push (r := ⟨w.openBegin, last⟩) hborder le_rfl (by dsimp only; omega)
      (by dsimp only; omega)
      (fun v h1 h2 ↦ absurd h2 (not_lt.2 h1)) fun v h1 h2 ↦ ?_
    dsimp only at h1 h2
    exact hall v h1 (by omega)
  rw [hlast] at hpush
  exact ⟨_, closeAt_eq hout hpush hcap, hpush⟩

/-- Empty words hold nothing. -/
theorem contains_of_empty {a b v : Nat} (h : survivors.EmptyBetween a b) (h1 : 64 * a ≤ v)
    (h2 : v < 64 * b) :
    survivors.contains v = false := by
  rw [Words.contains, h (v / 64) (by omega) (by omega), BitVec.getLsbD_zero]

/-- Across empty words the open run is closed. -/
theorem Writes.leave (h : Writes survivors k w) (hk : k ≤ wordCount)
    (hcap : survivors.starts.count ≤ capacity) :
    let w' := w.leaveOpenRunIfNotAdjacent capacity k
    Closed survivors (64 * k) w' ∨
      (w'.lastIndex < wordCount ∧ w'.lastIndex + 1 = k ∧ Opened survivors (64 * k) w') := by
  rw [leaveOpenRunIfNotAdjacent]
  rcases h with hclosed | ⟨hlast, hle, hempty, hopened⟩
  · rw [if_neg (by simp [hclosed.1])]
    exact .inl hclosed
  · rw [SurvivorCounter.nextIndex_eq hlast]
    by_cases hadjacent : k = w.lastIndex + 1
    · rw [if_neg (by simp [hadjacent])]
      exact .inr ⟨hlast, hadjacent.symm, hadjacent ▸ hopened⟩
    · rw [if_pos ⟨hopened.1, hadjacent⟩]
      rw [wordCount] at hk
      obtain ⟨out, hclose, hbuilt⟩ :=
        hopened.close (by omega : w.lastIndex * 64 + 63 + 1 = 64 * (w.lastIndex + 1))
        (by rw [lowDomainSize]; omega) hcap
      rw [hclose]
      refine .inl ⟨rfl, .inr (.inl ?_), out, rfl, hbuilt.extend (by omega) fun v h1 h2 ↦
        contains_of_empty hempty h1 h2⟩
      exact contains_of_empty hempty (by omega) (by omega)

/-- The first survivors of a word from bit `p` on are a run of all, or reach the next word. -/
theorem stretch_survives {bits : Word} {p : Nat} (hne : bits ≠ 0#64)
    (hbits : ∀ j, j < 64 → bits.getLsbD j = (decide (p ≤ j) && survivors.contains (64 * i + j)))
    (hborder : Border survivors (64 * i + p)) {start stop : Nat} (hstart : bits.ctz.toNat = start)
    (hstop : start + trailingOnes (bits >>> start) = stop) :
    p ≤ start ∧ start < stop ∧ stop ≤ 64 ∧ Border survivors (64 * i + start) ∧
      (∀ v, 64 * i + p ≤ v → v < 64 * i + start → survivors.contains v = false) ∧
      (∀ v, 64 * i + start ≤ v → v < 64 * i + stop → survivors.contains v = true) ∧
      (stop < 64 → survivors.contains (64 * i + stop) = false) := by
  obtain ⟨hlt, hle, hlow, hall, hafter⟩ := stretch_spec hne
  rw [hstart, hstop] at hlt hle hall hafter
  rw [hstart] at hlow
  have hword : ∀ j, j < 64 → p ≤ j → survivors.contains (64 * i + j) = bits.getLsbD j := by
    intro j h1 h2
    rw [hbits j h1, decide_eq_true h2, Bool.true_and]
  have hp : p ≤ start := by
    by_contra hbelow
    have hbit := hbits start (by omega)
    rw [hall start le_rfl hlt, decide_eq_false hbelow, Bool.false_and] at hbit
    exact Bool.false_ne_true hbit.symm
  have hclear : ∀ v, 64 * i + p ≤ v → v < 64 * i + start → survivors.contains v = false := by
    intro v h1 h2
    obtain ⟨j, rfl⟩ := Nat.exists_eq_add_of_le (Nat.le_of_add_right_le h1)
    rw [hword j (by omega) (by omega)]
    exact hlow j (by omega)
  refine ⟨hp, hlt, hle, ?_, hclear, fun v h1 h2 ↦ ?_, fun hlow ↦ ?_⟩
  · rcases Nat.eq_or_lt_of_le hp with rfl | hgap
    · exact hborder
    · exact .inr (.inl (hclear _ (by omega) (by omega)))
  · obtain ⟨j, rfl⟩ := Nat.exists_eq_add_of_le (Nat.le_of_add_right_le h1)
    rw [hword j (by omega) (by omega)]
    exact hall j (by omega) (by omega)
  · rw [hword stop hlow (by omega)]
    exact hafter

/-- The stretches of a word from bit `p` on are written, up to the one that reaches the next
word. -/
theorem stretches_spec {bits : Word} {p : Nat} (hi : i < wordCount) (hp : p ≤ 64)
    (hcap : survivors.starts.count ≤ capacity)
    (hbits : ∀ j, j < 64 → bits.getLsbD j = (decide (p ≤ j) && survivors.contains (64 * i + j)))
    (hclosed : Closed survivors (64 * i + p) w) :
    Closed survivors (64 * (i + 1)) (w.stretches capacity (64 * i) bits) ∨
      Opened survivors (64 * (i + 1)) (w.stretches capacity (64 * i) bits) := by
  obtain ⟨hclose, hborder, out, hout, hbuilt⟩ := hclosed
  fun_induction stretches capacity (64 * i) w bits generalizing p out with
  | case1 w =>
    have hword : ∀ v, 64 * i + p ≤ v → v < 64 * (i + 1) → survivors.contains v = false := by
      intro v h1 h2
      obtain ⟨j, rfl⟩ := Nat.exists_eq_add_of_le (Nat.le_of_add_right_le h1)
      have hbit := hbits j (by omega)
      rw [BitVec.getLsbD_zero, decide_eq_true (by omega), Bool.true_and] at hbit
      exact hbit.symm
    refine .inl ⟨hclose, ?_, out, hout, hbuilt.extend (by omega) hword⟩
    rcases Nat.eq_or_lt_of_le hp with rfl | hlt
    · exact hborder
    · exact .inr (.inl (hword _ (by omega) (by omega)))
  | case2 w bits hne start length =>
    rename_i hend
    obtain ⟨hstart, -, -, hborder', hclear, hall, -⟩ := stretch_survives hne hbits hborder rfl hend
    refine .inr
      ⟨rfl, hborder', ?_, hall, out, hout, hbuilt.extend (Nat.add_le_add_left hstart _) hclear⟩
    change 64 * i + start < 64 * (i + 1)
    have := ctz_lt hne
    omega
  | case3 w bits hne start length hend =>
    rename_i ih
    obtain ⟨hstart, hlt, hle, hborder', hclear, hall, hafter⟩ :=
      stretch_survives hne hbits hborder rfl rfl
    set stop := start + length with hstop
    have hend' : 64 * i + start + length - 1 + 1 = 64 * i + stop := by omega
    have hpush :
        RunsBelow survivors (64 * i + stop)
        (out ++ [⟨64 * i + start, 64 * i + start + length - 1⟩]) := by
      rw [← hend']
      refine hbuilt.push (r := ⟨64 * i + start, 64 * i + start + length - 1⟩) hborder
        (Nat.add_le_add_left hstart _) ?_ ?_ hclear ?_
      · dsimp only
        omega
      · rw [wordCount] at hi
        rw [lowDomainSize]
        dsimp only
        omega
      · intro v h1 h2
        exact hall v h1 (by dsimp only at h2; omega)
    have hwrite := write_eq hout hpush hcap
    refine ih hle (fun j hj ↦ ?_) ?_ (.inr (.inr (hafter (by omega)))) _ ?_ hpush
    · rw [BitVec.getLsbD_and, getLsbD_maskFrom hj, hbits j hj]
      by_cases hj' : stop ≤ j
      · rw [decide_eq_true hj', decide_eq_true (by omega), Bool.and_true]
      · rw [decide_eq_false hj', Bool.and_false, Bool.false_and]
    · rw [hwrite]
      exact hclose
    · rw [hwrite]

theorem Writes.of_scanned {w' : RunSurvivorWriter} (hi : i < wordCount)
    (h : Closed survivors (64 * (i + 1)) w' ∨ Opened survivors (64 * (i + 1)) w') :
    Writes survivors (i + 1) { w' with lastIndex := i } :=
  h.imp id fun hopened ↦ ⟨hi, le_rfl, .refl survivors _, hopened⟩

theorem sink_follows (hcap : survivors.starts.count ≤ capacity) :
    (RunSurvivorWriter.sink capacity).Follows survivors (Writes survivors) fun _ ↦ False := by
  constructor
  · intro k j w hle hempty hw
    rcases hw with ⟨hclose, hborder, out, hout, hbuilt⟩ | ⟨hlast, hlast', hempty', hopened⟩
    · refine .inl ⟨hclose, ?_, out, hout, hbuilt.extend (by omega) fun v h1 h2 ↦
        contains_of_empty hempty h1 h2⟩
      rcases Nat.eq_or_lt_of_le hle with rfl | hlt
      · exact hborder
      · exact .inr (.inl (contains_of_empty hempty (by omega) (by omega)))
    · exact .inr ⟨hlast, hlast'.trans hle, hempty'.trans hempty, hopened⟩
  · intro i w hi hw
    have hleave := hw.leave hi.le hcap
    rw [RunSurvivorWriter.sink]
    dsimp only at hleave ⊢
    generalize w.leaveOpenRunIfNotAdjacent capacity i = w at hleave ⊢
    have hbits : ∀ j, j < 64 → (survivors.word i).getLsbD j = survivors.contains (64 * i + j) :=
      fun j hj ↦ (survivors.contains_add hj).symm
    rw [Nat.mul_comm i 64]
    rcases hleave with hclosed | ⟨hlast, hnext, hopened⟩
    · rw [hclosed.1, if_neg Bool.false_ne_true]
      refine Writes.of_scanned hi (stretches_spec hi (Nat.zero_le 64) hcap (fun j hj ↦ ?_) hclosed)
      rw [hbits j hj, decide_eq_true (Nat.zero_le j), Bool.true_and]
    · rw [hopened.1, if_pos rfl]
      obtain ⟨hle, hset, hclear⟩ := trailingOnes_spec (survivors.word i)
      split
      · rename_i hfull
        obtain ⟨hopen, hborder, hbegin, hall, out, hout, hbuilt⟩ := hopened
        refine .inr
          ⟨hi, le_rfl, .refl survivors _, rfl, hborder, ?_, fun v h1 h2 ↦ ?_, out, hout, hbuilt⟩
        · dsimp only
          omega
        · by_cases hv : v < 64 * i
          · exact hall v h1 hv
          · obtain ⟨j, rfl⟩ := Nat.exists_eq_add_of_le (not_lt.1 hv)
            dsimp only at h2
            rw [← hbits j (by omega)]
            exact hset j (by omega)
      · rename_i hpart
        have hlt : trailingOnes (survivors.word i) < 64 := lt_of_le_of_ne hle hpart
        have hreach : Opened survivors (64 * i + trailingOnes (survivors.word i)) w := by
          obtain ⟨hopen, hborder, hbegin, hall, hout⟩ := hopened
          refine ⟨hopen, hborder, by omega, fun v h1 h2 ↦ ?_, hout⟩
          by_cases hv : v < 64 * i
          · exact hall v h1 hv
          · obtain ⟨j, rfl⟩ := Nat.exists_eq_add_of_le (not_lt.1 hv)
            rw [← hbits j (by omega)]
            exact hset j (by omega)
        have hcount := hi
        rw [wordCount] at hcount
        obtain ⟨out, hclose, hbuilt⟩ :
            ∃ out, w.closeAt capacity (64 * i + trailingOnes (survivors.word i) - 1) =
            { w with out := some out, opened := false } ∧
              RunsBelow survivors (64 * i + trailingOnes (survivors.word i)) out :=
          hreach.close (by omega) (by rw [lowDomainSize]; omega) hcap
        rw [hclose]
        refine Writes.of_scanned hi (stretches_spec hi hlt.le hcap (fun j hj ↦ ?_)
          ⟨rfl, .inr (.inr ?_), out, rfl, hbuilt⟩)
        · rw [BitVec.getLsbD_and, getLsbD_maskFrom hj, hbits j hj, Bool.and_comm]
        · rw [← hbits _ hlt]
          exact hclear
  · intro i count w hpos hle hfull hw
    have hleave := hw.leave (by omega) hcap
    rw [RunSurvivorWriter.sink]
    dsimp only at hleave ⊢
    generalize w.leaveOpenRunIfNotAdjacent capacity i = w at hleave ⊢
    have hlast : i + count - 1 < wordCount := by omega
    have hend : i + count - 1 + 1 = i + count := by omega
    have hset : ∀ v, 64 * i ≤ v → v < 64 * (i + count) → survivors.contains v = true := by
      intro v h1 h2
      rw [Words.contains, hfull (v / 64) (by omega) (by omega), BitVec.getLsbD_allOnes,
        decide_eq_true (Nat.mod_lt _ (by decide))]
    rcases hleave with ⟨hclose, hborder, out, hout, hbuilt⟩ |
      ⟨-, hnext, hopen, hborder, hbegin, hall, out, hout, hbuilt⟩
    · rw [hclose, if_neg Bool.false_ne_true]
      refine .inr ⟨hlast, hend.le, ?_, rfl, ?_, ?_, fun v h1 h2 ↦ ?_, out, hout, ?_⟩
      all_goals dsimp only at *
      · rw [hend]
        exact .refl survivors _
      · rwa [Nat.mul_comm i 64]
      · omega
      · exact hset v (by omega) (by omega)
      · rwa [Nat.mul_comm i 64]
    · rw [hopen, if_pos rfl]
      refine .inr ⟨hlast, hend.le, ?_, hopen, hborder, ?_, fun v h1 h2 ↦ ?_, out, hout, hbuilt⟩
      all_goals dsimp only at *
      · rw [hend]
        exact .refl survivors _
      · omega
      · by_cases hv : v < 64 * i
        · exact hall v h1 hv
        · exact hset v (not_lt.1 hv) (by omega)

/-- At the end all maximal runs are written. -/
theorem Writes.finish (h : Writes survivors wordCount w)
    (hcap : survivors.starts.count ≤ capacity) :
    ∃ out, (w.finish capacity).out = some out ∧ RunsBelow survivors lowDomainSize out := by
  have hdomain : 64 * wordCount = lowDomainSize := rfl
  rw [RunSurvivorWriter.finish]
  rcases h with ⟨hclose, -, out, hout, hbuilt⟩ | ⟨hlast, -, hempty, hopened⟩
  · rw [hclose, if_neg Bool.false_ne_true]
    exact ⟨out, hout, hbuilt⟩
  · rw [hopened.1, if_pos rfl]
    obtain ⟨out, hclose, hbuilt⟩ : ∃ out, w.closeAt capacity (w.lastIndex * 64 + 63) =
        { w with out := some out, opened := false } ∧
          RunsBelow survivors (64 * (w.lastIndex + 1)) out :=
      hopened.close (by omega) (by omega) hcap
    rw [hclose]
    exact ⟨out, rfl, hbuilt.extend (by omega) fun v h1 h2 ↦ contains_of_empty hempty h1
      (hdomain ▸ h2)⟩

end RunSurvivorWriter

/-! ## The words -/

theorem word_fillWords (f : Nat → Word) (out : Words wordCount) {a count : Nat}
    (hle : a + count ≤ wordCount) (j : Nat) :
    (fillWords f out a count).word j = if a ≤ j ∧ j < a + count then f j else out.word j := by
  induction count generalizing a out with
  | zero =>
    rw [if_neg (by omega)]
    rfl
  | succ count ih =>
    rw [fillWords, List.range'_succ, List.foldl_cons, ← fillWords, ih _ (by omega),
      Words.word_setWord _ _ (by omega)]
    by_cases hj : j = a
    · rw [if_neg (by omega), if_pos hj, if_pos (by omega), hj]
    · rw [if_neg hj]
      exact if_congr (by omega) rfl rfl

/-- What every run keeps of the runs in front of it holds of all of them. -/
theorem Canonical.foldl {τ : Type} {Q : List Run → τ → Prop} {f : τ → Run → τ}
    (hstep : ∀ {done r rs t}, Canonical (done ++ r :: rs) → Q done t →
      Q (done ++ [r]) (f t r)) {t : τ}
    (hc : Canonical rs) (ht : Q [] t) : Q rs (rs.foldl f t) := by
  have hrun : ∀ rs done t, Canonical (done ++ rs) → Q done t → Q (done ++ rs) (rs.foldl f t) := by
    intro rs
    induction rs with
    | nil =>
      intro done t _ h
      rwa [List.append_nil]
    | cons r rs ih =>
      intro done t hc h
      have hsplit : done ++ r :: rs = (done ++ [r]) ++ rs := by simp
      have hnext := hstep hc h
      rw [hsplit] at hc ⊢
      exact ih _ _ hc hnext
  exact hrun rs [] t hc ht

/-- The words up to the last one of the runs so far are written. -/
structure WordsSoFar (bits : Words wordCount) (done : List Run) (state : Words wordCount × Nat) :
    Prop where
  part : ∀ i, i < state.2 → Part bits done i (state.1.word i)
  within : state.2 ≤ wordCount
  below : ∀ v ∈ runValues done, v < 64 * state.2
  last : state.2 = 0 ∨ ∃ v ∈ runValues done, state.2 = v / 64 + 1

/-- A run leaves the words apart from it alone. -/
theorem Part.apart {i : Nat} {w : Word} (h : Part bits done i w)
    (hapart : i < r.first / 64 ∨ r.last / 64 < i) :
    Part bits (done ++ [r]) i w := by
  refine h.congr fun j hj ↦ ?_
  rw [runValues_append, runValues_cons, runValues_nil, List.append_nil, List.mem_append,
    Run.mem_values]
  refine (or_iff_left ?_).symm
  omega

theorem writeRunWords_spec {state : Words wordCount × Nat} (hc : Canonical (done ++ r :: rs))
    (h : WordsSoFar bits done state) :
    WordsSoFar bits (done ++ [r]) (writeRunWords bits state r) := by
  obtain ⟨out, next⟩ := state
  obtain ⟨hlow, hforward, hlast, -⟩ := hc.around
  obtain ⟨hpart, hwithin, hbelow, hend⟩ := h
  dsimp only at hpart hwithin hbelow hend
  have hcount : r.last / 64 < wordCount := by
    rw [lowDomainSize] at hlast
    rw [wordCount]
    omega
  have hdiv : r.first / 64 ≤ r.last / 64 := Nat.div_le_div_right hforward
  have hnext : next ≤ r.first / 64 + 1 := by
    rcases hend with hzero | ⟨v, hv, heq⟩
    · omega
    · have := hlow v hv
      omega
  have hmem : ∀ v, v ∈ runValues (done ++ [r]) ↔ v ∈ runValues done ∨ (r.first ≤ v ∧ v ≤ r.last) :=
      fun v ↦ by
    rw [runValues_append, runValues_cons, runValues_nil, List.append_nil, List.mem_append,
      Run.mem_values]
  have hempty : ∀ {i}, next ≤ i → Part bits done i 0#64 := fun {i} hi ↦ .empty fun j hj hv ↦ by
    have := hbelow _ hv
    omega
  -- the first word, and the words in front of it
  set part := maskFrom (r.first % 64) &&&
    (if r.first / 64 = r.last / 64 then maskTo (r.last % 64) else BitVec.allOnes 64) &&&
    ~~~bits.word (r.first / 64) with hpartdef
  have hfirst : ∀ {w}, Part bits done (r.first / 64) w →
      Part bits (done ++ [r]) (r.first / 64) (w ||| part) := by
    intro w hw
    refine hw.add fun j hj ↦ ?_
    rw [BitVec.getLsbD_and, getLsbD_maskFrom hj]
    split
    · rw [getLsbD_maskTo (Nat.mod_lt _ (by decide)), ← Bool.decide_and]
      exact decide_eq_decide.2 (by omega)
    · rw [BitVec.getLsbD_allOnes, ← Bool.decide_and]
      exact decide_eq_decide.2 (by omega)
  set front :=
    if r.first / 64 < next then out.setWord (r.first / 64) (out.word (r.first / 64) ||| part)
    else (fillWords (fun _ ↦ 0#64) out next (r.first / 64 - next)).setWord (r.first / 64)
      part with hfrontdef
  have hfront : ∀ i, i ≤ r.first / 64 → Part bits (done ++ [r]) i (front.word i) := by
    intro i hi
    rw [hfrontdef]
    split
    · rename_i hshared
      rw [Words.word_setWord _ _ (hdiv.trans_lt hcount)]
      split
      · rename_i heq
        rw [heq]
        exact hfirst (hpart _ hshared)
      · exact (hpart i (by omega)).apart (.inl (by omega))
    · rename_i hbeyond
      rw [Words.word_setWord _ _ (hdiv.trans_lt hcount)]
      split
      · rename_i heq
        have hzero := hfirst (hempty (not_lt.1 hbeyond))
        rwa [BitVec.zero_or, ← heq] at hzero
      · rw [word_fillWords _ _ (by omega)]
        split
        · rename_i hgap
          exact (hempty hgap.1).apart (.inl (by omega))
        · exact (hpart i (by omega)).apart (.inl (by omega))
  have hwords : ∀ i, i ≤ r.last / 64 →
      Part bits (done ++ [r]) i ((writeRunWords bits (out, next) r).1.word i) := by
    intro i hi
    rw [writeRunWords]
    dsimp only
    rw [← hpartdef, ← hfrontdef]
    split
    · rename_i hmany
      rw [Words.word_setWord _ _ hcount]
      split
      · rename_i heq
        have hadd : Part bits (done ++ [r]) i
            (0#64 ||| maskTo (r.last % 64) &&& ~~~bits.word i) := by
          refine (hempty (by omega)).add fun j hj ↦ ?_
          rw [getLsbD_maskTo (Nat.mod_lt _ (by decide))]
          exact decide_eq_decide.2 (by omega)
        rw [BitVec.zero_or] at hadd
        rwa [← heq]
      · rw [word_fillWords _ _ (by omega)]
        split
        · have hadd : Part bits (done ++ [r]) i
              (0#64 ||| BitVec.allOnes 64 &&& ~~~bits.word i) := by
            refine (hempty (by omega)).add fun j hj ↦ ?_
            rw [BitVec.getLsbD_allOnes]
            exact decide_eq_decide.2 (by omega)
          rwa [BitVec.zero_or, BitVec.allOnes_and] at hadd
        · exact hfront i (by omega)
    · exact hfront i (by omega)
  refine ⟨fun i hi ↦ hwords i (Nat.le_of_lt_succ hi), hcount, fun v hv ↦ ?_, .inr ⟨r.last, ?_, rfl⟩⟩
  · change v < 64 * (r.last / 64 + 1)
    rcases (hmem v).1 hv with hv | hv
    · have := hlow v hv
      omega
    · omega
  · exact (hmem _).2 (.inr ⟨hforward, le_rfl⟩)

/-- The words are written over whatever the block held. -/
theorem survivorWords_eq (uninitialized : Words wordCount) (hc : Canonical rs)
    (hleaves : Leaves bits rs survivors) :
    survivorWords uninitialized bits rs = survivors := by
  have hstart : WordsSoFar bits [] (uninitialized, 0) := ⟨nofun, Nat.zero_le _, nofun, .inl rfl⟩
  have hend : WordsSoFar bits rs (rs.foldl (writeRunWords bits) (uninitialized, 0)) :=
    hc.foldl (fun hc h ↦ writeRunWords_spec hc h) hstart
  rw [survivorWords]
  generalize rs.foldl (writeRunWords bits) (uninitialized, 0) = state at hend ⊢
  obtain ⟨out, next⟩ := state
  obtain ⟨hpart, hwithin, hbelow, -⟩ := hend
  dsimp only at hpart hwithin hbelow ⊢
  refine Words.ext_word fun i hi ↦ ?_
  rw [word_fillWords _ _ (by omega)]
  split
  · refine Part.unique (.empty fun j hj hv ↦ ?_) (hleaves i hi)
    have := hbelow _ hv
    omega
  · exact (hpart i (by omega)).unique (hleaves i hi)

/-! ## The difference -/

/-- What the runs keep without the bits. -/
def survivorValues (bits : Words wordCount) (runs : List Run) : List Nat :=
  (runValues runs).filter fun v ↦ !bits.contains v

/-- The same as a block of words. -/
def survivorBlock (bits : Words wordCount) (runs : List Run) : Words wordCount :=
  (Words.zeroed wordCount).scatter (survivorValues bits runs)

section Difference

variable {v : Nat}

theorem mem_survivorValues : v ∈ survivorValues bits rs ↔ v ∈ runValues rs ∧
    bits.contains v = false := by
  rw [survivorValues, List.mem_filter, Bool.not_eq_true']

theorem survivorValues_ascending (hc : Canonical rs) : (survivorValues bits rs).Pairwise (· < ·) :=
  hc.values_ascending.filter _

theorem survivorValues_lt (hc : Canonical rs) : ∀ v ∈ survivorValues bits rs, v < lowDomainSize :=
  fun v hv ↦ hc.values_lt v (mem_survivorValues.1 hv).1

theorem values_survivorBlock (hc : Canonical rs) :
    (survivorBlock bits rs).values = survivorValues bits rs :=
  Words.values_scatter (survivorValues_ascending hc) (survivorValues_lt hc)

theorem contains_survivorBlock (hc : Canonical rs) :
    (survivorBlock bits rs).contains v = true ↔ v ∈ runValues rs ∧ bits.contains v = false := by
  rw [← Words.mem_values, values_survivorBlock hc, mem_survivorValues]

theorem survivorBlock_leaves (hc : Canonical rs) : Leaves bits rs (survivorBlock bits rs) := by
  intro i hi j hj
  rw [← Words.contains_add _ hj, Bool.eq_iff_iff, contains_survivorBlock hc, Bool.and_eq_true,
    decide_eq_true_iff,
    Bool.not_eq_true']

/-- All maximal runs: one for each start. -/
theorem RunsBelow.length_eq {out : List Run} (h : RunsBelow survivors lowDomainSize out) :
    out.length = survivors.starts.count := by
  refine le_antisymm h.length_le ?_
  have hsub : survivors.starts.values ⊆ out.map Run.first := by
    intro v hv
    rw [Words.mem_values, Words.contains_starts, Bool.and_eq_true, Bool.not_eq_true',
      Bool.and_eq_false_imp,
      decide_eq_true_iff] at hv
    obtain ⟨hset, hpred⟩ := hv
    have hlt : v < lowDomainSize := Words.lt_of_mem_values (Words.mem_values.2 hset)
    obtain ⟨o, ho, hbegin, hend⟩ := mem_runValues.1 ((h.mem v).2 ⟨hlt, hset⟩)
    refine List.mem_map.2 ⟨o, ho, ?_⟩
    by_contra hne
    have hmem : v - 1 ∈ runValues out := mem_runValues.2 ⟨o, ho, by omega, by omega⟩
    have hclear := hpred (by omega)
    rw [((h.mem _).1 hmem).2] at hclear
    exact Bool.false_ne_true hclear.symm
  have hnodup : survivors.starts.values.Nodup := (Words.values_ascending _).imp ne_of_lt
  rw [Words.count_eq_length_values, ← List.length_map Run.first]
  exact (hnodup.subperm hsub).length_le

/-- The counter that was not stopped. -/
theorem counted_spec {runLimit : Nat} {counter : SurvivorCounter} (hc : Canonical rs)
    (hscan : scanRunBitsetDifference (SurvivorCounter.sink runLimit) bits rs {} = .ok counter) :
    counter.cardinality = (survivorValues bits rs).length ∧
      counter.runs = (survivorBlock bits rs).starts.count := by
  have hrule :=
    scanRunBitsetDifference_rule (SurvivorCounter.sink_follows (survivorBlock bits rs) runLimit) hc
    (survivorBlock_leaves hc) ⟨SurvivorCounter.counts_start _, Nat.zero_le runLimit⟩
  rw [hscan] at hrule
  refine ⟨?_, hrule.1.runs⟩
  rw [← values_survivorBlock hc, ← Words.count_eq_length_values]
  exact hrule.1.cardinality

/-- Counting completes just where the survivors have no more runs than the limit. -/
theorem counting_completes_iff {out : List Run} (hc : Canonical rs) (hout : Canonical out)
    (hvalues : runValues out = survivorValues bits rs) (limit : Nat) :
    (∃ counter, scanRunBitsetDifference (SurvivorCounter.sink limit) bits rs {} = .ok counter) ↔
      out.length ≤ limit := by
  have hbelow : RunsBelow (survivorBlock bits rs) lowDomainSize out := by
    refine ⟨hout, fun v ↦ ?_⟩
    rw [hvalues, contains_survivorBlock hc, mem_survivorValues, iff_and_self]
    exact fun hv ↦ hc.values_lt v hv.1
  have hrule := scanRunBitsetDifference_rule
    (SurvivorCounter.sink_follows (survivorBlock bits rs) limit) hc (survivorBlock_leaves hc)
    ⟨SurvivorCounter.counts_start _, Nat.zero_le limit⟩
  rw [hbelow.length_eq]
  generalize scanRunBitsetDifference (SurvivorCounter.sink limit) bits rs {} = x at hrule ⊢
  cases x with
  | ok counter =>
    have hle : counter.runs ≤ limit := hrule.2
    rw [hrule.1.runs, Words.countBelow_all] at hle
    exact iff_of_true ⟨counter, rfl⟩ hle
  | error counter => exact iff_of_false nofun (not_le.2 hrule)

/-- The run writer fills as many places as there are runs. -/
theorem runWriter_spec (bits : Words wordCount) (hc : Canonical rs) :
    ∃ out, ((finalState
        (scanRunBitsetDifference (RunSurvivorWriter.sink (survivorBlock bits rs).starts.count) bits
        rs {})).finish
        (survivorBlock bits rs).starts.count).out = some out ∧
      out.length = (survivorBlock bits rs).starts.count ∧ Canonical out ∧
        runValues out = survivorValues bits rs := by
  have hstart : RunSurvivorWriter.Writes (survivorBlock bits rs) 0 {} :=
    .inl ⟨rfl, .inl rfl, [], rfl, RunsBelow.start _⟩
  have hrule := scanRunBitsetDifference_rule (RunSurvivorWriter.sink_follows le_rfl) hc
    (survivorBlock_leaves hc) hstart
  generalize scanRunBitsetDifference (RunSurvivorWriter.sink (survivorBlock bits rs).starts.count)
    bits rs {} = x at hrule ⊢
  cases x with
  | error w => exact hrule.elim
  | ok w =>
    obtain ⟨out, hout, hbuilt⟩ := RunSurvivorWriter.Writes.finish hrule le_rfl
    refine ⟨out, hout, hbuilt.length_eq, hbuilt.canonical, ?_⟩
    refine List.Pairwise.eq_of_mem_iff (r := (· < ·)) hbuilt.canonical.values_ascending
      (survivorValues_ascending hc) fun v ↦ ?_
    rw [hbuilt.mem, contains_survivorBlock hc, mem_survivorValues, and_iff_right_iff_imp]
    exact fun hv ↦ hc.values_lt v hv.1

/-- The array writer fills as many places as there are values. -/
theorem arrayWriter_spec (hc : Canonical rs) :
    finalState (scanRunBitsetDifference (arraySurvivorWriter (survivorValues bits rs).length) bits
      rs (some [])) =
      some (survivorValues bits rs) := by
  have hcap : (survivorBlock bits rs).values.length ≤ (survivorValues bits rs).length := by
    rw [values_survivorBlock hc]
  have hrule : Outcome (fun out ↦ out = some ((survivorBlock bits rs).valuesBelow wordCount))
      (fun _ ↦ False)
      (scanRunBitsetDifference (arraySurvivorWriter (survivorValues bits rs).length) bits rs
        (some [])) :=
    scanRunBitsetDifference_rule (arraySurvivorWriter_follows hcap) hc (survivorBlock_leaves hc) rfl
  generalize scanRunBitsetDifference (arraySurvivorWriter (survivorValues bits rs).length) bits rs
    (some []) = x at hrule ⊢
  cases x with
  | error w => exact hrule.elim
  | ok w =>
    rw [← values_survivorBlock hc, ← Words.valuesBelow_all]
    exact hrule

/-- Words that hold the survivors make a container of them. -/
theorem arrayFromBitset_holds {words : Words wordCount} {cardinality : Nat}
    (hcard : words.count = cardinality) :
    ∃ h, arrayFromBitset words cardinality = some h ∧ h.Holds words.values := by
  refine ⟨.syncHeader words.values, ?_, ?_⟩
  · rw [arrayFromBitset, Words.flatMap_extractSetBits,
      if_pos (words.count_eq_length_values.symm.trans hcard)]
  · exact ContainerHandle.holds_array words.values_ascending fun v hv ↦ Words.lt_of_mem_values hv

/-- Whatever form is chosen, and also when counting gave up, the result holds the difference. -/
theorem differenceRunBitset_holds (bits uninitialized : Words wordCount) (hc : Canonical rs)
    (bitsetThreshold : Nat) :
    ∃ h, differenceRunBitset uninitialized rs bits bitsetThreshold = some h ∧
      h.Holds (survivorValues bits rs) := by
  have hempty : survivorValues bits rs = [] →
      (ContainerHandle.makeArrayFromSorted []).Holds (survivorValues bits rs) := by
    intro hnil
    rw [hnil]
    exact ContainerHandle.holds_array .nil nofun
  -- the form of words, with the exact count
  have hwords : ∀ cardinality, cardinality = (survivorValues bits rs).length →
      ∃ h, (if !isBitsetCardinality cardinality bitsetThreshold then
          arrayFromBitset (survivorWords uninitialized bits rs) cardinality
        else some (.makeBitsetFrom (survivorWords uninitialized bits rs) cardinality)) = some h ∧
        h.Holds (survivorValues bits rs) := by
    intro cardinality hcard
    rw [survivorWords_eq uninitialized hc (survivorBlock_leaves hc)]
    have hcount : (survivorBlock bits rs).count = cardinality := by
      rw [Words.count_eq_length_values, values_survivorBlock hc, hcard]
    split
    · rw [← values_survivorBlock hc]
      exact arrayFromBitset_holds hcount
    · refine ⟨_, rfl, ContainerHandle.makeBitsetFrom_valid hcount, ?_⟩
      change (survivorBlock bits rs).values = survivorValues bits rs
      exact values_survivorBlock hc
  rw [differenceRunBitset]
  generalize hscan : scanRunBitsetDifference (SurvivorCounter.sink runLimit) bits rs {} = scanned
  cases scanned with
  | error counter =>
    have hgave : (Except.error counter : Except SurvivorCounter SurvivorCounter).isOk = false := rfl
    simp only [hgave, Bool.false_eq_true, false_and, if_false]
    have hcount : (survivorWords uninitialized bits rs).count =
        (survivorValues bits rs).length := by
      rw [survivorWords_eq uninitialized hc (survivorBlock_leaves hc), Words.count_eq_length_values,
        values_survivorBlock hc]
    rw [hcount]
    split
    · rename_i hzero
      exact ⟨_, rfl, hempty (List.eq_nil_of_length_eq_zero hzero)⟩
    · exact hwords _ rfl
  | ok counter =>
    obtain ⟨hcard, hruns⟩ := counted_spec hc hscan
    have hok : (Except.ok counter : Except SurvivorCounter SurvivorCounter).isOk = true := rfl
    have hfinal : finalState (Except.ok counter) = counter := rfl
    simp only [hok, hfinal, true_and, if_true, hcard, hruns]
    split
    · rename_i hzero
      exact ⟨_, rfl, hempty (List.eq_nil_of_length_eq_zero hzero)⟩
    · split
      · rw [arrayWriter_spec hc, Option.bind_some, if_pos rfl]
        exact ⟨_, rfl, ContainerHandle.holds_array (survivorValues_ascending hc)
          (survivorValues_lt hc)⟩
      · obtain ⟨out, hout, hlength, hcanonical, hvalues⟩ := runWriter_spec bits hc
        rw [hout, Option.bind_some, if_pos hlength]
        exact ⟨_, rfl, ContainerHandle.holds_run hcanonical hvalues⟩
      · exact hwords _ rfl

/-- Counting completes just where the survivors have no more runs than the limit; then the counting
scan and the writing scans agree; and the result holds the difference in whichever form. -/
theorem differenceRunBitset_spec (hc : Canonical rs) (bits uninitialized : Words wordCount)
    (bitsetThreshold : Nat) :
    (∃ out, Canonical out ∧ runValues out = survivorValues bits rs ∧ ∀ limit,
      (∃ counter, scanRunBitsetDifference (SurvivorCounter.sink limit) bits rs {} = .ok counter) ↔
        out.length ≤ limit) ∧
    (∀ limit counter, scanRunBitsetDifference (SurvivorCounter.sink limit) bits rs {} =
      .ok counter →
      (∃ out, ((finalState
          (scanRunBitsetDifference (RunSurvivorWriter.sink counter.runs) bits rs {})).finish
          counter.runs).out = some out ∧
        out.length = counter.runs ∧ Canonical out ∧ runValues out = survivorValues bits rs) ∧
      finalState
        (scanRunBitsetDifference (arraySurvivorWriter counter.cardinality) bits rs (some [])) =
        some (survivorValues bits rs) ∧
      (survivorValues bits rs).length = counter.cardinality) ∧
    (survivorWords uninitialized bits rs).values = survivorValues bits rs ∧
    ∃ h, differenceRunBitset uninitialized rs bits bitsetThreshold = some h ∧
      h.Holds (survivorValues bits rs) ∧
      h.cardinality = (survivorValues bits rs).length := by
  refine ⟨?_, fun limit counter hscan ↦ ?_, ?_, ?_⟩
  · obtain ⟨out, -, -, hout, hvalues⟩ := runWriter_spec bits hc
    exact ⟨out, hout, hvalues, counting_completes_iff hc hout hvalues⟩
  · obtain ⟨hcard, hruns⟩ := counted_spec hc hscan
    rw [hcard, hruns]
    exact ⟨runWriter_spec bits hc, arrayWriter_spec hc, rfl⟩
  · rw [survivorWords_eq uninitialized hc (survivorBlock_leaves hc), values_survivorBlock hc]
  · obtain ⟨h, hrun, hholds⟩ := differenceRunBitset_holds bits uninitialized hc bitsetThreshold
    exact ⟨h, hrun, hholds, hholds.cardinality⟩

/-- A bit is taken out of the word that two runs share: three runs are left, and no counter with a
smaller limit completes. -/
theorem differenceRunBitset_spec_sharedWord :
    let bits := (Words.zeroed wordCount).insert 1
    survivorValues bits [⟨0, 2⟩, ⟨5, 5⟩] = [0, 2, 5] ∧
      (∃ out, Canonical out ∧ runValues out = [0, 2, 5] ∧ ∀ limit,
        (∃ counter, scanRunBitsetDifference (SurvivorCounter.sink limit) bits [⟨0, 2⟩, ⟨5, 5⟩] {} =
          .ok counter) ↔
          out.length ≤ limit) ∧
      ∃ h, differenceRunBitset bits [⟨0, 2⟩, ⟨5, 5⟩] bits 4096 = some h ∧ h.Holds [0, 2, 5] := by
  intro bits
  have hc : Canonical [⟨0, 2⟩, ⟨5, 5⟩] :=
    canonical_pair (by decide) (by decide) (by decide) (by decide)
  have hbits : ∀ v, bits.contains v = (decide (v = 1) || false) := fun v ↦ by
    rw [Words.contains_insert _ (by decide), Words.contains_zeroed]
  have hvalues : survivorValues bits [⟨0, 2⟩, ⟨5, 5⟩] = [0, 2, 5] := by
    rw [survivorValues, List.filter_congr fun v _ ↦ by rw [hbits]]
    decide
  obtain ⟨hcounted, -, -, h, hrun, hholds, -⟩ := differenceRunBitset_spec hc bits bits 4096
  rw [hvalues] at hcounted hholds
  exact ⟨hvalues, hcounted, h, hrun, hholds⟩

end Difference

end Roaring
