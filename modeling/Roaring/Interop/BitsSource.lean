import Mathlib
import Roaring.Lib.Bytes
import Roaring.Lib.WordRanges
import Roaring.Interop.Sources

/-!
# The source of a bit string

Bit `i` of a string in memory stands for the key `base + i`.  A chunk that whole and
aligned words of the string cover is viewed in place; any other is assembled in a
scratch block by shifts and masks.  A read of a byte that the string does not have
fails here, so that a source which never fails reads the string alone.
-/

namespace Roaring

open Lib

/-- A string of bits in memory: its bytes, how many bits it has, the key of its first bit and where
it lies. -/
structure BitString where
  bytes : List UInt8
  bitCount : Nat
  base : Nat
  address : Nat
  bitCount_lt : bitCount < 2 ^ 64
  base_lt : base < 2 ^ 64
  covers : bytes.length = (bitCount + 7) / 8

namespace BitString

variable (str : BitString)

def bit (i : Nat) : Bool := (str.bytes.getD (i / 8) 0).toNat.testBit (i % 8)

/-- The keys that the bits stand for, set or not. -/
def extent : Set Nat := {k | str.base ≤ k ∧ k < str.base + str.bitCount}

def keys : Set Nat := {k | ∃ i < str.bitCount, str.bit i = true ∧ str.base + i = k}

/-! ## Reading -/

/-- `byte_count_`, in 64 bits. -/
def byteCount : Nat := (str.bitCount + 7) % 2 ^ 64 / 8

def byteAt (index : Nat) : Option UInt8 :=
  if index < str.byteCount then str.bytes[index]? else some 0

/-- `memcpy` of eight bytes into a word. -/
def copyWord (byte : Nat) : Option Word :=
  if byte + 8 ≤ str.bytes.length then
    some (BitVec.ofNat 64 (leValue ((str.bytes.drop byte).take 8)))
  else none

/-- The first `n` bytes from a place, put together. -/
def joinBytes (byte n : Nat) : Option Word :=
  (List.range n).foldlM
    (fun w i ↦ (str.byteAt (byte + i)).map fun b ↦ w ||| BitVec.ofNat 64 b.toNat <<< (8 * i)) 0#64

def readWord (byte : Nat) : Option Word :=
  if byte + 8 ≤ str.byteCount then str.copyWord byte else str.joinBytes byte 8

/-- The eight bytes of a word and the byte behind them, from bit `shift` of the first on. -/
def readShifted (byte shift : Nat) : Option Word :=
  (str.readWord byte).bind fun word ↦
    if shift ≠ 0 then
      (str.byteAt (byte + 8)).map fun b ↦
        word >>> shift ||| BitVec.ofNat 64 b.toNat <<< (64 - shift)
    else some word

/-- The 64 bits of the string from bit `index` on, those behind `lastRel` as zeros. -/
def loadBits (lastRel index : Nat) : Option Word :=
  if lastRel < index then some 0#64
  else
    (str.readShifted (index / 8) (index % 8)).map fun word ↦
      if lastRel - index < 63 then word &&& ((2#64 <<< (lastRel - index)) - 1#64) else word

/-- Whether a bit from `i` on is set, with the 64-bit arithmetic of the loop; it may be cut off by
its fuel. -/
def anySetFrom : (fuel i : Nat) → Option Bool
  | 0, _ => none
  | fuel + 1, i =>
      if i < str.bitCount then
        if i % 8 = 0 ∧ (i + 64) % 2 ^ 64 ≤ str.bitCount then
          (str.readWord (i / 8)).bind fun word ↦
            if word ≠ 0#64 then some true else anySetFrom fuel ((i + 64) % 2 ^ 64)
        else
          (str.byteAt (i / 8)).bind fun b ↦
            if b.toNat.testBit (i % 8) then some true else anySetFrom fuel (i + 1)
      else some false

/-! ### What the reads give -/

variable {str}

/-- A string is short enough for the arithmetic on its length: all but the 63 greatest lengths
are. -/
def Short (str : BitString) : Prop := str.bitCount ≤ 2 ^ 64 - 64

theorem Short.byteCount (h : str.Short) : str.byteCount = str.bytes.length := by
  have hlt : str.bitCount + 7 < 2 ^ 64 := by
    have hle : str.bitCount ≤ 2 ^ 64 - 64 := h
    omega
  rw [BitString.byteCount, Nat.mod_eq_of_lt hlt, str.covers]

theorem byteAt_eq (h : str.Short) (i : Nat) : str.byteAt i = some (str.bytes.getD i 0) := by
  rw [byteAt, h.byteCount]
  split
  · rename_i hlt
    rw [List.getElem?_eq_getElem hlt, List.getD_eq_getElem _ _ hlt]
  · rename_i hge
    rw [List.getD_eq_default _ _ (not_lt.1 hge)]

theorem getLsbD_byte (b : UInt8) {j : Nat} : (BitVec.ofNat 64 b.toNat).getLsbD j =
    b.toNat.testBit j := by
  rw [BitVec.getLsbD_ofNat]
  by_cases hj : j < 64
  · simp [hj]
  · have hlt : b.toNat < 2 ^ j := b.toNat_lt.trans_le (Nat.pow_le_pow_right (by decide) (by omega))
    simp [hj, Nat.testBit_lt_two_pow hlt]

theorem testBit_byte_of_le (b : UInt8) {j : Nat} (hj : 8 ≤ j) : b.toNat.testBit j = false := by
  apply Nat.testBit_lt_two_pow
  exact b.toNat_lt.trans_le (Nat.pow_le_pow_right (by decide) hj)

theorem bit_add {byte i : Nat} (hi : i < 8) :
    str.bit (8 * byte + i) = (str.bytes.getD byte 0).toNat.testBit i := by
  have h1 : (8 * byte + i) / 8 = byte := by omega
  have h2 : (8 * byte + i) % 8 = i := by omega
  rw [bit, h1, h2]

theorem joinBytes_spec (h : str.Short) (byte : Nat) {n : Nat} (hn : n ≤ 8) :
    ∃ w, str.joinBytes byte n = some w ∧
      ∀ j < 64, w.getLsbD j = (decide (j < 8 * n) && str.bit (8 * byte + j)) := by
  induction n with
  | zero => exact ⟨0#64, rfl, fun j _ ↦ by simp⟩
  | succ n ih =>
    obtain ⟨w, hw, hbits⟩ := ih (by omega)
    refine ⟨w ||| BitVec.ofNat 64 (str.bytes.getD (byte + n) 0).toNat <<< (8 * n), ?_, ?_⟩
    · rw [joinBytes, List.range_succ, List.foldlM_append, ← joinBytes, hw]
      simp only [Option.bind_eq_bind, Option.bind_some, List.foldlM_cons, List.foldlM_nil,
        byteAt_eq h,
        Option.map_some]
      rfl
    · intro j hj
      rw [BitVec.getLsbD_or, hbits j hj, BitVec.getLsbD_shiftLeft, getLsbD_byte]
      by_cases hlow : j < 8 * n
      · have hnext : j < 8 * (n + 1) := by omega
        simp [hlow, hnext]
      · by_cases hin : j < 8 * (n + 1)
        · have hsplit : 8 * byte + j = 8 * (byte + n) + (j - 8 * n) := by omega
          rw [hsplit, bit_add (by omega)]
          simp [hlow, hin, hj]
        · simp [hlow, hin, testBit_byte_of_le _ (show 8 ≤ j - 8 * n by omega)]

theorem copyWord_spec {byte : Nat} (hle : byte + 8 ≤ str.bytes.length) :
    ∃ w, str.copyWord byte = some w ∧ ∀ j < 64, w.getLsbD j = str.bit (8 * byte + j) := by
  refine ⟨_, if_pos hle, fun j hj ↦ ?_⟩
  have hsplit : 8 * byte + j = 8 * (byte + j / 8) + j % 8 := by omega
  have hlt : j / 8 < 8 := by omega
  rw [BitVec.getLsbD_ofNat, testBit_leValue, List.getElem?_take_of_lt hlt,
    List.getElem?_drop, hsplit,
    bit_add (Nat.mod_lt _ (by decide)), List.getD_eq_getElem?_getD]
  simp [hj]

theorem readWord_spec (h : str.Short) (byte : Nat) :
    ∃ w, str.readWord byte = some w ∧ ∀ j < 64, w.getLsbD j = str.bit (8 * byte + j) := by
  rw [readWord]
  split
  · rename_i hle
    rw [h.byteCount] at hle
    exact copyWord_spec hle
  · obtain ⟨w, hw, hbits⟩ := joinBytes_spec h byte le_rfl
    refine ⟨w, hw, fun j hj ↦ ?_⟩
    rw [hbits j hj]
    simp [hj]

theorem readShifted_spec (h : str.Short) {byte shift : Nat} (hshift : shift < 8) :
    ∃ w, str.readShifted byte shift = some w ∧
      ∀ j < 64, w.getLsbD j = str.bit (8 * byte + shift + j) := by
  obtain ⟨w, hw, hbits⟩ := readWord_spec h byte
  rw [readShifted, hw, Option.bind_some]
  split
  · rw [byteAt_eq h, Option.map_some]
    refine ⟨_, rfl, fun j hj ↦ ?_⟩
    rw [BitVec.getLsbD_or, BitVec.getLsbD_ushiftRight, BitVec.getLsbD_shiftLeft, getLsbD_byte]
    by_cases hin : shift + j < 64
    · have hnot : j < 64 - shift := by omega
      rw [hbits _ hin, Nat.add_assoc]
      simp [hnot]
    · have hge : ¬ j < 64 - shift := by omega
      have hsplit : 8 * byte + shift + j = 8 * (byte + 8) + (j - (64 - shift)) := by omega
      rw [BitVec.getLsbD_of_ge _ _ (not_lt.1 hin), hsplit, bit_add (by omega)]
      simp [hj, hge]
  · rename_i hzero
    have hz : shift = 0 := not_not.1 hzero
    refine ⟨w, rfl, fun j hj ↦ ?_⟩
    rw [hbits j hj, hz, Nat.add_zero]

theorem loadBits_spec (h : str.Short) (lastRel index : Nat) :
    ∃ w, str.loadBits lastRel index = some w ∧
      ∀ j < 64, w.getLsbD j = (decide (index + j ≤ lastRel) && str.bit (index + j)) := by
  rw [loadBits]
  split
  · rename_i hbehind
    refine ⟨0#64, rfl, fun j _ ↦ ?_⟩
    have hnot : ¬ index + j ≤ lastRel := by omega
    simp [hnot]
  · rename_i hin
    have hshift : index % 8 < 8 := Nat.mod_lt index (by decide)
    obtain ⟨w, hw, hbits⟩ : ∃ w, str.readShifted (index / 8) (index % 8) = some w ∧
        ∀ j < 64, w.getLsbD j = str.bit (8 * (index / 8) + index % 8 + j) :=
          readShifted_spec h hshift
    rw [Nat.div_add_mod] at hbits
    rw [hw, Option.map_some]
    refine ⟨_, rfl, fun j hj ↦ ?_⟩
    split
    · rename_i hpart
      rw [BitVec.getLsbD_and, hbits j hj, getLsbD_two_shiftLeft_sub_one hpart, Bool.and_comm]
      congr 1
      exact decide_eq_decide.2 (by omega)
    · have hle : index + j ≤ lastRel := by omega
      rw [hbits j hj]
      simp [hle]

theorem anySetFrom_spec (h : str.Short) {fuel i : Nat} (hfuel : str.bitCount - i < fuel) :
    ∃ found, str.anySetFrom fuel i = some found ∧
      (found = true ↔ ∃ j, i ≤ j ∧ j < str.bitCount ∧ str.bit j = true) := by
  induction fuel generalizing i with
  | zero => exact absurd hfuel (Nat.not_lt_zero _)
  | succ fuel ih =>
    have hshort : str.bitCount ≤ 2 ^ 64 - 64 := h
    rw [anySetFrom]
    split
    · rename_i hi
      have hwrap : (i + 64) % 2 ^ 64 = i + 64 := Nat.mod_eq_of_lt (by omega)
      rw [hwrap]
      split
      · rename_i hword
        obtain ⟨w, hw, hbits⟩ := readWord_spec h (i / 8)
        have hplace : 8 * (i / 8) = i := by omega
        rw [hplace] at hbits
        rw [hw, Option.bind_some]
        split
        · rename_i hne
          refine ⟨true, rfl, fun _ ↦ ?_, fun _ ↦ rfl⟩
          have hlt := ctz_lt hne
          have hset := BitVec.getLsbD_true_ctz_of_ne_zero hne
          rw [hbits _ hlt] at hset
          exact ⟨i + w.ctz.toNat, by omega, by omega, hset⟩
        · rename_i hzero
          obtain ⟨found, hfound, hiff⟩ := ih (i := i + 64) (by omega)
          refine ⟨found, hfound, hiff.trans ?_⟩
          constructor
          · rintro ⟨j, hj, hlt, hset⟩
            exact ⟨j, by omega, hlt, hset⟩
          · rintro ⟨j, hj, hlt, hset⟩
            refine ⟨j, ?_, hlt, hset⟩
            by_contra hnear
            have hbit := hbits (j - i) (by omega)
            rw [not_not.1 hzero, Nat.add_sub_cancel' hj, hset] at hbit
            simp at hbit
      · rw [byteAt_eq h, Option.bind_some]
        have hbit : (str.bytes.getD (i / 8) 0).toNat.testBit (i % 8) = str.bit i := rfl
        rw [hbit]
        split
        · rename_i hset
          exact ⟨true, rfl, fun _ ↦ ⟨i, le_rfl, hi, hset⟩, fun _ ↦ rfl⟩
        · rename_i hclear
          obtain ⟨found, hfound, hiff⟩ := ih (i := i + 1) (by omega)
          refine ⟨found, hfound, hiff.trans ?_⟩
          constructor
          · rintro ⟨j, hj, hlt, hset⟩
            exact ⟨j, by omega, hlt, hset⟩
          · rintro ⟨j, hj, hlt, hset⟩
            refine ⟨j, ?_, hlt, hset⟩
            by_contra hnear
            have heq : j = i := by omega
            exact hclear (heq ▸ hset)
    · rename_i hend
      refine ⟨false, rfl, nofun, ?_⟩
      rintro ⟨j, hj, hlt, -⟩
      omega

end BitString

/-! ## Words of a chunk -/

/-- A block of words made one after the other. -/
def assemble (n : Nat) (f : Nat → Option Word) : Option (Words n) :=
  ((List.range n).mapM f).map fun ws ↦ Words.ofFn n fun i ↦ ws.getD i 0#64

theorem mapM_some {α β : Type} {f : α → Option β} {g : α → β} {l : List α}
    (h : ∀ a ∈ l, f a = some (g a)) :
    l.mapM f = some (l.map g) := by
  induction l with
  | nil => rfl
  | cons a l ih =>
    rw [List.mapM_cons, h a List.mem_cons_self, ih fun b hb ↦ h b (List.mem_cons_of_mem a hb)]
    rfl

/-- Words that are made without failing, and whose bits are those of a predicate. -/
theorem assemble_spec {n : Nat} {f : Nat → Option Word} {p : Nat → Bool}
    (h : ∀ i < n, ∃ w, f i = some w ∧ ∀ j < 64, w.getLsbD j = p (64 * i + j)) :
    ∃ ws, assemble n f = some ws ∧ ∀ v < 64 * n, ws.contains v = p v := by
  have hsome : ∀ i ∈ List.range n, f i = some ((f i).getD 0#64) := by
    intro i hi
    obtain ⟨w, hw, -⟩ := h i (List.mem_range.1 hi)
    rw [hw]
    rfl
  refine ⟨_, by rw [assemble, mapM_some hsome]; rfl, fun v hv ↦ ?_⟩
  have hi : v / 64 < n := by omega
  obtain ⟨w, hw, hbits⟩ := h (v / 64) hi
  rw [Words.contains, Words.word_ofFn _ hi, List.getD_eq_getElem?_getD, List.getElem?_map,
    List.getElem?_range hi, Option.map_some, hw]
  have hbit := hbits (v % 64) (Nat.mod_lt _ (by decide))
  rwa [Nat.div_add_mod] at hbit

/-! ## The source -/

/-- `bits_source`; what its scratch holds between two pieces is never read. -/
structure BitsSource (L : Layout) extends ChunkSpan where
  string : BitString
  lastRel : Nat := 0
  truncated : Bool := false

namespace BitsSource

variable {L : Layout}

def make (L : Layout) (str : BitString) : Option (BitsSource L) :=
  if str.bitCount = 0 ∨ L.maxKey < str.base then
    (if str.bitCount ≠ 0 then str.anySetFrom (str.bitCount + 1) 0 else some false).map
        fun truncated ↦
      { string := str, truncated := truncated, done := true }
  else
    let beyond := decide (L.maxKey - str.base < str.bitCount - 1)
    let lastRel := if beyond then L.maxKey - str.base else str.bitCount - 1
    (if beyond then str.anySetFrom (str.bitCount + 1) (lastRel + 1) else some false).map
        fun truncated ↦
      { string := str
        lastRel := lastRel
        truncated := truncated
        firstChunk := L.chunkKey str.base
        lastChunk := L.chunkKey (str.base + lastRel)
        chunk := L.chunkKey str.base }

/-- A word of a chunk that starts `first` bits into the string. -/
def wordWithin (s : BitsSource L) (first w : Nat) : Option Word :=
  if w * 64 ≤ s.lastRel - first then s.string.loadBits s.lastRel (first + w * 64) else some 0#64

/-- A word of a chunk that starts `offset` bits below the string. -/
def wordBelow (s : BitsSource L) (offset w : Nat) : Option Word :=
  if w * 64 + 63 < offset then some 0#64
  else if offset ≤ w * 64 then s.string.loadBits s.lastRel (w * 64 - offset)
  else (s.string.loadBits s.lastRel 0).map fun word : Word ↦ word <<< (offset - w * 64)

def chunkWords (s : BitsSource L) : Option (Words L.wordCount) :=
  let chunkStart := L.compose s.chunk 0
  if s.string.base ≤ chunkStart then
    let first := chunkStart - s.string.base
    if first % 64 = 0 ∧ L.lowDomainSize - 1 ≤ s.lastRel - first ∧
        (s.string.address + first / 8) % 8 = 0 then
      assemble L.wordCount fun w ↦ s.string.copyWord (first / 8 + 8 * w)
    else assemble L.wordCount (s.wordWithin first)
  else assemble L.wordCount (s.wordBelow (s.string.base - chunkStart))

/-- Few bits make an array, as every container of that size is. -/
def pieceOf (words : Words L.wordCount) : Piece L.wordCount :=
  if L.arrayLimit < words.count then Piece.makeBorrowed (.bitset words) words.count
  else
    let values := (List.range L.wordCount).flatMap fun w ↦ extractSetBits (64 * w) (words.word w)
    Piece.makeBorrowed (.array values) values.length

def piece (s : BitsSource L) : Option (BitsSource L × Piece L.wordCount) :=
  s.chunkWords.map fun words ↦ (s, pieceOf words)

/-- `bits_source` as a cursor. -/
def source (L : Layout) : Stepper L.chunkCount (BitsSource L) (Piece L.wordCount) where
  atEnd s := s.done
  key s := s.chunk
  piece := piece
  advance s := { s with toChunkSpan := s.toChunkSpan.advance }
  seek s key := { s with toChunkSpan := s.toChunkSpan.seek key }

/-- What holds of a string's source in every run. -/
structure Inv (L : Layout) (str : BitString) (s : BitsSource L) : Prop where
  string : s.string = str
  span : s.toChunkSpan.Inv (L.chunksOf str.extent)
  reach : s.lastRel = 0 ∨ s.lastRel < str.bitCount
  chunk_le : s.chunk ≤ s.lastChunk
  last_lt : s.lastChunk < L.chunkCount
  live : s.done = false → 0 < str.bitCount ∧ str.base ≤ L.maxKey ∧
    s.lastRel = min (str.bitCount - 1) (L.maxKey - str.base) ∧
    s.firstChunk = L.chunkKey str.base ∧ s.lastChunk = L.chunkKey (str.base + s.lastRel)
  truncated : s.truncated = true ↔ ∃ k ∈ str.keys, L.maxKey < k

variable {str : BitString} {s : BitsSource L}

theorem extent_eq (h : 0 < str.bitCount) :
    str.extent = {k | str.base ≤ k ∧ k ≤ str.base + (str.bitCount - 1)} := by
  ext k
  change (_ ∧ _) ↔ (_ ∧ _)
  exact and_congr_right fun _ ↦ by omega

theorem make_inv (L : Layout) (h : str.Short) :
    ∃ s, make L str = some s ∧ Inv L str s ∧
      (source L).position s = nextFrom (L.chunksOf str.extent) 0 := by
  rw [make]
  split
  · rename_i hempty
    have hnone : L.chunksOf str.extent = ∅ := by
      rw [Set.eq_empty_iff_forall_notMem]
      rintro c ⟨x, ⟨hbase, hend⟩, hmax, -⟩
      omega
    have hpos : nextFrom (L.chunksOf str.extent) 0 = none := by
      rw [hnone]
      exact nextFrom_eq_none_iff.mpr fun d hd ↦ absurd hd (Set.notMem_empty d)
    have hscan : ∃ found,
        (if str.bitCount ≠ 0 then str.anySetFrom (str.bitCount + 1) 0 else some false) =
        some found ∧
        (found = true ↔ ∃ k ∈ str.keys, L.maxKey < k) := by
      split
      · rename_i hne
        obtain ⟨found, hfound, hiff⟩ :=
          BitString.anySetFrom_spec h (i := 0) (Nat.lt_succ_of_le (Nat.sub_le _ _))
        refine ⟨found, hfound, hiff.trans ?_⟩
        constructor
        · rintro ⟨j, -, hj, hset⟩
          exact ⟨str.base + j, ⟨j, hj, hset, rfl⟩, by omega⟩
        · rintro ⟨-, ⟨j, hj, hset, rfl⟩, -⟩
          exact ⟨j, Nat.zero_le j, hj, hset⟩
      · rename_i hzero
        refine ⟨false, rfl, nofun, ?_⟩
        rintro ⟨-, ⟨j, hj, -⟩, -⟩
        omega
    obtain ⟨found, hfound, hiff⟩ := hscan
    rw [hfound]
    refine ⟨_, rfl, ⟨rfl, .inl rfl, .inl rfl, le_rfl, Nat.two_pow_pos _, nofun, hiff⟩, hpos.symm⟩
  · rename_i hheld
    rw [not_or, not_lt] at hheld
    obtain ⟨hne, hbase⟩ := hheld
    have hpos : 0 < str.bitCount := Nat.pos_of_ne_zero hne
    simp only [decide_eq_true_eq]
    have hlast :
        (if L.maxKey - str.base < str.bitCount - 1 then L.maxKey - str.base else str.bitCount - 1) =
        min (str.bitCount - 1) (L.maxKey - str.base) := by
      split <;> omega
    rw [hlast]
    have hscan : ∃ found, (if L.maxKey - str.base < str.bitCount - 1 then
        str.anySetFrom (str.bitCount + 1) (min (str.bitCount - 1) (L.maxKey - str.base) + 1)
          else some false) = some found ∧
        (found = true ↔ ∃ k ∈ str.keys, L.maxKey < k) := by
      split
      · rename_i hbeyond
        obtain ⟨found, hfound, hiff⟩ := BitString.anySetFrom_spec h
          (i := min (str.bitCount - 1) (L.maxKey - str.base) + 1)
            (Nat.lt_succ_of_le (Nat.sub_le _ _))
        refine ⟨found, hfound, hiff.trans ?_⟩
        constructor
        · rintro ⟨j, hfrom, hj, hset⟩
          exact ⟨str.base + j, ⟨j, hj, hset, rfl⟩, by omega⟩
        · rintro ⟨-, ⟨j, hj, hset, rfl⟩, hmax⟩
          exact ⟨j, by omega, hj, hset⟩
      · refine ⟨false, rfl, nofun, ?_⟩
        rintro ⟨-, ⟨j, hj, -, rfl⟩, hmax⟩
        omega
    obtain ⟨found, hfound, hiff⟩ := hscan
    have htop : str.base + min (str.bitCount - 1) (L.maxKey - str.base) =
        min (str.base + (str.bitCount - 1)) L.maxKey := by
      rw [← Nat.add_min_add_left, Nat.add_sub_cancel' hbase]
    have hchunks : L.chunksOf str.extent =
        {c | L.chunkKey str.base ≤ c ∧ c ≤ L.chunkKey
          (str.base + min (str.bitCount - 1) (L.maxKey - str.base))} := by
      rw [extent_eq hpos, htop]
      exact Layout.chunksOf_interval (Nat.le_add_right _ _) hbase
    have hmax : str.base + min (str.bitCount - 1) (L.maxKey - str.base) ≤ L.maxKey := by omega
    have hkeys :
        L.chunkKey str.base ≤
        L.chunkKey (str.base + min (str.bitCount - 1) (L.maxKey - str.base)) := by
      rw [Layout.chunkKey_eq hbase, Layout.chunkKey_eq hmax]
      exact Nat.div_le_div_right (Nat.le_add_right _ _)
    rw [hfound]
    refine ⟨_, rfl, ⟨rfl, .inr ⟨hchunks, le_rfl, hkeys⟩, .inr ?_, hkeys, Layout.chunkKey_lt hmax,
      fun _ ↦ ⟨hpos, hbase, rfl, rfl, rfl⟩, hiff⟩, ?_⟩
    · dsimp only
      omega
    · rw [hchunks]
      symm
      exact nextFrom_eq_some_iff.mpr ⟨⟨le_rfl, hkeys⟩, Nat.zero_le _, fun d hd _ ↦ hd.1⟩

/-- The word at a place in a string is not read behind what the walk reaches. -/
theorem chunkWords_spec (h : str.Short) (hs : Inv L str s) :
    ∃ words, s.chunkWords = some words ∧ ∀ v < 64 * L.wordCount, words.contains v =
      (decide (str.base ≤ s.chunk * L.lowDomainSize + v ∧
        s.chunk * L.lowDomainSize + v - str.base ≤ s.lastRel) &&
        str.bit (s.chunk * L.lowDomainSize + v - str.base)) := by
  have hcover := L.words_cover
  have h8 := L.eight_le_lowBits
  have hwide : 256 ≤ L.lowDomainSize := by
    have hpow : 2 ^ 8 ≤ 2 ^ L.lowBits := Nat.pow_le_pow_right (by decide) h8
    exact hpow
  rw [chunkWords, Layout.compose_zero (hs.chunk_le.trans_lt hs.last_lt), hs.string]
  generalize s.chunk * L.lowDomainSize = chunkStart
  simp only
  split
  · rename_i hle
    obtain ⟨first, rfl⟩ := Nat.exists_eq_add_of_le hle
    rw [Nat.add_sub_cancel_left]
    split
    · rename_i hplace
      obtain ⟨haligned, hcovered, -⟩ := hplace
      have hin : s.lastRel < str.bitCount := by
        rcases hs.reach with hzero | hlt
        · omega
        · exact hlt
      apply assemble_spec
      intro w hw
      have hbytes : first / 8 + 8 * w + 8 ≤ str.bytes.length := by
        rw [str.covers]
        omega
      obtain ⟨word, hword, hbits⟩ := BitString.copyWord_spec hbytes
      refine ⟨word, hword, fun j hj ↦ ?_⟩
      have hsame : 8 * (first / 8 + 8 * w) + j = first + (64 * w + j) := by omega
      have hsub : str.base + first + (64 * w + j) - str.base = first + (64 * w + j) := by omega
      have hheld : str.base ≤ str.base + first + (64 * w + j) ∧
        first + (64 * w + j) ≤ s.lastRel := by omega
      rw [hbits j hj, hsame, hsub, decide_eq_true hheld, Bool.true_and]
    · apply assemble_spec
      intro w hw
      rw [wordWithin, hs.string]
      have hsub : ∀ j, str.base + first + (64 * w + j) - str.base = first + w * 64 + j :=
        fun j ↦ by omega
      split
      · obtain ⟨word, hword, hbits⟩ := BitString.loadBits_spec h s.lastRel (first + w * 64)
        refine ⟨word, hword, fun j hj ↦ ?_⟩
        rw [hbits j hj, hsub]
        congr 1
        exact decide_eq_decide.2 (by omega)
      · rename_i hbehind
        refine ⟨0#64, rfl, fun j _ ↦ ?_⟩
        have hnot : ¬
          (str.base ≤ str.base + first + (64 * w + j) ∧ first + w * 64 + j ≤ s.lastRel) := by omega
        rw [hsub, decide_eq_false hnot]
        simp
  · rename_i hlt
    have hbelow : chunkStart < str.base := not_le.1 hlt
    apply assemble_spec
    intro w hw
    rw [wordBelow, hs.string]
    split
    · refine ⟨0#64, rfl, fun j hj ↦ ?_⟩
      have hnot : ¬ (str.base ≤ chunkStart + (64 * w + j) ∧
        chunkStart + (64 * w + j) - str.base ≤ s.lastRel) := by omega
      rw [decide_eq_false hnot]
      simp
    · rename_i hreaches
      split
      · obtain ⟨word, hword, hbits⟩ :=
          BitString.loadBits_spec h s.lastRel (w * 64 - (str.base - chunkStart))
        refine ⟨word, hword, fun j hj ↦ ?_⟩
        have hsame : w * 64 - (str.base - chunkStart) + j = chunkStart + (64 * w + j) -
          str.base := by omega
        rw [hbits j hj, hsame]
        congr 1
        exact decide_eq_decide.2 (by omega)
      · rename_i hcut
        obtain ⟨word, hword, hbits⟩ := BitString.loadBits_spec h s.lastRel 0
        refine ⟨word <<< (str.base - chunkStart - w * 64), by rw [hword]; rfl, fun j hj ↦ ?_⟩
        rw [BitVec.getLsbD_shiftLeft]
        by_cases hlow : j < str.base - chunkStart - w * 64
        · have hnot : ¬ (str.base ≤ chunkStart + (64 * w + j) ∧
              chunkStart + (64 * w + j) - str.base ≤ s.lastRel) := by
            omega
          rw [decide_eq_false hnot]
          simp [hlow]
        · have hsame : 0 + (j - (str.base - chunkStart - w * 64)) = chunkStart + (64 * w + j) -
            str.base := by omega
          rw [hbits _ (by omega), hsame]
          have hand : decide (chunkStart + (64 * w + j) - str.base ≤ s.lastRel) =
              decide (str.base ≤ chunkStart + (64 * w + j) ∧
                chunkStart + (64 * w + j) - str.base ≤ s.lastRel) :=
            decide_eq_decide.2 (by omega)
          rw [hand]
          simp [hj, hlow]

theorem pieceOf_holds {words : Words L.wordCount} {members : Set Nat} {c : Nat}
    (hmem : ∀ v, words.contains v = true ↔ v < L.lowDomainSize ∧
      c * L.lowDomainSize + v ∈ members) :
    (pieceOf words).Holds L members c := by
  rw [pieceOf]
  split
  · apply Piece.makeBorrowed_bitset_holds words.count_eq_length_values
    intro v
    rw [Words.mem_values, hmem]
  · simp only [Words.flatMap_extractSetBits]
    apply Piece.makeBorrowed_array_holds words.values_ascending
    intro v
    rw [Words.mem_values, hmem]

theorem source_walks (L : Layout) (h : str.Short) :
    (source L).Walks (L.chunksOf str.extent) (Inv L str) := by
  constructor
  · intro s hs
    obtain ⟨words, hwords, -⟩ := chunkWords_spec h hs
    exact ⟨s, pieceOf words, by simp only [source, piece, hwords, Option.map_some], hs, rfl⟩
  · intro s hs
    obtain ⟨hspan, hpos⟩ := ChunkSpan.advance_walks hs.span
    have hle := ChunkSpan.advance_chunk_le hs.chunk_le
    refine ⟨⟨hs.string, hspan, hs.reach, ?_, ?_, fun hlive ↦ ?_, hs.truncated⟩, hpos⟩
    · simpa only [source, ChunkSpan.advance_lastChunk] using hle
    · simpa only [source, ChunkSpan.advance_lastChunk] using hs.last_lt
    · simpa only [source, ChunkSpan.advance_firstChunk, ChunkSpan.advance_lastChunk] using
        hs.live (ChunkSpan.live_of_advance hlive)
  · intro s hs key
    obtain ⟨hspan, hpos⟩ := ChunkSpan.seek_walks hs.span key
    have hle := ChunkSpan.seek_chunk_le hs.chunk_le key
    refine ⟨⟨hs.string, hspan, hs.reach, ?_, ?_, fun hlive ↦ ?_, hs.truncated⟩, hpos⟩
    · simpa only [source, ChunkSpan.seek_lastChunk] using hle
    · simpa only [source, ChunkSpan.seek_lastChunk] using hs.last_lt
    · simpa only [source, ChunkSpan.seek_firstChunk, ChunkSpan.seek_lastChunk] using
        hs.live (ChunkSpan.live_of_seek hlive)

/-- The members of the string in a chunk that the walk stands at. -/
theorem mem_chunk (hs : Inv L str s) (hlive : s.done = false) {v : Nat} (hv : v < L.lowDomainSize) :
    s.chunk * L.lowDomainSize + v ∈ {k ∈ str.keys | k ≤ L.maxKey} ↔
      (str.base ≤ s.chunk * L.lowDomainSize + v ∧
        s.chunk * L.lowDomainSize + v - str.base ≤ s.lastRel) ∧
        str.bit (s.chunk * L.lowDomainSize + v - str.base) = true := by
  obtain ⟨hpos, hbase, hrel, -⟩ := hs.live hlive
  have hend := Layout.chunk_end_le (hs.chunk_le.trans_lt hs.last_lt)
  rw [Nat.succ_mul] at hend
  have hmax : s.chunk * L.lowDomainSize + v ≤ L.maxKey := by omega
  generalize s.chunk * L.lowDomainSize + v = k at hmax
  rw [hrel]
  constructor
  · rintro ⟨⟨i, hi, hset, rfl⟩, -⟩
    rw [Nat.add_sub_cancel_left]
    exact ⟨by omega, hset⟩
  · rintro ⟨⟨hfrom, hto⟩, hset⟩
    exact ⟨⟨k - str.base, by omega, hset, by omega⟩, hmax⟩

/-- The source of a bit string stands for its set bits, and knows from the start whether one of them
lies beyond the key type. -/
theorem yields (L : Layout) (h : str.Short) :
    ∃ start, make L str = some start ∧
      Yields L (source L) start str.extent {k ∈ str.keys | k ≤ L.maxKey} ∧
      ∀ moves s, (source L).run start moves = some s →
        (s.truncated = true ↔ ∃ k ∈ str.keys, L.maxKey < k) := by
  obtain ⟨start, hmake, hinv, hstart⟩ := make_inv L h
  refine ⟨start, hmake, ?_, ?_⟩
  · refine Yields.of_walks (source_walks L h) hinv hstart fun s c hs hpos ↦ ?_
    have hlive : s.done = false := by
      rcases Bool.eq_false_or_eq_true s.done with hdone | hlive
      · rw [Stepper.position, source, if_pos hdone] at hpos
        cases hpos
      · exact hlive
    rw [Stepper.position, source, if_neg (by simp [hlive])] at hpos
    obtain ⟨words, hwords, hbits⟩ := chunkWords_spec h hs
    refine ⟨s, pieceOf words, by simp only [source, piece, hwords, Option.map_some], ?_⟩
    rw [← Option.some.inj hpos]
    apply pieceOf_holds
    intro v
    by_cases hv : v < L.lowDomainSize
    · rw [hbits v (by rw [L.words_cover]; exact hv), mem_chunk hs hlive hv, Bool.and_eq_true,
        decide_eq_true_eq]
      exact ⟨fun hk ↦ ⟨hv, hk⟩, And.right⟩
    · rw [Words.contains_of_le words (by rw [L.words_cover]; exact not_lt.1 hv)]
      exact ⟨fun h ↦ absurd h Bool.false_ne_true, fun hk ↦ absurd hk.1 hv⟩
  · intro moves s hrun
    obtain ⟨t, hrun', ht, -⟩ := (source_walks L h).run_walk hinv hstart moves
    obtain rfl := Option.some.inj (hrun'.symm.trans hrun)
    exact ht.truncated

end BitsSource

end Roaring
