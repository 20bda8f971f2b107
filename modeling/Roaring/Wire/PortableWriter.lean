import Mathlib
import Roaring.Wire.PortableSafety

/-!
# The portable writer against the cut

What the writer puts out for the chunks of one 32-bit bitmap cuts back into the
containers it wrote, and takes exactly the bytes the plan counts.  Writer, plan
and reader each recompute the layout, so there is one lemma for each part of it:
containers, flags, descriptive header, cookie.
-/

namespace Roaring

open Lib

/-! ## The image of a bitmap -/

/-- What the writer makes of a container: a run stays a run, everything else is an
array up to 4096 values and a bitset above. -/
def wireContainerOf (h : ContainerHandle) : WireContainer :=
  match h.payload with
  | .run runs => .run (runs.map fun r ↦ (r.first, r.last - r.first))
  | .array values =>
      if h.cardinality > portableArrayMaxCardinality then
        .bitset (wordsOfBytes (values.foldl setBit (List.replicate portableBitsetBytes 0)))
      else .array values
  | .bitset words =>
      if h.cardinality > portableArrayMaxCardinality then .bitset words else .array words.values

def wireChunkOf (c : Chunk) : WireChunk :=
  ⟨c.key % 65536, c.slot.cardinality, wireContainerOf c.slot⟩

/-! ## Bits of a byte string -/

def bitAt (bytes : List UInt8) (i : Nat) : Bool := (bytes[i / 8]?.getD 0).toNat.testBit (i % 8)

@[simp] theorem length_setBit (bytes : List UInt8) (i : Nat) :
    (setBit bytes i).length = bytes.length := by simp [setBit]

theorem bitAt_setBit {bytes : List UInt8} {i : Nat} (hi : i / 8 < bytes.length) (j : Nat) :
    bitAt (setBit bytes i) j = (bitAt bytes j || decide (i = j)) := by
  have hpow : ∀ k < 8, (UInt8.ofNat (2 ^ k)).toNat = 2 ^ k := by decide
  rw [bitAt, bitAt, setBit, List.getElem?_modify]
  by_cases hd : i / 8 = j / 8
  · have hj : j / 8 < bytes.length := hd ▸ hi
    simp only [hd, List.getElem?_eq_getElem hj, if_true, Option.map_eq_map, Option.map_some,
      Option.getD_some, UInt8.toNat_or, hpow _ (Nat.mod_lt i (by decide)), Nat.testBit_or,
        Nat.testBit_two_pow]
    congr 1
    exact decide_eq_decide.mpr ⟨fun h ↦ by omega, fun h ↦ by rw [h]⟩
  · have hne : i ≠ j := fun h ↦ hd (by rw [h])
    simp [hd, hne]

theorem bitAt_foldl_setBit {values : List Nat} {bytes : List UInt8}
    (h : ∀ v ∈ values, v / 8 < bytes.length) (j : Nat) :
    bitAt (values.foldl setBit bytes) j = (bitAt bytes j || decide (j ∈ values)) := by
  induction values generalizing bytes with
  | nil => simp
  | cons v vs ih =>
      have hv := h v List.mem_cons_self
      rw [List.foldl_cons, ih fun u hu ↦ by
        rw [length_setBit]
        exact h u (List.mem_cons_of_mem v hu), bitAt_setBit hv, Bool.or_assoc]
      congr 1
      rw [← Bool.decide_or]
      exact decide_eq_decide.mpr (by rw [List.mem_cons, eq_comm])

@[simp] theorem length_foldl_setBit (values : List Nat) (bytes : List UInt8) :
    (values.foldl setBit bytes).length = bytes.length := by
  induction values generalizing bytes with
  | nil => rfl
  | cons v vs ih => rw [List.foldl_cons, ih, length_setBit]

theorem bitAt_replicate_zero (n j : Nat) : bitAt (List.replicate n 0) j = false := by
  rw [bitAt, List.getElem?_replicate]
  split <;> simp

/-- A word block read off bytes holds the bits of the bytes. -/
theorem contains_wordsOfBytes (bytes : List UInt8) {v : Nat} (hv : v < lowDomainSize) :
    (wordsOfBytes bytes).contains v = bitAt bytes v := by
  have hdom : lowDomainSize = 64 * wordCount := by decide
  have hw : v / 64 < wordCount := by omega
  have hlt : v % 64 < 64 := Nat.mod_lt v (by decide)
  rw [Words.contains, wordsOfBytes, Words.word_ofFn _ hw, BitVec.getLsbD_ofNat, testBit_leValue]
  have h8 : v % 64 / 8 < 8 := by omega
  have hidx : 8 * (v / 64) + v % 64 / 8 = v / 8 := by omega
  have hmod : v % 64 % 8 = v % 8 := by omega
  rw [List.getElem?_take_of_lt h8, List.getElem?_drop, hidx, hmod, bitAt]
  simp [hlt]

/-! ## Containers -/

theorem length_wordBytes (words : Words wordCount) :
    (wordBytes words).length = portableBitsetBytes := by
  rw [wordBytes, List.length_flatMap]
  simp only [length_leBytes, List.map_const', List.length_range, List.sum_replicate]
  rfl

/-- A block of equally long pieces, cut at the start of a piece. -/
theorem take_drop_flatMap_range (n k : Nat) (f : Nat → List UInt8) (hf : ∀ i, (f i).length = k)
    {i : Nat} (hi : i < n) (rest : List UInt8) :
    ((((List.range n).flatMap f) ++ rest).drop (k * i)).take k = f i := by
  have hsplit : List.range n = List.range i ++ i :: List.range' (i + 1) (n - i - 1) := by
    have hn : n = i + (n - i - 1 + 1) := by omega
    rw [List.range_eq_range', List.range_eq_range']
    conv_lhs => rw [hn, ← List.range'_append_1, Nat.zero_add, List.range'_succ]
  have hlen : ((List.range i).flatMap f).length = k * i := by
    rw [List.length_flatMap]
    simp [hf, mul_comm]
  rw [hsplit, List.flatMap_append, List.append_assoc, List.drop_left' hlen, List.flatMap_cons,
    List.append_assoc, List.take_left' (hf i)]

theorem wordsOfBytes_wordBytes (words : Words wordCount) (rest : List UInt8) :
    wordsOfBytes (wordBytes words ++ rest) = words := by
  refine Words.ext_word fun i hi ↦ ?_
  have hslice := take_drop_flatMap_range wordCount 8 (fun i ↦ leBytes 8 (words.word i).toNat)
    (fun i ↦ length_leBytes 8 _) hi rest
  have hlt : (words.word i).toNat < 256 ^ 8 := (words.word i).isLt
  rw [wordsOfBytes, Words.word_ofFn _ hi, wordBytes, hslice, leValue_leBytes_of_lt hlt]
  simp

/-- An oversized array comes back as the same set of values. -/
theorem values_wordsOfBytes_foldl {values : List Nat} (hasc : values.Pairwise (· < ·))
    (hlt : ∀ v ∈ values, v < lowDomainSize) :
    (wordsOfBytes (values.foldl setBit (List.replicate portableBitsetBytes 0))).values =
      values := by
  refine List.Pairwise.eq_of_mem_iff (r := (· < ·)) (Words.values_ascending _) hasc fun v ↦ ?_
  rw [Words.mem_values]
  have hbytes : ∀ u ∈ values, u / 8 < (List.replicate portableBitsetBytes (0 : UInt8)).length := by
    intro u hu
    have := hlt u hu
    rw [List.length_replicate]
    unfold portableBitsetBytes
    unfold lowDomainSize at this
    omega
  by_cases hv : v < lowDomainSize
  · rw [contains_wordsOfBytes _ hv, bitAt_foldl_setBit hbytes, bitAt_replicate_zero]
    simp
  · rw [Words.contains_of_le _ (Nat.le_of_not_lt hv)]
    exact ⟨nofun, fun hmem ↦ absurd (hlt v hmem) hv⟩

theorem wireRuns_flatMap {runs : List Run} (h : Canonical runs) (rest : List UInt8) :
    wireRuns runs.length
        ((runs.flatMap fun r ↦ put16 r.first ++ put16 (r.last - r.first)) ++ rest) =
      runs.map fun r ↦ (r.first, r.last - r.first) := by
  induction runs with
  | nil => rfl
  | cons r rs ih =>
      have hlt : r.last < 256 ^ 2 := h.bounded r List.mem_cons_self
      have hle := h.head_le
      simp only [List.length_cons, wireRuns, List.flatMap_cons, List.append_assoc, List.map_cons]
      have hdrop : (put16 r.first ++ (put16 (r.last - r.first) ++
          ((rs.flatMap fun r ↦ put16 r.first ++ put16 (r.last - r.first)) ++ rest))).drop 4 =
          (rs.flatMap fun r ↦ put16 r.first ++ put16 (r.last - r.first)) ++ rest := by
        rw [← List.append_assoc]
        exact List.drop_left' (by simp)
      rw [List.take_left' (length_put16 _), List.drop_left' (length_put16 _),
        List.take_left' (length_put16 _), hdrop, ih h.tail, put16, put16,
        leValue_leBytes_of_lt (by omega), leValue_leBytes_of_lt (by omega)]

theorem takeBytes_append {n : Nat} {a : List UInt8} (h : a.length = n) (rest : List UInt8) :
    takeBytes n (a ++ rest) = some (a, rest) := by
  rw [takeBytes, if_pos (by rw [List.length_append]; omega), List.take_left' h, List.drop_left' h]

/-- Writing a container and cutting it off again, with the bytes the plan counts. -/
theorem portableWriteContainer_spec {h : ContainerHandle} (hv : h.Valid) (rest : List UInt8) :
    (portableWriteContainer h (portableWireOf h)).length = (portableWireOf h).bytes ∧
    decodeContainer h.holdsRun h.cardinality
        (portableWriteContainer h (portableWireOf h) ++ rest) =
      some (wireContainerOf h, rest) := by
  have hcard := hv.cardinality
  have hwf := hv.payload
  cases hp : h.payload with
  | run runs =>
      rw [hp] at hwf
      cases hwf with
      | run canonical =>
          have hcount : h.count = runs.length := by rw [ContainerHandle.count, hp]
          have hrun : h.holdsRun = true := by
            simp [ContainerHandle.holdsRun, ContainerHandle.kind, hp, Payload.kind]
          have hlen : runs.length < 256 ^ 2 := by
            have := canonical.two_mul_length_le 0 (fun _ _ ↦ Nat.zero_le _) (by decide)
            unfold lowDomainSize at this
            omega
          have hbytes : (runs.flatMap fun r ↦ put16 r.first ++ put16 (r.last - r.first)).length =
              runs.length * 4 := by
            rw [List.length_flatMap]
            simp
          rw [decodeContainer, hrun, if_pos rfl, portableWireOf, hrun, if_pos rfl,
            portableWriteContainer, hp, wireContainerOf, hp, hcount]
          dsimp only
          refine ⟨?_, ?_⟩
          · rw [List.length_append, length_put16, hbytes]
            omega
          · rw [List.append_assoc, takeBytes_append (length_put16 _), Option.bind_some]
            dsimp only
            rw [put16, leValue_leBytes_of_lt hlen, takeBytes_append hbytes, Option.map_some]
            dsimp only
            rw [← List.append_nil (runs.flatMap _), wireRuns_flatMap canonical]
  | array values =>
      rw [hp] at hwf
      have hrun : h.holdsRun = false := by
        simp [ContainerHandle.holdsRun, ContainerHandle.kind, hp, Payload.kind]
      have hlen : h.cardinality = values.length := by
        rw [hcard, ContainerHandle.values, hp]
        rfl
      cases hwf with
      | array ascending bounded =>
          rw [decodeContainer, hrun, if_neg Bool.false_ne_true, portableWireOf, hrun,
            if_neg Bool.false_ne_true, wireContainerOf, hp]
          dsimp only
          by_cases hbig : h.cardinality > portableArrayMaxCardinality
          · rw [if_pos hbig, if_pos hbig, if_pos hbig, portableWriteContainer, hp]
            dsimp only
            have hbytes : (values.foldl setBit (List.replicate portableBitsetBytes 0)).length =
                portableBitsetBytes := by rw [length_foldl_setBit, List.length_replicate]
            exact ⟨hbytes, by rw [takeBytes_append hbytes, Option.map_some]⟩
          · rw [if_neg hbig, if_neg hbig, if_neg hbig, portableWriteContainer, hp]
            dsimp only
            have hbytes : (values.flatMap put16).length = h.cardinality * 2 := by
              rw [hlen, mul_comm]
              exact length_flatMap_leBytes 2 values
            rw [List.take_of_length_le hbytes.le]
            refine ⟨hbytes, ?_⟩
            rw [takeBytes_append hbytes, Option.map_some]
            dsimp only
            rw [hlen, ← List.append_nil (values.flatMap _)]
            exact congrArg (fun l ↦ some (WireContainer.array l, rest))
              (units_flatMap_leBytes 2 bounded [])
  | bitset words =>
      have hrun : h.holdsRun = false := by
        simp [ContainerHandle.holdsRun, ContainerHandle.kind, hp, Payload.kind]
      have hlen : h.cardinality = words.values.length := by
        rw [hcard, ContainerHandle.values, hp]
        rfl
      rw [decodeContainer, hrun, if_neg Bool.false_ne_true, portableWireOf, hrun,
        if_neg Bool.false_ne_true, wireContainerOf, hp]
      dsimp only
      by_cases hbig : h.cardinality > portableArrayMaxCardinality
      · rw [if_pos hbig, if_pos hbig, if_pos hbig, portableWriteContainer, hp]
        dsimp only
        refine ⟨length_wordBytes words, ?_⟩
        rw [takeBytes_append (length_wordBytes words), Option.map_some]
        dsimp only
        rw [← List.append_nil (wordBytes words), wordsOfBytes_wordBytes]
      · rw [if_neg hbig, if_neg hbig, if_neg hbig, portableWriteContainer, hp]
        dsimp only
        have hvalues : ((List.range wordCount).flatMap fun index ↦
            (extractSetBits (index * 64) (words.word index)).flatMap put16) =
            words.values.flatMap put16 := by
          rw [← words.flatMap_extractSetBits, List.flatMap_assoc]
          simp only [mul_comm]
        have hbytes : (words.values.flatMap put16).length = h.cardinality * 2 := by
          rw [hlen, mul_comm]
          exact length_flatMap_leBytes 2 _
        rw [hvalues]
        refine ⟨hbytes, ?_⟩
        rw [takeBytes_append hbytes, Option.map_some]
        dsimp only
        rw [hlen, ← List.append_nil (words.values.flatMap _)]
        exact congrArg (fun l ↦ some (WireContainer.array l, rest))
          (units_flatMap_leBytes 2 (fun v hv ↦ Words.lt_of_mem_values hv) [])

/-! ## The pass over the containers -/

theorem Payload.WellFormed.length_le {p : Payload} (h : p.WellFormed) :
    p.values.length ≤ lowDomainSize := by
  have hsub : p.values ⊆ List.range lowDomainSize := fun v hv ↦
    List.mem_range.mpr (h.values_lt v hv)
  have hnodup : p.values.Nodup := h.values_ascending.imp fun hab ↦ ne_of_lt hab
  exact (hnodup.subperm hsub).length_le.trans List.length_range.le

def chunkDescription (c : Chunk) : List UInt8 := put16 c.key ++ put16 (c.slot.cardinality - 1)

def chunkPayload (c : Chunk) : List UInt8 := portableWriteContainer c.slot (portableWireOf c.slot)

/-- The positions of the run containers, the first container at `position`. -/
def runPositions : List Chunk → Nat → List Nat
  | [], _ => []
  | c :: cs, position =>
      if c.slot.holdsRun then position :: runPositions cs (position + 1)
      else runPositions cs (position + 1)

theorem mem_runPositions {cs : List Chunk} {position k : Nat} :
    k ∈ runPositions cs position ↔
      position ≤ k ∧ (cs[k - position]?.elim false fun c ↦ c.slot.holdsRun) = true := by
  induction cs generalizing position with
  | nil => simp [runPositions]
  | cons c cs ih =>
      have hstep : position + 1 ≤ k → k - position = k - (position + 1) + 1 := fun h ↦ by omega
      rw [runPositions]
      split
      · rename_i hrun
        rw [List.mem_cons, ih]
        rcases Nat.lt_trichotomy k position with hlt | rfl | hgt
        · constructor
          · rintro (rfl | ⟨hle, -⟩)
            · omega
            · omega
          · rintro ⟨hle, -⟩
            omega
        · simp [hrun]
        · rw [hstep hgt, List.getElem?_cons_succ]
          constructor
          · rintro (rfl | ⟨hle, h⟩)
            · omega
            · exact ⟨by omega, h⟩
          · rintro ⟨-, h⟩
            exact .inr ⟨hgt, h⟩
      · rename_i hrun
        rw [ih]
        rcases Nat.lt_or_ge position k with hgt | hle
        · rw [hstep hgt, List.getElem?_cons_succ]
          exact ⟨fun h ↦ ⟨by omega, h.2⟩, fun h ↦ ⟨hgt, h.2⟩⟩
        · constructor
          · rintro ⟨h, -⟩
            omega
          · rintro ⟨h, hany⟩
            have : k - position = 0 := by omega
            rw [this, List.getElem?_cons_zero] at hany
            exact absurd hany hrun

theorem portableWriteChunks_spec (payloadAt : Nat) (withOffsets : Bool) (cs : List Chunk)
    (position : Nat) (out : PortableOut) :
    let result := portableWriteChunks payloadAt withOffsets cs position out
    result.flags = (runPositions cs position).foldl setBit out.flags ∧
    result.descriptive = out.descriptive ++ cs.flatMap chunkDescription ∧
    result.offsets.length = out.offsets.length + (if withOffsets then 4 * cs.length else 0) ∧
    result.payload = out.payload ++ cs.flatMap chunkPayload := by
  induction cs generalizing position out with
  | nil => simp [portableWriteChunks, runPositions]
  | cons c cs ih =>
      obtain ⟨hflags, hdesc, hoff, hpay⟩ :=
        ih (position + 1) (portableWriteChunk payloadAt withOffsets position out c)
      have hcard : (portableWireOf c.slot).cardinality = c.slot.cardinality := by
        rw [portableWireOf]
        split
        · rfl
        · split <;> rfl
      refine ⟨hflags.trans ?_, hdesc.trans ?_, hoff.trans ?_, hpay.trans ?_⟩
      · rw [runPositions, portableWriteChunk]
        dsimp only
        split <;> rfl
      · simp only [portableWriteChunk, hcard, List.flatMap_cons, chunkDescription,
          List.append_assoc]
      · cases withOffsets
        · simp [portableWriteChunk]
        · simp only [portableWriteChunk, if_true, List.length_append, length_put32,
            List.length_cons]
          omega
      · simp only [portableWriteChunk, List.flatMap_cons, chunkPayload, List.append_assoc]

/-! ## Cutting what was written -/

theorem length_flatMap_chunkDescription (cs : List Chunk) :
    (cs.flatMap chunkDescription).length = 4 * cs.length := by
  rw [List.length_flatMap]
  simp [chunkDescription, mul_comm]

theorem bitAt_eq_testBit_slice (bytes : List UInt8) (k : Nat) :
    (leValue ((bytes.drop (k / 8)).take 1)).testBit (k % 8) = bitAt bytes k := by
  have h0 : k % 8 / 8 = 0 := by omega
  rw [testBit_leValue, h0, List.getElem?_take_of_lt Nat.one_pos, List.getElem?_drop, bitAt]
  simp

theorem decodeChunks_append {K : KeyType} {sb : Bool} {flags : Option (List UInt8)}
    {chunks : List Chunk} (hv : ∀ c ∈ chunks, c.Valid K sb)
    (hflags : ∀ k, ∀ hk : k < chunks.length, (flags.elim false fun flags ↦
      (leValue ((flags.drop (k / 8)).take 1)).testBit (k % 8)) = chunks[k].slot.holdsRun)
    (rest : List UInt8) (pre cs : List Chunk) (hsplit : chunks = pre ++ cs) :
    decodeChunks flags (chunks.flatMap chunkDescription) cs.length pre.length
        (cs.flatMap chunkPayload ++ rest) = some (cs.map wireChunkOf, rest) := by
  induction cs generalizing pre with
  | nil => rfl
  | cons c cs ih =>
      have hc := hv c (hsplit ▸ by simp)
      have hcut := ih (pre ++ [c]) (by rw [hsplit, List.append_assoc]; rfl)
      have hdesc : (chunks.flatMap chunkDescription).drop (4 * pre.length) =
          put16 c.key ++ (put16 (c.slot.cardinality - 1) ++ cs.flatMap chunkDescription) := by
        rw [hsplit, List.flatMap_append, List.drop_left' (length_flatMap_chunkDescription pre),
          List.flatMap_cons, chunkDescription, List.append_assoc]
      have hcardle : c.slot.cardinality ≤ 65536 := by
        rw [hc.slot.cardinality]
        exact hc.slot.payload.length_le
      have hpos := hc.cardinality_pos
      have hkey : leValue (((chunks.flatMap chunkDescription).drop (4 * pre.length)).take 2) =
          c.key % 65536 := by
        rw [hdesc, List.take_left' (length_put16 _), put16, leValue_leBytes]
        norm_num
      have hcard :
          leValue (((chunks.flatMap chunkDescription).drop (4 * pre.length + 2)).take 2) + 1
          = c.slot.cardinality := by
        rw [← List.drop_drop, hdesc, List.drop_left' (length_put16 _),
          List.take_left' (length_put16 _), put16, leValue_leBytes_of_lt (by omega)]
        omega
      have hrun := hflags pre.length (by rw [hsplit]; simp)
      simp only [hsplit, List.getElem_append_right, le_refl, Nat.sub_self,
        List.getElem_cons_zero] at hrun
      have hwrite := (portableWriteContainer_spec hc.slot (cs.flatMap chunkPayload ++ rest)).2
      rw [List.length_cons, decodeChunks, hkey, hcard, hrun, List.flatMap_cons, chunkPayload,
        List.append_assoc, hwrite, Option.bind_some]
      dsimp only
      rw [List.length_append] at hcut
      rw [show pre.length + 1 = pre.length + [c].length from rfl, hcut]
      rfl

/-- The cookie of `count` containers, with or without runs. -/
def cookieBytes (hasRun : Bool) (count : Nat) : List UInt8 :=
  if hasRun then put32 (portableCookieWithRun ||| ((count - 1) <<< 16))
  else put32 portableCookieNoRun ++ put32 count

theorem decodeCookie_append {hasRun : Bool} {count : Nat} (hle : count ≤ 65536)
    (hpos : hasRun = true → 0 < count) (rest : List UInt8) :
    decodeCookie (cookieBytes hasRun count ++ rest) = some (hasRun, count, rest) := by
  cases hasRun with
  | true =>
      have hpos := hpos rfl
      have hval : portableCookieWithRun ||| ((count - 1) <<< 16) =
          12347 + (count - 1) * 65536 := by
        have h16 : (12347 : Nat) < 2 ^ 16 := by decide
        rw [portableCookieWithRun, Nat.or_comm, Nat.shiftLeft_eq, mul_comm,
          ← Nat.two_pow_add_eq_or_of_lt h16]
        ring
      rw [decodeCookie, cookieBytes, if_pos rfl, takeBytes_append (length_put32 _),
        Option.bind_some]
      dsimp only
      rw [put32, hval, leValue_leBytes_of_lt (by omega),
        if_pos (by unfold portableCookieWithRun; omega)]
      congr 3
      omega
  | false =>
      rw [decodeCookie, cookieBytes, if_neg Bool.false_ne_true, List.append_assoc,
        takeBytes_append (length_put32 _), Option.bind_some]
      dsimp only
      rw [put32, leValue_leBytes_of_lt (by decide), if_neg (by decide), if_pos rfl,
        takeBytes_append (length_put32 _), Option.bind_some]
      dsimp only
      rw [put32, leValue_leBytes_of_lt (by omega), if_neg (by omega)]

/-- One 32-bit bitmap: the bytes the plan counts, and the chunks back from them. -/
theorem portableWrite32_spec {K : KeyType} {sb : Bool} {chunks : List Chunk}
    (hv : ∀ c ∈ chunks, c.Valid K sb) (hle : chunks.length ≤ 65536) (rest : List UInt8) :
    (portableWrite32 chunks chunks.length).length =
      (portablePlanFor chunks).headerBytes + (portablePlanFor chunks).payloadBytes ∧
    decode32 (portableWrite32 chunks chunks.length ++ rest) =
      some (chunks.map wireChunkOf, rest) := by
  set hasRun := chunks.any fun c ↦ c.slot.holdsRun with hhas
  set count := chunks.length
  set withOffsets := !hasRun || decide (count ≥ portableNoOffsetThreshold)
  set flags : List UInt8 := if hasRun then List.replicate ((count + 7) / 8) 0 else []
  set payloadAt := (if hasRun then 4 + (count + 7) / 8 else 8) + 4 * count
    + if withOffsets then 4 * count else 0
  obtain ⟨hflags, hdesc, hoff, hpay⟩ :=
    portableWriteChunks_spec payloadAt withOffsets chunks 0 { flags := flags }
  set out := portableWriteChunks payloadAt withOffsets chunks 0 { flags := flags }
  have hwrite : portableWrite32 chunks count =
      cookieBytes hasRun count ++ out.flags ++ out.descriptive ++ out.offsets ++ out.payload := rfl
  have hflagslen : out.flags.length = if hasRun then (count + 7) / 8 else 0 := by
    rw [hflags, length_foldl_setBit]
    show flags.length = _
    simp only [flags]
    split
    · exact List.length_replicate
    · rfl
  have hdesclen : out.descriptive.length = count * 4 := by
    rw [hdesc, List.nil_append, length_flatMap_chunkDescription, mul_comm]
  have hofflen : out.offsets.length = if withOffsets then count * 4 else 0 := by
    rw [hoff, mul_comm 4]
    exact Nat.zero_add _
  have hpaylen : out.payload.length = (chunks.map fun c ↦ (portableWireOf c.slot).bytes).sum := by
    rw [hpay, List.nil_append, List.length_flatMap]
    refine congrArg List.sum (List.map_congr_left fun c hc ↦ ?_)
    exact (portableWriteContainer_spec (hv c hc).slot []).1
  have hpos : hasRun = true → 0 < count := by
    intro hrun
    rw [hhas, List.any_eq_true] at hrun
    obtain ⟨c, hc, -⟩ := hrun
    exact List.length_pos_of_mem hc
  refine ⟨?_, ?_⟩
  · rw [hwrite]
    simp only [List.length_append, hflagslen, hdesclen, hofflen, hpaylen]
    have hplan : (portablePlanFor chunks).payloadBytes =
        (chunks.map fun c ↦ (portableWireOf c.slot).bytes).sum := rfl
    have hheader : (portablePlanFor chunks).headerBytes = portableHeaderBytes hasRun count := rfl
    rw [hplan, hheader, portableHeaderBytes, cookieBytes]
    by_cases hrun : hasRun = true
    · simp only [hrun, if_true, length_put32, withOffsets, Bool.not_true, Bool.false_or,
        decide_eq_true_eq]
      split <;> omega
    · simp only [hrun, Bool.false_eq_true, if_false, List.length_append, length_put32,
        withOffsets, Bool.not_false, Bool.true_or, if_true]
      omega
  · -- the flag of a container is set exactly when it is a run
    have hbits : ∀ k, ∀ hk : k < chunks.length,
        ((if hasRun then some out.flags else none).elim false fun flags ↦
          (leValue ((flags.drop (k / 8)).take 1)).testBit (k % 8)) = chunks[k].slot.holdsRun := by
      intro k hk
      by_cases hrun : hasRun = true
      · rw [if_pos hrun, Option.elim_some, bitAt_eq_testBit_slice, hflags]
        have hbytes : ∀ v ∈ runPositions chunks 0, v / 8 < flags.length := by
          intro v hv
          obtain ⟨-, hany⟩ := mem_runPositions.mp hv
          have hlt : v < count := by
            by_contra hge
            rw [Nat.sub_zero, List.getElem?_eq_none (by omega)] at hany
            exact Bool.false_ne_true hany
          simp only [flags, hrun, if_true, List.length_replicate]
          omega
        rw [bitAt_foldl_setBit hbytes]
        have hzero : bitAt flags k = false := by
          simp only [flags, hrun, if_true]
          exact bitAt_replicate_zero _ _
        rw [hzero, Bool.false_or]
        have hmem : k ∈ runPositions chunks 0 ↔ chunks[k].slot.holdsRun = true := by
          rw [mem_runPositions, Nat.sub_zero, List.getElem?_eq_getElem hk]
          simp
        rw [Bool.eq_iff_iff, decide_eq_true_iff]
        exact hmem
      · rw [if_neg hrun, Option.elim_none]
        have hnone := Bool.eq_false_iff.mpr hrun
        rw [hhas, List.any_eq_false] at hnone
        exact (Bool.eq_false_iff.mpr (hnone _ (List.getElem_mem hk))).symm
    have hcut := decodeChunks_append hv hbits rest [] chunks rfl
    rw [hwrite, decode32]
    simp only [List.append_assoc]
    rw [decodeCookie_append hle hpos, Option.bind_some]
    dsimp only
    rw [takeBytes_append hflagslen, Option.bind_some]
    dsimp only
    rw [takeBytes_append hdesclen, Option.bind_some]
    dsimp only
    rw [takeBytes_append hofflen, Option.bind_some]
    dsimp only
    rw [hdesc, hpay, List.nil_append, List.nil_append]
    exact hcut

end Roaring
