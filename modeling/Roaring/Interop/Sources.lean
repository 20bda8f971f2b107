import Mathlib
import Roaring.Lib.Cursor
import Roaring.Container.Handle

/-!
# Chunk sources

A bitmap is combined with an operand that is no bitmap through a source: a cursor
over the chunks of the operand, which makes of each chunk a transient handle on the
operand's memory or on the source's own scratch.  The file gives the layout of a
key, the pieces, what it means that a source stands for an operand, and the source
of an interval of keys.
-/

namespace Roaring

open Lib

/-! ## Layout -/

/-- `default_layout`: how a key of an unsigned type is cut in a chunk key and a low part. -/
structure Layout where
  keyBits : Nat
  supported : keyBits ∈ [8, 16, 32, 64]

namespace Layout

variable (L : Layout)

def lowBits : Nat := if L.keyBits < 16 then L.keyBits else 16

def lowDomainSize : Nat := 2 ^ L.lowBits

def wordCount : Nat := L.lowDomainSize / 64

/-- `std::numeric_limits<key_type>::max()`. -/
def maxKey : Nat := 2 ^ L.keyBits - 1

/-- The number of chunk keys; `chunk_type` may hold more. -/
def chunkCount : Nat := 2 ^ (L.keyBits - L.lowBits)

def chunkKey (x : Nat) : Nat := if L.keyBits = L.lowBits then 0 else x / L.lowDomainSize

def lowKey (x : Nat) : Nat := x % L.lowDomainSize

def compose (chunk low : Nat) : Nat :=
  if L.keyBits = L.lowBits then low else chunk * L.lowDomainSize % 2 ^ L.keyBits + low

/-- The values that an array piece holds at most. -/
def arrayLimit : Nat := if 1024 ≤ L.lowDomainSize then L.lowDomainSize / 16 else 64

theorem lowBits_le : L.lowBits ≤ L.keyBits := by
  rw [lowBits]
  split <;> omega

theorem eight_le_lowBits : 8 ≤ L.lowBits := by
  have h := L.supported
  simp only [List.mem_cons, List.not_mem_nil, or_false] at h
  rw [lowBits]
  split <;> omega

theorem lowDomainSize_pos : 0 < L.lowDomainSize := Nat.two_pow_pos _

theorem words_cover : 64 * L.wordCount = L.lowDomainSize := by
  have hsplit : L.lowDomainSize = 64 * 2 ^ (L.lowBits - 6) := by
    have h8 := L.eight_le_lowBits
    rw [lowDomainSize, show (64 : Nat) = 2 ^ 6 from rfl, ← pow_add, Nat.add_sub_cancel' (by omega)]
  rw [wordCount, hsplit, Nat.mul_div_cancel_left _ (by decide)]

theorem lowDomainSize_mul_chunkCount : L.lowDomainSize * L.chunkCount = 2 ^ L.keyBits := by
  rw [lowDomainSize, chunkCount, ← pow_add, Nat.add_sub_cancel' L.lowBits_le]

theorem lowKey_lt (x : Nat) : L.lowKey x < L.lowDomainSize := Nat.mod_lt _ L.lowDomainSize_pos

theorem two_pow_keyBits : 2 ^ L.keyBits = L.maxKey + 1 := by
  have := Nat.two_pow_pos L.keyBits
  rw [maxKey]
  omega

variable {L} {x y c : Nat}

/-- Where all keys make one chunk, the chunk key is the quotient nonetheless. -/
theorem chunkKey_eq (hx : x ≤ L.maxKey) : L.chunkKey x = x / L.lowDomainSize := by
  rw [chunkKey]
  split
  · rename_i heq
    have hlt : x < L.lowDomainSize := by
      rw [lowDomainSize, ← heq, L.two_pow_keyBits]
      omega
    exact (Nat.div_eq_of_lt hlt).symm
  · rfl

theorem chunkKey_lt (hx : x ≤ L.maxKey) : L.chunkKey x < L.chunkCount := by
  rw [chunkKey_eq hx, Nat.div_lt_iff_lt_mul L.lowDomainSize_pos, mul_comm,
    lowDomainSize_mul_chunkCount,
    two_pow_keyBits]
  omega

/-- The first key of a chunk. -/
theorem compose_zero (hc : c < L.chunkCount) : L.compose c 0 = c * L.lowDomainSize := by
  rw [compose]
  split
  · rename_i heq
    have hone : L.chunkCount = 1 := by rw [chunkCount, heq, Nat.sub_self, pow_zero]
    have hzero : c = 0 := by omega
    rw [hzero, Nat.zero_mul]
  · have hlt : c * L.lowDomainSize < 2 ^ L.keyBits := by
      rw [← L.lowDomainSize_mul_chunkCount, mul_comm L.lowDomainSize]
      exact Nat.mul_lt_mul_of_pos_right hc L.lowDomainSize_pos
    rw [Nat.add_zero, Nat.mod_eq_of_lt hlt]

/-- A chunk ends within the key type. -/
theorem chunk_end_le (hc : c < L.chunkCount) : (c + 1) * L.lowDomainSize ≤ L.maxKey + 1 := by
  rw [← L.two_pow_keyBits, ← L.lowDomainSize_mul_chunkCount, mul_comm L.lowDomainSize]
  exact Nat.mul_le_mul_right _ hc

variable (L) in
/-- The chunks of the numbers of a set that the key type can hold. -/
def chunksOf (extent : Set Nat) : Set Nat := {c | ∃ x ∈ extent, x ≤ L.maxKey ∧ L.chunkKey x = c}

/-- The chunks of neighbouring numbers are neighbours. -/
theorem chunksOf_interval (hxy : x ≤ y) (hx : x ≤ L.maxKey) :
    L.chunksOf {k | x ≤ k ∧ k ≤ y} = {c | L.chunkKey x ≤ c ∧ c ≤ L.chunkKey (min y L.maxKey)} := by
  have hpos := L.lowDomainSize_pos
  have hlast : min y L.maxKey ≤ L.maxKey := min_le_right _ _
  ext c
  constructor
  · rintro ⟨k, ⟨hxk, hky⟩, hk, rfl⟩
    change L.chunkKey x ≤ L.chunkKey k ∧ L.chunkKey k ≤ L.chunkKey (min y L.maxKey)
    rw [chunkKey_eq hk, chunkKey_eq hx, chunkKey_eq hlast]
    exact ⟨Nat.div_le_div_right hxk, Nat.div_le_div_right (le_min hky hk)⟩
  · rintro ⟨hfirst, hle⟩
    rw [chunkKey_eq hx] at hfirst
    rw [chunkKey_eq hlast, Nat.le_div_iff_mul_le hpos] at hle
    have hxc : x < (c + 1) * L.lowDomainSize :=
      (Nat.div_lt_iff_lt_mul hpos).mp (Nat.lt_succ_of_le hfirst)
    have hmax : max x (c * L.lowDomainSize) ≤ L.maxKey := max_le hx (hle.trans hlast)
    refine ⟨max x (c * L.lowDomainSize),
      ⟨le_max_left _ _, max_le hxy (hle.trans (min_le_left _ _))⟩, hmax, ?_⟩
    rw [chunkKey_eq hmax]
    apply Nat.div_eq_of_lt_le (le_max_right _ _)
    rw [Nat.succ_mul] at hxc ⊢
    exact max_lt hxc (Nat.lt_add_of_pos_right hpos)

/-- Where the numbers from `x` on begin in a block of `D` that is not below that of `x`. -/
theorem le_block_iff {D v : Nat} (hD : 0 < D) (hc : x / D ≤ c) :
    x ≤ c * D + v ↔ (if c = x / D then x % D else 0) ≤ v := by
  have hx := Nat.div_add_mod' x D
  split
  · rename_i heq
    rw [← heq] at hx
    omega
  · rename_i hne
    have hlt : x % D < D := Nat.mod_lt _ hD
    have hmul : (x / D + 1) * D ≤ c * D := Nat.mul_le_mul_right D (by omega)
    rw [Nat.succ_mul] at hmul
    omega

/-- Where the numbers up to `y` end in a block of `D` that is not above that of `y`. -/
theorem block_le_iff {D v : Nat} (hD : 0 < D) (hc : c ≤ y / D) :
    v ≤ (if c = y / D then y % D else D - 1) ↔ v < D ∧ c * D + v ≤ y := by
  have hy := Nat.div_add_mod' y D
  split
  · rename_i heq
    have hlt : y % D < D := Nat.mod_lt _ hD
    rw [← heq] at hy
    omega
  · rename_i hne
    have hmul : (c + 1) * D ≤ y / D * D := Nat.mul_le_mul_right D (by omega)
    rw [Nat.succ_mul] at hmul
    omega

end Layout

/-! ## Pieces -/

/-- What a borrowed handle views. -/
inductive PiecePayload (n : Nat) where
  | array (values : List Nat)
  | run (runs : List Run)
  | bitset (words : Words n)

def PiecePayload.values {n : Nat} : PiecePayload n → List Nat
  | .array values => values
  | .run runs => runValues runs
  | .bitset words => words.values

/-- A transient handle on memory that it does not own. -/
structure Piece (n : Nat) where
  payload : PiecePayload n
  cardinality : Nat
  min : Nat := 0
  max : Nat := 0
  endpointsStale : Bool := false

namespace Piece

variable {n : Nat}

def values (p : Piece n) : List Nat := p.payload.values

/-- `make_borrowed`: the endpoints are those of the payload's ends, and stale for words. -/
def makeBorrowed (payload : PiecePayload n) (cardinality : Nat) : Piece n :=
  match payload with
  | .array values =>
    { payload := payload, cardinality := cardinality, min := values.headD 0,
      max := values.getLastD 0 }
  | .run runs =>
    { payload := payload, cardinality := cardinality,
      min := (runs.head?.map Run.first).getD 0, max := (runs.getLast?.map Run.last).getD 0 }
  | .bitset _ => { payload := payload, cardinality := cardinality, endpointsStale := true }

@[simp] theorem values_makeBorrowed (payload : PiecePayload n) (cardinality : Nat) :
    (makeBorrowed payload cardinality).values = payload.values := by
  cases payload <;> rfl

@[simp] theorem cardinality_makeBorrowed (payload : PiecePayload n) (cardinality : Nat) :
    (makeBorrowed payload cardinality).cardinality = cardinality := by
  cases payload <;> rfl

/-- A piece holds the members of one chunk: each once, counted, and under endpoints that are
exact or stale. -/
structure Holds (L : Layout) (members : Set Nat) (c : Nat) (p : Piece n) : Prop where
  ascending : p.values.Pairwise (· < ·)
  mem : ∀ v, v ∈ p.values ↔ v < L.lowDomainSize ∧ c * L.lowDomainSize + v ∈ members
  cardinality : p.cardinality = p.values.length
  endpoints : p.endpointsStale = true ∨
    ∀ hne : p.values ≠ [], p.min = p.values.head hne ∧ p.max = p.values.getLast hne

theorem makeBorrowed_array_holds {L : Layout} {members : Set Nat} {c : Nat} {values : List Nat}
    (hasc : values.Pairwise (· < ·))
    (hmem : ∀ v, v ∈ values ↔ v < L.lowDomainSize ∧ c * L.lowDomainSize + v ∈ members) :
    (makeBorrowed (.array values) values.length : Piece n).Holds L members c := by
  refine ⟨hasc, hmem, rfl, .inr fun hne ↦ ?_⟩
  have hne' : values ≠ [] := hne
  constructor
  · change values.headD 0 = values.head hne'
    rw [List.headD_eq_head?_getD, List.head?_eq_some_head hne', Option.getD_some]
  · change values.getLastD 0 = values.getLast hne'
    rw [List.getLastD_eq_getLast?, List.getLast?_eq_some_getLast hne', Option.getD_some]

theorem makeBorrowed_bitset_holds {L : Layout} {members : Set Nat} {c : Nat} {words : Words n}
    {cardinality : Nat} (hcard : cardinality = words.values.length)
    (hmem : ∀ v, v ∈ words.values ↔ v < L.lowDomainSize ∧ c * L.lowDomainSize + v ∈ members) :
    (makeBorrowed (.bitset words) cardinality).Holds L members c :=
  ⟨words.values_ascending, hmem, hcard, .inl rfl⟩

/-- One run of neighbours. -/
theorem makeBorrowed_run_holds {L : Layout} {members : Set Nat} {c : Nat} {r : Run}
    (hle : r.first ≤ r.last)
    (hmem : ∀ v, r.first ≤ v ∧ v ≤ r.last ↔ v < L.lowDomainSize ∧
      c * L.lowDomainSize + v ∈ members) :
    (makeBorrowed (.run [r]) (r.last - r.first + 1) : Piece n).Holds L members c := by
  have hvalues : (makeBorrowed (.run [r]) (r.last - r.first + 1) : Piece n).values = r.values :=
    List.append_nil _
  have hends : r.values = r.first :: List.range' (r.first + 1) (r.last - r.first) := by
    have hlen : r.last + 1 - r.first = (r.last - r.first) + 1 := by omega
    rw [Run.values, hlen, List.range'_succ]
  constructor
  · rw [hvalues]
    exact r.values_ascending
  · intro v
    rw [hvalues, Run.mem_values]
    exact hmem v
  · rw [hvalues, Run.length_values hle]
    rfl
  · refine .inr fun hne ↦ ⟨?_, ?_⟩
    · change r.first = _
      simp only [hvalues, hends, List.head_cons]
    · change r.last = _
      have hlast : (makeBorrowed (.run [r]) (r.last - r.first + 1) : Piece n).values.getLast? =
          some r.last := by
        rw [hvalues, Run.values, List.getLast?_range', if_neg (by omega)]
        congr 1
        omega
      exact Option.some.inj (hlast.symm.trans (List.getLast?_eq_some_getLast hne))

end Piece

/-! ## What a source stands for -/

/-- A source walks over the chunks that its operand extends over, and the piece of each holds
the members of the operand in that chunk, whatever is asked of it in whatever order.  The chunks
ascend, and a seek passes those below its key and no other. -/
structure Yields {σ : Type} (L : Layout) (ops : Stepper L.chunkCount σ (Piece L.wordCount))
    (start : σ) (extent members : Set Nat) : Prop where
  follows : ∀ moves, ∃ s, ops.run start moves = some s ∧
    ops.position s = walk (L.chunksOf extent) moves
  piece : ∀ moves s c, ops.run start moves = some s → ops.position s = some c →
    ∃ t p, ops.piece s = some (t, p) ∧ p.Holds L members c
  ascending : ∀ front back s t c d, ops.run start front = some s → ops.position s = some c →
    ops.run start (front ++ .advance :: back) = some t → ops.position t = some d → c < d
  skips : ∀ moves (key : Fin L.chunkCount) s t c, ops.run start moves = some s →
    ops.position s = some c →
    ops.run start (moves ++ [.seek key]) = some t →
      ∀ d ∈ L.chunksOf extent, c ≤ d → (d < key ↔ ∀ e, ops.position t = some e → d < e)

/-- A machine that walks, and whose pieces hold their chunk in the states it keeps to. -/
theorem Yields.of_walks {σ : Type} {L : Layout} {ops : Stepper L.chunkCount σ (Piece L.wordCount)}
    {start : σ} {extent members : Set Nat} {Inv : σ → Prop} (h : ops.Walks (L.chunksOf extent) Inv)
    (hs : Inv start) (hstart : ops.position start = nextFrom (L.chunksOf extent) 0)
    (hpiece : ∀ s c, Inv s → ops.position s = some c → ∃ t p, ops.piece s = some (t, p) ∧
      p.Holds L members c) :
    Yields L ops start extent members := by
  have hposition : ∀ moves s, ops.run start moves = some s →
      ops.position s = walk (L.chunksOf extent) moves := by
    intro moves s hrun
    obtain ⟨t, hrun', -, hpos⟩ := h.run_walk hs hstart moves
    obtain rfl := Option.some.inj (hrun'.symm.trans hrun)
    exact hpos
  refine ⟨?_, ?_, ?_, ?_⟩
  · intro moves
    obtain ⟨s, hrun, -, hpos⟩ := h.run_walk hs hstart moves
    exact ⟨s, hrun, hpos⟩
  · intro moves s c hrun hpos
    obtain ⟨t, hrun', ht, -⟩ := h.run_walk hs hstart moves
    obtain rfl := Option.some.inj (hrun'.symm.trans hrun)
    exact hpiece t c ht hpos
  · intro front back s t c d hs' hc ht hd
    rw [hposition _ _ hs'] at hc
    rw [hposition _ _ ht] at hd
    exact walk_advance_lt hc hd
  · intro moves key s t c hs' hc ht d hd hcd
    rw [hposition _ _ hs'] at hc
    rw [hposition _ _ ht, walk_append, hc, List.foldl_cons, List.foldl_nil, walkStep]
    constructor
    · intro hlt e he
      obtain ⟨-, hle, -⟩ := nextFrom_eq_some_iff.1 he
      exact hlt.trans_le ((le_max_right c _).trans hle)
    · intro hpassed
      by_contra hge
      cases hnext : nextFrom (L.chunksOf extent) (max c key) with
      | none =>
        have hlt := nextFrom_eq_none_iff.1 hnext d hd
        exact absurd hlt (not_lt.2 (max_le hcd (not_lt.1 hge)))
      | some e =>
        obtain ⟨-, -, hleast⟩ := nextFrom_eq_some_iff.1 hnext
        exact absurd (hpassed e hnext) (not_lt.2 (hleast d hd (max_le hcd (not_lt.1 hge))))

/-! ## Neighbouring chunks -/

/-- The position of a source whose chunks are neighbours. -/
structure ChunkSpan where
  firstChunk : Nat := 0
  lastChunk : Nat := 0
  chunk : Nat := 0
  done : Bool := false

namespace ChunkSpan

def advance (s : ChunkSpan) : ChunkSpan :=
  if s.chunk = s.lastChunk then { s with done := true } else { s with chunk := s.chunk + 1 }

def seek (s : ChunkSpan) (key : Nat) : ChunkSpan :=
  if s.done ∨ ¬ s.chunk < key then s
  else if s.lastChunk < key then { s with done := true }
  else { s with chunk := key }

def position (s : ChunkSpan) : Option Nat := if s.done then none else some s.chunk

/-- The walk is over, or goes over the chunks `C` from the first to the last. -/
def Inv (C : Set Nat) (s : ChunkSpan) : Prop :=
  s.done = true ∨ (C = {c | s.firstChunk ≤ c ∧ c ≤ s.lastChunk} ∧ s.firstChunk ≤ s.chunk ∧
    s.chunk ≤ s.lastChunk)

variable {C : Set Nat} {s : ChunkSpan} {bound : Nat}

/-- What no operation changes. -/
@[simp] theorem advance_lastChunk (s : ChunkSpan) : s.advance.lastChunk = s.lastChunk := by
  rw [advance]
  split <;> rfl

@[simp] theorem advance_firstChunk (s : ChunkSpan) : s.advance.firstChunk = s.firstChunk := by
  rw [advance]
  split <;> rfl

@[simp] theorem seek_lastChunk (s : ChunkSpan) (key : Nat) :
    (s.seek key).lastChunk = s.lastChunk := by
  rw [seek]
  split
  · rfl
  · split <;> rfl

@[simp] theorem seek_firstChunk (s : ChunkSpan) (key : Nat) :
    (s.seek key).firstChunk = s.firstChunk := by
  rw [seek]
  split
  · rfl
  · split <;> rfl

theorem live_of_advance (hlive : s.advance.done = false) : s.done = false := by
  rw [advance] at hlive
  split at hlive
  · exact absurd hlive nofun
  · exact hlive

theorem live_of_seek {key : Nat} (hlive : (s.seek key).done = false) : s.done = false := by
  rw [seek] at hlive
  split at hlive
  · exact hlive
  · split at hlive
    · exact absurd hlive nofun
    · exact hlive

theorem advance_chunk_le (h : s.chunk ≤ s.lastChunk) : s.advance.chunk ≤ s.lastChunk := by
  rw [advance]
  split
  · exact h
  · rename_i hne
    exact Nat.lt_of_le_of_ne h hne

theorem seek_chunk_le (h : s.chunk ≤ s.lastChunk) (key : Nat) :
    (s.seek key).chunk ≤ s.lastChunk := by
  rw [seek]
  split
  · exact h
  · split
    · exact h
    · rename_i hwithin
      exact not_lt.1 hwithin

theorem advance_walks (h : s.Inv C) :
    s.advance.Inv C ∧ s.advance.position = walkStep C s.position (.advance : Move bound) := by
  rcases Bool.eq_false_or_eq_true s.done with hdone | hlive
  · have hstays : s.advance.done = true := by
      rw [advance]
      split <;> simp [hdone]
    exact ⟨.inl hstays, by rw [position, hstays, position, hdone]; rfl⟩
  · obtain ⟨hC, hfirst, hlast⟩ := h.resolve_left (by simp [hlive])
    have hstep : walkStep C s.position (.advance : Move bound) = nextFrom C (s.chunk + 1) := by
      rw [position, hlive]
      rfl
    rw [hstep, hC, nextFrom_interval (by omega), advance]
    split
    · rename_i heq
      rw [if_neg (by omega)]
      exact ⟨.inl rfl, rfl⟩
    · rename_i hne
      rw [if_pos (by omega), position]
      exact ⟨.inr ⟨rfl, by dsimp only; omega, by dsimp only; omega⟩, by simp [hlive]⟩

theorem seek_walks (h : s.Inv C) (key : Fin bound) :
    (s.seek key).Inv C ∧ (s.seek key).position = walkStep C s.position (.seek key) := by
  rcases Bool.eq_false_or_eq_true s.done with hdone | hlive
  · rw [seek, if_pos (.inl hdone)]
    exact ⟨h, by rw [position, hdone]; rfl⟩
  · have hinv := h.resolve_left (by simp [hlive])
    obtain ⟨hC, hfirst, hlast⟩ := hinv
    have hstep : walkStep C s.position (.seek key) = nextFrom C (max s.chunk key) := by
      rw [position, hlive]
      rfl
    rw [hstep, hC, nextFrom_interval (hfirst.trans (le_max_left _ _)), seek]
    simp only [hlive, Bool.false_eq_true, false_or]
    split
    · rename_i hge
      rw [max_eq_left (by omega), if_pos hlast]
      exact ⟨.inr ⟨rfl, hfirst, hlast⟩, by rw [position, hlive]; rfl⟩
    · rename_i hlt
      rw [max_eq_right (by omega)]
      split
      · rename_i hbeyond
        rw [if_neg (by omega)]
        exact ⟨.inl rfl, rfl⟩
      · rename_i hwithin
        rw [if_pos (by omega)]
        exact ⟨.inr ⟨rfl, by dsimp only; omega, by dsimp only; omega⟩, by simp [position]⟩

end ChunkSpan

/-! ## Intervals -/

/-- An interval of keys with both ends in it, empty when the last is below the first. -/
structure KeyRange where
  first : Nat
  last : Nat

def KeyRange.empty (range : KeyRange) : Bool := range.last < range.first

def KeyRange.keys (range : KeyRange) : Set Nat := {k | range.first ≤ k ∧ k ≤ range.last}

/-- `interval_source`, with the piece of a covered chunk once it is made. -/
structure IntervalSource (L : Layout) extends ChunkSpan where
  firstLow : Nat := 0
  lastLow : Nat := 0
  fullPiece : Option (Piece L.wordCount) := none

namespace IntervalSource

variable {L : Layout}

def make (L : Layout) (range : KeyRange) : IntervalSource L :=
  if range.empty ∨ L.maxKey < range.first then { done := true }
  else
    let last := min range.last L.maxKey
    { firstChunk := L.chunkKey range.first
      lastChunk := L.chunkKey last
      firstLow := L.lowKey range.first
      lastLow := L.lowKey last
      chunk := L.chunkKey range.first }

/-- The part of the current chunk that the interval covers. -/
def covered (s : IntervalSource L) : Run where
  first := if s.chunk = s.firstChunk then s.firstLow else 0
  last := if s.chunk = s.lastChunk then s.lastLow else L.lowDomainSize - 1

def madeFull (L : Layout) : Piece L.wordCount :=
  Piece.makeBorrowed (.run [⟨0, L.lowDomainSize - 1⟩]) L.lowDomainSize

def piece (s : IntervalSource L) : IntervalSource L × Piece L.wordCount :=
  if s.covered.first = 0 ∧ s.covered.last = L.lowDomainSize - 1 then
    match s.fullPiece with
    | some full => (s, full)
    | none => ({ s with fullPiece := some (madeFull L) }, madeFull L)
  else
    (s, Piece.makeBorrowed (.run [s.covered]) (s.covered.last - s.covered.first + 1))

/-- The bounds past the key type are clipped. -/
def truncated (_ : IntervalSource L) : Bool := false

/-- `interval_source` as a cursor. -/
def source (L : Layout) : Stepper L.chunkCount (IntervalSource L) (Piece L.wordCount) where
  atEnd s := s.done
  key s := s.chunk
  piece s := some s.piece
  advance s := { s with toChunkSpan := s.toChunkSpan.advance }
  seek s key := { s with toChunkSpan := s.toChunkSpan.seek key }

/-- What holds of an interval's source in every run. -/
structure Inv (L : Layout) (range : KeyRange) (s : IntervalSource L) : Prop where
  span : s.toChunkSpan.Inv (L.chunksOf range.keys)
  bounds : s.done = false → range.first ≤ min range.last L.maxKey ∧
    s.firstChunk = L.chunkKey range.first ∧ s.firstLow = L.lowKey range.first ∧
    s.lastChunk = L.chunkKey (min range.last L.maxKey) ∧
      s.lastLow = L.lowKey (min range.last L.maxKey)
  full : ∀ p ∈ s.fullPiece, p = madeFull L

variable {range : KeyRange} {s : IntervalSource L}

theorem make_inv (L : Layout) (range : KeyRange) : Inv L range (make L range) ∧
    (source L).position (make L range) = nextFrom (L.chunksOf range.keys) 0 := by
  rw [make]
  split
  · rename_i hempty
    have hnone : L.chunksOf range.keys = ∅ := by
      rw [Set.eq_empty_iff_forall_notMem]
      rintro c ⟨x, hx, hmax, -⟩
      rcases hempty with hempty | hbeyond
      · exact absurd (of_decide_eq_true hempty) (not_lt.mpr (hx.1.trans hx.2))
      · exact absurd (hx.1.trans hmax) (not_le.mpr hbeyond)
    refine ⟨⟨.inl rfl, nofun, nofun⟩, ?_⟩
    rw [hnone]
    exact (nextFrom_eq_none_iff.mpr fun d hd ↦ absurd hd (Set.notMem_empty d)).symm
  · rename_i hheld
    rw [not_or] at hheld
    have hfirst : range.first ≤ L.maxKey := not_lt.mp hheld.2
    have hle : range.first ≤ range.last := by
      have := hheld.1
      rw [KeyRange.empty, decide_eq_true_eq] at this
      exact not_lt.mp this
    have hchunks : L.chunksOf range.keys =
        {c | L.chunkKey range.first ≤ c ∧ c ≤ L.chunkKey (min range.last L.maxKey)} :=
      Layout.chunksOf_interval hle hfirst
    have hmin : range.first ≤ min range.last L.maxKey := le_min hle hfirst
    have hkeys : L.chunkKey range.first ≤ L.chunkKey (min range.last L.maxKey) := by
      rw [Layout.chunkKey_eq hfirst, Layout.chunkKey_eq (min_le_right _ _)]
      exact Nat.div_le_div_right hmin
    refine ⟨⟨.inr ⟨hchunks, le_rfl, hkeys⟩, fun _ ↦ ⟨hmin, rfl, rfl, rfl, rfl⟩, nofun⟩, ?_⟩
    symm
    rw [hchunks]
    exact nextFrom_eq_some_iff.mpr ⟨⟨le_rfl, hkeys⟩, Nat.zero_le _, fun d hd _ ↦ hd.1⟩

theorem source_walks (L : Layout) (range : KeyRange) :
    (source L).Walks (L.chunksOf range.keys) (Inv L range) := by
  constructor
  · intro s hs
    refine ⟨s.piece.1, s.piece.2, rfl, ?_⟩
    rw [piece]
    split
    · split
      · exact ⟨hs, rfl⟩
      · refine ⟨⟨hs.span, hs.bounds, fun p hp ↦ ?_⟩, rfl⟩
        exact (Option.some.inj hp).symm
    · exact ⟨hs, rfl⟩
  · intro s hs
    obtain ⟨hspan, hpos⟩ := ChunkSpan.advance_walks hs.span
    refine ⟨⟨hspan, fun hlive ↦ ?_, hs.full⟩, hpos⟩
    simpa only [source, ChunkSpan.advance_firstChunk, ChunkSpan.advance_lastChunk] using
      hs.bounds (ChunkSpan.live_of_advance hlive)
  · intro s hs key
    obtain ⟨hspan, hpos⟩ := ChunkSpan.seek_walks hs.span key
    refine ⟨⟨hspan, fun hlive ↦ ?_, hs.full⟩, hpos⟩
    simpa only [source, ChunkSpan.seek_firstChunk, ChunkSpan.seek_lastChunk] using
      hs.bounds (ChunkSpan.live_of_seek hlive)

/-- The keys of the interval in a chunk between its ends, as one run of low parts. -/
theorem mem_covered (hs : Inv L range s) (hlive : s.done = false) (v : Nat) :
    s.covered.first ≤ v ∧ v ≤ s.covered.last ↔
      v < L.lowDomainSize ∧ s.chunk * L.lowDomainSize + v ∈ {k ∈ range.keys | k ≤ L.maxKey} := by
  obtain ⟨-, hfirst, hlast⟩ := hs.span.resolve_left (by simp [hlive])
  obtain ⟨hle, hfc, hfl, hlc, hll⟩ := hs.bounds hlive
  have htop : min range.last L.maxKey ≤ L.maxKey := min_le_right _ _
  have hbegin : L.chunkKey range.first = range.first / L.lowDomainSize :=
    Layout.chunkKey_eq (hle.trans htop)
  have hend : L.chunkKey (min range.last L.maxKey) = min range.last L.maxKey / L.lowDomainSize :=
    Layout.chunkKey_eq htop
  rw [hfc, hbegin] at hfirst
  rw [hlc, hend] at hlast
  rw [covered, hfc, hfl, hlc, hll, hbegin, hend]
  simp only [Layout.lowKey]
  rw [← Layout.le_block_iff L.lowDomainSize_pos hfirst,
    Layout.block_le_iff L.lowDomainSize_pos hlast]
  simp only [KeyRange.keys, Set.mem_ofPred_eq, le_min_iff]
  constructor
  · rintro ⟨h1, h2, h3, h4⟩
    exact ⟨h2, ⟨h1, h3⟩, h4⟩
  · rintro ⟨h2, ⟨h1, h3⟩, h4⟩
    exact ⟨h1, h2, h3, h4⟩

theorem covered_le (hs : Inv L range s) (hlive : s.done = false) :
    s.covered.first ≤ s.covered.last := by
  obtain ⟨-, hfirst, hlast⟩ := hs.span.resolve_left (by simp [hlive])
  obtain ⟨hle, hfc, hfl, hlc, hll⟩ := hs.bounds hlive
  have htop : min range.last L.maxKey ≤ L.maxKey := min_le_right _ _
  have hlt := L.lowKey_lt range.first
  have hpos := L.lowDomainSize_pos
  rw [covered]
  dsimp only
  by_cases h1 : s.chunk = s.firstChunk
  · rw [if_pos h1]
    by_cases h2 : s.chunk = s.lastChunk
    · -- one chunk holds both ends, whose low parts are in their order
      rw [if_pos h2, hfl, hll]
      have hsame : range.first / L.lowDomainSize = min range.last L.maxKey / L.lowDomainSize := by
        rw [← Layout.chunkKey_eq (hle.trans htop), ← Layout.chunkKey_eq
          htop, ← hfc, ← hlc, ← h1, ← h2]
      have hx := Nat.div_add_mod range.first L.lowDomainSize
      have hy := Nat.div_add_mod (min range.last L.maxKey) L.lowDomainSize
      rw [hsame] at hx
      rw [Layout.lowKey, Layout.lowKey]
      omega
    · rw [if_neg h2, hfl]
      omega
  · rw [if_neg h1]
    exact Nat.zero_le _

theorem piece_holds (hs : Inv L range s) (hlive : s.done = false) :
    s.piece.2.Holds L {k ∈ range.keys | k ≤ L.maxKey} s.chunk := by
  have hone := Piece.makeBorrowed_run_holds (n := L.wordCount) (covered_le hs hlive)
    (mem_covered hs hlive)
  rw [piece]
  split
  · rename_i hall
    have hfull : Piece.makeBorrowed (.run [s.covered]) (s.covered.last - s.covered.first + 1) =
        madeFull L := by
      have hcovered : s.covered = ⟨0, L.lowDomainSize - 1⟩ := by
        rcases h : s.covered with ⟨first, last⟩
        rw [h] at hall
        exact Run.mk.injEq .. ▸ hall
      have hcount : L.lowDomainSize - 1 - 0 + 1 = L.lowDomainSize :=
        Nat.sub_add_cancel L.lowDomainSize_pos
      rw [hcovered, madeFull, hcount]
    rw [hfull] at hone
    split
    · rename_i full hmade
      rw [hs.full full hmade]
      exact hone
    · exact hone
  · exact hone

/-- The source of an interval stands for it. -/
theorem yields (L : Layout) (range : KeyRange) :
    Yields L (source L) (make L range) range.keys {k ∈ range.keys | k ≤ L.maxKey} := by
  obtain ⟨hinv, hstart⟩ := make_inv L range
  refine Yields.of_walks (source_walks L range) hinv hstart fun s c hs hpos ↦
    ⟨s.piece.1, s.piece.2, rfl, ?_⟩
  have hlive : s.done = false := by
    rcases Bool.eq_false_or_eq_true s.done with hdone | hlive
    · rw [Stepper.position, source, if_pos hdone] at hpos
      cases hpos
    · exact hlive
  rw [Stepper.position, source, if_neg (by simp [hlive])] at hpos
  rw [← Option.some.inj hpos]
  exact piece_holds hs hlive

end IntervalSource

end Roaring
