import Mathlib
import Roaring.Lib.Search
import Roaring.Interop.Sources

/-!
# The source of a range of keys

The keys of an ascending sequence are gathered chunk by chunk into an array, or into
words once there are more of them than an array holds.  A seek gallops and bisects
behind a random-access iterator and steps behind any other.  An iterator is the rest
of the sequence from where it stands.
-/

namespace Roaring

open Lib

/-- An ascending sequence of unsigned elements, of which neighbours may be equal. -/
structure KeySequence where
  elementBits : Nat
  randomAccess : Bool
  elements : List Nat
  ascending : elements.Pairwise (· ≤ ·)
  bounded : ∀ e ∈ elements, e < 2 ^ elementBits

def KeySequence.keys (seq : KeySequence) : Set Nat := {k | k ∈ seq.elements}

/-! ## Gathering -/

/-- What `build` has gathered of a chunk's keys. -/
structure Gathered (L : Layout) where
  count : Nat := 0
  asBitset : Bool := false
  previous : Nat := 0
  array : List Nat := []
  words : Words L.wordCount

namespace Gathered

variable {L : Layout}

/-- The array that is full goes over into words. -/
def settle (g : Gathered L) : Gathered L :=
  if g.asBitset = false ∧ g.count = L.arrayLimit then
    { g with asBitset := true, words := (Words.zeroed L.wordCount).scatter g.array }
  else g

def store (g : Gathered L) (low : Nat) : Gathered L :=
  if g.asBitset then { g with words := g.words.insert low }
  else { g with array := g.array ++ [low] }

/-- One key of the chunk; a repeat is passed over. -/
def add (g : Gathered L) (low : Nat) : Gathered L :=
  if g.count ≠ 0 ∧ low = g.previous then g
  else
    let stored := g.settle.store low
    { stored with previous := low, count := g.count + 1 }

def piece (g : Gathered L) : Piece L.wordCount :=
  if g.asBitset then Piece.makeBorrowed (.bitset g.words) g.count
  else Piece.makeBorrowed (.array g.array) g.count

/-- The ascending values that have been gathered, in the form that holds them; the array has room
for those it is to hold. -/
structure Gathers (g : Gathered L) (values : List Nat) : Prop where
  ascending : values.Pairwise (· < ·)
  bounded : ∀ v ∈ values, v < L.lowDomainSize
  count : g.count = values.length
  previous : ∀ v ∈ values.getLast?, g.previous = v
  array : g.asBitset = false → g.array = values ∧ values.length ≤ L.arrayLimit
  words : g.asBitset = true → g.words.values = values

variable {g : Gathered L} {values : List Nat} {low : Nat}

theorem settle_gathers (hg : g.Gathers values) :
    g.settle.Gathers values ∧ (g.settle.asBitset = false → values.length < L.arrayLimit) := by
  rw [settle]
  split
  · rename_i hfull
    obtain ⟨harray, -⟩ := hg.array hfull.1
    have hwords : ((Words.zeroed L.wordCount).scatter g.array).values = values := by
      rw [harray]
      apply Words.values_scatter hg.ascending
      intro v hv
      rw [L.words_cover]
      exact hg.bounded v hv
    exact ⟨⟨hg.ascending, hg.bounded, hg.count, hg.previous, nofun, fun _ ↦ hwords⟩, nofun⟩
  · rename_i hroom
    refine ⟨hg, fun harray ↦ ?_⟩
    obtain ⟨-, hle⟩ := hg.array harray
    have hne : g.count ≠ L.arrayLimit := fun heq ↦ hroom ⟨harray, heq⟩
    rw [hg.count] at hne
    omega

/-- A word block with one more member above all others. -/
theorem values_insert {n : Nat} {ws : Words n} (hvalues : ws.values = values) (hlow : low < 64 * n)
    (habove : ∀ v ∈ values, v < low) : (ws.insert low).values = values ++ [low] := by
  refine List.Pairwise.eq_of_mem_iff (r := (· < ·)) (Words.values_ascending _) ?_ fun v ↦ ?_
  · rw [List.pairwise_append]
    refine ⟨by rw [← hvalues]; exact ws.values_ascending, List.pairwise_singleton _ _, ?_⟩
    intro v hv w hw
    rw [List.mem_singleton.1 hw]
    exact habove v hv
  · rw [Words.mem_values, Words.contains_insert _ hlow, List.mem_append,
      List.mem_singleton, ← hvalues,
      Words.mem_values, Bool.or_eq_true, decide_eq_true_eq, or_comm]

theorem add_gathers (hg : g.Gathers values) (hlow : low < L.lowDomainSize)
    (hle : ∀ v ∈ values, v ≤ low) :
    (g.add low).Gathers (if low ∈ values then values else values ++ [low]) := by
  -- a value that is there already is the last one
  have hrepeat : g.count ≠ 0 ∧ low = g.previous ↔ low ∈ values := by
    rw [hg.count]
    rcases List.eq_nil_or_concat' values with rfl | ⟨front, last, rfl⟩
    · simp
    · have hprevious : g.previous = last := hg.previous last (by simp)
      rw [hprevious]
      constructor
      · rintro ⟨-, rfl⟩
        exact List.mem_append_right _ List.mem_cons_self
      · intro hmem
        refine ⟨by simp, ?_⟩
        have hlast := hle last (List.mem_append_right _ List.mem_cons_self)
        rcases List.mem_append.1 hmem with hmem | hmem
        · have hlt := (List.pairwise_append.1 hg.ascending).2.2 low hmem last List.mem_cons_self
          omega
        · exact List.mem_singleton.1 hmem
  rw [add]
  by_cases hmem : low ∈ values
  · rw [if_pos (hrepeat.2 hmem), if_pos hmem]
    exact hg
  · rw [if_neg (fun h ↦ hmem (hrepeat.1 h)), if_neg hmem]
    obtain ⟨hs, hroom⟩ := settle_gathers hg
    have habove : ∀ v ∈ values, v < low := fun v hv ↦ lt_of_le_of_ne (hle v hv) fun heq ↦
      hmem (heq ▸ hv)
    have hasc : (values ++ [low]).Pairwise (· < ·) := by
      rw [List.pairwise_append]
      refine ⟨hg.ascending, List.pairwise_singleton _ _, ?_⟩
      intro v hv w hw
      rw [List.mem_singleton.1 hw]
      exact habove v hv
    have hbounded : ∀ v ∈ values ++ [low], v < L.lowDomainSize := by
      intro v hv
      rcases List.mem_append.1 hv with hv | hv
      · exact hg.bounded v hv
      · rw [List.mem_singleton.1 hv]
        exact hlow
    have hcount : g.count + 1 = (values ++ [low]).length := by
      rw [hg.count, List.length_append, List.length_singleton]
    refine ⟨hasc, hbounded, hcount, ?_, ?_, ?_⟩
    · intro v hv
      rw [List.getLast?_concat] at hv
      exact Option.some.inj hv
    · intro harray
      rw [store] at harray ⊢
      split at harray
      · rename_i hbit
        exact absurd (hbit.symm.trans harray) nofun
      · rename_i hnot
        have hfalse : g.settle.asBitset = false := by simpa using hnot
        rw [if_neg hnot]
        refine ⟨?_, ?_⟩
        · rw [(hs.array hfalse).1]
        · have := hroom hfalse
          rw [List.length_append, List.length_singleton]
          omega
    · intro hbitset
      rw [store] at hbitset ⊢
      split at hbitset
      · rename_i hbit
        rw [if_pos hbit]
        apply values_insert (hs.words hbit) _ habove
        rw [L.words_cover]
        exact hlow
      · rename_i hnot
        exact absurd hbitset hnot

/-- The values of a list that does not descend, each gathered once. -/
theorem foldl_add_gathers {lows : List Nat} (hg : g.Gathers values) (hasc : lows.Pairwise (· ≤ ·))
    (hlows : ∀ v ∈ lows, v < L.lowDomainSize) (hle : ∀ v ∈ values, ∀ w ∈ lows, v ≤ w) :
    ∃ gathered, (lows.foldl add g).Gathers gathered ∧ ∀ v, v ∈ gathered ↔ v ∈ values ∨
      v ∈ lows := by
  induction lows generalizing g values with
  | nil => exact ⟨values, hg, by simp⟩
  | cons low lows ih =>
    have hadd := add_gathers hg (hlows low List.mem_cons_self) fun v hv ↦
      hle v hv low List.mem_cons_self
    have hmem : ∀ v, v ∈ (if low ∈ values then values else values ++ [low]) ↔ v ∈ values ∨
        v = low := by
      intro v
      split
      · rename_i hin
        constructor
        · exact .inl
        · rintro (hv | rfl)
          · exact hv
          · exact hin
      · rw [List.mem_append, List.mem_singleton]
    obtain ⟨gathered, hgathered, hall⟩ :=
      ih hadd hasc.of_cons (fun v hv ↦ hlows v (List.mem_cons_of_mem low hv)) (by
      intro v hv w hw
      rcases (hmem v).1 hv with hv | rfl
      · exact hle v hv w (List.mem_cons_of_mem low hw)
      · exact List.rel_of_pairwise_cons hasc hw)
    refine ⟨gathered, hgathered, fun v ↦ ?_⟩
    rw [hall, hmem, List.mem_cons, or_assoc]

theorem piece_holds {members : Set Nat} {c : Nat} (hg : g.Gathers values)
    (hmem : ∀ v, v ∈ values ↔ v < L.lowDomainSize ∧ c * L.lowDomainSize + v ∈ members) :
    g.piece.Holds L members c := by
  rw [piece, hg.count]
  split
  · rename_i hbit
    have hvalues := hg.words hbit
    apply Piece.makeBorrowed_bitset_holds
    · rw [hvalues]
    · rwa [hvalues]
  · rename_i hnot
    obtain ⟨harray, -⟩ := hg.array (by simpa using hnot)
    rw [harray]
    exact Piece.makeBorrowed_array_holds hg.ascending hmem

theorem empty_gathers (words : Words L.wordCount) : Gathers (L := L) { words := words } [] :=
  ⟨List.Pairwise.nil, nofun, rfl, nofun, fun _ ↦ ⟨rfl, Nat.zero_le _⟩, nofun⟩

end Gathered

/-! ## The source -/

/-- `keys_source`; `cur` and `groupEnd` are iterators, `words` is the scratch that pieces share. -/
structure KeysSource (L : Layout) where
  elementBits : Nat
  randomAccess : Bool
  cur : List Nat
  groupEnd : List Nat
  chunk : Nat := 0
  built : Bool := false
  words : Words L.wordCount
  made : Piece L.wordCount

namespace KeysSource

variable {L : Layout}

/-- Whether an element is a key that the key type can hold. -/
def inDomain (s : KeysSource L) (e : Nat) : Bool :=
  if s.elementBits ≤ L.keyBits then true else e ≤ L.maxKey

def atEnd (s : KeysSource L) : Bool :=
  match s.cur with
  | [] => true
  | e :: _ => !s.inDomain e

/-- Whether the walk has stopped at an element beyond the key type. -/
def truncated (s : KeysSource L) : Bool :=
  match s.cur with
  | [] => false
  | e :: _ => !s.inDomain e

def refresh (s : KeysSource L) : KeysSource L :=
  if s.atEnd then s else { s with chunk := L.chunkKey (s.cur.headD 0 % 2 ^ L.keyBits) }

def ofChunk (s : KeysSource L) (e : Nat) : Bool :=
  s.inDomain e && decide (L.chunkKey (e % 2 ^ L.keyBits) = s.chunk)

/-- The end of the current chunk's keys. -/
def buildExtent (s : KeysSource L) : KeysSource L :=
  { s with groupEnd := s.cur.dropWhile s.ofChunk }

def build (s : KeysSource L) : KeysSource L :=
  let lows := (s.cur.takeWhile s.ofChunk).map fun e ↦ L.lowKey (e % 2 ^ L.keyBits)
  let g := lows.foldl Gathered.add { words := s.words }
  { s with groupEnd := s.cur.dropWhile s.ofChunk, built := true, words := g.words, made := g.piece }

def piece (s : KeysSource L) : KeysSource L × Piece L.wordCount :=
  let s := if s.built then s else s.build
  (s, s.made)

def advance (s : KeysSource L) : KeysSource L :=
  let s := if s.built then s else s.buildExtent
  { s with cur := s.groupEnd, built := false }.refresh

/-- The gallop to a bound: where the bisection begins, and the step the gallop stopped at (`2 ^
k`). -/
def gallop (below : Nat → Bool) (count low k : Nat) : Nat × Nat :=
  if 2 ^ k < count ∧ below (2 ^ k) = true then gallop below count (2 ^ k) (k + 1) else (low, 2 ^ k)
termination_by count - 2 ^ k
decreasing_by
  have hstep : 2 ^ k < 2 ^ (k + 1) := Nat.pow_lt_pow_right (by decide) (Nat.lt_succ_self k)
  omega

/-- The first position whose element is not below the bound. -/
def seekRandom (cur : List Nat) (bound : Nat) : Nat :=
  let below := fun i ↦ decide (cur.getD i 0 < bound)
  let probe := gallop below cur.length 0 0
  partitionPointIn below probe.1 (min (probe.2 + 1) cur.length)

def seek (s : KeysSource L) (key : Nat) : KeysSource L :=
  if s.atEnd ∨ ¬ s.chunk < key then s
  else
    let bound := L.compose key 0
    let cur := if s.randomAccess then s.cur.drop (seekRandom s.cur bound)
      else s.cur.dropWhile fun e ↦ decide (e < bound)
    { s with built := false, cur := cur }.refresh

def make (L : Layout) (seq : KeySequence) : KeysSource L :=
  refresh
    { elementBits := seq.elementBits
      randomAccess := seq.randomAccess
      cur := seq.elements
      groupEnd := seq.elements
      words := Words.zeroed L.wordCount
      made := ⟨.array [], 0, 0, 0, false⟩ }

/-- `keys_source` as a cursor. -/
def source (L : Layout) : Stepper L.chunkCount (KeysSource L) (Piece L.wordCount) where
  atEnd := atEnd
  key s := s.chunk
  piece s := some s.piece
  advance := advance
  seek := seek

/-! ### Seeking -/

theorem gallop_spec {below : Nat → Bool} {count low k point : Nat}
    (hpoint : PartitionPoint (fun i ↦ below i = true) count point) (hlow : low ≤ point) :
    (gallop below count low k).1 ≤ point ∧
      point ≤ min ((gallop below count low k).2 + 1) count := by
  induction low, k using gallop.induct below count with
  | case1 low k h ih =>
    rw [gallop, if_pos h]
    exact ih ((hpoint.lt_iff h.1).1 h.2).le
  | case2 low k h =>
    rw [gallop, if_neg h]
    refine ⟨hlow, le_min ?_ hpoint.le⟩
    by_contra hgt
    have hle := hpoint.le
    exact h ⟨by omega, hpoint.of_lt (2 ^ k) (by omega)⟩

/-- Galloping goes where stepping goes. -/
theorem drop_seekRandom {cur : List Nat} (hasc : cur.Pairwise (· ≤ ·)) (bound : Nat) :
    cur.drop (seekRandom cur bound) = cur.dropWhile fun e ↦ decide (e < bound) := by
  rw [← drop_length_takeWhile]
  congr 1
  have hpoint : PartitionPoint (fun i ↦ decide (cur.getD i 0 < bound) = true) cur.length
      (cur.takeWhile fun e ↦ decide (e < bound)).length := by
    simpa only [decide_eq_true_eq] using partitionPoint_takeWhile hasc bound
  obtain ⟨h1, h2⟩ : (gallop (fun i ↦ decide (cur.getD i 0 < bound)) cur.length 0 0).1 ≤ _ ∧ _ :=
    gallop_spec hpoint (Nat.zero_le _)
  rw [seekRandom]
  apply partitionPointIn_eq h1 h2
  · intro i _ hi
    exact hpoint.of_lt i hi
  · intro i hle hi
    simpa using hpoint.not_of_le i hle (lt_of_lt_of_le hi (min_le_right _ _))

/-! ### The walk -/

variable {seq : KeySequence} {s : KeysSource L} {b c : Nat}

/-- The iterator stands at the first element from a chunk on. -/
structure Rests (seq : KeySequence) (b : Nat) (s : KeysSource L) : Prop where
  within : b ≤ L.chunkCount
  elementBits : s.elementBits = seq.elementBits
  cur : s.cur = seq.elements.filter (b * L.lowDomainSize ≤ ·)

theorem inDomain_iff (hs : s.elementBits = seq.elementBits) {e : Nat} (he : e ∈ seq.elements) :
    s.inDomain e = true ↔ e ≤ L.maxKey := by
  rw [inDomain]
  split
  · rename_i hnarrow
    have hlt := seq.bounded e he
    have hpow : 2 ^ seq.elementBits ≤ 2 ^ L.keyBits :=
      Nat.pow_le_pow_right (by decide) (hs ▸ hnarrow)
    have hmax := L.two_pow_keyBits
    exact ⟨fun _ ↦ by omega, fun _ ↦ rfl⟩
  · exact decide_eq_true_iff

theorem Rests.mem_cur (h : s.Rests seq b) {e : Nat} : e ∈ s.cur ↔ e ∈ seq.elements ∧
    b * L.lowDomainSize ≤ e := by
  rw [h.cur, List.mem_filter, decide_eq_true_eq]

theorem Rests.ascending (h : s.Rests seq b) : s.cur.Pairwise (· ≤ ·) := by
  rw [h.cur]
  exact seq.ascending.filter _

theorem Rests.head_le (h : s.Rests seq b) {e : Nat} (he : e ∈ s.cur) : s.cur.headD 0 ≤ e := by
  have hasc := h.ascending
  cases hcur : s.cur with
  | nil => exact Nat.zero_le e
  | cons x rest =>
    rw [hcur] at he hasc
    rcases List.mem_cons.1 he with rfl | he
    · exact le_rfl
    · exact List.rel_of_pairwise_cons hasc he

/-- The chunks from `b` on begin with that of the iterator's element. -/
theorem Rests.nextFrom_eq (h : s.Rests seq b) :
    nextFrom (L.chunksOf seq.keys) b =
      if s.atEnd then none else some (L.chunkKey (s.cur.headD 0)) := by
  have hpos := L.lowDomainSize_pos
  -- a key of a chunk from `b` on is not behind the iterator
  have hahead : ∀ x ∈ seq.elements, x ≤ L.maxKey → b ≤ L.chunkKey x → x ∈ s.cur := by
    intro x hx hmax hle
    rw [Layout.chunkKey_eq hmax, Nat.le_div_iff_mul_le hpos] at hle
    exact h.mem_cur.2 ⟨hx, hle⟩
  cases hcur : s.cur with
  | nil =>
    have hend : s.atEnd = true := by rw [atEnd, hcur]
    rw [if_pos hend, nextFrom_eq_none_iff]
    rintro _ ⟨x, hx, hmax, rfl⟩
    by_contra hge
    have hmem := hahead x hx hmax (not_lt.1 hge)
    rw [hcur] at hmem
    cases hmem
  | cons e rest =>
    have he : e ∈ s.cur := by
      rw [hcur]
      exact List.mem_cons_self
    obtain ⟨hmem, hfrom⟩ := h.mem_cur.1 he
    have hleast : ∀ x ∈ s.cur, e ≤ x := by
      intro x hx
      have hle := h.head_le hx
      rwa [hcur] at hle
    have hdomain := inDomain_iff h.elementBits hmem
    by_cases hmax : e ≤ L.maxKey
    · have hlive : s.atEnd = false := by
        rw [atEnd, hcur]
        simp only [hdomain.2 hmax, Bool.not_true]
      rw [hlive, if_neg Bool.false_ne_true, nextFrom_eq_some_iff]
      refine ⟨⟨e, hmem, hmax, rfl⟩, ?_, ?_⟩
      · rw [List.headD_cons, Layout.chunkKey_eq hmax, Nat.le_div_iff_mul_le hpos]
        exact hfrom
      · rintro _ ⟨x, hx, hxmax, rfl⟩ hle
        rw [List.headD_cons, Layout.chunkKey_eq hmax, Layout.chunkKey_eq hxmax]
        exact Nat.div_le_div_right (hleast x (hahead x hx hxmax hle))
    · have hend : s.atEnd = true := by
        rw [atEnd, hcur]
        simp only [Bool.not_eq_true', ← Bool.not_eq_true]
        exact fun hin ↦ hmax (hdomain.1 hin)
      rw [if_pos hend, nextFrom_eq_none_iff]
      rintro _ ⟨x, hx, hxmax, rfl⟩
      by_contra hge
      exact hmax ((hleast x (hahead x hx hxmax (not_lt.1 hge))).trans hxmax)

/-- What holds of a key sequence's source in every run. -/
structure Inv (L : Layout) (seq : KeySequence) (s : KeysSource L) : Prop where
  rests : ∃ b, s.Rests seq b
  chunk : s.atEnd = false → s.chunk = L.chunkKey (s.cur.headD 0)
  groupEnd : s.built = true → s.groupEnd = s.cur.dropWhile s.ofChunk
  made : s.built = true → s.atEnd = false → s.made.Holds L {k ∈ seq.keys | k ≤ L.maxKey} s.chunk

theorem position_eq (L : Layout) (s : KeysSource L) :
    (source L).position s = if s.atEnd then none else some s.chunk := rfl

theorem Inv.position (hs : Inv L seq s) : ∃ b, s.Rests seq b ∧
    (source L).position s = nextFrom (L.chunksOf seq.keys) b := by
  obtain ⟨b, hb⟩ := hs.rests
  refine ⟨b, hb, ?_⟩
  rw [hb.nextFrom_eq, position_eq]
  split
  · rfl
  · rename_i hlive
    rw [hs.chunk (by simpa using hlive)]

/-- A head that is held is what it is as a key. -/
theorem head_mem (h : s.Rests seq b) (hlive : s.atEnd = false) :
    s.cur.headD 0 ∈ s.cur ∧ s.cur.headD 0 ≤ L.maxKey := by
  rw [atEnd] at hlive
  cases hcur : s.cur with
  | nil =>
    rw [hcur] at hlive
    cases hlive
  | cons e rest =>
    rw [hcur] at hlive
    have he : e ∈ s.cur := by
      rw [hcur]
      exact List.mem_cons_self
    have hdomain := inDomain_iff h.elementBits (h.mem_cur.1 he).1
    exact ⟨List.mem_cons_self, hdomain.1 (by simpa using hlive)⟩

theorem mod_of_le_maxKey {x : Nat} (hx : x ≤ L.maxKey) : x % 2 ^ L.keyBits = x := by
  rw [L.two_pow_keyBits]
  exact Nat.mod_eq_of_lt (Nat.lt_succ_of_le hx)

/-- After a move the source stands at the first chunk from where the iterator was put. -/
theorem refresh_inv (h : s.Rests seq b) (hbuilt : s.built = false) :
    Inv L seq s.refresh ∧ (source L).position s.refresh = nextFrom (L.chunksOf seq.keys) b := by
  have hsame : s.refresh.cur = s.cur ∧ s.refresh.built = s.built ∧
      s.refresh.elementBits = s.elementBits := by
    rw [refresh]
    split <;> exact ⟨rfl, rfl, rfl⟩
  have hrests : s.refresh.Rests seq b :=
    ⟨h.within, hsame.2.2.trans h.elementBits, hsame.1.trans h.cur⟩
  have hend : s.refresh.atEnd = s.atEnd := by
    rw [refresh]
    split <;> rfl
  have hchunk : s.refresh.atEnd = false → s.refresh.chunk = L.chunkKey (s.refresh.cur.headD 0) := by
    intro hlive
    rw [hend] at hlive
    rw [hsame.1, refresh, if_neg (by simp [hlive])]
    simp only [mod_of_le_maxKey (head_mem h hlive).2]
  have hnot : s.refresh.built ≠ true := by
    rw [hsame.2.1, hbuilt]
    exact Bool.false_ne_true
  refine ⟨⟨⟨b, hrests⟩, hchunk, fun hb ↦ absurd hb hnot, fun hb ↦ absurd hb hnot⟩, ?_⟩
  rw [hrests.nextFrom_eq, position_eq]
  split
  · rfl
  · rename_i hlive
    rw [hchunk (by simpa using hlive)]

theorem make_inv (L : Layout) (seq : KeySequence) : Inv L seq (make L seq) ∧
    (source L).position (make L seq) = nextFrom (L.chunksOf seq.keys) 0 := by
  refine refresh_inv ⟨Nat.zero_le _, rfl, ?_⟩ rfl
  symm
  rw [Nat.zero_mul, List.filter_eq_self]
  intro e _
  exact decide_eq_true (Nat.zero_le e)

/-- The keys of the chunk the source stands at are the front of what is left. -/
theorem cut_chunk (h : s.Rests seq b) (hlive : s.atEnd = false)
    (hchunk : s.chunk = L.chunkKey (s.cur.headD 0)) :
    s.cur.takeWhile s.ofChunk = s.cur.filter (· < (s.chunk + 1) * L.lowDomainSize) ∧
      s.cur.dropWhile s.ofChunk = seq.elements.filter ((s.chunk + 1) * L.lowDomainSize ≤ ·) := by
  have hpos := L.lowDomainSize_pos
  obtain ⟨hhead, hmax⟩ := head_mem h hlive
  have hlt := Layout.chunkKey_lt hmax
  rw [← hchunk] at hlt
  have hceiling := Layout.chunk_end_le hlt
  rw [Layout.chunkKey_eq hmax] at hchunk
  have hagree : ∀ x ∈ s.cur, s.ofChunk x = decide (x < (s.chunk + 1) * L.lowDomainSize) := by
    intro x hx
    have hfrom : s.chunk ≤ x / L.lowDomainSize := by
      rw [hchunk]
      exact Nat.div_le_div_right (h.head_le hx)
    rw [ofChunk, Bool.eq_iff_iff, Bool.and_eq_true, decide_eq_true_iff, decide_eq_true_iff,
      inDomain_iff h.elementBits (h.mem_cur.1 hx).1]
    constructor
    · rintro ⟨hxmax, hsame⟩
      rw [mod_of_le_maxKey hxmax, Layout.chunkKey_eq hxmax] at hsame
      rw [← hsame, ← Nat.div_lt_iff_lt_mul hpos]
      exact Nat.lt_succ_self _
    · intro hbelow
      have hxmax : x ≤ L.maxKey := by omega
      refine ⟨hxmax, ?_⟩
      rw [mod_of_le_maxKey hxmax, Layout.chunkKey_eq hxmax]
      rw [← Nat.div_lt_iff_lt_mul hpos] at hbelow
      omega
  obtain ⟨htake, hdrop⟩ := cut_congr hagree
  have hb : b * L.lowDomainSize ≤ (s.chunk + 1) * L.lowDomainSize := by
    have hbh := (h.mem_cur.1 hhead).2
    have hup : s.cur.headD 0 < (s.chunk + 1) * L.lowDomainSize := by
      rw [hchunk, ← Nat.div_lt_iff_lt_mul hpos]
      exact Nat.lt_succ_self _
    omega
  refine ⟨htake.trans (takeWhile_lt_eq_filter h.ascending _), ?_⟩
  rw [hdrop, dropWhile_lt_eq_filter h.ascending, h.cur, List.filter_filter]
  apply List.filter_congr
  intro x _
  rw [Bool.eq_iff_iff, Bool.and_eq_true]
  simp only [decide_eq_true_eq]
  exact ⟨And.left, fun hx ↦ ⟨hx, hb.trans hx⟩⟩

/-- At the end no element is of the chunk. -/
theorem dropWhile_of_atEnd (hend : s.atEnd = true) : s.cur.dropWhile s.ofChunk = s.cur := by
  rw [atEnd] at hend
  cases hcur : s.cur with
  | nil => rfl
  | cons e rest =>
    rw [hcur] at hend
    apply List.dropWhile_cons_of_neg
    have hnot : s.inDomain e = false := by simpa using hend
    simp [ofChunk, hnot]

theorem build_holds (h : s.Rests seq b) (hlive : s.atEnd = false)
    (hchunk : s.chunk = L.chunkKey (s.cur.headD 0)) :
    s.build.made.Holds L {k ∈ seq.keys | k ≤ L.maxKey} s.chunk := by
  have hpos := L.lowDomainSize_pos
  obtain ⟨hhead, hmax⟩ := head_mem h hlive
  have hclt := Layout.chunkKey_lt hmax
  rw [← hchunk] at hclt
  obtain ⟨htake, -⟩ := cut_chunk h hlive hchunk
  have hceiling := Layout.chunk_end_le hclt
  rw [Layout.chunkKey_eq hmax] at hchunk
  have hfloor : b * L.lowDomainSize ≤ s.chunk * L.lowDomainSize := by
    apply Nat.mul_le_mul_right
    rw [hchunk, Nat.le_div_iff_mul_le hpos]
    exact (h.mem_cur.1 hhead).2
  have hleast : ∀ x ∈ s.cur, s.chunk * L.lowDomainSize ≤ x := by
    intro x hx
    rw [hchunk]
    exact (Nat.div_mul_le_self _ _).trans (h.head_le hx)
  -- an element of the group is the chunk's first key and its low part
  have hsplit : ∀ x ∈ s.cur.takeWhile s.ofChunk, x ≤ L.maxKey ∧
      s.chunk * L.lowDomainSize + L.lowKey x = x := by
    intro x hx
    rw [htake, List.mem_filter, decide_eq_true_eq] at hx
    have hfrom := hleast x hx.1
    have hup := hx.2
    refine ⟨by omega, ?_⟩
    have hdiv : x / L.lowDomainSize = s.chunk := Nat.div_eq_of_lt_le hfrom hup
    rw [Layout.lowKey, ← hdiv]
    exact Nat.div_add_mod' x L.lowDomainSize
  have hlows : (s.cur.takeWhile s.ofChunk).map (fun e ↦ L.lowKey (e % 2 ^ L.keyBits)) =
      (s.cur.takeWhile s.ofChunk).map L.lowKey := by
    apply List.map_congr_left
    intro x hx
    rw [mod_of_le_maxKey (hsplit x hx).1]
  have hasc : ((s.cur.takeWhile s.ofChunk).map L.lowKey).Pairwise (· ≤ ·) := by
    rw [List.pairwise_map]
    refine (h.ascending.sublist (List.takeWhile_sublist _)).imp_of_mem ?_
    intro x y hx hy hle
    have h1 := (hsplit x hx).2
    have h2 := (hsplit y hy).2
    omega
  obtain ⟨gathered, hg, hmem⟩ := Gathered.foldl_add_gathers (Gathered.empty_gathers s.words)
    hasc (by
    intro v hv
    obtain ⟨x, -, rfl⟩ := List.mem_map.1 hv
    exact L.lowKey_lt x) (List.forall_mem_nil _)
  have hmade :
      s.build.made = (((s.cur.takeWhile s.ofChunk).map L.lowKey).foldl Gathered.add
      { words := s.words }).piece := by
    rw [build, hlows]
  rw [hmade]
  apply Gathered.piece_holds hg
  intro v
  rw [hmem, List.mem_map]
  constructor
  · rintro (hv | ⟨x, hx, rfl⟩)
    · cases hv
    · obtain ⟨hxmax, heq⟩ := hsplit x hx
      refine ⟨L.lowKey_lt x, ?_, ?_⟩
      · rw [heq]
        rw [htake, List.mem_filter] at hx
        exact (h.mem_cur.1 hx.1).1
      · rw [heq]
        exact hxmax
  · rintro ⟨hv, hkey, -⟩
    have hin : s.chunk * L.lowDomainSize + v ∈ s.cur :=
      h.mem_cur.2 ⟨hkey, hfloor.trans (Nat.le_add_right _ _)⟩
    refine .inr ⟨s.chunk * L.lowDomainSize + v, ?_, ?_⟩
    · rw [htake, List.mem_filter, decide_eq_true_eq, Nat.succ_mul]
      exact ⟨hin, Nat.add_lt_add_left hv _⟩
    · rw [Layout.lowKey, Nat.add_comm, Nat.add_mul_mod_self_right, Nat.mod_eq_of_lt hv]

theorem source_walks (L : Layout) (seq : KeySequence) :
    (source L).Walks (L.chunksOf seq.keys) (Inv L seq) := by
  constructor
  · intro s hs
    refine ⟨s.piece.1, s.piece.2, rfl, ?_⟩
    rw [piece]
    split
    · exact ⟨hs, rfl⟩
    · obtain ⟨b, hb⟩ := hs.rests
      refine ⟨⟨⟨b, hb.within, hb.elementBits, hb.cur⟩, hs.chunk, fun _ ↦ rfl, fun _ hlive ↦ ?_⟩,
        rfl⟩
      exact build_holds hb hlive (hs.chunk hlive)
  · intro s hs
    obtain ⟨b, hb, hpos⟩ := hs.position
    have hgroup : (if s.built then s else s.buildExtent).groupEnd = s.cur.dropWhile s.ofChunk ∧
        (if s.built then s else s.buildExtent).elementBits = s.elementBits := by
      split
      · rename_i hbuilt
        exact ⟨hs.groupEnd hbuilt, rfl⟩
      · exact ⟨rfl, rfl⟩
    change Inv L seq s.advance ∧ (source L).position s.advance = _
    rw [hpos, advance]
    generalize (if s.built then s else s.buildExtent) = moved at hgroup ⊢
    rcases Bool.eq_false_or_eq_true s.atEnd with hend | hlive
    · -- past the last chunk nothing moves
      have hnone : nextFrom (L.chunksOf seq.keys) b = none := by rw [hb.nextFrom_eq, if_pos hend]
      obtain ⟨hinv, hstay⟩ :=
        refresh_inv (s := { moved with cur := moved.groupEnd, built := false }) (b := b)
        ⟨hb.within, hgroup.2.trans hb.elementBits, (hgroup.1.trans (dropWhile_of_atEnd hend)).trans
          hb.cur⟩ rfl
      rw [hnone] at hstay ⊢
      exact ⟨hinv, hstay⟩
    · have hc : nextFrom (L.chunksOf seq.keys) b = some s.chunk := by
        rw [← hpos, position_eq, if_neg (by simp [hlive])]
      have hlt : s.chunk < L.chunkCount := by
        rw [hs.chunk hlive]
        exact Layout.chunkKey_lt (head_mem hb hlive).2
      rw [hc]
      exact refresh_inv ⟨hlt, hgroup.2.trans hb.elementBits,
        hgroup.1.trans (cut_chunk hb hlive (hs.chunk hlive)).2⟩ rfl
  · intro s hs key
    obtain ⟨b, hb, hpos⟩ := hs.position
    change Inv L seq (s.seek key) ∧ (source L).position (s.seek key) = _
    rw [seek]
    split
    · rename_i hstay
      refine ⟨hs, ?_⟩
      rcases Bool.eq_false_or_eq_true s.atEnd with hend | hlive
      · rw [position_eq, if_pos hend]
        rfl
      · have hle : (key : Nat) ≤ s.chunk := not_lt.1 (hstay.resolve_left (by simp [hlive]))
        have hc : (source L).position s = some s.chunk := by
          rw [position_eq, if_neg (by simp [hlive])]
        have hmem : s.chunk ∈ L.chunksOf seq.keys := (nextFrom_eq_some_iff.1 (hpos.symm.trans hc)).1
        rw [hc, walkStep, max_eq_left hle]
        exact (nextFrom_of_mem hmem).symm
    · rename_i hmove
      rw [not_or, not_not] at hmove
      have hlive : s.atEnd = false := by simpa using hmove.1
      have hc : (source L).position s = some s.chunk := by rw [position_eq, if_neg hmove.1]
      have hbc : b ≤ s.chunk := (nextFrom_eq_some_iff.1 (hpos.symm.trans hc)).2.1
      have hcur : (if s.randomAccess then s.cur.drop (seekRandom s.cur (L.compose key 0))
          else s.cur.dropWhile fun e ↦ decide (e < L.compose key 0)) =
            seq.elements.filter ((key : Nat) * L.lowDomainSize ≤ ·) := by
        have hstep : s.cur.dropWhile (fun e ↦ decide (e < L.compose key 0)) =
            seq.elements.filter ((key : Nat) * L.lowDomainSize ≤ ·) := by
          rw [Layout.compose_zero key.isLt, dropWhile_lt_eq_filter hb.ascending, hb.cur,
            List.filter_filter]
          apply List.filter_congr
          intro x _
          have hle : b * L.lowDomainSize ≤ (key : Nat) * L.lowDomainSize :=
            Nat.mul_le_mul_right _ (hbc.trans hmove.2.le)
          rw [Bool.eq_iff_iff, Bool.and_eq_true]
          simp only [decide_eq_true_eq]
          exact ⟨And.left, fun hx ↦ ⟨hx, hle.trans hx⟩⟩
        split
        · rw [drop_seekRandom hb.ascending, hstep]
        · exact hstep
      simp only [hcur]
      rw [hc, walkStep, max_eq_right hmove.2.le]
      exact refresh_inv ⟨key.isLt.le, hb.elementBits, rfl⟩ rfl

/-- The source of an ascending sequence stands for its keys. -/
theorem yields (L : Layout) (seq : KeySequence) :
    Yields L (source L) (make L seq) seq.keys {k ∈ seq.keys | k ≤ L.maxKey} := by
  obtain ⟨hinv, hstart⟩ := make_inv L seq
  refine Yields.of_walks (source_walks L seq) hinv hstart fun s c hs hpos ↦
    ⟨s.piece.1, s.piece.2, rfl, ?_⟩
  have hlive : s.atEnd = false := by
    rcases Bool.eq_false_or_eq_true s.atEnd with hend | hlive
    · rw [position_eq, if_pos hend] at hpos
      cases hpos
    · exact hlive
  rw [position_eq, if_neg (by simp [hlive])] at hpos
  rw [← Option.some.inj hpos, piece]
  obtain ⟨b, hb⟩ := hs.rests
  split
  · rename_i hbuilt
    exact hs.made hbuilt hlive
  · exact build_holds hb hlive (hs.chunk hlive)

/-- A walk that is at its end has stopped at a member beyond the key type exactly when there is
one. -/
theorem truncated_iff (hs : Inv L seq s) :
    s.truncated = true ↔ (source L).position s = none ∧ ∃ k ∈ seq.keys, L.maxKey < k := by
  obtain ⟨b, hb⟩ := hs.rests
  have hbound : b * L.lowDomainSize ≤ L.maxKey + 1 := by
    rw [← L.two_pow_keyBits, ← L.lowDomainSize_mul_chunkCount, mul_comm L.lowDomainSize]
    exact Nat.mul_le_mul_right _ hb.within
  have hahead : ∀ k ∈ seq.keys, L.maxKey < k → k ∈ s.cur := by
    intro k hk hmax
    exact hb.mem_cur.2 ⟨hk, by omega⟩
  rw [position_eq, truncated, atEnd]
  cases hcur : s.cur with
  | nil =>
    refine ⟨nofun, ?_⟩
    rintro ⟨-, k, hk, hmax⟩
    have hmem := hahead k hk hmax
    rw [hcur] at hmem
    cases hmem
  | cons e rest =>
    have he : e ∈ s.cur := by
      rw [hcur]
      exact List.mem_cons_self
    have hmem := (hb.mem_cur.1 he).1
    have hdomain := inDomain_iff hb.elementBits hmem
    change (!s.inDomain e) = true ↔ (if (!s.inDomain e) = true then none else some s.chunk) = none ∧
      _
    constructor
    · intro htrunc
      refine ⟨if_pos htrunc, e, hmem, ?_⟩
      by_contra hle
      rw [hdomain.2 (not_lt.1 hle)] at htrunc
      cases htrunc
    · rintro ⟨hnone, -⟩
      by_contra hnot
      rw [if_neg hnot] at hnone
      cases hnone

end KeysSource

end Roaring
