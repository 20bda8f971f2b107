import Mathlib
import Roaring.Wire.Portable

/-!
# What a portable image denotes

The abstract side of the portable format.  `decodePortable` cuts an image into
its buckets, chunks and containers by the lengths the format prescribes and
checks nothing else; `WellFormed` says which of the images so cut are legal, and
`values` what a legal one stands for.  `toChunks` is the table a reader has to
build from it, adjacent runs coalesced.
-/

namespace Roaring

open Lib

/-! ## Images -/

inductive WireContainer where
  | array (values : List Nat)
  | bitset (words : Words wordCount)
  /-- Each run as it is stored: its first value and its length less one. -/
  | run (runs : List (Nat × Nat))

structure WireChunk where
  key : Nat
  cardinality : Nat
  container : WireContainer

/-- A 32-bit bitmap under the high half of its keys. -/
structure WireBucket where
  high : Nat
  chunks : List WireChunk

/-! ## Cutting an image -/

/-- The first `n` bytes and the rest. -/
def takeBytes (n : Nat) (bs : List UInt8) : Option (List UInt8 × List UInt8) :=
  if n ≤ bs.length then some (bs.take n, bs.drop n) else none

def wireRuns : Nat → List UInt8 → List (Nat × Nat)
  | 0, _ => []
  | n + 1, bs => (leValue (bs.take 2), leValue ((bs.drop 2).take 2)) :: wireRuns n (bs.drop 4)

def decodeContainer (isRun : Bool) (cardinality : Nat) (bs : List UInt8) :
    Option (WireContainer × List UInt8) :=
  if isRun then
    (takeBytes 2 bs).bind fun (n, bs) ↦
      (takeBytes (leValue n * 4) bs).map fun (payload, bs) ↦
        (.run (wireRuns (leValue n) payload), bs)
  else if cardinality > portableArrayMaxCardinality then
    (takeBytes portableBitsetBytes bs).map fun (payload, bs) ↦ (.bitset (wordsOfBytes payload), bs)
  else
    (takeBytes (cardinality * 2) bs).map fun (payload, bs) ↦
      (.array (units 2 cardinality payload), bs)

/-- The chunks described from entry `k` of the descriptive header on. -/
def decodeChunks (flags : Option (List UInt8)) (descriptive : List UInt8) :
    (remaining k : Nat) → List UInt8 → Option (List WireChunk × List UInt8)
  | 0, _, bs => some ([], bs)
  | remaining + 1, k, bs =>
      let key := leValue ((descriptive.drop (4 * k)).take 2)
      let cardinality := leValue ((descriptive.drop (4 * k + 2)).take 2) + 1
      let isRun :=
        flags.elim false fun flags ↦ (leValue ((flags.drop (k / 8)).take 1)).testBit (k % 8)
      (decodeContainer isRun cardinality bs).bind fun (container, bs) ↦
        (decodeChunks flags descriptive remaining (k + 1) bs).map fun (chunks, bs) ↦
          (⟨key, cardinality, container⟩ :: chunks, bs)

/-- The cookie: whether runs are flagged and how many containers follow. -/
def decodeCookie (bs : List UInt8) : Option (Bool × Nat × List UInt8) :=
  (takeBytes 4 bs).bind fun (cookie, bs) ↦
    if leValue cookie % 65536 = portableCookieWithRun then
      some (true, leValue cookie / 65536 + 1, bs)
    else if leValue cookie = portableCookieNoRun then
      (takeBytes 4 bs).bind fun (count, bs) ↦
        if leValue count > 65536 then none else some (false, leValue count, bs)
    else none

def decode32 (bs : List UInt8) : Option (List WireChunk × List UInt8) :=
  (decodeCookie bs).bind fun (hasRun, count, bs) ↦
    (takeBytes (if hasRun then (count + 7) / 8 else 0) bs).bind fun (flags, bs) ↦
      (takeBytes (count * 4) bs).bind fun (descriptive, bs) ↦
        (takeBytes (if !hasRun || decide (count ≥ portableNoOffsetThreshold) then count * 4 else 0)
          bs).bind fun (_, bs) ↦
          decodeChunks (if hasRun then some flags else none) descriptive count 0 bs

def decodeBuckets : (buckets : Nat) → List UInt8 → Option (List WireBucket × List UInt8)
  | 0, bs => some ([], bs)
  | buckets + 1, bs =>
      (takeBytes 4 bs).bind fun (high, bs) ↦
        (decode32 bs).bind fun (chunks, bs) ↦
          (decodeBuckets buckets bs).map fun (rest, bs) ↦ (⟨leValue high, chunks⟩ :: rest, bs)

/-- The buckets of an image; bytes behind the last one are left alone. -/
def decodePortable (K : KeyType) (bs : List UInt8) : Option (List WireBucket) :=
  match K with
  | .u64 =>
      (takeBytes 8 bs).bind fun (buckets, bs) ↦
        if leValue buckets ≤ 0xFFFFFFFF then
          (decodeBuckets (leValue buckets) bs).map Prod.fst
        else none
  | _ => (decode32 bs).map fun (chunks, _) ↦ [⟨0, chunks⟩]

/-! ## Legal images -/

def WireContainer.values : WireContainer → List Nat
  | .array values => values
  | .bitset words => words.values
  | .run runs => runs.flatMap fun r ↦ List.range' r.1 (r.2 + 1)

/-- The runs stay in the 16-bit domain, are ascending and do not overlap; they
may be adjacent. -/
structure WireRunsOrdered (runs : List (Nat × Nat)) : Prop where
  bounded : ∀ r ∈ runs, r.1 + r.2 ≤ 0xFFFF
  ascending : runs.Pairwise fun r s ↦ r.1 + r.2 < s.1

def WireContainer.WellFormed : WireContainer → Prop
  | .array values => values.Pairwise (· < ·)
  | .bitset _ => True
  | .run runs => runs ≠ [] ∧ WireRunsOrdered runs

/-- A legal container that holds as many values as the header says. -/
structure WireChunk.WellFormed (c : WireChunk) : Prop where
  container : c.container.WellFormed
  cardinality : c.container.values.length = c.cardinality

/-- Ascending buckets of ascending chunks, each of them legal. -/
structure WireWellFormed (buckets : List WireBucket) : Prop where
  highs : buckets.Pairwise fun b c ↦ b.high < c.high
  keys : ∀ b ∈ buckets, b.chunks.Pairwise fun c d ↦ c.key < d.key
  chunks : ∀ b ∈ buckets, ∀ c ∈ b.chunks, c.WellFormed

/-- The keys an image denotes. -/
def wireValues (buckets : List WireBucket) : List Nat :=
  buckets.flatMap fun b ↦ b.chunks.flatMap fun c ↦
    c.container.values.map (compose (b.high * 65536 + c.key))

/-! ## The table of an image -/

/-- The stored run put behind those of `dst`, whose last one comes first; an
adjacent one extends the run before it. -/
def coalesceRun (dst : List Run) (r : Nat × Nat) : List Run :=
  match dst with
  | d :: ds =>
      if r.1 = d.last + 1 then ⟨d.first, r.1 + r.2⟩ :: ds else ⟨r.1, r.1 + r.2⟩ :: d :: ds
  | [] => [⟨r.1, r.1 + r.2⟩]

def coalesceRuns (runs : List (Nat × Nat)) : List Run := (runs.foldl coalesceRun []).reverse

def WireContainer.toHandle (cardinality : Nat) : WireContainer → ContainerHandle
  | .array values => ContainerHandle.syncHeader values
  | .bitset words => ContainerHandle.makeBitsetFrom words cardinality
  | .run runs => ContainerHandle.makeRunFrom (coalesceRuns runs) cardinality

def WireChunk.toChunk (high : Nat) (c : WireChunk) : Chunk :=
  ⟨high * 65536 + c.key, c.container.toHandle c.cardinality⟩

def WireBucket.toChunks (b : WireBucket) : List Chunk := b.chunks.map (WireChunk.toChunk b.high)

def wireToBitmap (buckets : List WireBucket) : Bitmap where
  chunks := buckets.flatMap WireBucket.toChunks
  size := (buckets.map fun b ↦ (b.chunks.map WireChunk.cardinality).sum).sum

end Roaring
