import Mathlib
import Roaring.Container.Handle

/-!
# Bitmaps

A bitmap is its chunk table, read in key order, and the number of its keys.  The
table is the sorted sequence of chunk keys and containers that both tables of the
source implement (a flat array for 16-bit chunk keys, a tree for wider ones).

`validate` is the source's self check, with its texts; `Valid` is what every
operation keeps.  It asks slightly more than `validate` reports: runs that are
not adjacent, and chunk keys and values inside their types.
-/

namespace Roaring

open Lib

/-- An entry of the chunk table. -/
structure Chunk where
  key : Nat
  slot : ContainerHandle

/-- The keys an entry stands for, in ascending order. -/
def Chunk.values (c : Chunk) : List Nat := c.slot.values.map (compose c.key)

structure Bitmap where
  chunks : List Chunk
  size : Nat

namespace Bitmap

/-- The keys a bitmap holds, in ascending order. -/
def values (b : Bitmap) : List Nat := b.chunks.flatMap Chunk.values

def empty : Bitmap := ⟨[], 0⟩

/-- The container of a chunk key, if the table has one. -/
def find (b : Bitmap) (key : Nat) : Option ContainerHandle :=
  (b.chunks.find? fun c ↦ c.key = key).map Chunk.slot

end Bitmap

/-! ## The self check -/

/-- The run loop of `validate`: `previousEnd` is the end of the run before, if
there was one, and `counted` the values seen. -/
def validateRuns (cardinality : Nat) : List Run → Option Nat → Nat → Option String
  | [], _, counted =>
      if counted ≠ cardinality then
        some "a run container's cardinality header differs from its runs"
      else none
  | r :: rs, previousEnd, counted =>
      if r.last < r.first then some "a run ends before it begins"
      else if previousEnd.any fun e ↦ ¬ e < r.first then some "runs overlap or are out of order"
      else validateRuns cardinality rs (some r.last) (counted + (r.last - r.first) + 1)

def strictlyAscending : List Nat → Bool
  | a :: b :: rest => decide (a < b) && strictlyAscending (b :: rest)
  | _ => true

def validateSlot (supportsBitset : Bool) (h : ContainerHandle) : Option String :=
  if h.cardinality = 0 then some "a chunk holds an empty container"
  else match h.payload with
    | .array values =>
        if values.length ≠ h.cardinality then
          some "an array's cardinality header differs from its length"
        else if supportsBitset ∧ arrayToBitsetThreshold < h.cardinality then
          some "an array holds more values than the array limit"
        else if ¬ strictlyAscending values then
          some "an array's values are not strictly ascending"
        else none
    | .bitset words =>
        if words.count ≠ h.cardinality then
          some "a bitset's cardinality header differs from its popcount"
        else none
    | .run runs => validateRuns h.cardinality runs none 0

def validateChunks (supportsBitset : Bool) (size : Nat) :
    List Chunk → Option Nat → Nat → Option String
  | [], _, total =>
      if total ≠ size then some "the size differs from the sum of the container cardinalities"
      else none
  | c :: cs, previous, total =>
      if previous.any fun k ↦ ¬ k < c.key then some "chunk keys are not strictly ascending"
      else match validateSlot supportsBitset c.slot with
        | some problem => some problem
        | none => validateChunks supportsBitset size cs (some c.key) (total + c.slot.cardinality)

/-- `bitmap::validate`: the first problem found, or none. -/
def Bitmap.validate (supportsBitset : Bool) (b : Bitmap) : Option String :=
  validateChunks supportsBitset b.size b.chunks none 0

/-! ## Validity -/

/-- A chunk of a valid bitmap: a valid container that is not empty and, where the
container set has bitsets, no array above the array limit. -/
structure Chunk.Valid (K : KeyType) (supportsBitset : Bool) (c : Chunk) : Prop where
  key_lt : c.key < K.chunkDomainSize
  slot : c.slot.Valid
  nonempty : c.slot.values ≠ []
  limit : supportsBitset = true → ∀ values, c.slot.payload = .array values →
    values.length ≤ arrayToBitsetThreshold

structure Bitmap.Valid (K : KeyType) (supportsBitset : Bool) (b : Bitmap) : Prop where
  ascending : b.chunks.Pairwise fun c d ↦ c.key < d.key
  chunks : ∀ c ∈ b.chunks, c.Valid K supportsBitset
  size : b.size = (b.chunks.map fun c ↦ c.slot.cardinality).sum

/-- A valid bitmap as an object holds it: its table counts its entries in 32 bits. -/
structure ValidBitmap (K : KeyType) (supportsBitset : Bool) where
  bitmap : Bitmap
  valid : bitmap.Valid K supportsBitset
  countable : bitmap.chunks.length < 2 ^ 32

theorem strictlyAscending_of_pairwise {l : List Nat} (h : l.Pairwise (· < ·)) :
    strictlyAscending l = true := by
  induction l using strictlyAscending.induct with
  | case1 a b rest ih =>
      rw [strictlyAscending, ih h.of_cons, Bool.and_true, decide_eq_true_eq]
      exact List.rel_of_pairwise_cons h List.mem_cons_self
  | case2 t hne =>
      cases t with
      | nil => rfl
      | cons a rest =>
          cases rest with
          | nil => rfl
          | cons b rest => exact absurd rfl (hne a b rest)

theorem validateRuns_eq_none {runs : List Run} (h : Canonical runs) (previousEnd : Option Nat)
    (hp : ∀ e ∈ previousEnd, ∀ r ∈ runs, e < r.first) (counted : Nat) :
    validateRuns (counted + runCardinality runs) runs previousEnd counted = none := by
  induction runs generalizing previousEnd counted with
  | nil => simp [validateRuns]
  | cons r rs ih =>
      have hle := h.head_le
      have hord : previousEnd.any (fun e ↦ ¬ e < r.first) = false := by
        cases previousEnd with
        | none => rfl
        | some e => simpa using hp e rfl r List.mem_cons_self
      have hnext : ∀ e ∈ some r.last, ∀ s ∈ rs, e < s.first := by
        rintro e ⟨⟩ s hs
        exact Nat.lt_of_succ_lt (h.head_apart hs)
      have hsum : counted + runCardinality (r :: rs) =
          counted + (r.last - r.first) + 1 + runCardinality rs := by
        rw [runCardinality_cons, Run.length]
        omega
      rw [validateRuns, if_neg (by omega), hord, if_neg (by simp), hsum]
      exact ih h.tail _ hnext _

theorem Chunk.Valid.cardinality_pos {K : KeyType} {sb : Bool} {c : Chunk} (h : c.Valid K sb) :
    0 < c.slot.cardinality := by
  rw [h.slot.cardinality]
  exact List.length_pos_iff.mpr h.nonempty

theorem validateSlot_eq_none {K : KeyType} {sb : Bool} {c : Chunk} (h : c.Valid K sb) :
    validateSlot sb c.slot = none := by
  have hpos := h.cardinality_pos
  have hcard := h.slot.cardinality
  have hwf := h.slot.payload
  rw [validateSlot, if_neg (by omega)]
  rw [ContainerHandle.values] at hcard
  cases hp : c.slot.payload with
  | array values =>
      rw [hp] at hcard hwf
      have hlimit : sb = true → values.length ≤ arrayToBitsetThreshold := fun hsb ↦
        h.limit hsb values hp
      cases hwf with
      | array ascending _ =>
          have hlen : values.length = c.slot.cardinality := hcard.symm
          have hasc := strictlyAscending_of_pairwise ascending
          simp only [hlen, ne_eq, not_true_eq_false, if_false, hasc]
          rw [if_neg]
          rintro ⟨hsb, hlt⟩
          have := hlimit hsb
          omega
  | run runs =>
      rw [hp] at hcard hwf
      cases hwf with
      | run canonical =>
          have hlen : c.slot.cardinality = 0 + runCardinality runs := by
            rw [hcard, Nat.zero_add]
            exact canonical.length_values
          simp only [hlen]
          exact validateRuns_eq_none canonical none (by simp) 0
  | bitset words =>
      rw [hp] at hcard
      have hlen : words.count = c.slot.cardinality := by
        rw [hcard, words.count_eq_length_values]
        rfl
      simp [hlen]

theorem validateChunks_eq_none {K : KeyType} {sb : Bool} {chunks : List Chunk}
    (hasc : chunks.Pairwise fun c d ↦ c.key < d.key) (h : ∀ c ∈ chunks, c.Valid K sb)
    (previous : Option Nat) (hp : ∀ k ∈ previous, ∀ c ∈ chunks, k < c.key) (total : Nat) :
    validateChunks sb (total + (chunks.map fun c ↦ c.slot.cardinality).sum) chunks previous total
      = none := by
  induction chunks generalizing previous total with
  | nil => simp [validateChunks]
  | cons c cs ih =>
      have hord : previous.any (fun k ↦ ¬ k < c.key) = false := by
        cases previous with
        | none => rfl
        | some k => simpa using hp k rfl c List.mem_cons_self
      have hnext : ∀ k ∈ some c.key, ∀ d ∈ cs, k < d.key := by
        rintro k ⟨⟩ d hd
        exact List.rel_of_pairwise_cons hasc hd
      rw [validateChunks, hord, if_neg (by simp), validateSlot_eq_none (h c List.mem_cons_self),
        List.map_cons, List.sum_cons, ← Nat.add_assoc]
      exact ih hasc.of_cons (fun d hd ↦ h d (List.mem_cons_of_mem c hd)) _ hnext _

namespace Bitmap.Valid

variable {K : KeyType} {sb : Bool} {b : Bitmap}

/-- A valid bitmap passes its own check. -/
theorem validate_eq_none (h : b.Valid K sb) : b.validate sb = none := by
  have := validateChunks_eq_none h.ascending h.chunks none (by simp) 0
  rw [Nat.zero_add] at this
  rw [Bitmap.validate, h.size]
  exact this

/-- The size is the number of keys. -/
theorem size_eq_length_values (h : b.Valid K sb) : b.size = b.values.length := by
  rw [h.size, Bitmap.values, List.length_flatMap]
  congr 1
  refine List.map_congr_left fun c hc ↦ ?_
  rw [Chunk.values, List.length_map]
  exact (h.chunks c hc).slot.cardinality

end Bitmap.Valid

theorem Chunk.Valid.values_ascending {K : KeyType} {sb : Bool} {c : Chunk} (h : c.Valid K sb) :
    c.values.Pairwise (· < ·) :=
  h.slot.values_ascending.map _ fun _ _ hab ↦ Nat.add_lt_add_left hab _

theorem Chunk.Valid.chunkKey_of_mem {K : KeyType} {sb : Bool} {c : Chunk} (h : c.Valid K sb)
    {x : Nat} (hx : x ∈ c.values) : chunkKey x = c.key ∧ lowKey x ∈ c.slot.values := by
  obtain ⟨v, hv, rfl⟩ := List.mem_map.mp hx
  have hlt := h.slot.values_lt v hv
  exact ⟨chunkKey_compose hlt, by rwa [lowKey_compose hlt]⟩

/-- The keys of ascending valid chunks come out ascending. -/
theorem flatMap_values_ascending {K : KeyType} {sb : Bool} {chunks : List Chunk}
    (hasc : chunks.Pairwise fun c d ↦ c.key < d.key) (h : ∀ c ∈ chunks, c.Valid K sb) :
    (chunks.flatMap Chunk.values).Pairwise (· < ·) := by
  induction chunks with
  | nil => exact List.Pairwise.nil
  | cons c cs ih =>
      rw [List.flatMap_cons]
      refine List.pairwise_append.mpr ⟨(h c List.mem_cons_self).values_ascending,
        ih hasc.of_cons fun d hd ↦ h d (List.mem_cons_of_mem c hd), fun x hx y hy ↦ ?_⟩
      obtain ⟨d, hd, hy⟩ := List.mem_flatMap.mp hy
      obtain ⟨hcx, -⟩ := (h c List.mem_cons_self).chunkKey_of_mem hx
      obtain ⟨hdy, -⟩ := (h d (List.mem_cons_of_mem c hd)).chunkKey_of_mem hy
      have hkey : c.key < d.key := List.rel_of_pairwise_cons hasc hd
      rw [← hcx, ← hdy] at hkey
      exact Nat.lt_of_div_lt_div hkey

theorem Bitmap.Valid.values_ascending {K : KeyType} {sb : Bool} {b : Bitmap} (h : b.Valid K sb) :
    b.values.Pairwise (· < ·) := flatMap_values_ascending h.ascending h.chunks

end Roaring
