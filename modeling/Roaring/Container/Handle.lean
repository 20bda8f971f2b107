import Mathlib
import Roaring.Lib.Words

/-!
# Containers

One chunk of a bitmap holds the low 16 bits of its keys in a container: an
ascending array of values, a list of closed runs, or a block of 1024 words.  A
`ContainerHandle` is such a payload together with its header: the count of
values and the two endpoints, each of which may be marked stale by a kernel
that does not maintain it.

The payload is a value here; which handles share one block of memory is the
matter of the ownership model and not of this file.
-/

namespace Roaring

open Lib

/-! ## Layout -/

/-- The key types a bitmap is instantiated with here: those whose low part has 16 bits.  A key of
8 bits has a layout of its own, of 256 values in four words. -/
inductive KeyType where
  | u16
  | u32
  | u64
deriving DecidableEq, Repr

/-- `std::numeric_limits<Key>::digits`. -/
def KeyType.digits : KeyType → Nat
  | .u16 => 16
  | .u32 => 32
  | .u64 => 64

def lowDomainSize : Nat := 65536

def wordCount : Nat := 1024

/-- Values from which a sorted result is a bitset, and the array limit. -/
def arrayToBitsetThreshold : Nat := 4096

/-- The number of chunk keys of a key type. -/
def KeyType.chunkDomainSize (K : KeyType) : Nat := 2 ^ (K.digits - 16)

def chunkKey (x : Nat) : Nat := x / lowDomainSize

def lowKey (x : Nat) : Nat := x % lowDomainSize

def compose (chunk low : Nat) : Nat := chunk * lowDomainSize + low

theorem compose_chunkKey_lowKey (x : Nat) : compose (chunkKey x) (lowKey x) = x :=
  Nat.div_add_mod' x lowDomainSize

@[simp] theorem chunkKey_compose {c v : Nat} (hv : v < lowDomainSize) :
    chunkKey (compose c v) = c := by
  unfold chunkKey compose lowDomainSize at *
  omega

@[simp] theorem lowKey_compose {c v : Nat} (hv : v < lowDomainSize) :
    lowKey (compose c v) = v := by
  unfold lowKey compose lowDomainSize at *
  omega

theorem lowKey_lt (x : Nat) : lowKey x < lowDomainSize := Nat.mod_lt _ (by decide)

/-! ## Runs -/

/-- The closed interval of values from `first` to `last`
(the source's `begin` and `end`). -/
structure Run where
  first : Nat
  last : Nat
deriving DecidableEq, Repr

namespace Run

def values (r : Run) : List Nat := List.range' r.first (r.last + 1 - r.first)

def length (r : Run) : Nat := r.last - r.first + 1

@[simp] theorem mem_values {r : Run} {v : Nat} : v ∈ r.values ↔ r.first ≤ v ∧ v ≤ r.last := by
  rw [values, List.mem_range'_1]
  omega

theorem length_values {r : Run} (h : r.first ≤ r.last) : r.values.length = r.length := by
  rw [values, List.length_range', length]
  omega

theorem values_ascending (r : Run) : r.values.Pairwise (· < ·) := List.pairwise_lt_range'

end Run

/-- What the runs of a list hold. -/
def runValues (runs : List Run) : List Nat := runs.flatMap Run.values

def runCardinality (runs : List Run) : Nat := (runs.map Run.length).sum

@[simp] theorem runValues_nil : runValues [] = [] := rfl

@[simp] theorem runValues_cons (r : Run) (rs : List Run) :
    runValues (r :: rs) = r.values ++ runValues rs := rfl

@[simp] theorem runValues_append (rs ss : List Run) :
    runValues (rs ++ ss) = runValues rs ++ runValues ss := List.flatMap_append

@[simp] theorem runCardinality_nil : runCardinality [] = 0 := rfl

@[simp] theorem runCardinality_cons (r : Run) (rs : List Run) :
    runCardinality (r :: rs) = r.length + runCardinality rs := by simp [runCardinality]

@[simp] theorem runCardinality_append (rs ss : List Run) :
    runCardinality (rs ++ ss) = runCardinality rs + runCardinality ss := by simp [runCardinality]

theorem mem_runValues {runs : List Run} {v : Nat} :
    v ∈ runValues runs ↔ ∃ r ∈ runs, r.first ≤ v ∧ v ≤ r.last := by
  simp [runValues, List.mem_flatMap]

/-- Runs as every kernel leaves them: none is backward, and each begins at least
two above the end of the one before it, so they are ascending, disjoint and
never adjacent. -/
structure Canonical (runs : List Run) : Prop where
  forward : ∀ r ∈ runs, r.first ≤ r.last
  apart : runs.Pairwise fun r s ↦ r.last + 1 < s.first
  bounded : ∀ r ∈ runs, r.last < lowDomainSize

namespace Canonical

theorem nil : Canonical [] := ⟨by simp, List.Pairwise.nil, by simp⟩

theorem tail {r : Run} {rs : List Run} (h : Canonical (r :: rs)) : Canonical rs :=
  ⟨fun s hs ↦ h.forward s (List.mem_cons_of_mem r hs), h.apart.of_cons,
    fun s hs ↦ h.bounded s (List.mem_cons_of_mem r hs)⟩

theorem head_le {r : Run} {rs : List Run} (h : Canonical (r :: rs)) : r.first ≤ r.last :=
  h.forward r List.mem_cons_self

theorem head_apart {r s : Run} {rs : List Run} (h : Canonical (r :: rs)) (hs : s ∈ rs) :
    r.last + 1 < s.first := List.rel_of_pairwise_cons h.apart hs

/-- Canonical runs are at least two apart, so they are no more than half of the domain. -/
theorem two_mul_length_le {runs : List Run} (h : Canonical runs) (lo : Nat)
    (hlo : ∀ r ∈ runs, lo ≤ r.first) (hle : lo ≤ lowDomainSize + 1) :
    lo + 2 * runs.length ≤ lowDomainSize + 1 := by
  induction runs generalizing lo with
  | nil => simpa using hle
  | cons r rs ih =>
      have h1 := h.head_le
      have h2 := hlo r List.mem_cons_self
      have h3 := h.bounded r List.mem_cons_self
      have := ih h.tail (r.last + 2) (fun s hs ↦ h.head_apart hs) (by omega)
      rw [List.length_cons]
      omega

theorem cons_iff {r : Run} {rs : List Run} :
    Canonical (r :: rs) ↔ r.first ≤ r.last ∧ r.last < lowDomainSize ∧
      (∀ s ∈ rs, r.last + 1 < s.first) ∧ Canonical rs := by
  constructor
  · intro h
    exact ⟨h.head_le, h.bounded r List.mem_cons_self, fun s hs ↦ h.head_apart hs, h.tail⟩
  · rintro ⟨hle, hlt, hap, h⟩
    exact ⟨by simpa using ⟨hle, h.forward⟩, List.pairwise_cons.mpr ⟨hap, h.apart⟩,
      by simpa using ⟨hlt, h.bounded⟩⟩

theorem append_singleton_iff {l : List Run} {r : Run} :
    Canonical (l ++ [r]) ↔ Canonical l ∧ r.first ≤ r.last ∧ r.last < lowDomainSize ∧
      ∀ s ∈ l, s.last + 1 < r.first := by
  constructor
  · intro h
    have hap := List.pairwise_append.mp h.apart
    exact ⟨⟨fun s hs ↦ h.forward s (List.mem_append_left _ hs), hap.1,
      fun s hs ↦ h.bounded s (List.mem_append_left _ hs)⟩,
      h.forward r (by simp), h.bounded r (by simp), fun s hs ↦ hap.2.2 s hs r (by simp)⟩
  · rintro ⟨h, hle, hlt, hap⟩
    refine ⟨fun s hs ↦ ?_, List.pairwise_append.mpr ⟨h.apart, List.pairwise_singleton _ _,
      fun s hs t ht ↦ ?_⟩, fun s hs ↦ ?_⟩
    · rcases List.mem_append.mp hs with hs | hs
      · exact h.forward s hs
      · rwa [List.mem_singleton.mp hs]
    · rw [List.mem_singleton.mp ht]
      exact hap s hs
    · rcases List.mem_append.mp hs with hs | hs
      · exact h.bounded s hs
      · rwa [List.mem_singleton.mp hs]

theorem values_ascending {runs : List Run} (h : Canonical runs) :
    (runValues runs).Pairwise (· < ·) := by
  induction runs with
  | nil => exact List.Pairwise.nil
  | cons r rs ih =>
      refine List.pairwise_append.mpr ⟨r.values_ascending, ih h.tail, fun a ha b hb ↦ ?_⟩
      obtain ⟨s, hs, hlo, -⟩ := mem_runValues.mp hb
      have := h.head_apart hs
      have := (Run.mem_values.mp ha).2
      omega

theorem length_values {runs : List Run} (h : Canonical runs) :
    (runValues runs).length = runCardinality runs := by
  induction runs with
  | nil => rfl
  | cons r rs ih =>
      rw [runValues_cons, List.length_append, ih h.tail, Run.length_values h.head_le,
        runCardinality_cons]

theorem values_lt {runs : List Run} (h : Canonical runs) :
    ∀ v ∈ runValues runs, v < lowDomainSize := by
  intro v hv
  obtain ⟨r, hr, -, hle⟩ := mem_runValues.mp hv
  exact lt_of_le_of_lt hle (h.bounded r hr)

theorem values_ne_nil {runs : List Run} (h : Canonical runs) (hne : runs ≠ []) :
    runValues runs ≠ [] := by
  cases runs with
  | nil => exact absurd rfl hne
  | cons r rs =>
      refine List.ne_nil_of_mem (a := r.first) (mem_runValues.mpr ⟨r, List.mem_cons_self, ?_⟩)
      exact ⟨le_rfl, h.head_le⟩

theorem head_values {r : Run} {rs : List Run} (h : Canonical (r :: rs))
    (hne : runValues (r :: rs) ≠ []) : (runValues (r :: rs)).head hne = r.first := by
  have hcons : r.values = r.first :: List.range' (r.first + 1) (r.last - r.first) := by
    have hlen : r.last + 1 - r.first = (r.last - r.first) + 1 := by
      have := h.head_le
      omega
    rw [Run.values, hlen, List.range'_succ]
  simp only [runValues_cons, hcons, List.cons_append, List.head_cons]

theorem getLast_values {rs : List Run} {r : Run} (h : Canonical (rs ++ [r]))
    (hne : runValues (rs ++ [r]) ≠ []) : (runValues (rs ++ [r])).getLast hne = r.last := by
  have hsnoc : r.values = List.range' r.first (r.last - r.first) ++ [r.last] := by
    have hle := (append_singleton_iff.mp h).2.1
    have hlen : r.last + 1 - r.first = (r.last - r.first) + 1 := by omega
    have hlast : r.first + 1 * (r.last - r.first) = r.last := by omega
    rw [Run.values, hlen, List.range'_concat, hlast]
  simp only [runValues_append, runValues_cons, runValues_nil, List.append_nil, hsnoc,
    ← List.append_assoc, List.getLast_concat]

end Canonical

/-! ## Handles -/

inductive Payload where
  | array (values : List Nat)
  | run (runs : List Run)
  | bitset (words : Words wordCount)

inductive ContainerKind where
  | array
  | run
  | bitset
deriving DecidableEq, Repr

def Payload.kind : Payload → ContainerKind
  | .array _ => .array
  | .run _ => .run
  | .bitset _ => .bitset

/-- The values a payload holds, in ascending order when it is well formed. -/
def Payload.values : Payload → List Nat
  | .array values => values
  | .run runs => runValues runs
  | .bitset words => words.values

structure ContainerHandle where
  payload : Payload
  cardinality : Nat := 0
  min : Nat := 0
  max : Nat := 0
  endpointsStale : Bool := false
  cardinalityStale : Bool := false

namespace ContainerHandle

def kind (h : ContainerHandle) : ContainerKind := h.payload.kind

def values (h : ContainerHandle) : List Nat := h.payload.values

def holdsRun (h : ContainerHandle) : Bool := h.kind = .run

/-- The element count in the payload's own unit. -/
def count (h : ContainerHandle) : Nat :=
  match h.payload with
  | .array values => values.length
  | .run runs => runs.length
  | .bitset _ => wordCount

/-- `array_ref::sync_header`: count and endpoints of an array are read off it. -/
def syncHeader (values : List Nat) : ContainerHandle where
  payload := .array values
  cardinality := values.length
  min := values.headD 0
  max := values.getLastD 0

def makeArrayFromSorted (values : List Nat) : ContainerHandle := syncHeader values

/-- A run payload whose count the caller knows, with the endpoints of its ends. -/
def makeRunFrom (runs : List Run) (cardinality : Nat) : ContainerHandle where
  payload := .run runs
  cardinality := cardinality
  min := (runs.head?.map Run.first).getD 0
  max := (runs.getLast?.map Run.last).getD 0

/-- A word block whose count the caller knows; its endpoints are found when first read. -/
def makeBitsetFrom (words : Words wordCount) (cardinality : Nat) : ContainerHandle where
  payload := .bitset words
  cardinality := cardinality
  endpointsStale := true

end ContainerHandle

/-- What `validate` asks of a payload: ascending values or canonical runs, all
inside the low domain. -/
inductive Payload.WellFormed : Payload → Prop
  | array {values : List Nat} (ascending : values.Pairwise (· < ·))
      (bounded : ∀ v ∈ values, v < lowDomainSize) : WellFormed (.array values)
  | run {runs : List Run} (canonical : Canonical runs) : WellFormed (.run runs)
  | bitset (words : Words wordCount) : WellFormed (.bitset words)

namespace Payload.WellFormed

theorem values_ascending {p : Payload} (h : p.WellFormed) : p.values.Pairwise (· < ·) := by
  cases h with
  | array ascending _ => exact ascending
  | run canonical => exact canonical.values_ascending
  | bitset words => exact words.values_ascending

theorem values_lt {p : Payload} (h : p.WellFormed) : ∀ v ∈ p.values, v < lowDomainSize := by
  cases h with
  | array _ bounded => exact bounded
  | run canonical => exact canonical.values_lt
  | bitset words => exact fun v hv ↦ Words.lt_of_mem_values hv

end Payload.WellFormed

/-- A valid container: a well-formed payload under an exact count and endpoints
that are exact or marked stale. -/
structure ContainerHandle.Valid (h : ContainerHandle) : Prop where
  payload : h.payload.WellFormed
  exact : h.cardinalityStale = false
  cardinality : h.cardinality = h.values.length
  endpoints : h.endpointsStale = true ∨
    ∀ hne : h.values ≠ [], h.min = h.values.head hne ∧ h.max = h.values.getLast hne

namespace ContainerHandle.Valid

variable {h : ContainerHandle}

theorem values_ascending (hv : h.Valid) : h.values.Pairwise (· < ·) := hv.payload.values_ascending

theorem values_lt (hv : h.Valid) : ∀ v ∈ h.values, v < lowDomainSize := hv.payload.values_lt

end ContainerHandle.Valid

/-! ## Handles with a header read off the payload -/

namespace ContainerHandle

theorem syncHeader_valid {values : List Nat} (hasc : values.Pairwise (· < ·))
    (hlt : ∀ v ∈ values, v < lowDomainSize) : (syncHeader values).Valid := by
  refine ⟨.array hasc hlt, rfl, rfl, .inr fun hne ↦ ?_⟩
  cases values with
  | nil => exact absurd rfl hne
  | cons v vs =>
      have hne : v :: vs ≠ [] := hne
      refine ⟨rfl, ?_⟩
      show (v :: vs).getLastD 0 = (v :: vs).getLast hne
      rw [List.getLastD_eq_getLast?, List.getLast?_eq_some_getLast hne]
      rfl

theorem makeRunFrom_valid {runs : List Run} {cardinality : Nat} (h : Canonical runs)
    (hcard : runCardinality runs = cardinality) : (makeRunFrom runs cardinality).Valid := by
  refine ⟨.run h, rfl, ?_, .inr fun hne ↦ ⟨?_, ?_⟩⟩
  · rw [← hcard]
    exact h.length_values.symm
  · cases runs with
    | nil => exact absurd rfl hne
    | cons r rs => exact (h.head_values hne).symm
  · rcases List.eq_nil_or_concat' runs with rfl | ⟨rs, r, rfl⟩
    · exact absurd rfl hne
    · have hlast := h.getLast_values hne
      simp only [makeRunFrom, List.getLast?_concat, Option.map_some, Option.getD_some]
      exact hlast.symm

theorem makeBitsetFrom_valid {words : Words wordCount} {cardinality : Nat}
    (h : words.count = cardinality) : (makeBitsetFrom words cardinality).Valid :=
  ⟨.bitset words, rfl, h.symm.trans words.count_eq_length_values, .inl rfl⟩

end ContainerHandle

end Roaring
