import Mathlib
import Roaring.Lib.Words

/-!
# Filling a buffer of a given size

A loop fills a buffer from its front, one slot after the other.  A store outside
the slots has no result, so that a loop that has one stored inside them only.
`Filled size vs out` says which values stand in front; one more store behind them
puts one more value there, or, where the loop does not move on, none.
-/

namespace Lib

/-- `out[ i ] = v`. -/
def store (out : List Nat) (i v : Nat) : Option (List Nat) :=
  if i < out.length then some (out.set i v) else none

/-- The first of the `size` slots of `out` hold `vs`. -/
structure Filled (size : Nat) (vs out : List Nat) : Prop where
  length : out.length = size
  front : vs <+: out

section Filled

variable {size v : Nat} {vs ws out : List Nat}

theorem Filled.nil (out : List Nat) : Filled out.length [] out := ⟨rfl, List.nil_prefix⟩

theorem Filled.length_le (h : Filled size vs out) : vs.length ≤ size := h.length ▸ h.front.length_le

theorem Filled.of_append (h : Filled size (vs ++ ws) out) : Filled size vs out :=
  ⟨h.length, (List.prefix_append vs ws).trans h.front⟩

/-- A buffer that is filled holds nothing else. -/
theorem Filled.eq (h : Filled size vs out) (hall : vs.length = size) : out = vs :=
  (h.front.eq_of_length (hall.trans h.length.symm)).symm

/-- A store behind the values in front. -/
theorem Filled.store (h : Filled size vs out) (hroom : vs.length < size) (v : Nat) :
    ∃ out', Lib.store out vs.length v = some out' ∧ Filled size (vs ++ [v]) out' := by
  have hlt : vs.length < out.length := by rwa [h.length]
  refine ⟨out.set vs.length v, if_pos hlt, by rw [List.length_set, h.length], ?_⟩
  obtain ⟨rest, rfl⟩ := h.front
  cases rest with
  | nil => simp at hlt
  | cons r rest =>
    rw [List.set_append_right _ _ le_rfl, Nat.sub_self, List.set_cons_zero]
    exact ⟨rest, by rw [List.append_assoc]; rfl⟩

/-- `copy_n` into the slots from `pos` on: the next slot, and the buffer. -/
def storeAll : (vs : List Nat) → (pos : Nat) → (out : List Nat) → Option (Nat × List Nat)
  | [], pos, out => some (pos, out)
  | v :: vs, pos, out => do
      let out ← store out pos v
      storeAll vs (pos + 1) out

theorem storeAll_spec (h : Filled size vs out) (hfit : vs.length + ws.length ≤ size) :
    ∃ out', storeAll ws vs.length out = some (vs.length + ws.length, out') ∧
      Filled size (vs ++ ws) out' := by
  induction ws generalizing vs out with
  | nil => exact ⟨out, rfl, by rwa [List.append_nil]⟩
  | cons w ws ih =>
    rw [List.length_cons] at hfit ⊢
    obtain ⟨mid, hstore, hmid⟩ := h.store (by omega) w
    have hlen : (vs ++ [w]).length = vs.length + 1 := by
      rw [List.length_append, List.length_singleton]
    obtain ⟨out', hrest, hfilled⟩ := ih hmid (by rw [hlen]; omega)
    rw [hlen] at hrest
    refine ⟨out', ?_, ?_⟩
    · rw [storeAll, hstore, Option.bind_eq_bind, Option.bind_some, hrest]
      congr 2
      omega
    · rwa [List.append_cons]

end Filled

/-! ## The set bits of a word -/

/-- The positions of a word that has one: the lowest, and those of what is left without it. -/
theorem bitPositions_cons {base : Nat} {w : Word} (hw : w ≠ 0#64) :
    bitPositions base w = (base + w.ctz.toNat) :: bitPositions base (w &&& (w - 1#64)) := by
  rw [← extractSetBits_eq, extractSetBits, dif_neg hw, extractSetBits_eq]

@[simp] theorem bitPositions_zero (base : Nat) : bitPositions base 0#64 = [] := by
  rw [← extractSetBits_eq, extractSetBits, dif_pos rfl]

theorem popcount_cons {w : Word} (hw : w ≠ 0#64) :
    popcount w = popcount (w &&& (w - 1#64)) + 1 := by
  rw [popcount_eq_length 0 w, bitPositions_cons hw, List.length_cons, ← popcount_eq_length]

/-- The positions move with their base. -/
theorem bitPositions_map_add (base : Nat) (w : Word) : (bitPositions 0 w).map (base + ·) =
    bitPositions base w := by
  simp [bitPositions]

section Loops

variable (cast : Nat → Nat)

/-- The loop that stores the lowest set bit of a word and takes it off: the next slot, and the
buffer. -/
def storeSetBits (base : Nat) (w : Word) (pos : Nat) (out : List Nat) : Option (Nat × List Nat) :=
  if h : w = 0#64 then some (pos, out)
  else do
    let out ← store out pos (cast (base + w.ctz.toNat))
    storeSetBits base (w &&& (w - 1#64)) (pos + 1) out
termination_by w.toNat
decreasing_by exact and_sub_one_lt h

variable {cast} {size : Nat} {vs out : List Nat}

theorem storeSetBits_spec (base : Nat) {w : Word} (h : Filled size vs out)
    (hfit : vs.length + popcount w ≤ size) :
    ∃ out', storeSetBits cast base w vs.length out = some (vs.length + popcount w, out') ∧
      Filled size (vs ++ (bitPositions base w).map cast) out' := by
  induction w using extractSetBits.induct generalizing vs out with
  | case1 =>
    refine ⟨out, ?_, ?_⟩
    · rw [storeSetBits, dif_pos rfl, popcount_zero]
      rfl
    · rwa [bitPositions_zero, List.map_nil, List.append_nil]
  | case2 w hw ih =>
    rw [popcount_cons hw] at hfit ⊢
    obtain ⟨out', hstore, hfilled⟩ := h.store (by omega) (cast (base + w.ctz.toNat))
    obtain ⟨last, hlast, hall⟩ :=
      ih hfilled (by rw [List.length_append, List.length_singleton]; omega)
    rw [List.length_append, List.length_singleton] at hlast
    refine ⟨last, ?_, ?_⟩
    · rw [storeSetBits, dif_neg hw, hstore, Option.bind_eq_bind, Option.bind_some, hlast]
      congr 2
      omega
    · rwa [bitPositions_cons hw, List.map_cons, List.append_cons]

/-! ## The set bits of several words -/

variable (cast) in
/-- The words `f i` of some indices, one after the other. -/
def storeWords (f : Nat → Word) (is : List Nat) (state : Nat × List Nat) :
    Option (Nat × List Nat) :=
  is.foldlM (fun state i ↦ storeSetBits cast (64 * i) (f i) state.1 state.2) state

variable {f g : Nat → Word} {is js : List Nat}

theorem storeWords_cons (i : Nat) (state : Nat × List Nat) :
    storeWords cast f (i :: is) state =
      (storeSetBits cast (64 * i) (f i) state.1 state.2).bind (storeWords cast f is) :=
        List.foldlM_cons

theorem storeWords_append (state : Nat × List Nat) :
    storeWords cast f (is ++ js) state = (storeWords cast f is state).bind (storeWords cast f js) :=
      List.foldlM_append

theorem storeWords_congr (h : ∀ i ∈ is, f i = g i) (state : Nat × List Nat) :
    storeWords cast f is state = storeWords cast g is state := by
  induction is generalizing state with
  | nil => rfl
  | cons i is ih =>
    rw [storeWords_cons, storeWords_cons, h i List.mem_cons_self,
      funext (ih fun j hj ↦ h j (List.mem_cons_of_mem i hj))]

theorem storeWords_spec (h : Filled size vs out)
    (hfit : vs.length + (is.flatMap fun i ↦ bitPositions (64 * i) (f i)).length ≤ size) :
    ∃ out', storeWords cast f is (vs.length, out) =
        some (vs.length + (is.flatMap fun i ↦ bitPositions (64 * i) (f i)).length, out') ∧
      Filled size (vs ++ (is.flatMap fun i ↦ bitPositions (64 * i) (f i)).map cast) out' := by
  induction is generalizing vs out with
  | nil => exact ⟨out, rfl, by rwa [List.flatMap_nil, List.map_nil, List.append_nil]⟩
  | cons i is ih =>
    rw [List.flatMap_cons, List.length_append, ← popcount_eq_length] at hfit ⊢
    obtain ⟨mid, hword, hmid⟩ := storeSetBits_spec (64 * i) h (w := f i) (by omega)
    have hlen : (vs ++ (bitPositions (64 * i) (f i)).map cast).length = vs.length + popcount
        (f i) := by
      rw [List.length_append, List.length_map, ← popcount_eq_length]
    obtain ⟨out', hrest, hfilled⟩ := ih hmid (by rw [hlen]; omega)
    rw [hlen] at hrest
    refine ⟨out', ?_, ?_⟩
    · rw [storeWords_cons, hword, Option.bind_some, hrest, Nat.add_assoc]
    · rwa [List.map_append, ← List.append_assoc]

end Loops

end Lib
