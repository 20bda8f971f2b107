import Mathlib
import Roaring.Lib.Blocks

/-!
# Leaves of the chunk tree

A leaf holds up to 15 entries, a key and a handle each.  Its keys lie in an
array whose unused slots hold the pad, so that a search counts over the whole
array and never reads how many keys there are.
-/

namespace Roaring

open Lib

/-! ## Constants -/

/-- The key slot that holds no key. -/
def chunkKeyPad : Nat := 2 ^ 63 - 1

def leafCapacity : Nat := 15

def innerKeys : Nat := 16

/-- The key slots of a leaf of capacity `cap`. -/
def padded (cap : Nat) : Nat := (cap + 3) / 4 * 4

/-- A leaf that falls below this many entries is merged into a sibling it fits into. -/
def mergeBelow : Nat := 3

def mergeLimit : Nat := leafCapacity * 3 / 4

/-- How many of the keys are below `key`. -/
def countBelow (keys : List Nat) (key : Nat) : Nat := keys.countP (· < key)

/-! ## Leaves -/

abbrev LeafId := Nat

structure Leaf (H : Type) where
  id : LeafId
  cap : Nat
  size : Nat
  keys : List Nat
  slots : List H

namespace Leaf

variable {H : Type}

/-- An empty leaf: no entries, all key slots the pad. -/
def make (id : LeafId) (cap : Nat) : Leaf H where
  id := id
  cap := cap
  size := 0
  keys := List.replicate (padded cap) chunkKeyPad
  slots := []

instance : Inhabited (Leaf H) := ⟨make 0 leafCapacity⟩

/-- The entries a leaf holds. -/
def entries (l : Leaf H) : List (Nat × H) := (l.keys.take l.size).zip l.slots

def keyAt (l : Leaf H) (index : Nat) : Nat := l.keys.getD index chunkKeyPad

def lastKey (l : Leaf H) : Nat := l.keyAt (l.size - 1)

/-- `leaf_put`: an entry at `index` of a leaf that has room. -/
def put (l : Leaf H) (index key : Nat) (handle : H) : Leaf H :=
  { l with
    size := l.size + 1
    keys := (memmove l.keys (index + 1) index (l.size - index)).set index key
    slots := l.slots.insertIdx index handle }

/-- `leaf_append`: an entry behind the last one of a leaf that has room. -/
def append (l : Leaf H) (key : Nat) (handle : H) : Leaf H :=
  { l with
    size := l.size + 1
    keys := l.keys.set l.size key
    slots := l.slots ++ [handle] }

/-- `leaf_remove`: the entry at `index` goes away. -/
def remove (l : Leaf H) (index : Nat) : Leaf H :=
  { l with
    size := l.size - 1
    keys := (memmove l.keys index (index + 1) (l.size - index - 1)).set (l.size - 1) chunkKeyPad
    slots := l.slots.eraseIdx index }

/-- The entries of `src` behind those of `dst`, which has room for them. -/
def absorb (dst src : Leaf H) : Leaf H :=
  { dst with
    size := dst.size + src.size
    keys := overwrite dst.keys dst.size (src.keys.take src.size)
    slots := dst.slots ++ src.slots }

/-- `relocate_leaf`: the entries in a fresh leaf of capacity `cap`. -/
def relocate (l : Leaf H) (id : LeafId) (cap : Nat) : Leaf H where
  id := id
  cap := cap
  size := l.size
  keys := overwrite (List.replicate (padded cap) chunkKeyPad) 0 (l.keys.take l.size)
  slots := l.slots

/-- The two halves of a split: `kept` entries stay, the others move to a fresh leaf. -/
def split (l : Leaf H) (right : LeafId) (kept : Nat) : Leaf H × Leaf H :=
  ({ l with
      size := kept
      keys := fill l.keys kept l.size chunkKeyPad
      slots := l.slots.take kept },
    { id := right
      cap := leafCapacity
      size := l.size - kept
      keys := overwrite (List.replicate (padded leafCapacity) chunkKeyPad) 0
        ((l.keys.drop kept).take (l.size - kept))
      slots := l.slots.drop kept })

/-! ## What a leaf holds -/

/-- The leaf holds the entries `es`: its keys are theirs and pads behind them. -/
structure Holds (l : Leaf H) (es : List (Nat × H)) : Prop where
  size : l.size = es.length
  keys : l.keys = padTo (padded l.cap) chunkKeyPad (es.map Prod.fst)
  slots : l.slots = es.map Prod.snd
  fits : es.length ≤ l.cap

variable {l src : Leaf H} {es fs : List (Nat × H)} {index key : Nat} {handle : H}

theorem le_padded (cap : Nat) : cap ≤ padded cap := by
  unfold padded
  omega

theorem Holds.make (id : LeafId) (cap : Nat) : (make id cap : Leaf H).Holds [] where
  size := rfl
  keys := (padTo_nil _ _).symm
  slots := rfl
  fits := Nat.zero_le cap

namespace Holds

theorem length_keys_le (h : l.Holds es) : (es.map Prod.fst).length ≤ padded l.cap := by
  rw [List.length_map]
  exact h.fits.trans (le_padded l.cap)

theorem take_keys (h : l.Holds es) : l.keys.take l.size = es.map Prod.fst := by
  rw [h.keys, h.size, take_padTo (by rw [List.length_map]), ← List.length_map (f := Prod.fst),
    List.take_length]

theorem entries_eq (h : l.Holds es) : l.entries = es := by
  rw [entries, h.take_keys, h.slots]
  clear h
  induction es with
  | nil => rfl
  | cons e es ih => rw [List.map_cons, List.map_cons, List.zip_cons_cons, ih]

theorem keyAt_eq (h : l.Holds es) (i : Nat) :
    l.keyAt i = (es.map Prod.fst).getD i chunkKeyPad := by
  rw [keyAt, h.keys, getD_padTo]

theorem keyAt_of_lt (h : l.Holds es) {i : Nat} (hi : i < es.length) : l.keyAt i = es[i].1 := by
  rw [h.keyAt_eq, List.getD_eq_getElem _ _ (by rwa [List.length_map]), List.getElem_map]

/-- A slot holds the pad exactly when it is behind the last entry. -/
theorem keyAt_ne_pad_iff (h : l.Holds es) (hlt : ∀ e ∈ es, e.1 < chunkKeyPad) {i : Nat} :
    l.keyAt i ≠ chunkKeyPad ↔ i < es.length := by
  constructor
  · intro hne
    by_contra hge
    apply hne
    rw [h.keyAt_eq, List.getD_eq_default]
    rw [List.length_map]
    omega
  · intro hi
    rw [h.keyAt_of_lt hi]
    exact (hlt _ (List.getElem_mem hi)).ne

/-- The scan over the whole array counts the entries below the probe. -/
theorem countBelow_eq {front back : List (Nat × H)} (h : l.Holds (front ++ back)) {probe : Nat}
    (hfront : ∀ e ∈ front, e.1 < probe) (hback : ∀ e ∈ back, probe ≤ e.1)
    (hpad : probe ≤ chunkKeyPad) : countBelow l.keys probe = front.length := by
  rw [countBelow, h.keys, countP_padTo (by simpa using hpad), List.map_append, List.countP_append,
    List.countP_eq_length.mpr, List.countP_eq_zero.mpr, List.length_map, Nat.add_zero]
  · intro k hk
    obtain ⟨e, he, rfl⟩ := List.mem_map.mp hk
    simpa using hback e he
  · intro k hk
    obtain ⟨e, he, rfl⟩ := List.mem_map.mp hk
    exact decide_eq_true (hfront e he)

/-! ### The operations -/

theorem put (h : l.Holds es) (hi : index ≤ es.length) (hroom : es.length < l.cap) (key : Nat)
    (handle : H) : (l.put index key handle).Holds (es.insertIdx index (key, handle)) where
  size := by
    rw [List.length_insertIdx_of_le_length hi]
    exact congrArg (· + 1) h.size
  keys := by
    have hlen : l.size = (es.map Prod.fst).length := by rw [List.length_map, h.size]
    show (memmove l.keys (index + 1) index (l.size - index)).set index key = _
    rw [h.keys, hlen, insert_padTo (by rwa [List.length_map])
      (by rw [List.length_map]; exact hroom.trans_le (le_padded l.cap)), List.map_insertIdx]
    rfl
  slots := by
    show l.slots.insertIdx index handle = _
    rw [h.slots, List.map_insertIdx]
  fits := by
    rw [List.length_insertIdx_of_le_length hi]
    exact hroom

theorem append (h : l.Holds es) (hroom : es.length < l.cap) (key : Nat) (handle : H) :
    (l.append key handle).Holds (es ++ [(key, handle)]) where
  size := by
    rw [List.length_append]
    exact congrArg (· + 1) h.size
  keys := by
    have hlen : l.size = (es.map Prod.fst).length := by rw [List.length_map, h.size]
    show l.keys.set l.size key = _
    rw [h.keys, hlen, set_padTo (by rw [List.length_map]; exact hroom.trans_le (le_padded l.cap)),
      List.map_append]
    rfl
  slots := by
    show l.slots ++ [handle] = _
    rw [h.slots, List.map_append]
    rfl
  fits := by
    rw [List.length_append]
    exact hroom

theorem remove (h : l.Holds es) (hi : index < es.length) :
    (l.remove index).Holds (es.eraseIdx index) where
  size := by
    rw [List.length_eraseIdx_of_lt hi]
    exact congrArg (· - 1) h.size
  keys := by
    have hlen : l.size = (es.map Prod.fst).length := by rw [List.length_map, h.size]
    show (memmove l.keys index (index + 1) (l.size - index - 1)).set (l.size - 1) chunkKeyPad = _
    rw [h.keys, hlen, erase_padTo (by rwa [List.length_map]) h.length_keys_le]
    simp only [List.eraseIdx_map]
    rfl
  slots := by
    show l.slots.eraseIdx index = _
    rw [h.slots, List.eraseIdx_map]
  fits := by
    rw [List.length_eraseIdx_of_lt hi]
    have hfits : es.length ≤ l.cap := h.fits
    show es.length - 1 ≤ l.cap
    omega

theorem absorb (h : l.Holds es) (hs : src.Holds fs) (hfits : es.length + fs.length ≤ l.cap) :
    (l.absorb src).Holds (es ++ fs) where
  size := by
    rw [List.length_append, ← h.size, ← hs.size]
    rfl
  keys := by
    have hlen : l.size = (es.map Prod.fst).length := by rw [List.length_map, h.size]
    show overwrite l.keys l.size (src.keys.take src.size) = _
    rw [hs.take_keys, h.keys, hlen, overwrite_padTo, List.map_append]
    rfl
  slots := by
    show l.slots ++ src.slots = _
    rw [h.slots, hs.slots, List.map_append]
  fits := by
    rw [List.length_append]
    exact hfits

theorem relocate (h : l.Holds es) (id : LeafId) {cap : Nat} (hfits : es.length ≤ cap) :
    (l.relocate id cap).Holds es where
  size := h.size
  keys := by
    show overwrite (List.replicate (padded cap) chunkKeyPad) 0 (l.keys.take l.size) = _
    rw [h.take_keys, overwrite_replicate]
    rfl
  slots := h.slots
  fits := hfits

theorem split (h : l.Holds es) (hcap : l.cap = leafCapacity) (right : LeafId) {kept : Nat}
    (hk : kept ≤ es.length) :
    (l.split right kept).1.Holds (es.take kept) ∧ (l.split right kept).2.Holds (es.drop kept) := by
  have hlen : l.size = (es.map Prod.fst).length := by rw [List.length_map, h.size]
  have hfits := h.fits
  constructor
  · constructor
    · exact (List.length_take_of_le hk).symm
    · show fill l.keys kept l.size chunkKeyPad = _
      rw [h.keys, hlen, fill_padTo (by rwa [List.length_map]) h.length_keys_le, List.map_take]
      rfl
    · show l.slots.take kept = _
      rw [h.slots, List.map_take]
    · show (es.take kept).length ≤ l.cap
      rw [List.length_take_of_le hk]
      exact hk.trans hfits
  · constructor
    · show l.size - kept = _
      rw [List.length_drop, h.size]
    · have hmoved : (l.keys.drop kept).take (l.size - kept) = (es.drop kept).map Prod.fst := by
        rw [← List.drop_take, h.take_keys, List.map_drop]
      show overwrite (List.replicate (padded leafCapacity) chunkKeyPad) 0
        ((l.keys.drop kept).take (l.size - kept)) = _
      rw [hmoved, overwrite_replicate]
      rfl
    · show l.slots.drop kept = _
      rw [h.slots, List.map_drop]
    · show (es.drop kept).length ≤ leafCapacity
      rw [List.length_drop]
      omega

end Holds

end Leaf

end Roaring
