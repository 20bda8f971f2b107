import Mathlib
import Roaring.Lib.Blocks
import Roaring.Lib.Search
import Roaring.Container.Ownership

/-!
# The flat chunk table

Two parallel arrays in one block, the keys and the container handles, which
every operation moves by the same indices: a cell is one of each.  The cells
from `size` on are uninitialized memory.  Sizes and capacities are 32-bit in the
source; there are at most as many entries as chunk keys, so their sums never
wrap.  Handles are moved by `memmove` and `memcpy`, without their constructors,
so that the same handle stands in two cells until one of them is overwritten or
cut off by the size.

An operation that throws leaves the table and the heap as they were at that
point, which is what `Outcome` records.
-/

namespace Roaring

open Lib

/-- The entry of an index in both arrays of a table: `keys_[ i ]` and `slots_[ i ]`. -/
structure Cell where
  key : Nat
  slot : HandleBytes

instance : Inhabited Cell := ⟨⟨0, default⟩⟩

/-- The policies a table is compiled with: of its handles, whether a block may be
held by more than one table, and up to which capacity none is. -/
structure TablePolicy where
  handle : CowPolicy
  sharing : Bool
  smallTableCapacity : Nat

/-- `counted`: whether a block of this capacity counts the tables that hold it. -/
def TablePolicy.counted (P : TablePolicy) (capacity : Nat) : Bool :=
  P.handle = .refcounted && P.sharing && P.smallTableCapacity < capacity

/-- A flat table; `holders` is the count in the block's prefix. -/
structure ChunkArray where
  cells : List Cell := []
  size : Nat := 0
  capacity : Nat := 0
  holders : Nat := 1

/-- A table operation that has returned or has thrown. -/
structure Outcome where
  table : ChunkArray
  heap : Heap
  completed : Bool

namespace ChunkArray

variable (P : TablePolicy)

def indexLimit : Nat := 2 ^ 32

def entries (t : ChunkArray) : List Cell := t.cells.take t.size

def keys (t : ChunkArray) : List Nat := t.entries.map Cell.key

def slots (t : ChunkArray) : List HandleBytes := t.entries.map Cell.slot

/-- A fresh block; its bytes are written before they are read. -/
def uninitialized (capacity : Nat) : List Cell := List.replicate capacity default

/-- `shared`. -/
def shared (t : ChunkArray) : Bool := P.counted t.capacity && t.holders ≠ 1

/-- `std::lower_bound( keys_, keys_ + end, key )`. -/
def lowerBound (cells : List Cell) (stop key : Nat) : Nat :=
  ((cells.take stop).takeWhile fun c ↦ decide (c.key < key)).length

/-- The destructor of every handle of `cells`. -/
def destroy (cells : List Cell) (w : Heap) : Heap :=
  releaseAll P.handle (cells.map Cell.slot) w

/-! ## Moves within a block -/

/-- `open_gap`. -/
def openGap (t : ChunkArray) (index : Nat) : ChunkArray :=
  { t with cells := memmove t.cells (index + 1) index (t.size - index) }

/-- `close_gap`. -/
def closeGap (t : ChunkArray) (stop dst total : Nat) : ChunkArray :=
  { t with
    cells := memmove t.cells stop dst (total - dst)
    size := stop + (total - dst) }

/-- `new ( slots_ + index ) handle_type{ … }`: what the constructor wrote stays
there if it throws. -/
def setSlot (t : ChunkArray) (index : Nat) (bytes : HandleBytes) : ChunkArray :=
  { t with cells := t.cells.modify index fun c ↦ { c with slot := bytes } }

/-- `keys_[ index ] = key; ++size_`. -/
def commit (t : ChunkArray) (index key : Nat) : ChunkArray :=
  { t with
    cells := t.cells.modify index fun c ↦ { c with key := key }
    size := t.size + 1 }

/-! ## Growth -/

/-- `relocate`: both arrays move to a fresh block. -/
def relocate (t : ChunkArray) (capacity : Nat) (w : Heap) : Outcome :=
  match w.allocateBlock with
  | (false, w) => ⟨t, w, false⟩
  | (true, w) =>
    ⟨{ cells := overwrite (uninitialized capacity) 0 (t.cells.take t.size)
       size := t.size
       capacity := capacity
       holders := 1 }, w, true⟩

/-- The capacity a table that has to grow takes: double while small, 5/4 past 1024. -/
def grownCapacity (t : ChunkArray) (required : Nat) : Nat :=
  max (max required (if t.capacity < 1024 then t.capacity * 2 else t.capacity + t.capacity / 4)) 4

/-- `grow`. -/
def grow (t : ChunkArray) (required : Nat) (w : Heap) : Outcome :=
  t.relocate (t.grownCapacity required) w

/-- `reserve`. -/
def reserve (t : ChunkArray) (count : Nat) (w : Heap) : Outcome :=
  if t.capacity < count % indexLimit then t.relocate (count % indexLimit) w else ⟨t, w, true⟩

/-- `release`: the last table that holds the block destroys the entries and frees it. -/
def release (t : ChunkArray) (w : Heap) : ChunkArray × Heap :=
  ({}, if t.shared P then w else destroy P t.entries w)

/-- `shrink_to_fit`. -/
def shrinkToFit (t : ChunkArray) (w : Heap) : Outcome :=
  if t.size = 0 then
    let (t, w) := t.release P w
    ⟨t, w, true⟩
  else if t.size < t.capacity then
    t.relocate t.size w
  else
    ⟨t, w, true⟩

/-! ## Insertions -/

/-- `insert_growing`: the handle is built before the table grows. -/
def insertGrowing (t : ChunkArray) (index key : Nat) (source : HandleSource) (w : Heap) : Outcome :=
  let value := source.construct P.handle w
  if value.completed then
    let grown := t.grow (t.size + 1) value.heap
    if grown.completed then
      ⟨((grown.table.openGap index).setSlot index value.bytes).commit index key, grown.heap, true⟩
    else
      ⟨grown.table, value.bytes.releasePayload P.handle grown.heap, false⟩
  else
    ⟨t, value.heap, false⟩

/-- `insert`: with room for the entry, the handle is built in the gap. -/
def insert (t : ChunkArray) (index key : Nat) (source : HandleSource) (w : Heap) : Outcome :=
  if t.size = t.capacity then
    t.insertGrowing P index key source w
  else
    let value := source.construct P.handle w
    let t := (t.openGap index).setSlot index value.bytes
    if value.completed then ⟨t.commit index key, value.heap, true⟩ else ⟨t, value.heap, false⟩

/-- `push_back`. -/
def pushBack (t : ChunkArray) (key : Nat) (source : HandleSource) (w : Heap) : Outcome :=
  if t.size = t.capacity then
    t.insertGrowing P t.size key source w
  else
    let value := source.construct P.handle w
    let t := t.setSlot t.size value.bytes
    if value.completed then ⟨t.commit t.size key, value.heap, true⟩ else ⟨t, value.heap, false⟩

/-! ## The merge of another table's entries -/

/-- The state of `insert_absent_from`: the block of the table, the block it is
rebuilt in when it has to grow, the entries below `stop` still in place and
those from `dst` on final. -/
structure Merge where
  cells : List Cell
  relocated : Option (List Cell)
  stop : Nat
  dst : Nat
  heap : Heap
  completed : Bool := true

/-- The block the final entries stand in. -/
def Merge.target (m : Merge) : List Cell := m.relocated.getD m.cells

/-- A write into the block the final entries stand in. -/
def Merge.write (m : Merge) (target : List Cell) : Merge :=
  match m.relocated with
  | none => { m with cells := target }
  | some _ => { m with relocated := some target }

/-- An entry to insert before `index`: the entries from there on take their final
places, and a copy goes in front of them. -/
def Merge.take (m : Merge) (index key : Nat) (copy : Constructed) : Merge :=
  let tail := m.stop - index
  let dst := m.dst - tail
  let target := overwrite m.target dst ((m.cells.drop index).take tail)
  { m.write (target.set (dst - 1) ⟨key, copy.bytes⟩) with
    stop := index
    dst := dst - 1
    heap := copy.heap }

/-- The loop of `insert_absent_from` over the entries of `other` below `j`, from the back. -/
def mergeFrom (other : ChunkArray) (wanted : HandleBytes → Bool) : Nat → Merge → Merge
  | 0, m => m
  | j + 1, m =>
    if m.stop < m.dst then
      let entry := other.cells.getD j default
      let index := lowerBound m.cells m.stop entry.key
      if (decide (index < m.stop) && (m.cells.getD index default).key = entry.key)
          || !wanted entry.slot then
        mergeFrom other wanted j m
      else
        let copy := entry.slot.cloneFrom P.handle m.heap
        if copy.completed then
          mergeFrom other wanted j (m.take index entry.key copy)
        else
          { m with heap := copy.heap, completed := false }
    else
      m

/-- `insert_absent_from`. -/
def insertAbsentFrom (t other : ChunkArray) (count : Nat) (wanted : HandleBytes → Bool) (w : Heap) :
    Outcome :=
  if count = 0 then
    ⟨t, w, true⟩
  else
    let total := t.size + count
    let relocating : Bool := t.capacity < total
    let capacity := if relocating then t.grownCapacity total else t.capacity
    let block := if relocating then w.allocateBlock else (true, w)
    if block.1 then
      let m := mergeFrom P other wanted other.size
        { cells := t.cells
          relocated := if relocating then some (uninitialized capacity) else none
          stop := t.size
          dst := total
          heap := block.2 }
      if m.completed then
        let cells :=
          if relocating then overwrite m.target 0 (m.cells.take m.stop) else m.cells
        ⟨{ cells := cells
           size := total
           capacity := capacity
           holders := if relocating then 1 else t.holders }, m.heap, true⟩
      else if relocating then
        -- those of the new block that are not among the entries held are the copies
        let copies := ((m.target.take total).drop m.dst).filter fun c ↦ decide (c.key ∉ t.keys)
        ⟨t, destroy P copies m.heap, false⟩
      else
        ⟨{ t with cells := m.cells }.closeGap m.stop m.dst total, m.heap, false⟩
    else
      ⟨t, block.2, false⟩

/-! ## Copies of whole tables -/

/-- Handles copy-constructed one after the other: those built, and whether all were. -/
def cloneSlots : List Cell → Heap → List HandleBytes × Bool × Heap
  | [], w => ([], true, w)
  | c :: cs, w =>
    let copy := c.slot.cloneFrom P.handle w
    if copy.completed then
      let (rest, completed, w) := cloneSlots cs copy.heap
      (copy.bytes :: rest, completed, w)
    else
      ([], false, copy.heap)

/-- Keys copied from `cs`, with handles of their own in the slots. -/
def withSlots (cs : List Cell) (hs : List HandleBytes) : List Cell :=
  List.zipWith (fun c h ↦ ⟨c.key, h⟩) cs hs

/-- `drop_block`: gives up this table's count on its block. -/
def dropBlock (t : ChunkArray) (w : Heap) : Heap :=
  if t.shared P then w else destroy P t.entries w

/-- `detach`. -/
def detach (t : ChunkArray) (minCapacity : Nat) (w : Heap) : Outcome :=
  let capacity := max t.size minCapacity
  match w.allocateBlock with
  | (false, w) => ⟨t, w, false⟩
  | (true, w) =>
    let (built, completed, w) := cloneSlots P t.entries w
    if completed then
      ⟨{ cells := overwrite (uninitialized capacity) 0 (withSlots t.entries built)
         size := t.size
         capacity := capacity
         holders := 1 }, t.dropBlock P w, true⟩
    else
      ⟨t, releaseAll P.handle built w, false⟩

/-- `destroy_all`: the capacity stays. -/
def destroyAll (t : ChunkArray) (w : Heap) : ChunkArray × Heap :=
  ({ t with size := 0 }, destroy P t.entries w)

/-- `copy_from`: the size counts each handle as it is built. -/
def copyFrom (t other : ChunkArray) (w : Heap) : Outcome :=
  let (t, w) := t.destroyAll P w
  if other.size = 0 then
    ⟨t, w, true⟩
  else
    let room := t.reserve other.size w
    if room.completed then
      let (built, completed, w) := cloneSlots P other.entries room.heap
      let slots := built ++ (room.table.cells.map Cell.slot).drop built.length
      ⟨{ room.table with
         cells := overwrite room.table.cells 0 (withSlots other.entries slots)
         size := built.length }, w, completed⟩
    else
      ⟨room.table, room.heap, false⟩

end ChunkArray

end Roaring
