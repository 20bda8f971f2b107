import Mathlib
import Roaring.Lib.Chain
import Roaring.Table.Levels

/-!
# The chunk tree

The leaves form a chain in key order, found through one of two indexes: inner
levels, or a flat directory with a leaf for each bucket of the key space.  A
leaf's address is its name; the allocator hands out names that are not in use.
The doubly linked chain is the list of the leaves between its two ends.
-/

namespace Roaring

open Lib

/-! ## Constants -/

def dirPileLimit : Nat := 6

def dirAdoptSlack : Nat := 8

def dirGrowthSlack : Nat := 64

def dirTableSlack : Nat := 16

/-- The levels a path has room for. -/
def maxHeight : Nat := 12

/-- The largest value of the 32-bit counters. -/
def maxCount : Nat := 2 ^ 32 - 1

/-! ## States -/

/-- The table of a directory: the leaf of each bucket, or none for the last leaf. -/
structure Directory where
  table : List (Option LeafId)
  base : Nat
  lo : Nat
  shift : Nat

/-- What `root_`, `height_` and `dir_` say: nothing, inner levels, or a directory and the first
leaf. -/
inductive Index where
  | empty
  | levels (height : Nat) (root : Node height)
  | directory (first : LeafId) (dir : Directory)

/-- A chunk tree of handles `H`, which considers a directory from `minEntries` entries on. -/
structure ChunkTree (H : Type) (minEntries : Nat) where
  index : Index
  chain : List (Leaf H)
  tail : Option LeafId
  size : Nat
  nextEval : Nat
  nextId : LeafId

/-- A position: a leaf and the index in it; `none` is `end()`. -/
abbrev Cursor := Option (LeafId × Nat)

namespace ChunkTree

variable {H : Type} {minEntries : Nat}

def initialNextEval (minEntries : Nat) : Nat := min minEntries maxCount

def empty : ChunkTree H minEntries where
  index := .empty
  chain := []
  tail := none
  size := 0
  nextEval := initialNextEval minEntries
  nextId := 0

variable (t : ChunkTree H minEntries)

def indexed : Bool :=
  match t.index with
  | .directory _ _ => true
  | _ => false

def height : Nat :=
  match t.index with
  | .empty => 0
  | .levels height _ => height
  | .directory _ _ => 1

/-- The entries in chain order. -/
def entries : List (Nat × H) := t.chain.flatMap Leaf.entries

/-! ## Leaves and links -/

def leaf (id : LeafId) : Leaf H := (nodeAt Leaf.id t.chain id).getD default

/-- `links( leaf )[ 0 ]`, which only a full-sized leaf has. -/
def nextLeaf (id : LeafId) : Option LeafId :=
  if (t.leaf id).cap = leafCapacity then (nextOf Leaf.id t.chain id).map Leaf.id else none

def prevLeaf (id : LeafId) : Option LeafId :=
  if (t.leaf id).cap = leafCapacity then (prevOf Leaf.id t.chain id).map Leaf.id else none

/-- The leaf behind this one, unless it is the empty last leaf of an abandoned `open_back()`. -/
def nextNonempty (id : LeafId) : Option LeafId :=
  (t.nextLeaf id).filter fun following ↦ (t.leaf following).size ≠ 0

/-- The first entry behind a leaf. -/
def followingCursor (id : LeafId) : Cursor := (t.nextNonempty id).map fun following ↦ (following, 0)

def modify (id : LeafId) (f : Leaf H → Leaf H) : ChunkTree H minEntries :=
  { t with chain := modifyAt Leaf.id t.chain id f }

/-- `make_leaf` and `link_after`: a leaf of a new name behind another. -/
def linkFresh (id : LeafId) (fresh : Leaf H) : ChunkTree H minEntries :=
  { t with
    chain := linkAfter Leaf.id t.chain id fresh
    tail := if (nextOf Leaf.id t.chain id).isNone then some fresh.id else t.tail
    nextId := t.nextId + 1 }

/-- `unlink` and `free_leaf_block`. -/
def freeLeaf (id : LeafId) : ChunkTree H minEntries :=
  { t with
    chain := unlink Leaf.id t.chain id
    tail := if (nextOf Leaf.id t.chain id).isNone then (prevOf Leaf.id t.chain id).map Leaf.id
      else t.tail }

/-- `++size_`. -/
def grown : ChunkTree H minEntries := { t with size := (t.size + 1) % (maxCount + 1) }

/-- `--size_`. -/
def shrunk : ChunkTree H minEntries := { t with size := t.size - 1 }

def leftmostLeaf : LeafId :=
  match t.index with
  | .empty => 0
  | .levels height root => Node.leftmostLeaf height root
  | .directory first _ => first

/-- `size_ == 0` after a release: nothing is left. -/
def released : ChunkTree H minEntries :=
  { t with
    index := .empty, chain := [], tail := none, size := 0, nextEval := initialNextEval minEntries }

/-! ## Walks along the chain -/

/-- The leaves from one on, up to the empty last leaf of an abandoned `open_back()`. -/
def leavesFrom (id : LeafId) : List (Leaf H) :=
  match t.chain.dropWhile (·.id ≠ id) with
  | [] => []
  | first :: more => first :: more.takeWhile (·.size ≠ 0)

/-- The first of the leaves with a key not below `probe`, and where in it. -/
def seekAlong : List (Leaf H) → Nat → Cursor
  | [], _ => none
  | l :: more, probe =>
    let index := countBelow l.keys probe
    if l.keyAt index ≠ chunkKeyPad then some (l.id, index) else seekAlong more probe

/-- The first of the leaves with a key not below `probe`; the last leaf if there is none. -/
def locateAlong : List (Leaf H) → Nat → LeafId → LeafId
  | [], _, last => last
  | l :: more, probe, _ =>
    if l.keyAt (countBelow l.keys probe) ≠ chunkKeyPad then l.id else locateAlong more probe l.id

/-! ## The leaf directory -/

def doubled (count : Nat) : Nat := if count > maxCount / 2 then maxCount else count * 2

def maxLeaf : LeafId :=
  let last := t.tail.getD 0
  if (t.leaf last).size = 0 then (t.prevLeaf last).getD 0 else last

end ChunkTree

namespace Directory

variable (d : Directory)

def buckets : Nat := d.table.length

def bucketOf (probe : Nat) : Nat := (probe - d.base) >>> d.shift

/-- The bucket a search reads: inside the kept part of the table. -/
def bucketClamped (probe : Nat) : Nat := max d.lo (min (d.bucketOf probe) (d.buckets - 1))

def bucketStart (bucket : Nat) : Nat := d.base + bucket <<< d.shift

def named (bucket : Nat) : Option LeafId := d.table.getD bucket none

/-- The buckets from `count - 1` down to `lo` name `target`, as long as what they name passes. -/
def nameDown (passes : Option LeafId → Bool) (target : Option LeafId) (lo : Nat) :
    Nat → List (Option LeafId) → List (Option LeafId)
  | 0, table => table
  | bucket + 1, table =>
    if lo ≤ bucket ∧ passes (table.getD bucket none) then
      nameDown passes target lo bucket (table.set bucket target)
    else table

def growTable (atLeast : Nat) : Directory :=
  let grown := max atLeast (d.buckets + d.buckets / 2)
  { d with table := d.table ++ List.replicate (grown - d.buckets) none }

/-- `key` has become the smallest key and is held by `first`, the first leaf. -/
def noteNewMinimum (first : LeafId) (key : Nat) : Directory :=
  let bucket := min (d.bucketOf key) d.lo
  { d with
    table := overwrite d.table bucket (List.replicate (d.lo - bucket) (some first))
    lo := bucket }

/-- A leaf whose last key was `last` goes away: whatever named it names `target`. -/
def retarget (id : LeafId) (last : Nat) (target : Option LeafId) : Directory :=
  { d with
    table := nameDown (fun named ↦ named = some id || named = none) target d.lo
      (d.bucketClamped last + 1) d.table }

end Directory

namespace ChunkTree

variable {H : Type} {minEntries : Nat} (t : ChunkTree H minEntries)

def lastKey (id : LeafId) : Nat := (t.leaf id).lastKey

/-- Where a search for `probe` starts walking the chain. -/
def searchStart (d : Directory) (probe : Nat) : LeafId :=
  ((d.named (d.bucketClamped probe)).orElse fun _ ↦ t.tail).getD 0

def locateIndexed (d : Directory) (probe : Nat) : LeafId :=
  locateAlong (t.leavesFrom (t.searchStart d probe)) probe 0

/-- How many leaves end in a bucket, counted up to one past the pile limit. -/
def pileAt (d : Directory) (bucket : Nat) : Nat :=
  if bucket ≥ d.buckets then 0
  else
    let above := if bucket + 1 < d.buckets then d.named (bucket + 1) else none
    match d.named bucket with
    | none => 0
    | some first =>
      min ((t.leavesFrom first).takeWhile fun l ↦ some l.id ≠ above).length (dirPileLimit + 1)

def splitOverflows (d : Directory) (id : LeafId) : Bool :=
  let first := d.bucketClamped ((t.leaf id).keyAt 0)
  let last := d.bucketClamped (t.lastKey id)
  t.pileAt d last ≥ dirPileLimit || (first ≠ last && t.pileAt d first ≥ dirPileLimit)

/-- The loop that fills a fresh table: each leaf answers the buckets behind the one the leaf before
it ends in.  `none` when more leaves than the limit end in one bucket. -/
def fillTable (base shift : Nat) : List (Leaf H) → Nat → List (Option LeafId) →
    Option (List (Option LeafId))
  | [], _, table => some table
  | l :: more, run, table =>
    let bucket := (l.lastKey - base) >>> shift
    let run := if bucket + 1 = table.length then run + 1 else 1
    if run > dirPileLimit then none
    else
      fillTable base shift more run
        (table ++ List.replicate (bucket + 1 - table.length) (some l.id))

/-- A directory whose buckets are about half a leaf wide; `none` if the keys are spread too
unevenly. -/
def adoptDirectory (first : LeafId) : Option (ChunkTree H minEntries) :=
  let last := t.lastKey t.maxLeaf
  let base := (t.leaf first).keyAt 0
  let span := last - base + 1
  let width := max (span * leafCapacity % 2 ^ 64 / (2 * t.size)) 1
  let shift := width.log2
  let used := ((span - 1) >>> shift) + 1
  if used > t.size / 2 + dirAdoptSlack then none
  else
    let capacity := used + used / 8 + dirTableSlack
    (fillTable base shift (t.leavesFrom first) 0 []).map fun table ↦
      { t with
        index := .directory first
          { table := table ++ List.replicate (capacity - table.length) none
            base := base
            lo := 0
            shift := shift } }

/-- Called where a leaf is about to be added; whether a directory now stands. -/
def adoptIfDue : ChunkTree H minEntries × Bool :=
  if t.height = 0 ∨ t.size < t.nextEval then (t, false)
  else
    match t.adoptDirectory t.leftmostLeaf with
    | some adopted => (adopted, true)
    | none => ({ t with nextEval := doubled t.size }, false)

/-- The leaves of a chain with the floors `build_levels` gives them. -/
def lowests : Nat → List (Leaf H) → List (Nat × Node 0)
  | _, [] => []
  | previousLast, l :: more =>
    (if l.size = 0 then previousLast + 1 else l.keyAt 0, l.id) ::
      lowests (if l.size = 0 then previousLast else l.lastKey) more

/-- Back to inner levels over the same leaves. -/
def abandonDirectory (first : LeafId) : ChunkTree H minEntries :=
  let leaves := t.chain.dropWhile (·.id ≠ first)
  let built := Node.buildLevels leaves.length 0 (lowests 0 leaves)
  { t with
    index := .levels built.1 built.2
    nextEval := doubled (max t.size minEntries % (maxCount + 1)) }

def withDirectory (first : LeafId) (d : Directory) : ChunkTree H minEntries :=
  { t with index := .directory first d }

/-- A leaf that ends in `bucket` is about to be named: the table reaches it, or is given up. -/
def reserveBucket (first : LeafId) (d : Directory) (bucket : Nat) : ChunkTree H minEntries :=
  if bucket < d.buckets then t
  else if bucket + 1 > t.size / 2 + dirGrowthSlack then t.abandonDirectory first
  else t.withDirectory first (d.growTable (bucket + 1))

/-- The buckets a leaf answers that the table does not name yet. -/
def nameLeaf (d : Directory) (id : LeafId) : Directory :=
  { d with
    table := Directory.nameDown (· = none) (some id) d.lo (d.bucketClamped (t.lastKey id) + 1)
      d.table }

/-- `right` has been linked behind `left` and holds the upper part of what `left` held. -/
def splitIndexed (d : Directory) (left right : LeafId) : Directory :=
  let d := t.nameLeaf d left
  let rightBucket := min (d.bucketOf (t.lastKey right)) (d.buckets - 1)
  let start := d.bucketClamped (t.lastKey left) + 1
  { d with
    table := overwrite d.table start (List.replicate (rightBucket + 1 - start) (some right)) }

/-- The last key of a leaf fell from `was` to a lower one. -/
def lastDecreased (d : Directory) (id : LeafId) (was : Nat) : Directory :=
  { d with
    table := Directory.nameDown (fun named ↦ named = some id || named = none) (t.nextNonempty id)
      (d.bucketClamped (t.lastKey id) + 1) (d.bucketClamped was + 1) d.table }

/-- A leaf is about to be linked behind the full last leaf, which the table then has to name. -/
def prepareNewLastLeaf : ChunkTree H minEntries :=
  let t := if t.indexed then t else t.adoptIfDue.1
  match t.index with
  | .directory first d =>
    let last := d.bucketOf (t.lastKey (t.tail.getD 0))
    if last < d.buckets ∧ d.named last ≠ t.tail ∧ t.pileAt d last ≥ dirPileLimit then
      t.abandonDirectory first
    else t.reserveBucket first d last
  | _ => t

/-- A full leaf is about to split. -/
def prepareSplit (first : LeafId) (d : Directory) (id : LeafId) : ChunkTree H minEntries :=
  if t.splitOverflows d id then t.abandonDirectory first
  else t.reserveBucket first d (d.bucketOf ((t.leaf id).keyAt ((t.leaf id).size / 2)))

/-! ## Lookups -/

/-- The position of a probe in the leaf the levels lead to. -/
def seekInLeaf (id : LeafId) (probe : Nat) : Cursor :=
  let l := t.leaf id
  let index := countBelow l.keys probe
  if t.height ≠ 0 then
    if l.keyAt index ≠ chunkKeyPad then some (id, index) else t.followingCursor id
  else if index < l.size then some (id, index)
  else none

/-- The first entry whose key is not below `key`. -/
def lowerBound (key : Nat) : Cursor :=
  match t.index with
  | .empty => none
  | .levels height root => t.seekInLeaf (Node.descend height root key) key
  | .directory _ d => seekAlong (t.leavesFrom (t.searchStart d key)) key

def key (pos : LeafId × Nat) : Nat := (t.leaf pos.1).keyAt pos.2

def slot (pos : LeafId × Nat) : Option H := (t.leaf pos.1).slots[pos.2]?

def find (key : Nat) : Cursor := (t.lowerBound key).filter fun pos ↦ t.key pos = key

/-- The final entry. -/
def last : Cursor := some (t.maxLeaf, (t.leaf t.maxLeaf).size - 1)

/-! ## Structure -/

/-- `insert_in_parent` from the leaf a path leads to: a root that split gets a new root above it. -/
def insertInParent (path : List Nat) (separator : Nat) (right : LeafId) : ChunkTree H minEntries :=
  match t.index with
  | .levels height root =>
    let result := Node.insertInParent height root path separator right
    match result.2 with
    | none => { t with index := .levels height result.1 }
    | some up => { t with index := .levels (height + 1) (Inner.root result.1 up.1 up.2) }
  | _ => t

/-- `remove_child` from the leaf a path leads to: a root left with one child is no root. -/
def removeChild (path : List Nat) : ChunkTree H minEntries :=
  match t.index with
  | .levels (height + 1) root =>
    let child := path.headD 0
    match Node.removeChild height (Inner.childAt root child) path.tail with
    | some below => { t with index := .levels (height + 1) (Inner.setChild root child below) }
    | none =>
      if Inner.n root = 0 then { t with index := .empty }
      else
        let root := Inner.removeChild root child
        if root.n = 0 then { t with index := .levels height (Inner.childAt root 0) }
        else { t with index := .levels (height + 1) root }
  | _ => t

def rightmostPath : List Nat :=
  match t.index with
  | .levels height root => Node.rightmostPath height root
  | _ => []

/-- The largest separator on the way to the last leaf. -/
def lastSeparator : Nat :=
  match t.index with
  | .levels height root => Node.lastSeparator height root 0
  | _ => 0

def descendPath (probe : Nat) : List Nat :=
  match t.index with
  | .levels height root => Node.descendPath height root probe
  | _ => []

def descend (probe : Nat) : LeafId :=
  match t.index with
  | .levels height root => Node.descend height root probe
  | _ => 0

/-- The leaf moves to a block of another capacity: it is the root leaf, alone in the chain. -/
def relocateRoot (id : LeafId) (cap : Nat) : ChunkTree H minEntries :=
  { t with
    index := .levels 0 t.nextId
    chain := modifyAt Leaf.id t.chain id fun l ↦ l.relocate t.nextId cap
    tail := some t.nextId
    nextId := t.nextId + 1 }

def growRootLeaf (id : LeafId) : ChunkTree H minEntries :=
  let cap := (t.leaf id).cap
  t.relocateRoot id (if cap < 4 then 4 else if cap < 8 then 8 else leafCapacity)

/-- The index over a leaf that has been linked behind the last one. -/
def indexNewLast (path : List Nat) (separator : Nat) (before fresh : LeafId) :
    ChunkTree H minEntries :=
  match t.index with
  | .directory first d => t.withDirectory first (t.nameLeaf d before)
  | _ => t.insertInParent path separator fresh

/-! ## Appending -/

def appendStaged (key : Nat) (handle : H) : ChunkTree H minEntries :=
  match t.index with
  | .empty =>
    { t with
      index := .levels 0 t.nextId
      chain := [(Leaf.make t.nextId 4).append key handle]
      tail := some t.nextId
      size := 1
      nextId := t.nextId + 1 }
  | _ =>
    let tail := t.tail.getD 0
    let l := t.leaf tail
    if l.size < l.cap then (t.modify tail (·.append key handle)).grown
    else if t.height = 0 ∧ l.cap < leafCapacity then
      let t := t.growRootLeaf tail
      (t.modify (t.tail.getD 0) (·.append key handle)).grown
    else
      let t := t.prepareNewLastLeaf
      let path := t.rightmostPath
      let fresh := t.nextId
      let t := (t.linkFresh tail ((Leaf.make fresh leafCapacity).append key handle)).grown
      t.indexNewLast path key tail fresh

/-- Room in the last leaf takes the entry where it stays; else the append is staged. -/
def pushBack (key : Nat) (handle : H) : ChunkTree H minEntries :=
  match t.tail with
  | some tail =>
    if (t.leaf tail).size < (t.leaf tail).cap then (t.modify tail (·.append key handle)).grown
    else t.appendStaged key handle
  | none => t.appendStaged key handle

/-- Storage for the next appended entry: the last leaf has room afterwards. -/
def openBack : ChunkTree H minEntries :=
  match t.index with
  | .empty =>
    { t with
      index := .levels 0 t.nextId
      chain := [Leaf.make t.nextId 4]
      tail := some t.nextId
      nextId := t.nextId + 1 }
  | _ =>
    let tail := t.tail.getD 0
    let l := t.leaf tail
    if l.size = l.cap then
      if t.height = 0 ∧ l.cap < leafCapacity then t.growRootLeaf tail
      else
        let t := t.prepareNewLastLeaf
        -- above everything held and not above the key to come
        let separator := l.keyAt (l.size - 1) + 1
        let path := t.rightmostPath
        let fresh := t.nextId
        let t := t.linkFresh tail (Leaf.make fresh leafCapacity)
        t.indexNewLast path separator tail fresh
    else t

/-- The handle in the slot `open_back()` returned becomes the last entry. -/
def commitBack (key : Nat) (handle : H) : ChunkTree H minEntries :=
  (t.modify (t.tail.getD 0) (·.append key handle)).grown

/-! ## Inserting -/

/-- `key` went to `index` of a leaf: a new smallest key is noted in the directory. -/
def noted (id : LeafId) (index key : Nat) : ChunkTree H minEntries :=
  match t.index with
  | .directory first d =>
    if index = 0 ∧
      (t.prevLeaf id).isNone then t.withDirectory first (d.noteNewMinimum id key) else t
  | _ => t

/-- A full leaf and the entry it has no room for: the two halves, which of them takes the entry and
where, and the separator between them. -/
def halves (l : Leaf H) (right : LeafId) (isFirst isLast : Bool) (index key : Nat) (handle : H) :
    (Leaf H × Leaf H) × (LeafId × Nat) × Nat :=
  let n := l.size
  if index = n ∧ isLast then
    -- past the end of the last leaf: the full leaf stays full and the key starts the next one
    ((l, (Leaf.make right leafCapacity).put 0 key handle), (right, 0), key)
  else
    let kept := if index = 0 ∧ isFirst then 0 else n / 2
    let cut := l.split right kept
    let separator (right : Leaf H) := right.keyAt 0
    if index ≤ kept then ((cut.1.put index key handle, cut.2), (l.id, index), separator cut.2)
    else
      let taken := cut.2.put (index - kept) key handle
      ((cut.1, taken), (right, index - kept), separator taken)

/-- A full leaf splits around a new entry. -/
def splitLeaf (path : List Nat) (id : LeafId) (index key : Nat) (handle : H) :
    ChunkTree H minEntries × Cursor :=
  let right := t.nextId
  let cut := halves (t.leaf id) right (t.prevLeaf id).isNone (t.nextLeaf id).isNone index key handle
  let t := ((t.modify id fun _ ↦ cut.1.1).linkFresh id cut.1.2).grown
  let t :=
    match t.index with
    | .directory first d => t.withDirectory first (t.splitIndexed d id right)
    | _ => t.insertInParent path cut.2.2 right
  (t.noted cut.2.1.1 cut.2.1.2 key, some cut.2.1)

/-- `insert_staged`.  A full leaf is tried again when the index has changed under it: a directory is
adopted at most once and given up at most once, so three attempts are enough. -/
def insertStaged : (attempts : Nat) → ChunkTree H minEntries → Cursor → Nat → H →
    ChunkTree H minEntries × Cursor
  | 0, t, _, _, _ => (t, none)
  | _ + 1, t, none, key, handle =>
    let t := t.appendStaged key handle
    (t, t.last)
  | attempts + 1, t, some pos, key, handle =>
    let l := t.leaf pos.1
    if (pos.2 ≠ 0 ∨ (t.prevLeaf pos.1).isNone) ∧ l.size < l.cap then
      -- between two keys of one leaf, or below every key: it belongs here
      let t := (t.modify pos.1 (·.put pos.2 key handle)).grown
      match t.index with
      | .directory first d =>
        (if pos.2 = 0 then t.withDirectory first (d.noteNewMinimum pos.1 key) else t, some pos)
      | _ => (t, some pos)
    else
      let id :=
        match t.index with
        | .directory _ d => t.locateIndexed d key
        | _ => t.descend key
      let path := t.descendPath key
      let l := t.leaf id
      let index := countBelow l.keys key
      if l.size < l.cap then
        let t := (t.modify id (·.put index key handle)).grown
        (t.noted id index key, some (id, index))
      else if t.height = 0 ∧ l.cap < leafCapacity then
        let t := t.growRootLeaf id
        let root := t.tail.getD 0
        ((t.modify root (·.put index key handle)).grown, some (root, index))
      else
        match t.index with
        | .directory first d =>
          let t := t.prepareSplit first d id
          if t.indexed then t.splitLeaf path id index key handle
          else insertStaged attempts t (some pos) key handle
        | _ =>
          let due := t.adoptIfDue
          if due.2 then insertStaged attempts due.1 (some pos) key handle
          else due.1.splitLeaf path id index key handle

/-- Inserts before `pos`, which is the `lowerBound` of `key`. -/
def insert (pos : Cursor) (key : Nat) (handle : H) : ChunkTree H minEntries × Cursor :=
  insertStaged 3 t pos key handle

/-! ## Erasing -/

/-- The entry an index of a leaf stands for: in the leaf, or the first one behind it. -/
def settle (id : LeafId) (index : Nat) : Cursor :=
  if index < (t.leaf id).size then some (id, index) else t.followingCursor id

/-- An underfull leaf joins a neighbour under the same parent when the two fit one leaf
comfortably. -/
def mergeUnderParent (path : List Nat) (id : LeafId) (index : Nat) :
    ChunkTree H minEntries × Cursor :=
  let left := (t.leaf id).size
  let child := path.getLastD 0
  let beside (child : Nat) : Option LeafId :=
    match t.index with
    | .levels height root => Node.leafBeside height root path child
    | _ => none
  let n :=
    match t.index with
    | .levels height root => Node.lowestN height root path
    | _ => 0
  if child < n then
    let right := (beside (child + 1)).getD 0
    let t :=
      if left + (t.leaf right).size ≤ mergeLimit then
        ((t.modify id (·.absorb (t.leaf right))).freeLeaf right).removeChild
          (path.dropLast ++ [child + 1])
      else t
    (t, t.settle id index)
  else
    let before := (beside (child - 1)).getD 0
    if child > 0 ∧ (t.leaf before).size + left ≤ mergeLimit then
      let offset := (t.leaf before).size + index
      let t := ((t.modify before (·.absorb (t.leaf id))).freeLeaf id).removeChild path
      (t, t.settle before offset)
    else (t, t.settle id index)

/-- `erase` where inner levels stand. -/
def eraseInLevels (pos : LeafId × Nat) : ChunkTree H minEntries × Cursor :=
  let removed := t.key pos
  let t := (t.modify pos.1 (·.remove pos.2)).shrunk
  let left := (t.leaf pos.1).size
  if left ≠ 0 ∧ (t.height = 0 ∨ left ≠ mergeBelow - 1) then (t, t.settle pos.1 pos.2)
  else if t.height = 0 then
    -- the only leaf has emptied
    ({ t.freeLeaf pos.1 with index := .empty, tail := none }, none)
  else
    let path := t.descendPath removed
    if left = 0 then
      let following := t.followingCursor pos.1
      ((t.freeLeaf pos.1).removeChild path, following)
    else t.mergeUnderParent path pos.1 pos.2

/-- The directory is made to fit an erase; it may be given up. -/
def prepareErase (first : LeafId) (d : Directory) (pos : LeafId × Nat) : ChunkTree H minEntries :=
  let t :=
    if d.buckets > t.size + 2 * dirTableSlack then
      if t.size ≤ minEntries / 2 then t.abandonDirectory first
      else (t.adoptDirectory first).getD (t.abandonDirectory first)
    else t
  match t.index with
  | .directory _ d =>
    let l := t.leaf pos.1
    if pos.2 + 1 = l.size ∧ l.size > 1 then
      let now := d.bucketClamped (l.keyAt (l.size - 2))
      if now ≠ d.bucketClamped (l.keyAt (l.size - 1)) ∧ t.pileAt d now ≥ dirPileLimit then
        t.abandonDirectory first
      else t
    else t
  | _ => t

/-- The directory keeps no buckets below the smallest key. -/
def raiseLo (d : Directory) (first : LeafId) : Directory :=
  { d with lo := max d.lo (d.bucketOf ((t.leaf first).keyAt 0)) }

/-- `erase` where a directory stands. -/
def eraseIndexed (first : LeafId) (d : Directory) (pos : LeafId × Nat) :
    ChunkTree H minEntries × Cursor :=
  let id := pos.1
  let was := t.lastKey id
  let wasLast : Bool := pos.2 + 1 = (t.leaf id).size
  let t := (t.modify id (·.remove pos.2)).shrunk
  let left := (t.leaf id).size
  let wasFirst : Bool := pos.2 = 0 && (t.prevLeaf id).isNone
  if left = 0 then
    let following := t.nextNonempty id
    let freed := t.freeLeaf id
    let d := d.retarget id was following
    let next :=
      match wasFirst, following with
      | true, some next => freed.withDirectory next (freed.raiseLo d next)
      | _, _ => freed.withDirectory first d
    if t.size = 0 then (t.released, none) else (next, following.map fun next ↦ (next, 0))
  else
    let d := if wasLast then t.lastDecreased d id was else d
    let d := if wasFirst then t.raiseLo d id else d
    let t := t.withDirectory first d
    if left = mergeBelow - 1 then
      let right := t.nextNonempty id
      let before := t.prevLeaf id
      if right.isSome ∧ left + (t.leaf (right.getD 0)).size ≤ mergeLimit then
        let right := right.getD 0
        let last := t.lastKey right
        let t := (t.modify id (·.absorb (t.leaf right))).freeLeaf right
        let t := t.withDirectory first (d.retarget right last (some id))
        (t, t.settle id pos.2)
      else if before.isSome ∧ (t.leaf (before.getD 0)).size + left ≤ mergeLimit then
        let before := before.getD 0
        let offset := (t.leaf before).size + pos.2
        let last := t.lastKey id
        let t := (t.modify before (·.absorb (t.leaf id))).freeLeaf id
        let t := t.withDirectory first (d.retarget id last (some before))
        (t, t.settle before offset)
      else (t, t.settle id pos.2)
    else (t, t.settle id pos.2)

/-- Removes the entry at a position; the position of the entry that followed it. -/
def erase (pos : LeafId × Nat) : ChunkTree H minEntries × Cursor :=
  match t.index with
  | .directory first d =>
    let t := t.prepareErase first d pos
    match t.index with
    | .directory first d => t.eraseIndexed first d pos
    | _ => t.eraseInLevels pos
  | _ => t.eraseInLevels pos

/-! ## Giving back spare capacity -/

def rootCapacityFor (count : Nat) : Nat := if count ≤ 4 then 4 else if count ≤ 8 then 8
    else leafCapacity

def shrinkToFit : ChunkTree H minEntries :=
  if t.size = 0 then t.released
  else
    let tail := t.tail.getD 0
    let t :=
      if (t.leaf tail).size = 0 then
        match t.index with
        | .directory _ _ => t.freeLeaf tail
        | _ =>
          let path := t.rightmostPath
          (t.freeLeaf tail).removeChild path
      else t
    if t.height ≠ 0 then t
    else
      let root := t.leftmostLeaf
      let cap := rootCapacityFor (t.leaf root).size
      if cap < (t.leaf root).cap then t.relocateRoot root cap else t

end ChunkTree

end Roaring
