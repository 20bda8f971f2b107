import Mathlib
import Roaring.Table.ChunkTree

/-!
# The structural check

`validate` walks the index and the chain and reports the first structural
invariant that does not hold.  Below inner levels every node is checked against
the range its separators give it, and the leaves, in the order the levels have
them, against the links of the chain.
-/

namespace Roaring

open Lib

namespace ChunkTree

variable {H : Type} {minEntries : Nat} (t : ChunkTree H minEntries)

/-- A problem when a condition does not hold. -/
def require (holds : Bool) (problem : String) : Except String Unit :=
  if holds then .ok () else .error problem

def isRootLeaf (id : LeafId) : Bool :=
  match t.index with
  | .levels 0 root => Nat.beq root id
  | _ => false

/-- What `check_subtree` finds at a leaf whose keys must lie in `[floor, ceiling)`: the entries
counted so far and the leaf, which is the previous one for the next. -/
def checkLeaf (id : LeafId) (floor ceiling : Nat) (state : Nat × Option LeafId) :
    Except String (Nat × Option LeafId) := do
  let l := t.leaf id
  require (l.size ≤ l.cap ∧ (l.size ≠ 0 ∨ some id = t.tail)) "a leaf is empty or over capacity"
  require (l.cap = leafCapacity ∨ t.isRootLeaf id) "a leaf below the root is not full-sized"
  (List.range l.size).forM fun i ↦ do
    require (floor ≤ l.keyAt i ∧ l.keyAt i < ceiling) "a key is outside its leaf's range"
    require (i = 0 ∨ l.keyAt (i - 1) < l.keyAt i) "leaf keys are not strictly ascending"
  require ((l.keys.drop l.size).all (· = chunkKeyPad)) "an unused key slot is not the pad"
  require (t.prevLeaf id = state.2) "a leaf's back link is wrong"
  require (state.2.all fun previous ↦ t.nextLeaf previous = some id)
    "a leaf's forward link is wrong"
  pure (state.1 + l.size, some id)

/-- The children of a node, each checked in the range between its separators. -/
def checkChildren {C : Type}
    (check : C → Nat → Nat → Nat × Option LeafId → Except String (Nat × Option LeafId))
    (ceiling : Nat) : List (Nat × C) → Nat × Option LeafId → Except String (Nat × Option LeafId)
  | [], state => pure state
  | b :: more, state =>
    check b.2 b.1 ((more.map Prod.fst).headD ceiling) state >>= checkChildren check ceiling more

/-- `check_subtree`: the subtree at a level whose keys must lie in `[floor, ceiling)`. -/
def checkSubtree : (level : Nat) → Node level → (floor ceiling : Nat) → Nat × Option LeafId →
    Except String (Nat × Option LeafId)
  | 0, leaf, floor, ceiling, state => t.checkLeaf leaf floor ceiling state
  | level + 1, node, floor, ceiling, state => do
    require (Inner.n node ≤ innerKeys) "an inner node has too many separators"
    (List.range (Inner.n node)).forM fun i ↦ do
      let key (i : Nat) := (Inner.keys node).getD i chunkKeyPad
      require (floor ≤ key i ∧ key i < ceiling) "a separator is outside its node's range"
      require (i = 0 ∨ key (i - 1) < key i) "separators are not strictly ascending"
    require (((Inner.keys node).drop (Inner.n node)).all (· = chunkKeyPad))
      "an unused separator is not the pad"
    checkChildren (fun child ↦ checkSubtree level child) ceiling (Inner.branches floor node) state

/-- The check of a tree of inner levels; keys are not negative, so the lowest floor is 0. -/
def validateLevels (height : Nat) (root : Node height) : Except String Unit := do
  let state ← t.checkSubtree height root 0 chunkKeyPad (0, none)
  require (state.1 % (maxCount + 1) = t.size) "the size differs from the number of entries"
  require (state.2 = t.tail) "the tail is not the last leaf"
  require ((t.nextLeaf (t.tail.getD 0)).isNone) "the last leaf has a successor"

/-- What `validate_indexed` finds at a leaf. -/
def checkIndexedLeaf (d : Directory) (l : Leaf H) (state : Nat × Option LeafId) :
    Except String (Nat × Option LeafId) := do
  require (l.cap = leafCapacity) "a leaf of a directory tree is not full-sized"
  require (l.size ≤ l.cap ∧ (l.size ≠ 0 ∨ some l.id = t.tail)) "a leaf is empty or over capacity"
  require (t.prevLeaf l.id = state.2) "a leaf's back link is wrong"
  (List.range l.size).forM fun i ↦
    require (i = 0 ∨ l.keyAt (i - 1) < l.keyAt i) "leaf keys are not strictly ascending"
  require (state.2.all fun previous ↦
    (t.leaf previous).size = 0 ∨ l.size = 0 ∨ t.lastKey previous < l.keyAt 0)
    "leaves are not in key order"
  require ((l.keys.drop l.size).all (· = chunkKeyPad)) "an unused key slot is not the pad"
  require (l.size = 0 ∨ t.pileAt d (d.bucketOf l.lastKey) ≤ dirPileLimit)
    "too many leaves end in one bucket"
  require (l.size = 0 ∨ l.id = t.maxLeaf ∨ d.bucketOf l.lastKey < d.buckets)
    "a leaf ends beyond the table"
  pure (state.1 + l.size, some l.id)

/-- The leaves from the first that reaches a bucket on. -/
def reaching (d : Directory) (bucket : Nat) (leaves : List (Leaf H)) : List (Leaf H) :=
  if bucket = d.lo then leaves else leaves.dropWhile (·.lastKey < d.bucketStart bucket)

/-- Each bucket names the first leaf that reaches it; those the last leaf answers may be unnamed. -/
def checkBuckets (d : Directory) : (count bucket : Nat) → List (Leaf H) → Except String Unit
  | 0, _, _ => pure ()
  | count + 1, bucket, leaves => do
    let expected := reaching d bucket leaves
    require (d.named bucket = expected.head?.map Leaf.id ∨
        (d.named bucket = none ∧ expected.head?.map Leaf.id = some t.maxLeaf))
      "a directory bucket does not hold the first leaf that reaches it"
    checkBuckets d count (bucket + 1) expected

def validateIndexed (first : LeafId) (d : Directory) : Except String Unit := do
  require ((t.prevLeaf first).isNone) "a directory's table does not begin at the first leaf"
  require (d.lo = d.bucketOf ((t.leaf first).keyAt 0))
    "the first kept bucket is not the bucket of the smallest key"
  let state ← (t.chain.dropWhile (·.id ≠ first)).foldlM (fun state l ↦ t.checkIndexedLeaf d l state)
    (0, none)
  require (state.1 % (maxCount + 1) = t.size) "the size differs from the number of entries"
  require (state.2 = t.tail) "the tail is not the last leaf"
  t.checkBuckets d (d.buckets - d.lo) d.lo (t.leavesFrom first)

/-- Checks the structural invariants; the first one that does not hold is the error. -/
def validate : Except String Unit :=
  match t.index with
  | .empty =>
    require (t.size = 0 ∧ t.tail = none) "an empty tree has a size, a height, a tail or a directory"
  | .levels height root => t.validateLevels height root
  | .directory first d => t.validateIndexed first d

end ChunkTree

end Roaring
