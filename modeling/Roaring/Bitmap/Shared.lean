import Mathlib

/-!
# Counted handles to a bitmap

A handle names a block, which holds a bitmap and the count of the handles that
name it, or it names none and reads as an empty bitmap.  A change first makes the
block the handle's own.  The bitmap is a parameter of the handle, as it is of the
class template: what its members do is a class, and that they do it to sets is
another.

The blocks are named by addresses that are never given out twice, and a block
that is deleted leaves a record.  Reading a block that is not there is undefined,
and so is a step that does it.
-/

namespace Roaring

/-! ## The bitmap -/

/-- A call of a bitmap's member: what it leaves, and its answer unless it threw. -/
structure Attempt (B α : Type) where
  value : B
  answer : Option α

/-- `|=`, `&=`, `-=` and `^=`. -/
inductive SetOp where
  | bitOr
  | bitAnd
  | bitAndnot
  | bitXor
deriving DecidableEq, Repr

/-- The members of a bitmap that its handle calls.  The allocations of a call that
fail are given by their numbers. -/
class CountedBitmap (B : Type) (Key : outParam Type) where
  empty : B
  size : B → Nat
  contains : B → Key → Bool
  isSubsetOf : B → B → Bool
  intersects : B → B → Bool
  add : (Nat → Bool) → B → Key → Attempt B Bool
  remove : (Nat → Bool) → B → Key → Attempt B Bool
  assign : SetOp → (Nat → Bool) → B → B → Attempt B Unit

def SetOp.apply {Key : Type} [DecidableEq Key] : SetOp → Finset Key → Finset Key → Finset Key
  | bitOr, a, b => a ∪ b
  | bitAnd, a, b => a ∩ b
  | bitAndnot, a, b => a \ b
  | bitXor, a, b => symmDiff a b

/-- The members do to the values of a bitmap what they are for, unless they throw. -/
class LawfulCountedBitmap (B : Type) (Key : outParam Type) [DecidableEq Key]
    [CountedBitmap B Key] where
  values : B → Finset Key
  values_empty : values (CountedBitmap.empty : B) = ∅
  size_eq : ∀ b : B, CountedBitmap.size b = (values b).card
  contains_iff : ∀ (b : B) (k : Key), CountedBitmap.contains b k = true ↔ k ∈ values b
  isSubsetOf_iff : ∀ b c : B, CountedBitmap.isSubsetOf b c = true ↔ values b ⊆ values c
  intersects_iff : ∀ b c : B, CountedBitmap.intersects b c = true ↔ ¬ Disjoint (values b) (values c)
  add_answer : ∀ fails (b : B) (k : Key) r, (CountedBitmap.add fails b k).answer = some r →
    values (CountedBitmap.add fails b k).value = insert k (values b) ∧ (r = true ↔ k ∉ values b)
  remove_answer : ∀ fails (b : B) (k : Key) r, (CountedBitmap.remove fails b k).answer = some r →
    values (CountedBitmap.remove fails b k).value = (values b).erase k ∧ (r = true ↔ k ∈ values b)
  assign_answer : ∀ op fails (b c : B) u, (CountedBitmap.assign op fails b c).answer = some u →
    values (CountedBitmap.assign op fails b c).value = op.apply (values b) (values c)

/-! ## Handles and blocks -/

/-- `shared_bitmap<Bitmap>::block`: its count is a `std::uint32_t` and wraps around. -/
structure SharedBlock (B : Type) where
  count : BitVec 32
  value : B

/-- `shared_bitmap<Bitmap>`. -/
structure SharedHandle where
  block : Option Nat := none
  size : Nat := 0
deriving DecidableEq

/-- The handles that exist, by name, and the blocks.  `freed` are the blocks that
were deleted, and `editing` are the handles with a living editor. -/
structure SharedState (ι B : Type) where
  handles : ι → Option SharedHandle := fun _ ↦ none
  blocks : Nat → Option (SharedBlock B) := fun _ ↦ none
  fresh : Nat := 0
  freed : List Nat := []
  editing : ι → Bool := fun _ ↦ false

/-- Whether the allocation of a block, or the copy of the bitmap into it, fails, and
which allocations of the change that follows do. -/
structure Fate where
  block : Bool
  change : Nat → Bool

/-- How a call ends: it returns, with an answer where it has one, it throws before
the handle has a block of its own, or it throws in the change itself. -/
inductive SharedOutcome where
  | done (answer : Bool)
  | threwCopying
  | threwChanging
deriving DecidableEq

/-- `Bitmap const &`: any bitmap, or that of a handle through `get()`. -/
inductive SharedOperand (ι B : Type) where
  | bitmap (b : B)
  | get (j : ι)

/-- What a reference to a bitmap names: one outside of all blocks, that of a block, or the empty
bitmap that a handle without a block reads. -/
inductive SharedPlace (B : Type) where
  | outside (b : B)
  | block (p : Nat)
  | empty

namespace SharedState

open CountedBitmap

variable {ι B Key : Type} [DecidableEq ι] [CountedBitmap B Key]

def setHandle (s : SharedState ι B) (i : ι) (h : Option SharedHandle) : SharedState ι B :=
  { s with handles := Function.update s.handles i h }

def setBlock (s : SharedState ι B) (p : Nat) (b : Option (SharedBlock B)) : SharedState ι B :=
  { s with blocks := Function.update s.blocks p b }

/-- `make_block`, when it succeeds. -/
def makeBlock (s : SharedState ι B) (value : B) : SharedState ι B :=
  { s.setBlock s.fresh (some ⟨1#32, value⟩) with fresh := s.fresh + 1 }

/-- `rc_increment`, if there is a block. -/
def increment (s : SharedState ι B) : Option Nat → Option (SharedState ι B)
  | none => some s
  | some p => do
      let b ← s.blocks p
      return s.setBlock p (some { b with count := b.count + 1#32 })

/-- `release`: the last count that is given up deletes the block. -/
def release (s : SharedState ι B) : Option Nat → Option (SharedState ι B)
  | none => some s
  | some p => do
      let b ← s.blocks p
      if b.count = 1#32 then
        return { s.setBlock p none with freed := p :: s.freed }
      else
        return s.setBlock p (some { b with count := b.count - 1#32 })

/-- `is_unique`. -/
def isUnique (s : SharedState ι B) (h : SharedHandle) : Option Bool :=
  match h.block with
  | none => some true
  | some p => (s.blocks p).map fun b ↦ b.count = 1#32

/-- `get`. -/
def get (s : SharedState ι B) (h : SharedHandle) : Option B :=
  match h.block with
  | none => some empty
  | some p => (s.blocks p).map SharedBlock.value

/-- The place that an operand refers to: it does not follow the handle to another block. -/
def locate (s : SharedState ι B) : SharedOperand ι B → Option (SharedPlace B)
  | .bitmap b => some (.outside b)
  | .get j => do
      let h ← s.handles j
      match h.block with
      | none => return .empty
      | some p => return .block p

def read (s : SharedState ι B) : SharedPlace B → Option B
  | .outside b => some b
  | .block p => (s.blocks p).map SharedBlock.value
  | .empty => some CountedBitmap.empty

/-- `shares_storage_with`. -/
def sharesStorageWith (h other : SharedHandle) : Bool := h.block.isSome && h.block = other.block

/-- `refresh`. -/
def refresh (s : SharedState ι B) (i : ι) : Option (SharedState ι B) := do
  let h ← s.handles i
  match h.block with
  | none => return s.setHandle i (some ⟨none, 0⟩)
  | some p =>
      let b ← s.blocks p
      return s.setHandle i (some ⟨some p, CountedBitmap.size b.value⟩)

/-! ## Assignment -/

/-- `shared_bitmap{ other }.swap( *this )`. -/
def copyAssign (s : SharedState ι B) (i j : ι) : Option (SharedState ι B) := do
  let other ← s.handles j
  let s ← s.increment other.block
  let own ← s.handles i
  (s.setHandle i (some other)).release own.block

/-- `shared_bitmap{ std::move( other ) }.swap( *this )`. -/
def moveAssign (s : SharedState ι B) (i j : ι) : Option (SharedState ι B) := do
  let other ← s.handles j
  let s := s.setHandle j (some {})
  let own ← s.handles i
  (s.setHandle i (some other)).release own.block

/-- `clear`. -/
def clear (s : SharedState ι B) (i : ι) : Option (SharedState ι B) := do
  let h ← s.handles i
  (s.setHandle i (some {})).release h.block

/-! ## Changes -/

/-- `take_own`: the state and the block left behind, or a throw. -/
def takeOwn (s : SharedState ι B) (fails : Bool) (i : ι) :
    Option (Option (SharedState ι B × Option Nat)) := do
  let h ← s.handles i
  match h.block with
  | none =>
      if fails then
        return none
      else
        return some ((s.makeBlock empty).setHandle i (some { h with block := some s.fresh }), none)
  | some p =>
      let b ← s.blocks p
      if b.count = 1#32 then
        return some (s, none)
      else if fails then
        return none
      else
        return some ((s.makeBlock b.value).setHandle i (some { h with block := some s.fresh }),
          some p)

/-- `change_own`, and the `change_end` that runs whether the change returns or throws. -/
def changeOwn (s : SharedState ι B) (fate : Fate) (i : ι)
    (change : SharedState ι B → B → Option (Attempt B Bool)) :
    Option (SharedState ι B × SharedOutcome) := do
  match ← s.takeOwn fate.block i with
  | none => return (s, .threwCopying)
  | some (s, left) =>
      let h ← s.handles i
      let p ← h.block
      let b ← s.blocks p
      let result ← change s b.value
      let s ← (s.setBlock p (some { b with value := result.value })).refresh i
      let s ← s.release left
      return (s, match result.answer with
        | some answer => .done answer
        | none => .threwChanging)

/-- A set operation of the bitmap as a change; its operand is read when the bitmap is the handle's
own. -/
def assigning (op : SetOp) (fate : Fate) (other : SharedPlace B) (s : SharedState ι B) (own : B) :
    Option (Attempt B Bool) := do
  let operand ← s.read other
  let result := assign op fate.change own operand
  return ⟨result.value, result.answer.map fun _ ↦ true⟩

/-- `add`. -/
def add (s : SharedState ι B) (fate : Fate) (i : ι) (value : Key) :
    Option (SharedState ι B × SharedOutcome) := do
  let h ← s.handles i
  let own ← s.get h
  if !(← s.isUnique h) && contains own value then
    return (s, .done false)
  else
    s.changeOwn fate i fun _ own ↦ some (CountedBitmap.add fate.change own value)

/-- `remove`. -/
def remove (s : SharedState ι B) (fate : Fate) (i : ι) (value : Key) :
    Option (SharedState ι B × SharedOutcome) := do
  let h ← s.handles i
  let own ← s.get h
  if h.block.isNone || (!(← s.isUnique h) && !contains own value) then
    return (s, .done false)
  else
    s.changeOwn fate i fun _ own ↦ some (CountedBitmap.remove fate.change own value)

/-- `unite`. -/
def unite (s : SharedState ι B) (fate : Fate) (i : ι) (other : SharedPlace B) :
    Option (SharedState ι B × SharedOutcome) := do
  let h ← s.handles i
  let own ← s.get h
  if !(← s.isUnique h) && isSubsetOf (← s.read other) own then
    return (s, .done true)
  else
    s.changeOwn fate i (assigning .bitOr fate other)

/-- `intersect`. -/
def intersect (s : SharedState ι B) (fate : Fate) (i : ι) (other : SharedPlace B) :
    Option (SharedState ι B × SharedOutcome) := do
  let h ← s.handles i
  let own ← s.get h
  let operand ← s.read other
  if h.size = 0 then
    return (s, .done true)
  else if CountedBitmap.size operand = 0 then
    return (← s.clear i, .done true)
  else if !(← s.isUnique h) && isSubsetOf own operand then
    return (s, .done true)
  else
    s.changeOwn fate i (assigning .bitAnd fate other)

/-- `subtract`. -/
def subtract (s : SharedState ι B) (fate : Fate) (i : ι) (other : SharedPlace B) :
    Option (SharedState ι B × SharedOutcome) := do
  let h ← s.handles i
  let own ← s.get h
  let operand ← s.read other
  if h.size = 0 || CountedBitmap.size operand = 0 then
    return (s, .done true)
  else if !(← s.isUnique h) && !intersects own operand then
    return (s, .done true)
  else
    s.changeOwn fate i (assigning .bitAndnot fate other)

/-- The operators that take a `Bitmap const &`. -/
def assignBitmap (s : SharedState ι B) (fate : Fate) (op : SetOp) (i : ι)
    (other : SharedOperand ι B) : Option (SharedState ι B × SharedOutcome) := do
  let place ← s.locate other
  let operand ← s.read place
  match op with
  | .bitOr =>
      if CountedBitmap.size operand = 0 then return (s, .done true) else s.unite fate i place
  | .bitAnd => s.intersect fate i place
  | .bitAndnot => s.subtract fate i place
  | .bitXor =>
      if CountedBitmap.size operand = 0 then
        return (s, .done true)
      else
        s.changeOwn fate i (assigning .bitXor fate place)

/-- The operators that take a `shared_bitmap const &`. -/
def assignHandle (s : SharedState ι B) (fate : Fate) (op : SetOp) (i j : ι) :
    Option (SharedState ι B × SharedOutcome) := do
  let h ← s.handles i
  let other ← s.handles j
  let place ← s.locate (.get j)
  match op with
  | .bitOr =>
      if other.size = 0 || sharesStorageWith h other then
        return (s, .done true)
      else if h.size = 0 then
        return (← s.copyAssign i j, .done true)
      else
        s.unite fate i place
  | .bitAnd =>
      if sharesStorageWith h other then return (s, .done true) else s.intersect fate i place
  | .bitAndnot =>
      if sharesStorageWith h other then
        return (← s.clear i, .done true)
      else
        s.subtract fate i place
  | .bitXor =>
      if other.size = 0 then
        return (s, .done true)
      else if sharesStorageWith h other then
        return (← s.clear i, .done true)
      else if h.size = 0 then
        return (← s.copyAssign i j, .done true)
      else
        s.changeOwn fate i (assigning .bitXor fate place)

/-- `edit`: the block is the handle's own from here on. -/
def edit (s : SharedState ι B) (fate : Fate) (i : ι) :
    Option (SharedState ι B × SharedOutcome) := do
  match ← s.takeOwn fate.block i with
  | none => return (s, .threwCopying)
  | some (s, left) =>
      let s ← s.release left
      return ({ s with editing := Function.update s.editing i true }, .done true)

/-- A change of the bitmap through the editor. -/
def through (s : SharedState ι B) (i : ι) (change : B → B) : Option (SharedState ι B) := do
  let h ← s.handles i
  let p ← h.block
  let b ← s.blocks p
  return s.setBlock p (some { b with value := change b.value })

/-- `~editor`. -/
def endEdit (s : SharedState ι B) (i : ι) : Option (SharedState ι B) := do
  let s ← s.refresh i
  return { s with editing := Function.update s.editing i false }

end SharedState

/-! ## Runs -/

/-- What is done to handles. -/
inductive SharedOp (ι B Key : Type) where
  | create (i : ι)
  | wrap (i : ι) (b : B)
  | copyConstruct (i j : ι)
  | moveConstruct (i j : ι)
  | copyAssign (i j : ι)
  | moveAssign (i j : ι)
  | swap (i j : ι)
  | drop (i : ι)
  | add (i : ι) (value : Key)
  | remove (i : ι) (value : Key)
  | assignHandle (op : SetOp) (i j : ι)
  | assignBitmap (op : SetOp) (i : ι) (other : SharedOperand ι B)
  | clear (i : ι)
  | edit (i : ι)
  | through (i : ι) (change : B → B)
  | endEdit (i : ι)

namespace SharedState

variable {ι B Key : Type} [DecidableEq ι] [CountedBitmap B Key]

/-- One call; undefined if it reads a handle or a block that does not exist. -/
def step (fate : Fate) (s : SharedState ι B) :
    SharedOp ι B Key → Option (SharedState ι B × SharedOutcome)
  | .create i => some (s.setHandle i (some {}), .done true)
  | .wrap i b =>
      if fate.block then
        some (s, .threwCopying)
      else
        some ((s.makeBlock b).setHandle i (some ⟨some s.fresh, CountedBitmap.size b⟩), .done true)
  | .copyConstruct i j => do
      let other ← s.handles j
      let s ← s.increment other.block
      return (s.setHandle i (some other), .done true)
  | .moveConstruct i j => do
      let other ← s.handles j
      return ((s.setHandle j (some {})).setHandle i (some other), .done true)
  | .copyAssign i j => do return (← s.copyAssign i j, .done true)
  | .moveAssign i j => do return (← s.moveAssign i j, .done true)
  | .swap i j => do
      let left ← s.handles i
      let right ← s.handles j
      return ((s.setHandle i (some right)).setHandle j (some left), .done true)
  | .drop i => do
      let h ← s.handles i
      return (← (s.setHandle i none).release h.block, .done true)
  | .add i value => s.add fate i value
  | .remove i value => s.remove fate i value
  | .assignHandle op i j => s.assignHandle fate op i j
  | .assignBitmap op i other => s.assignBitmap fate op i other
  | .clear i => do return (← s.clear i, .done true)
  | .edit i => s.edit fate i
  | .through i change => do return (← s.through i change, .done true)
  | .endEdit i => do return (← s.endEdit i, .done true)

end SharedState

end Roaring
