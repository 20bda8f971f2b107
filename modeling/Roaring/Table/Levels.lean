import Mathlib
import Roaring.Table.Inner

/-!
# The inner levels above the leaves

A node at level 0 names a leaf; one at a level above holds nodes of the level
below it.  What the levels say is their `items`: the leaves from left to right,
each with the floor its keys start from, which is the separator before it (the
first leaf's is the floor of the whole).  Descending, registering a leaf and
removing one are a search, an insertion and a removal in this list.
-/

namespace Roaring

open Lib

/-- A node at a level: a leaf at level 0, an inner node above. -/
def Node : Nat → Type
  | 0 => LeafId
  | level + 1 => Inner (Node level)

namespace Node

variable {level : Nat}

instance inhabited : (level : Nat) → Inhabited (Node level)
  | 0 => ⟨(0 : Nat)⟩
  | level + 1 =>
    have := inhabited level
    ⟨Inner.only default⟩

/-! ## Descending -/

/-- The leaf `probe` belongs to. -/
def descend : (level : Nat) → Node level → Nat → LeafId
  | 0, leaf, _ => leaf
  | level + 1, inner, probe =>
    descend level (Inner.childAt inner (countBelow (Inner.keys inner) (probe + 1))) probe

/-- The way down to that leaf: the child taken at each level, the root's first. -/
def descendPath : (level : Nat) → Node level → Nat → List Nat
  | 0, _, _ => []
  | level + 1, inner, probe =>
    let child := countBelow (Inner.keys inner) (probe + 1)
    child :: descendPath level (Inner.childAt inner child) probe

def rightmostPath : (level : Nat) → Node level → List Nat
  | 0, _ => []
  | level + 1, inner => Inner.n inner :: rightmostPath level (Inner.childAt inner (Inner.n inner))

/-- The separator before the last leaf, or the floor of the whole if no node on the way has one. -/
def lastSeparator : (level : Nat) → Node level → Nat → Nat
  | 0, _, floor => floor
  | level + 1, inner, floor =>
    lastSeparator level (Inner.childAt inner (Inner.n inner))
      (if Inner.n inner = 0 then floor
        else (Inner.keys inner).getD (Inner.n inner - 1) chunkKeyPad)

def leftmostLeaf : (level : Nat) → Node level → LeafId
  | 0, leaf => leaf
  | level + 1, inner => leftmostLeaf level (Inner.childAt inner 0)

/-- The leaf at child `child` of the lowest node on a path, in place of the child the path takes. -/
def leafBeside : (level : Nat) → Node level → List Nat → Nat → Option LeafId
  | 1, inner, _, child => (Inner.child inner)[child]?
  | level + 2, inner, taken :: path, child =>
    leafBeside (level + 1) (Inner.childAt inner taken) path child
  | _, _, _, _ => none

/-- The number of separators of the lowest node on a path. -/
def lowestN : (level : Nat) → Node level → List Nat → Nat
  | 1, inner, _ => Inner.n inner
  | level + 2, inner, taken :: path => lowestN (level + 1) (Inner.childAt inner taken) path
  | _, _, _ => 0

/-! ## Registering and removing a leaf -/

/-- `insert_in_parent` along a path: `right` behind the leaf the path leads to.  What the node
itself gives away is a sibling to follow it, with the separator between the two. -/
def insertInParent : (level : Nat) → Node level → List Nat → Nat → LeafId →
    Node level × Option (Nat × Node level)
  | 0, leaf, _, separator, right => (leaf, some (separator, right))
  | level + 1, inner, path, separator, right =>
    let child := path.headD 0
    let below := insertInParent level (Inner.childAt inner child) path.tail separator right
    let parent := Inner.setChild inner child below.1
    match below.2 with
    | none => (parent, none)
    | some up => parent.insertChild child up.1 up.2

/-- `remove_child` along a path: the leaf the path leads to goes away, and with it every node it was
the only child of. -/
def removeChild : (level : Nat) → Node level → List Nat → Option (Node level)
  | 0, _, _ => none
  | level + 1, inner, path =>
    let child := path.headD 0
    match removeChild level (Inner.childAt inner child) path.tail with
    | some below => some (Inner.setChild inner child below)
    | none => if Inner.n inner = 0 then none else some (Inner.removeChild inner child)

/-! ## Building the levels over a chain -/

/-- A node of the given branches. -/
def ofBranches (bs : List (Nat × Node level)) : Inner (Node level) where
  n := bs.length - 1
  keys := overwrite (List.replicate innerKeys chunkKeyPad) 0 (bs.tail.map Prod.fst)
  child := bs.map Prod.snd

/-- The nodes above a level, `extra` of them with a child more than the `share` of the others. -/
def group (share : Nat) : (groups extra : Nat) → List (Nat × Node level) →
    List (Nat × Node (level + 1))
  | 0, _, _ => []
  | groups + 1, extra, nodes =>
    let children := share + if 0 < extra then 1 else 0
    let taken := nodes.take children
    ((taken.map Prod.fst).headD 0, ofBranches taken) ::
      group share groups (extra - 1) (nodes.drop children)

/-- The loop of `build_levels`: one level above the other until a level has a single node.  A level
has fewer nodes than the one below it, so the fuel is the number of leaves. -/
def buildLevels : (fuel level : Nat) → List (Nat × Node level) → (height : Nat) × Node height
  | fuel + 1, level, first :: second :: nodes =>
    let count := nodes.length + 2
    let groups := (count + innerKeys) / (innerKeys + 1)
    buildLevels fuel (level + 1)
      (group (count / groups) groups (count % groups) (first :: second :: nodes))
  | _, level, nodes => ⟨level, (nodes.map Prod.snd).headD (inhabited level).default⟩

/-! ## What the levels hold -/

/-- Every node on the way down holds its children properly. -/
def Shape : (level : Nat) → Node level → Prop
  | 0, _ => True
  | level + 1, node => ∃ floor bs, Inner.Branched node floor bs ∧ ∀ b ∈ bs, Shape level b.2

/-- The leaves with the floors their keys start from. -/
def items : (level : Nat) → Node level → Nat → List (Nat × LeafId)
  | 0, leaf, floor => [(floor, leaf)]
  | level + 1, node, floor => (Inner.branches floor node).flatMap fun b ↦ items level b.2 b.1

/-- The items of the nodes of a level, each above its floor. -/
abbrev allItems (level : Nat) (bs : List (Nat × Node level)) : List (Nat × LeafId) :=
  bs.flatMap fun b ↦ items level b.2 b.1

/-- The floors ascend. -/
abbrev Ascending (items : List (Nat × LeafId)) : Prop := items.Pairwise fun a b ↦ a.1 < b.1

variable {floor separator : Nat} {right : LeafId}

theorem items_eq {node : Node (level + 1)} {bs : List (Nat × Node level)}
    (h : Inner.Branched node floor bs) : items (level + 1) node floor = allItems level bs := by
  rw [items, h.branches_eq]

/-- A node of proper shape has branches above any floor. -/
theorem Shape.branched {node : Node (level + 1)} (h : Shape (level + 1) node) (floor : Nat) :
    ∃ bs, Inner.Branched node floor bs ∧ ∀ b ∈ bs, Shape level b.2 := by
  obtain ⟨_, _, ⟨first, rest, rfl, hn⟩, hall⟩ := h
  refine ⟨(floor, first) :: rest, ⟨first, rest, rfl, hn⟩, ?_⟩
  rw [List.forall_mem_cons] at hall ⊢
  exact hall

theorem Shape.of_branched {node : Node (level + 1)} {bs : List (Nat × Node level)}
    (h : Shape (level + 1) node) (hb : Inner.Branched node floor bs) : ∀ b ∈ bs,
      Shape level b.2 := by
  obtain ⟨bs', hb', hall⟩ := h.branched floor
  rwa [← hb.branches_eq, hb'.branches_eq]

/-- The first leaf of a node starts from the node's floor. -/
theorem items_head : ∀ {level : Nat} {node : Node level}, Shape level node → ∀ floor,
    ∃ leaf back, items level node floor = (floor, leaf) :: back
  | 0, leaf, _, floor => ⟨leaf, [], rfl⟩
  | level + 1, _, h, floor => by
    obtain ⟨_, ⟨first, rest, rfl, hn⟩, hall⟩ := h.branched floor
    obtain ⟨leaf, back, heq⟩ := items_head (hall _ List.mem_cons_self) floor
    rw [items_eq ⟨first, rest, rfl, hn⟩, allItems, List.flatMap_cons, heq]
    exact ⟨leaf, back ++ allItems level rest, rfl⟩

/-- A path leads to an item, with the items before it and behind it. -/
def Leads : (level : Nat) → Node level → Nat → List Nat → List (Nat × LeafId) → Nat × LeafId →
    List (Nat × LeafId) → Prop
  | 0, leaf, floor, path, front, item, back =>
    path = [] ∧ front = [] ∧ item = (floor, leaf) ∧ back = []
  | level + 1, node, floor, path, front, item, back =>
    ∃ (low : List (Nat × Node level)) (b : Nat × Node level) (high : List (Nat × Node level))
      (below : List Nat) (front' back' : List (Nat × LeafId)),
      Inner.Branched node floor (low ++ b :: high) ∧ path = low.length :: below ∧
      Leads level b.2 b.1 below front' item back' ∧
      front = allItems level low ++ front' ∧ back = back' ++ allItems level high

theorem Leads.items_eq : ∀ {level : Nat} {node : Node level} {floor : Nat} {path : List Nat}
    {front : List (Nat × LeafId)} {item : Nat × LeafId} {back : List (Nat × LeafId)},
    Leads level node floor path front item back → items level node floor = front ++ item :: back
  | 0, _, _, _, _, _, _, h => by
    obtain ⟨-, rfl, rfl, rfl⟩ := h
    rfl
  | level + 1, _, _, _, _, _, _, h => by
    obtain ⟨low, b, high, below, front', back', hb, -, hbelow, rfl, rfl⟩ := h
    rw [Node.items_eq hb, allItems, List.flatMap_append, List.flatMap_cons, hbelow.items_eq]
    simp only [List.append_assoc, List.cons_append]

/-! ### Descending -/

/-- The last branch that does not start above the probe. -/
theorem exists_branch {bs : List (Nat × Node level)} {probe : Nat} {first : Nat × Node level}
    (hasc : (first :: bs).Pairwise fun a b ↦ a.1 < b.1) (hfloor : first.1 ≤ probe) :
    ∃ low b high, first :: bs = low ++ b :: high ∧ (∀ c ∈ low, c.1 ≤ probe) ∧ b.1 ≤ probe ∧
      ∀ c ∈ high, probe < c.1 := by
  induction bs generalizing first with
  | nil => exact ⟨[], first, [], rfl, by simp, hfloor, by simp⟩
  | cons c bs ih =>
    rw [List.pairwise_cons] at hasc
    by_cases hc : c.1 ≤ probe
    · obtain ⟨low, b, high, heq, hlow, hb, hhigh⟩ := ih hasc.2 hc
      refine ⟨first :: low, b, high, by rw [heq, List.cons_append], ?_, hb, hhigh⟩
      exact List.forall_mem_cons.mpr ⟨hfloor, hlow⟩
    · refine ⟨[], first, c :: bs, rfl, by simp, hfloor, ?_⟩
      refine List.forall_mem_cons.mpr ⟨Nat.lt_of_not_le hc, fun d hd ↦ ?_⟩
      exact (Nat.lt_of_not_le hc).trans ((List.pairwise_cons.mp hasc.2).1 d hd)

/-- The branches of a node ascend when its items do. -/
theorem branches_ascending {bs : List (Nat × Node level)} (hshape : ∀ b ∈ bs, Shape level b.2)
    (hasc : Ascending (allItems level bs)) :
    bs.Pairwise (fun a b ↦ a.1 < b.1) ∧ ∀ b ∈ bs, Ascending (items level b.2 b.1) := by
  induction bs with
  | nil => exact ⟨List.Pairwise.nil, by simp⟩
  | cons b bs ih =>
    rw [Ascending, allItems, List.flatMap_cons, List.pairwise_append] at hasc
    obtain ⟨hb, hbs, hcross⟩ := hasc
    obtain ⟨hpair, hall⟩ := ih (fun c hc ↦ hshape c (List.mem_cons_of_mem b hc)) hbs
    refine ⟨List.pairwise_cons.mpr ⟨fun c hc ↦ ?_, hpair⟩, List.forall_mem_cons.mpr ⟨hb, hall⟩⟩
    obtain ⟨leaf, back, heq⟩ := items_head (hshape b List.mem_cons_self) b.1
    obtain ⟨leaf', back', heq'⟩ := items_head (hshape c (List.mem_cons_of_mem b hc)) c.1
    refine hcross (b.1, leaf) (by rw [heq]; exact List.mem_cons_self) (c.1, leaf') ?_
    refine List.mem_flatMap.mpr ⟨c, hc, ?_⟩
    rw [heq']
    exact List.mem_cons_self

/-- Every item of a node is at or above the node's floor. -/
theorem floor_le_items {node : Node level} (h : Shape level node)
    (hasc : Ascending (items level node floor)) : ∀ item ∈ items level node floor,
      floor ≤ item.1 := by
  obtain ⟨leaf, back, heq⟩ := items_head h floor
  rw [heq] at hasc ⊢
  intro item hitem
  rcases List.mem_cons.mp hitem with rfl | hitem
  · exact le_rfl
  · exact ((List.pairwise_cons.mp hasc).1 item hitem).le

/-- The descent ends at the last leaf that does not start above the probe. -/
theorem descend_spec : ∀ {level : Nat} {node : Node level} {floor probe : Nat}, Shape level node →
    Ascending (items level node floor) → floor ≤ probe → probe < chunkKeyPad →
    ∃ front low back, Leads level node floor (descendPath level node probe) front
      (low, descend level node probe) back ∧ low ≤ probe ∧ ∀ item ∈ back, probe < item.1
  | 0, leaf, floor, _, _, _, hfloor, _ =>
    ⟨[], floor, [], ⟨rfl, rfl, rfl, rfl⟩, hfloor, by simp⟩
  | level + 1, node, floor, probe, hshape, hasc, hfloor, hpad => by
    obtain ⟨_, ⟨first, rest, rfl, hn⟩, hall⟩ := hshape.branched floor
    have hbranched : Inner.Branched node floor ((floor, first) :: rest) := ⟨first, rest, rfl, hn⟩
    rw [items_eq hbranched] at hasc
    obtain ⟨hbranches, hitems⟩ := branches_ascending hall hasc
    obtain ⟨low, b, high, heq, hlow, hb, hhigh⟩ := exists_branch hbranches hfloor
    have hcount : countBelow (Inner.keys node) (probe + 1) = low.length :=
      hn.countBelow_eq heq hlow hb hhigh hpad
    rw [heq] at hbranched hall hitems
    have hmem : b ∈ low ++ b :: high := List.mem_append_right low List.mem_cons_self
    obtain ⟨front, fl, back, hleads, hfl, hback⟩ :=
      descend_spec (hall b hmem) (hitems b hmem) hb hpad
    refine ⟨_, fl, _, ⟨low, b, high, descendPath level b.2 probe, front, back, hbranched, ?_, ?_,
      rfl, rfl⟩, hfl, ?_⟩
    · rw [descendPath, hcount, hbranched.childAt_eq]
    · rw [descend, hcount, hbranched.childAt_eq]
      exact hleads
    · intro item hitem
      rcases List.mem_append.mp hitem with hitem | hitem
      · exact hback item hitem
      · obtain ⟨c, hc, hitem⟩ := List.mem_flatMap.mp hitem
        have hcmem : c ∈ low ++ b :: high := List.mem_append_right low (List.mem_cons_of_mem b hc)
        exact (hhigh c hc).trans_le (floor_le_items (hall c hcmem) (hitems c hcmem) item hitem)

theorem rightmost_spec : ∀ {level : Nat} {node : Node level} (floor : Nat), Shape level node →
    ∃ front leaf, Leads level node floor (rightmostPath level node) front
      (lastSeparator level node floor, leaf) []
  | 0, leaf, floor, _ => ⟨[], leaf, rfl, rfl, rfl, rfl⟩
  | level + 1, node, floor, hshape => by
    obtain ⟨bs, hbranched, hall⟩ := hshape.branched floor
    obtain ⟨low, b, rfl⟩ : ∃ low b, bs = low ++ [b] := by
      have hne : bs ≠ [] := by
        rintro rfl
        exact absurd hbranched.n_eq (Nat.succ_ne_zero _)
      exact ⟨bs.dropLast, bs.getLast hne, (List.dropLast_append_getLast hne).symm⟩
    have hn : Inner.n node = low.length := by
      have hn := hbranched.n_eq
      rw [List.length_append, List.length_singleton] at hn
      omega
    have hfloor : (if Inner.n node = 0 then floor
        else (Inner.keys node).getD (Inner.n node - 1) chunkKeyPad) = b.1 := by
      rw [hn]
      exact hbranched.lastFloor_eq
    obtain ⟨front, leaf, hleads⟩ := rightmost_spec b.1
      (hall b (List.mem_append_right low List.mem_cons_self))
    refine ⟨_, leaf, low, b, [], rightmostPath level b.2, front, [], hbranched, ?_, ?_, rfl, rfl⟩
    · rw [rightmostPath, hn, hbranched.childAt_eq]
    · rw [lastSeparator, hfloor, hn, hbranched.childAt_eq]
      exact hleads

theorem leftmostLeaf_spec : ∀ {level : Nat} {node : Node level} (floor : Nat), Shape level node →
    ∃ back, items level node floor = (floor, leftmostLeaf level node) :: back
  | 0, leaf, floor, _ => ⟨[], rfl⟩
  | level + 1, node, floor, hshape => by
    obtain ⟨_, ⟨first, rest, rfl, hn⟩, hall⟩ := hshape.branched floor
    have hbranched : Inner.Branched node floor ([] ++ (floor, first) :: rest) :=
      ⟨first, rest, rfl, hn⟩
    obtain ⟨back, heq⟩ := leftmostLeaf_spec floor (hall _ List.mem_cons_self)
    have hchild : Inner.childAt node 0 = first := hbranched.childAt_eq
    rw [leftmostLeaf, hchild, items_eq hbranched, List.nil_append, allItems, List.flatMap_cons, heq]
    exact ⟨_, rfl⟩

/-! ### Registering a leaf -/

/-- The items of a node and of the sibling it gave away. -/
def insertedItems (level : Nat) (result : Node level × Option (Nat × Node level)) (floor : Nat) :
    List (Nat × LeafId) :=
  items level result.1 floor ++ result.2.elim [] fun up ↦ items level up.2 up.1

theorem insertedItems_none {result : Node level × Option (Nat × Node level)}
    (h : result.2 = none) : insertedItems level result floor = items level result.1 floor := by
  rw [insertedItems, h]
  exact List.append_nil _

theorem insertedItems_some {result : Node level × Option (Nat × Node level)}
    {up : Nat × Node level} (h : result.2 = some up) :
    insertedItems level result floor = items level result.1 floor ++ items level up.2 up.1 := by
  rw [insertedItems, h]
  rfl

theorem insertInParent_spec : ∀ {level : Nat} {node : Node level} {floor : Nat} {path : List Nat}
    {front : List (Nat × LeafId)} {item : Nat × LeafId} {back : List (Nat × LeafId)}
    (separator : Nat) (right : LeafId), Shape level node →
    Leads level node floor path front item back →
    Shape level (insertInParent level node path separator right).1 ∧
      (∀ up ∈ (insertInParent level node path separator right).2, Shape level up.2) ∧
      insertedItems level (insertInParent level node path separator right) floor =
        front ++ item :: (separator, right) :: back
  | 0, _, _, _, _, _, _, _, _, _, hleads => by
    obtain ⟨rfl, rfl, rfl, rfl⟩ := hleads
    exact ⟨trivial, fun _ _ ↦ trivial, rfl⟩
  | level + 1, node, floor, _, _, item, _, separator, right, hshape, hleads => by
    obtain ⟨low, b, high, path, front, back, hbranched, rfl, hbelow, rfl, rfl⟩ := hleads
    have hall := hshape.of_branched hbranched
    obtain ⟨hshape', hup, hitems⟩ := insertInParent_spec separator right
      (hall b (List.mem_append_right low List.mem_cons_self)) hbelow
    have hparent := hbranched.setChild (insertInParent level b.2 path separator right).1
    rw [insertInParent, List.headD_cons, List.tail_cons, hbranched.childAt_eq]
    generalize insertInParent level b.2 path separator right = below at hshape' hup hitems hparent ⊢
    have hallParent : ∀ c ∈ low ++ (b.1, below.1) :: high, Shape level c.2 := by
      rw [List.forall_mem_append, List.forall_mem_cons] at hall ⊢
      exact ⟨hall.1, hshape', hall.2.2⟩
    rcases hgiven : below.2 with _ | up
    · rw [insertedItems_none hgiven] at hitems
      refine ⟨⟨floor, _, hparent, hallParent⟩, fun _ hnone ↦ (Option.not_mem_none _ hnone).elim, ?_⟩
      refine (insertedItems_none rfl).trans ((items_eq hparent).trans ?_)
      rw [allItems, List.flatMap_append, List.flatMap_cons, hitems]
      simp only [List.append_assoc, List.cons_append]
    · rw [insertedItems_some hgiven] at hitems
      have hallUp : ∀ c ∈ low ++ (b.1, below.1) :: up :: high, Shape level c.2 := by
        rw [List.forall_mem_append, List.forall_mem_cons] at hallParent ⊢
        exact ⟨hallParent.1, hallParent.2.1,
          List.forall_mem_cons.mpr ⟨hup up hgiven, hallParent.2.2⟩⟩
      have hflat : allItems level (low ++ (b.1, below.1) :: up :: high) =
          (allItems level low ++ front) ++
            item :: (separator, right) :: (back ++ allItems level high) := by
        rw [allItems, List.flatMap_append, List.flatMap_cons, List.flatMap_cons, ← List.append_assoc
          (items level below.1 b.1), hitems]
        simp only [List.append_assoc, List.cons_append]
      rcases hparent.insertChild up.1 up.2 with ⟨hnone, hone⟩ |
        ⟨next, left, moved, hsome, hleft, hright, hcut⟩
      · refine ⟨⟨floor, _, hone, hallUp⟩, fun up' hup' ↦ ?_, ?_⟩
        · exact absurd (hnone.symm.trans hup') (Option.some_ne_none up').symm
        · exact (insertedItems_none hnone).trans ((items_eq hone).trans hflat)
      · rw [← hcut, List.forall_mem_append] at hallUp
        refine ⟨⟨floor, _, hleft, hallUp.1⟩, fun up' hup' ↦ ?_, ?_⟩
        · obtain rfl := Option.some.inj (hsome.symm.trans hup')
          exact ⟨next.1, moved, hright, hallUp.2⟩
        · refine (insertedItems_some hsome).trans ?_
          rw [items_eq hleft, items_eq hright, ← hflat, ← hcut, allItems, allItems, allItems,
            List.flatMap_append]

/-! ### Removing a leaf -/

/-- What is behind a removed item: the next leaf may start where the removed one did. -/
def Closed (floor : Nat) (back back' : List (Nat × LeafId)) : Prop :=
  back' = back ∨ ∃ item rest, back = item :: rest ∧ back' = (floor, item.2) :: rest

theorem Closed.append {back back' : List (Nat × LeafId)} (h : Closed floor back back')
    (more : List (Nat × LeafId)) : Closed floor (back ++ more) (back' ++ more) := by
  rcases h with rfl | ⟨item, rest, rfl, rfl⟩
  · exact Or.inl rfl
  · exact Or.inr ⟨item, rest ++ more, rfl, rfl⟩

/-- A node keeps its leaves when its floor changes, the first with the new floor. -/
theorem items_floor : ∀ {level : Nat} {node : Node level} {floor floor' : Nat}
    {item : Nat × LeafId} {rest : List (Nat × LeafId)}, Shape level node →
    items level node floor = item :: rest → items level node floor' = (floor', item.2) :: rest
  | 0, leaf, floor, floor', _, _, _, heq => by
    obtain ⟨rfl, rfl⟩ := List.cons.inj heq
    rfl
  | level + 1, node, floor, floor', item, rest, hshape, heq => by
    obtain ⟨_, ⟨first, bs, rfl, hn⟩, hall⟩ := hshape.branched floor
    obtain ⟨leaf, back, hfirst⟩ := items_head (hall _ List.mem_cons_self) floor
    rw [items_eq ⟨first, bs, rfl, hn⟩, allItems, List.flatMap_cons, hfirst] at heq
    have hraised : Inner.Branched node floor' ((floor', first) :: bs) := ⟨first, bs, rfl, hn⟩
    rw [items_eq hraised, allItems, List.flatMap_cons,
      items_floor (hall _ List.mem_cons_self) hfirst]
    obtain ⟨rfl, rfl⟩ := List.cons.inj heq
    rfl

theorem getLastD_of_ne_nil {path : List Nat} (h : path ≠ []) (a b : Nat) :
    path.getLastD a = path.getLastD b := by
  obtain ⟨c, path, rfl⟩ := List.exists_cons_of_ne_nil h
  rw [List.getLastD_cons, List.getLastD_cons]

/-- A removal takes the item out.  The next leaf may start where it did, but not when the leaf has a
neighbour before it under the same parent. -/
theorem removeChild_spec : ∀ {level : Nat} {node : Node level} {floor : Nat} {path : List Nat}
    {front : List (Nat × LeafId)} {item : Nat × LeafId} {back : List (Nat × LeafId)},
    Shape level node → Leads level node floor path front item back →
    (removeChild level node path = none ∧ front = [] ∧ back = [] ∧ item.1 = floor ∧
        path.getLastD 0 = 0) ∨
      ∃ node' back', removeChild level node path = some node' ∧ Shape level node' ∧
        items level node' floor = front ++ back' ∧ Closed item.1 back back' ∧
        (0 < path.getLastD 0 → back' = back)
  | 0, _, _, _, _, _, _, _, hleads => by
    obtain ⟨rfl, rfl, rfl, rfl⟩ := hleads
    exact Or.inl ⟨rfl, rfl, rfl, rfl, rfl⟩
  | level + 1, node, floor, _, _, item, _, hshape, hleads => by
    obtain ⟨low, b, high, path, front, back, hbranched, rfl, hbelow, rfl, rfl⟩ := hleads
    have hall := hshape.of_branched hbranched
    have hn := hbranched.n_eq
    rw [removeChild, List.headD_cons, List.tail_cons, hbranched.childAt_eq, List.getLastD_cons]
    rcases removeChild_spec (hall b (List.mem_append_right low List.mem_cons_self)) hbelow with
      ⟨hnone, rfl, rfl, hitem, hlast⟩ | ⟨below, back', hsome, hshape', hitems, hclosed, hexact⟩
    · rw [hnone]
      dsimp only
      rw [List.length_append, List.length_cons] at hn
      have hfloor : low = [] → b.1 = floor := by
        rintro rfl
        obtain ⟨first, rest, heq, -⟩ := hbranched
        rw [(List.cons.inj heq).1]
      split
      · -- its only child: the node goes with it
        have hlow : low = [] := List.eq_nil_of_length_eq_zero (by omega)
        have hhigh : high = [] := List.eq_nil_of_length_eq_zero (by omega)
        subst hlow hhigh
        exact Or.inl ⟨rfl, rfl, rfl, hitem.trans (hfloor rfl), hlast⟩
      · rcases List.eq_nil_or_concat low with rfl | ⟨init, last, rfl⟩
        · obtain ⟨next, high, rfl⟩ : ∃ next more, high = next :: more := by
            apply List.exists_cons_of_length_pos
            rw [List.length_nil] at hn
            omega
          have hfirst := hbranched.removeChild_first
          have hnext : Shape level next.2 := hall _ (by simp)
          obtain ⟨leaf, rest, heq⟩ := items_head hnext next.1
          refine Or.inr ⟨_, _, rfl, ⟨floor, _, hfirst, ?_⟩, items_eq hfirst, Or.inr ⟨(next.1, leaf),
            rest ++ allItems level high, ?_, ?_⟩, ?_⟩
          · rw [List.nil_append, List.forall_mem_cons, List.forall_mem_cons] at hall
            exact List.forall_mem_cons.mpr hall.2
          · rw [List.nil_append, allItems, List.flatMap_cons, heq, List.cons_append]
          · have hlowered : items level next.2 floor = (floor, leaf) :: rest :=
              items_floor hnext heq
            rw [hitem, hfloor rfl]
            show allItems level ((floor, next.2) :: high) = _
            rw [allItems, List.flatMap_cons, hlowered, List.cons_append]
          · rw [List.length_nil, hlast]
            exact fun hpos ↦ absurd hpos (Nat.lt_irrefl 0)
        · have hrest := hbranched.removeChild (by simp)
          refine Or.inr ⟨_, _, rfl, ⟨floor, _, hrest, ?_⟩, ?_, Or.inl rfl, fun _ ↦ rfl⟩
          · rw [List.forall_mem_append, List.forall_mem_cons] at hall
            exact List.forall_mem_append.mpr ⟨hall.1, hall.2.2⟩
          · rw [items_eq hrest, allItems, List.flatMap_append, List.append_nil, List.nil_append]
    · rw [hsome]
      dsimp only
      have hparent := hbranched.setChild below
      have hne : path ≠ [] := by
        rintro rfl
        cases level with
        | zero => exact absurd hsome.symm (Option.some_ne_none _)
        | succ level =>
          obtain ⟨low', b', high', path', front', back'', -, hnil, -⟩ := hbelow
          exact absurd hnil.symm (List.cons_ne_nil _ _)
      refine Or.inr ⟨_, back' ++ allItems level high, rfl, ⟨floor, _, hparent, ?_⟩, ?_,
        hclosed.append _, ?_⟩
      · rw [List.forall_mem_append, List.forall_mem_cons] at hall ⊢
        exact ⟨hall.1, hshape', hall.2.2⟩
      · rw [items_eq hparent, allItems, List.flatMap_append, List.flatMap_cons, hitems]
        simp only [List.append_assoc]
      · rw [getLastD_of_ne_nil hne low.length 0]
        exact fun hpos ↦ congrArg (· ++ allItems level high) (hexact hpos)

/-! ### Neighbours under the same parent -/

theorem Leads.ne_nil {node : Node (level + 1)} {path : List Nat} {front back : List (Nat × LeafId)}
    {item : Nat × LeafId} (h : Leads (level + 1) node floor path front item back) : path ≠ [] := by
  obtain ⟨low, b, high, below, front', back', -, rfl, -⟩ := h
  exact List.cons_ne_nil _ _

/-- The children of the lowest node, as the leaves they are. -/
theorem items_leaf (bs : List (Nat × Node 0)) : allItems 0 bs = bs := by
  induction bs with
  | nil => rfl
  | cons b bs ih => exact congrArg (b :: ·) ih

/-- A leaf with a child behind it under its parent: the path to that one, and the leaf it is. -/
theorem Leads.beside_right :
    ∀ {level : Nat} {node : Node (level + 1)} {floor : Nat} {path : List Nat}
    {front : List (Nat × LeafId)} {item : Nat × LeafId} {back : List (Nat × LeafId)},
    Leads (level + 1) node floor path front item back →
    path.getLastD 0 < lowestN (level + 1) node path →
    ∃ next back', back = next :: back' ∧
      leafBeside (level + 1) node path (path.getLastD 0 + 1) = some next.2 ∧
      Leads (level + 1) node floor (path.dropLast ++ [path.getLastD 0 + 1]) (front ++ [item]) next
        back'
  | 0, node, floor, _, _, item, _, h, hlt => by
    obtain ⟨low, b, high, path, front, back, hbranched, rfl, ⟨rfl, rfl, rfl, rfl⟩, rfl, rfl⟩ := h
    rw [lowestN] at hlt
    have hlt' : low.length < Inner.n node := hlt
    have hn := hbranched.n_eq
    rw [List.length_append, List.length_cons] at hn
    obtain ⟨next, high, rfl⟩ : ∃ next more, high = next :: more := by
      apply List.exists_cons_of_length_pos
      omega
    have hnext : Inner.Branched node floor ((low ++ [b]) ++ next :: high) := by
      rw [List.append_assoc]
      exact hbranched
    refine ⟨next, allItems 0 high, rfl, ?_, low ++ [b], next, high, [], [], [], hnext, ?_,
      ⟨rfl, rfl, rfl, rfl⟩, ?_, rfl⟩
    · obtain ⟨first, rest, hbs, hholds⟩ := hnext
      have hchild : Inner.child node = ((low ++ [b]) ++ next :: high).map Prod.snd := by
        rw [hbs, hholds.child, List.map_cons]
      show (Inner.child node)[low.length + 1]? = some next.2
      rw [hchild, List.map_append, List.getElem?_append_right (by simp)]
      simp
    · rw [List.length_append]
      rfl
    · rw [List.append_nil, List.append_nil, allItems, allItems, List.flatMap_append]
      rfl
  | level + 1, node, floor, _, _, item, _, h, hlt => by
    obtain ⟨low, b, high, path, front, back, hbranched, rfl, hbelow, rfl, rfl⟩ := h
    have hne := hbelow.ne_nil
    have hlast : (low.length :: path).getLastD 0 = path.getLastD 0 := by
      rw [List.getLastD_cons]
      exact getLastD_of_ne_nil hne _ _
    rw [hlast, lowestN, hbranched.childAt_eq] at hlt
    obtain ⟨next, back', rfl, hbeside, hleads⟩ := hbelow.beside_right hlt
    refine ⟨next, back' ++ allItems (level + 1) high, rfl, ?_, ?_⟩
    · rw [hlast, leafBeside, hbranched.childAt_eq]
      exact hbeside
    · rw [hlast, List.dropLast_cons_of_ne_nil hne, List.append_assoc]
      exact ⟨low, b, high, _, _, _, hbranched, rfl, hleads, rfl, rfl⟩

/-- A leaf with a child before it under its parent: the leaf that is. -/
theorem Leads.beside_left :
    ∀ {level : Nat} {node : Node (level + 1)} {floor : Nat} {path : List Nat}
    {front : List (Nat × LeafId)} {item : Nat × LeafId} {back : List (Nat × LeafId)},
    Leads (level + 1) node floor path front item back → 0 < path.getLastD 0 →
    ∃ front' before, front = front' ++ [before] ∧
      leafBeside (level + 1) node path (path.getLastD 0 - 1) = some before.2
  | 0, node, floor, _, _, item, _, h, hpos => by
    obtain ⟨low, b, high, path, front, back, hbranched, rfl, ⟨rfl, rfl, rfl, rfl⟩, rfl, rfl⟩ := h
    have hpos' : 0 < low.length := hpos
    rcases List.eq_nil_or_concat low with rfl | ⟨init, before, rfl⟩
    · exact absurd hpos' (Nat.lt_irrefl 0)
    rw [List.concat_eq_append] at hbranched
    refine ⟨allItems 0 init, before, ?_, ?_⟩
    · rw [List.append_nil, List.concat_eq_append, allItems, allItems, List.flatMap_append]
      rfl
    · obtain ⟨first, rest, hbs, hholds⟩ := hbranched
      have hchild : Inner.child node = ((init ++ [before]) ++ b :: high).map Prod.snd := by
        rw [hbs, hholds.child, List.map_cons]
      show (Inner.child node)[(init.concat before).length - 1]? = some before.2
      rw [hchild, List.length_concat, Nat.add_sub_cancel, List.append_assoc, List.map_append,
        List.getElem?_append_right (by simp)]
      simp
  | level + 1, node, floor, _, _, item, _, h, hpos => by
    obtain ⟨low, b, high, path, front, back, hbranched, rfl, hbelow, rfl, rfl⟩ := h
    have hne := hbelow.ne_nil
    have hlast : (low.length :: path).getLastD 0 = path.getLastD 0 := by
      rw [List.getLastD_cons]
      exact getLastD_of_ne_nil hne _ _
    rw [hlast] at hpos
    obtain ⟨front', before, rfl, hbeside⟩ := hbelow.beside_left hpos
    refine ⟨allItems (level + 1) low ++ front', before, by rw [List.append_assoc], ?_⟩
    rw [hlast, leafBeside, hbranched.childAt_eq]
    exact hbeside

/-! ### Building the levels -/

theorem ofBranches_branched {b : Nat × Node level} {bs : List (Nat × Node level)}
    (h : bs.length ≤ innerKeys) : Inner.Branched (ofBranches (b :: bs)) b.1 (b :: bs) := by
  refine ⟨b.2, bs, rfl, ?_, ?_, rfl, h⟩
  · show (b :: bs).length - 1 = _
    rw [List.length_cons, Nat.add_sub_cancel]
  · exact overwrite_replicate

theorem group_spec {share : Nat} (hshare : 0 < share) : ∀ {groups extra : Nat}
    {nodes : List (Nat × Node level)}, extra ≤ groups → nodes.length = share * groups + extra →
    (share ≤ innerKeys ∨ share = innerKeys + 1 ∧ extra = 0) → (∀ b ∈ nodes, Shape level b.2) →
    (group share groups extra nodes).length = groups ∧
      (∀ b ∈ group share groups extra nodes, Shape (level + 1) b.2) ∧
      allItems (level + 1) (group share groups extra nodes) = allItems level nodes
  | 0, extra, nodes, hextra, hlen, _, _ => by
    have hnil : nodes = [] := List.eq_nil_of_length_eq_zero (by omega)
    rw [hnil]
    exact ⟨rfl, by simp [group], rfl⟩
  | groups + 1, extra, nodes, hextra, hlen, hfits, hall => by
    have hmul : share * (groups + 1) = share * groups + share := Nat.mul_succ share groups
    rw [group]
    generalize hchildren : (share + if 0 < extra then 1 else 0) = children
    have hsplit : children = share ∧ extra = 0 ∨ children = share + 1 ∧ 0 < extra := by
      by_cases h : 0 < extra
      · exact Or.inr ⟨by rw [← hchildren, if_pos h], h⟩
      · exact Or.inl ⟨by rw [← hchildren, if_neg h, Nat.add_zero], Nat.eq_zero_of_not_pos h⟩
    obtain ⟨b, taken, htaken⟩ : ∃ b taken, nodes.take children = b :: taken := by
      apply List.exists_cons_of_length_pos
      rw [List.length_take]
      omega
    have hlenTaken : taken.length + 1 = children := by
      have hlenTake := congrArg List.length htaken
      rw [List.length_take, List.length_cons] at hlenTake
      omega
    have hbranched : Inner.Branched (ofBranches (b :: taken)) b.1 (b :: taken) :=
      ofBranches_branched (by omega)
    rw [← List.take_append_drop children nodes, List.forall_mem_append, htaken] at hall
    have hlenDrop : (nodes.drop children).length = share * groups + (extra - 1) := by
      rw [List.length_drop]
      omega
    obtain ⟨hlenRest, hallRest, hitemsRest⟩ :=
      group_spec hshare (by omega) hlenDrop (by omega) hall.2
    rw [htaken]
    refine ⟨by rw [List.length_cons, hlenRest], ?_, ?_⟩
    · exact List.forall_mem_cons.mpr ⟨⟨b.1, _, hbranched, hall.1⟩, hallRest⟩
    · rw [allItems, List.flatMap_cons]
      refine (congrArg₂ (· ++ ·) (items_eq hbranched) hitemsRest).trans ?_
      rw [← htaken, allItems, allItems, ← List.flatMap_append, List.take_append_drop]

/-- The levels built over a chain hold its leaves, each after the floor it came with. -/
theorem buildLevels_spec : ∀ {fuel level : Nat} {b : Nat × Node level}
    {bs : List (Nat × Node level)}, bs.length ≤ fuel → (∀ c ∈ b :: bs, Shape level c.2) →
    Shape (buildLevels fuel level (b :: bs)).1 (buildLevels fuel level (b :: bs)).2 ∧
      items (buildLevels fuel level (b :: bs)).1 (buildLevels fuel level (b :: bs)).2 b.1 =
        allItems level (b :: bs)
  | fuel, level, b, [], _, hall => by
    have hone : buildLevels fuel level [b] = ⟨level, b.2⟩ := by cases fuel <;> rfl
    rw [hone]
    refine ⟨hall b List.mem_cons_self, ?_⟩
    show _ = items level b.2 b.1 ++ []
    rw [List.append_nil]
  | fuel + 1, level, b, second :: nodes, hfuel, hall => by
    rw [buildLevels]
    rw [List.length_cons] at hfuel
    obtain ⟨count, hcount⟩ : ∃ count, nodes.length + 2 = count := ⟨_, rfl⟩
    obtain ⟨groups, hgroups⟩ : ∃ groups, (count + innerKeys) / (innerKeys + 1) = groups := ⟨_, rfl⟩
    have h16 : innerKeys = 16 := rfl
    rw [hcount, hgroups]
    rw [h16] at hgroups
    have hpos : 0 < groups := by omega
    have hle : count ≤ groups * (innerKeys + 1) := by
      rw [h16]
      omega
    have hdiv := Nat.div_add_mod' count groups
    have hextra := Nat.mod_lt count hpos
    have hshare : 0 < count / groups := Nat.div_pos (by omega) hpos
    have hshareLe : count / groups ≤ innerKeys + 1 := Nat.div_le_of_le_mul hle
    have hfits : count / groups ≤ innerKeys ∨ count / groups = innerKeys + 1 ∧
        count % groups = 0 := by
      rcases Nat.lt_or_ge innerKeys (count / groups) with hlt | hge
      · have hmax : count / groups = innerKeys + 1 := by omega
        rw [hmax, Nat.mul_comm] at hdiv
        exact Or.inr ⟨hmax, by omega⟩
      · exact Or.inl hge
    have hcount : (b :: second :: nodes).length = count / groups * groups + count % groups := by
      rw [List.length_cons, List.length_cons]
      omega
    obtain ⟨hlen, hshapes, hitems⟩ := group_spec hshare hextra.le hcount hfits hall
    obtain ⟨node, rest, hgroup⟩ : ∃ node rest,
        group (count / groups) groups (count % groups) (b :: second :: nodes) =
          (b.1, node) :: rest := by
      obtain ⟨more, rfl⟩ : ∃ more, groups = more + 1 := ⟨groups - 1, by omega⟩
      obtain ⟨children, hchildren⟩ : ∃ children, count / (more + 1) = children + 1 :=
        ⟨count / (more + 1) - 1, by omega⟩
      rw [hchildren, group, Nat.add_right_comm children 1, List.take_succ_cons]
      exact ⟨_, _, rfl⟩
    rw [hgroup] at hlen hshapes hitems ⊢
    rw [List.length_cons] at hlen
    obtain ⟨hshape, hall'⟩ := buildLevels_spec (show rest.length ≤ fuel by omega) hshapes
    exact ⟨hshape, hall'.trans hitems⟩

end Node

end Roaring
