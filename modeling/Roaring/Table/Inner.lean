import Mathlib
import Roaring.Table.Leaf

/-!
# Inner nodes of the chunk tree

An inner node has up to 16 separators, padded like the keys of a leaf, and one
child more than separators.  Its children are read as branches: a child together
with the separator before it, the first child alone.
-/

namespace Roaring

open Lib

structure Inner (C : Type) where
  n : Nat
  keys : List Nat
  child : List C

namespace Inner

variable {C : Type}

/-- `make_inner` with its only child. -/
def only (c : C) : Inner C where
  n := 0
  keys := List.replicate innerKeys chunkKeyPad
  child := [c]

/-- The new root above a root that split. -/
def root (left : C) (separator : Nat) (right : C) : Inner C where
  n := 1
  keys := (List.replicate innerKeys chunkKeyPad).set 0 separator
  child := [left, right]

def childAt [Inhabited C] (parent : Inner C) (child : Nat) : C := parent.child.getD child default

def setChild (parent : Inner C) (child : Nat) (c : C) : Inner C :=
  { parent with child := parent.child.set child c }

/-- One step of `insert_in_parent`: `right` behind the child at `child`, after `separator`.  What a
full node gives away is a sibling to follow it, with the separator between the two. -/
def insertChild (parent : Inner C) (child separator : Nat) (right : C) :
    Inner C × Option (Nat × Inner C) :=
  if parent.n < innerKeys then
    ({ n := parent.n + 1
       keys := (memmove parent.keys (child + 1) child (parent.n - child)).set child separator
       child := parent.child.insertIdx (child + 1) right }, none)
  else if child = innerKeys then
    -- past the last child of a full node: it stays full and the new child starts the next node
    (parent, some (separator, only right))
  else
    let allKeys := parent.keys.insertIdx child separator
    let allChildren := parent.child.insertIdx (child + 1) right
    let kept := (innerKeys + 1) / 2
    let moved := innerKeys - kept
    ({ n := kept
       keys := fill (overwrite parent.keys 0 (allKeys.take kept)) kept innerKeys chunkKeyPad
       child := allChildren.take (kept + 1) },
      some (allKeys.getD kept chunkKeyPad,
        { n := moved
          keys := overwrite (List.replicate innerKeys chunkKeyPad) 0
            ((allKeys.drop (kept + 1)).take moved)
          child := (allChildren.drop (kept + 1)).take (moved + 1) }))

/-- `remove_child` at a node with a child to spare. -/
def removeChild (parent : Inner C) (child : Nat) : Inner C :=
  let separator := if child = 0 then 0 else child - 1
  { n := parent.n - 1
    keys := (memmove parent.keys separator (separator + 1) (parent.n - separator - 1)).set
      (parent.n - 1) chunkKeyPad
    child := parent.child.eraseIdx child }

/-! ## What a node holds -/

/-- The node holds the child `first` and behind it, each after its separator, those of `rest`. -/
structure Holds (node : Inner C) (first : C) (rest : List (Nat × C)) : Prop where
  n : node.n = rest.length
  keys : node.keys = padTo innerKeys chunkKeyPad (rest.map Prod.fst)
  child : node.child = first :: rest.map Prod.snd
  fits : rest.length ≤ innerKeys

/-- The children of a node with the floors they start from; the first starts from the node's. -/
def branches (floor : Nat) (node : Inner C) : List (Nat × C) :=
  (floor :: node.keys.take node.n).zip node.child

variable {node : Inner C} {first c right : C} {rest : List (Nat × C)} {floor separator child : Nat}

theorem zip_map_fst_snd (bs : List (Nat × C)) : (bs.map Prod.fst).zip (bs.map Prod.snd) = bs := by
  induction bs with
  | nil => rfl
  | cons b bs ih => rw [List.map_cons, List.map_cons, List.zip_cons_cons, ih]

namespace Holds

theorem take_keys (h : node.Holds first rest) : node.keys.take node.n = rest.map Prod.fst := by
  rw [h.keys, h.n, take_padTo (by rw [List.length_map]), ← List.length_map (f := Prod.fst),
    List.take_length]

theorem branches_eq (h : node.Holds first rest) (floor : Nat) :
    node.branches floor = (floor, first) :: rest := by
  rw [branches, h.take_keys, h.child, List.zip_cons_cons, zip_map_fst_snd]

theorem only (c : C) : (only c).Holds c [] where
  n := rfl
  keys := (padTo_nil _ _).symm
  child := rfl
  fits := Nat.zero_le _

theorem root (left : C) (separator : Nat) (right : C) :
    (root left separator right).Holds left [(separator, right)] where
  n := rfl
  keys := rfl
  child := rfl
  fits := by
    rw [List.length_singleton]
    decide

/-- The scan finds the child in whose range the probe lies. -/
theorem countBelow_eq (h : node.Holds first rest) {low high : List (Nat × C)} {b : Nat × C}
    (hcut : (floor, first) :: rest = low ++ b :: high) {probe : Nat}
    (hlow : ∀ c ∈ low, c.1 ≤ probe) (hb : b.1 ≤ probe) (hhigh : ∀ c ∈ high, probe < c.1)
    (hpad : probe < chunkKeyPad) : countBelow node.keys (probe + 1) = low.length := by
  have hcount : ∀ bs : List (Nat × C), (∀ c ∈ bs, c.1 ≤ probe) →
      (bs.map Prod.fst).countP (· < probe + 1) = bs.length := by
    intro bs hbs
    rw [List.countP_map, List.countP_eq_length.mpr]
    intro c hc
    exact decide_eq_true (Nat.lt_succ_of_le (hbs c hc))
  have hnone : (high.map Prod.fst).countP (· < probe + 1) = 0 := by
    rw [List.countP_map, List.countP_eq_zero]
    intro c hc
    have hlt := hhigh c hc
    simpa using Nat.succ_le_of_lt hlt
  rw [countBelow, h.keys, countP_padTo (by simpa using hpad)]
  cases low with
  | nil =>
    obtain ⟨-, rfl⟩ := List.cons.inj hcut
    exact hnone
  | cons c low =>
    rw [List.cons_append] at hcut
    rw [(List.cons.inj hcut).2]
    show ((low ++ b :: high).map Prod.fst).countP (· < probe + 1) = low.length + 1
    rw [List.map_append, List.map_cons, List.countP_append, List.countP_cons_of_pos, hnone,
      hcount low fun d hd ↦ hlow d (List.mem_cons_of_mem c hd)]
    exact decide_eq_true (Nat.lt_succ_of_le hb)

theorem setChild_first (h : node.Holds first rest) (c : C) : (node.setChild 0 c).Holds c rest where
  n := h.n
  keys := h.keys
  child := by
    show node.child.set 0 c = _
    rw [h.child]
    rfl
  fits := h.fits

theorem setChild_rest {low high : List (Nat × C)} {b : Nat × C}
    (h : node.Holds first (low ++ b :: high)) (c : C) :
    (node.setChild (low.length + 1) c).Holds first (low ++ (b.1, c) :: high) where
  n := by
    show node.n = _
    rw [h.n, List.length_append, List.length_append, List.length_cons, List.length_cons]
  keys := by
    show node.keys = _
    rw [h.keys, List.map_append, List.map_append, List.map_cons, List.map_cons]
  child := by
    show node.child.set (low.length + 1) c = _
    rw [h.child, List.set_cons_succ, List.map_append, List.map_append, List.map_cons, List.map_cons,
      List.set_append_right _ _ (by rw [List.length_map]), List.length_map, Nat.sub_self]
    rfl
  fits := by
    have hfits := h.fits
    rw [List.length_append, List.length_cons] at hfits ⊢
    exact hfits

/-! ### Insertion -/

/-- The children after an insertion into a node: one node's, or those of two neighbours. -/
def Inserted (result : Inner C × Option (Nat × Inner C)) (first : C) (rest : List (Nat × C)) :
    Prop :=
  (result.2 = none ∧ result.1.Holds first rest) ∨
    ∃ left separator sibling c right, result.2 = some (separator, sibling) ∧
      result.1.Holds first left ∧ sibling.Holds c right ∧ left ++ (separator, c) :: right = rest

theorem insert_room (h : node.Holds first rest) (hroom : rest.length < innerKeys)
    (hchild : child ≤ rest.length) (separator : Nat) (right : C) :
    (node.insertChild child separator right).2 = none ∧
      (node.insertChild child separator right).1.Holds first
        (rest.insertIdx child (separator, right)) := by
  have hlen : node.n = (rest.map Prod.fst).length := by rw [List.length_map, h.n]
  rw [insertChild, if_pos (by rwa [h.n])]
  refine ⟨rfl, ?_, ?_, ?_, ?_⟩
  · show node.n + 1 = _
    rw [List.length_insertIdx_of_le_length hchild, h.n]
  · show (memmove node.keys (child + 1) child (node.n - child)).set child separator = _
    rw [h.keys, hlen, insert_padTo (by rwa [List.length_map]) (by rwa [List.length_map]),
      List.map_insertIdx]
  · show node.child.insertIdx (child + 1) right = _
    rw [h.child, List.insertIdx_succ_cons, List.map_insertIdx]
  · rw [List.length_insertIdx_of_le_length hchild]
    exact hroom

theorem insert_split (h : node.Holds first rest) (hfull : rest.length = innerKeys)
    (hchild : child < innerKeys) (separator : Nat) (right : C) :
    Inserted (node.insertChild child separator right) first
      (rest.insertIdx child (separator, right)) := by
  have hlen : (rest.insertIdx child (separator, right)).length = innerKeys + 1 := by
    rw [List.length_insertIdx_of_le_length (by omega), hfull]
  have hkeys : node.keys.insertIdx child separator =
      (rest.insertIdx child (separator, right)).map Prod.fst := by
    rw [h.keys, padTo, List.length_map, hfull, Nat.sub_self, List.replicate_zero, List.append_nil,
      List.map_insertIdx]
  have hchildren : node.child.insertIdx (child + 1) right =
      first :: (rest.insertIdx child (separator, right)).map Prod.snd := by
    rw [h.child, List.insertIdx_succ_cons, List.map_insertIdx]
  rw [insertChild, if_neg (by rw [h.n]; omega), if_neg hchild.ne, hkeys, hchildren]
  generalize rest.insertIdx child (separator, right) = all at hlen ⊢
  obtain ⟨s, c, hsc⟩ : ∃ s c, all[8]? = some (s, c) :=
    ⟨_, _, List.getElem?_eq_getElem (by rw [hlen]; decide)⟩
  have hcut : all = all.take 8 ++ (s, c) :: all.drop 9 := by
    have hdrop := List.drop_eq_getElem_cons (l := all) (i := 8) (by rw [hlen]; decide)
    rw [List.getElem?_eq_getElem (by rw [hlen]; decide), Option.some.injEq] at hsc
    rw [hsc] at hdrop
    rw [← hdrop, List.take_append_drop]
  have hleft : (all.take 8).length = 8 := by
    rw [List.length_take, hlen]
    rfl
  have hright : (all.drop 9).length = 8 := by
    rw [List.length_drop, hlen]
    rfl
  generalize all.take 8 = left at hcut hleft
  generalize all.drop 9 = moved at hcut hright
  subst hcut
  have hnode : (rest.map Prod.fst).length ≤ innerKeys := by rw [List.length_map, hfull]
  have hs : ((left ++ (s, c) :: moved).map Prod.fst).getD 8 chunkKeyPad = s := by
    rw [List.map_append, List.getD_append_right _ _ _ _ (by rw [List.length_map, hleft]),
      List.length_map, hleft]
    rfl
  refine Or.inr ⟨left, _, _, c, moved, rfl, ?_, ?_, ?_⟩
  · constructor
    · exact hleft.symm
    · show fill (overwrite node.keys 0 (((left ++ (s, c) :: moved).map Prod.fst).take 8)) 8
        innerKeys
        chunkKeyPad = _
      have htake : ((left ++ (s, c) :: moved).map Prod.fst).take 8 = left.map Prod.fst := by
        rw [← List.map_take, List.take_left' hleft]
      have h8 : 8 = (left.map Prod.fst).length := by rw [List.length_map, hleft]
      rw [htake, h.keys]
      conv_lhs => rw [h8]
      rw [fill_overwrite_padTo hnode rfl (by rw [List.length_map, hleft]; decide)]
    · show (first :: (left ++ (s, c) :: moved).map Prod.snd).take 9 = _
      rw [List.take_succ_cons, ← List.map_take, List.take_left' hleft]
    · rw [hleft]
      decide
  · constructor
    · exact hright.symm
    · show overwrite (List.replicate innerKeys chunkKeyPad) 0
        ((((left ++ (s, c) :: moved).map Prod.fst).drop 9).take 8) = _
      have hdrop : (((left ++ (s, c) :: moved).map Prod.fst).drop 9).take 8 =
          moved.map Prod.fst := by
        rw [List.map_append, List.drop_append,
          List.drop_of_length_le (by rw [List.length_map]; omega),
          List.length_map, hleft, List.map_cons]
        show (moved.map Prod.fst).take 8 = _
        rw [List.take_of_length_le (by rw [List.length_map, hright])]
      rw [hdrop, overwrite_replicate]
    · show ((first :: (left ++ (s, c) :: moved).map Prod.snd).drop 9).take 9 = _
      rw [List.drop_succ_cons, ← List.map_drop, List.drop_left' hleft, List.map_cons,
        List.take_of_length_le (by rw [List.length_cons, List.length_map, hright])]
    · rw [hright]
      decide
  · exact congrArg (fun k ↦ left ++ (k, c) :: moved) hs

/-- An insertion puts the new child behind the child it follows. -/
theorem insertChild (h : node.Holds first rest) (hchild : child ≤ rest.length) (separator : Nat)
    (right : C) :
    Inserted (node.insertChild child separator right) first
      (rest.insertIdx child (separator, right)) := by
  have hfits := h.fits
  by_cases hroom : rest.length < innerKeys
  · exact Or.inl (h.insert_room hroom hchild separator right)
  have hfull : rest.length = innerKeys := by omega
  by_cases hlast : child = innerKeys
  · rw [Inner.insertChild, if_neg (by rwa [h.n]), if_pos hlast]
    refine Or.inr ⟨rest, separator, _, right, [], rfl, h, Holds.only right, ?_⟩
    rw [hlast, ← hfull]
    exact (List.insertIdx_length_self ..).symm
  · exact h.insert_split hfull (by omega) separator right

/-! ### Removal -/

theorem remove_first {b : Nat × C} (h : node.Holds first (b :: rest)) :
    (node.removeChild 0).Holds b.2 rest where
  n := by
    show node.n - 1 = _
    rw [h.n, List.length_cons, Nat.add_sub_cancel]
  keys := by
    have hlen : node.n = ((b :: rest).map Prod.fst).length := by rw [List.length_map, h.n]
    show (memmove node.keys 0 (0 + 1) (node.n - 0 - 1)).set (node.n - 1) chunkKeyPad = _
    rw [h.keys, hlen, erase_padTo (by rw [List.length_map]; exact Nat.succ_pos _)
      (by rw [List.length_map]; exact h.fits)]
    rfl
  child := by
    show node.child.eraseIdx 0 = _
    rw [h.child]
    rfl
  fits := (Nat.le_succ _).trans h.fits

theorem remove_rest {low high : List (Nat × C)} {b : Nat × C}
    (h : node.Holds first (low ++ b :: high)) :
    (node.removeChild (low.length + 1)).Holds first (low ++ high) where
  n := by
    show node.n - 1 = _
    rw [h.n, List.length_append, List.length_append, List.length_cons]
    omega
  keys := by
    have hlen : node.n = ((low ++ b :: high).map Prod.fst).length := by rw [List.length_map, h.n]
    have hlt : low.length < ((low ++ b :: high).map Prod.fst).length := by
      rw [List.length_map, List.length_append, List.length_cons]
      omega
    show (memmove node.keys low.length (low.length + 1) (node.n - low.length - 1)).set (node.n - 1)
      chunkKeyPad = _
    rw [h.keys, hlen, erase_padTo hlt (by rw [List.length_map]; exact h.fits), List.map_append,
      List.map_append, List.eraseIdx_append_of_length_le (by rw [List.length_map]), List.length_map,
      Nat.sub_self]
    rfl
  child := by
    show node.child.eraseIdx (low.length + 1) = _
    rw [h.child, List.eraseIdx_cons_succ, List.map_append, List.map_append,
      List.eraseIdx_append_of_length_le (by rw [List.length_map]), List.length_map, Nat.sub_self]
    rfl
  fits := by
    have hfits := h.fits
    rw [List.length_append, List.length_cons] at hfits
    rw [List.length_append]
    omega

end Holds

/-! ## Branches -/

/-- The branches of a node whose first child starts from `floor`. -/
def Branched (node : Inner C) (floor : Nat) (bs : List (Nat × C)) : Prop :=
  ∃ first rest, bs = (floor, first) :: rest ∧ node.Holds first rest

namespace Branched

variable {bs low high : List (Nat × C)} {b : Nat × C}

theorem branches_eq (h : node.Branched floor bs) : node.branches floor = bs := by
  obtain ⟨first, rest, rfl, hn⟩ := h
  exact hn.branches_eq floor

theorem childAt_eq [Inhabited C] (h : node.Branched floor (low ++ b :: high)) :
    node.childAt low.length = b.2 := by
  obtain ⟨first, rest, hbs, hn⟩ := h
  have hchild : node.child = (low ++ b :: high).map Prod.snd := by rw [hbs, hn.child, List.map_cons]
  rw [childAt, hchild, List.map_append, List.getD_append_right _ _ _ _ (by rw [List.length_map]),
    List.length_map, Nat.sub_self]
  rfl

theorem n_eq (h : node.Branched floor bs) : node.n + 1 = bs.length := by
  obtain ⟨first, rest, rfl, hn⟩ := h
  rw [hn.n, List.length_cons]

/-- The floor of the last branch. -/
theorem lastFloor_eq (h : node.Branched floor (low ++ [b])) :
    (if low.length = 0 then floor else node.keys.getD (low.length - 1) chunkKeyPad) = b.1 := by
  obtain ⟨first, rest, hbs, hn⟩ := h
  cases low with
  | nil =>
    obtain ⟨rfl, -⟩ := List.cons.inj hbs
    rfl
  | cons c low =>
    rw [List.cons_append] at hbs
    obtain ⟨-, rfl⟩ := List.cons.inj hbs
    rw [List.length_cons, if_neg (Nat.succ_ne_zero _), hn.keys, getD_padTo, Nat.add_sub_cancel,
      List.map_append, List.getD_append_right _ _ _ _ (by rw [List.length_map]), List.length_map,
      Nat.sub_self]
    rfl

theorem setChild (h : node.Branched floor (low ++ b :: high)) (c : C) :
    (node.setChild low.length c).Branched floor (low ++ (b.1, c) :: high) := by
  obtain ⟨first, rest, hbs, hn⟩ := h
  cases low with
  | nil =>
    obtain ⟨rfl, rfl⟩ := List.cons.inj hbs
    exact ⟨c, high, rfl, hn.setChild_first c⟩
  | cons d low =>
    rw [List.cons_append] at hbs
    obtain ⟨rfl, rfl⟩ := List.cons.inj hbs
    exact ⟨first, _, rfl, hn.setChild_rest c⟩

/-- The branches after an insertion: one node's, or those of two neighbours. -/
def Inserted (result : Inner C × Option (Nat × Inner C)) (floor : Nat) (bs : List (Nat × C)) :
    Prop :=
  (result.2 = none ∧ result.1.Branched floor bs) ∨
    ∃ up left right, result.2 = some up ∧ result.1.Branched floor left ∧
      up.2.Branched up.1 right ∧ left ++ right = bs

theorem insertChild (h : node.Branched floor (low ++ b :: high)) (separator : Nat) (right : C) :
    Inserted (node.insertChild low.length separator right) floor
      (low ++ b :: (separator, right) :: high) := by
  obtain ⟨first, rest, hbs, hn⟩ := h
  have hlen : low.length ≤ rest.length := by
    have hlen := congrArg List.length hbs
    rw [List.length_append, List.length_cons, List.length_cons] at hlen
    omega
  have hinsert : (floor, first) :: rest.insertIdx low.length (separator, right) =
      low ++ b :: (separator, right) :: high := by
    have hmid := insertIdx_length_append (low ++ [b]) high (separator, right)
    rw [List.length_append, List.length_singleton] at hmid
    rw [← List.insertIdx_succ_cons, ← hbs, List.append_cons low b high, hmid, ← List.append_cons]
  rcases hn.insertChild hlen separator right with ⟨hnone, hholds⟩ |
    ⟨left, s, sibling, c, moved, hsome, hleft, hright, hcut⟩
  · exact Or.inl ⟨hnone, first, _, hinsert.symm, hholds⟩
  · refine Or.inr ⟨(s, sibling), (floor, first) :: left, (s, c) :: moved, hsome, ⟨first, left, rfl,
      hleft⟩, ⟨c, moved, rfl, hright⟩, ?_⟩
    rw [List.cons_append, hcut, hinsert]

/-- Behind a removed first branch the next one starts where it did. -/
theorem removeChild_first {next : Nat × C} (h : node.Branched floor (b :: next :: high)) :
    (node.removeChild 0).Branched floor ((floor, next.2) :: high) := by
  obtain ⟨first, rest, hbs, hn⟩ := h
  obtain ⟨rfl, rfl⟩ := List.cons.inj hbs
  exact ⟨next.2, high, rfl, hn.remove_first⟩

theorem removeChild (h : node.Branched floor (low ++ b :: high)) (hlow : low ≠ []) :
    (node.removeChild low.length).Branched floor (low ++ high) := by
  obtain ⟨first, rest, hbs, hn⟩ := h
  obtain ⟨d, low, rfl⟩ := List.exists_cons_of_ne_nil hlow
  rw [List.cons_append] at hbs
  obtain ⟨rfl, rfl⟩ := List.cons.inj hbs
  exact ⟨first, _, rfl, hn.remove_rest⟩

end Branched

end Inner

end Roaring
