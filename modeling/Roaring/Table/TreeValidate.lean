import Mathlib
import Roaring.Table.Validate
import Roaring.Table.TreeErase

/-!
# The invariant passes the structural check

Every node of a tree lies within the range its separators give it, and its
leaves, in the order of the levels, are linked as the chain has them.
-/

namespace Roaring

open Lib

variable {H : Type} {minEntries : Nat}

namespace ChunkTree

variable {t : ChunkTree H minEntries} {rows front seg back : List (Row H)} {r : Row H}
variable {floor ceiling count : Nat}

/-! ## Checks -/

theorem require_ok {holds : Bool} (h : holds = true) (problem : String) :
    require holds problem = .ok () := by
  rw [require, if_pos h]

theorem forM_ok {α : Type} {check : α → Except String Unit} :
    ∀ {l : List α}, (∀ a ∈ l, check a = .ok ()) → l.forM check = .ok ()
  | [], _ => rfl
  | a :: l, h => by
    show (check a >>= fun _ ↦ l.forM check) = .ok ()
    rw [h a List.mem_cons_self]
    exact forM_ok fun b hb ↦ h b (List.mem_cons_of_mem a hb)

/-- Keys behind each other: in range, and each above the one before it. -/
theorem range_ok {keys : List Nat} (hsorted : keys.Pairwise (· < ·))
    (hrange : ∀ key ∈ keys, floor ≤ key ∧ key < ceiling) {at_ : Nat → Nat}
    (hat : ∀ i (hi : i < keys.length), at_ i = keys[i]) {i : Nat}
    (hi : i ∈ List.range keys.length) :
    (floor ≤ at_ i ∧ at_ i < ceiling) ∧ (i = 0 ∨ at_ (i - 1) < at_ i) := by
  have hlt := List.mem_range.mp hi
  constructor
  · rw [hat i hlt]
    exact hrange _ (List.getElem_mem hlt)
  · rcases Nat.eq_zero_or_pos i with hzero | hpos
    · exact Or.inl hzero
    · right
      rw [hat i hlt, hat (i - 1) (by omega)]
      exact List.pairwise_iff_getElem.mp hsorted _ _ _ _ (by omega)

theorem drop_padTo {limit : Nat} {keys : List Nat} :
    ((padTo limit chunkKeyPad keys).drop keys.length).all (· = chunkKeyPad) := by
  rw [padTo, List.drop_left]
  simp

/-! ## Leaves -/

theorem checkLeaf_ok (h : Chained t (front ++ r :: back))
    (hcap : r.2.cap = leafCapacity ∨ t.isRootLeaf r.2.id = true)
    (hrange : ∀ e ∈ r.2.entries, floor ≤ e.1 ∧ e.1 < ceiling) (count : Nat) :
    t.checkLeaf r.2.id floor ceiling (count, front.getLast?.map fun s ↦ s.2.id) =
      .ok (count + r.2.size, some r.2.id) := by
  have hsound := h.stacked.row.sound
  have hkeys : (r.2.entries.map Prod.fst).length = r.2.size := by
    rw [List.length_map, hsound.size_eq]
  have hat : ∀ i (hi : i < (r.2.entries.map Prod.fst).length),
      r.2.keyAt i = (r.2.entries.map Prod.fst)[i] := by
    intro i hi
    rw [List.length_map] at hi
    rw [hsound.holds.keyAt_of_lt hi, List.getElem_map]
  have hsorted : (r.2.entries.map Prod.fst).Pairwise (· < ·) := List.pairwise_map.mpr hsound.sorted
  have hsize : r.2.size ≤ r.2.cap ∧ (r.2.size ≠ 0 ∨ some r.2.id = t.tail) := by
    refine ⟨?_, ?_⟩
    · rw [hsound.size_eq]
      exact hsound.holds.fits
    · cases back with
      | nil => exact Or.inr h.tail_eq.symm
      | cons s back =>
        left
        rw [hsound.size_eq]
        intro hzero
        exact (h.stacked.below_back s List.mem_cons_self).nonempty
          (List.eq_nil_of_length_eq_zero hzero)
  have hprev : ((front.getLast?.map fun s ↦ s.2.id).all
      fun previous ↦ t.nextLeaf previous = some r.2.id) = true := by
    rcases List.eq_nil_or_concat front with rfl | ⟨init, s, rfl⟩
    · rfl
    · rw [List.concat_eq_append] at h ⊢
      have hs : Chained t (init ++ s :: r :: back) := by rwa [List.append_assoc] at h
      rw [List.getLast?_concat, Option.map_some, Option.all_some, hs.nextLeaf_eq]
      simp
  rw [checkLeaf]
  dsimp only
  rw [h.leaf_eq, require_ok (by simpa using hsize), require_ok (by simpa using hcap), forM_ok,
    require_ok, require_ok, require_ok hprev]
  · rfl
  · simpa using h.prevLeaf_eq
  · rw [hsound.holds.keys, ← hkeys]
    exact drop_padTo
  · intro i hi
    rw [← hkeys] at hi
    obtain ⟨hin, hbefore⟩ := range_ok hsorted (List.forall_mem_map.mpr hrange) hat hi
    rw [require_ok (by simpa using hin), require_ok (by simpa using hbefore)]
    rfl

/-! ## Subtrees -/

/-- The check of a node passes over any rows its items are, below any ceiling above them, and has
then counted their entries and seen the last of their leaves. -/
def Passes (t : ChunkTree H minEntries) (level : Nat) (node : Node level) : Prop :=
  ∀ (floor ceiling count : Nat) (front seg back : List (Row H)),
    Node.items level node floor = seg.map Row.item → Chained t (front ++ seg ++ back) →
    (∀ r ∈ seg, r.2.cap = leafCapacity ∨ t.isRootLeaf r.2.id = true) →
    (∀ r ∈ seg, r.1 < ceiling ∧ ∀ e ∈ r.2.entries, e.1 < ceiling) →
    t.checkSubtree level node floor ceiling (count, front.getLast?.map fun s ↦ s.2.id) =
      .ok (count + (entriesOf seg).length, (front ++ seg).getLast?.map fun s ↦ s.2.id)

theorem passes_leaf (leaf : LeafId) : Passes t 0 leaf := by
  intro floor ceiling count front seg back hitems h hcap hbelow
  obtain ⟨r, rfl, hitem⟩ := List.map_eq_singleton_iff.mp hitems.symm
  obtain ⟨rfl, rfl⟩ := Prod.mk.inj hitem
  have hrow : Chained t (front ++ r :: back) := by rwa [List.append_assoc] at h
  have hok := hrow.stacked.row
  rw [List.getLast?_concat, entriesOf_cons, entriesOf_nil, List.append_nil, ← hok.sound.size_eq]
  exact checkLeaf_ok hrow (hcap r List.mem_cons_self)
    (fun e he ↦ ⟨hok.above e he, (hbelow r List.mem_cons_self).2 e he⟩) count

/-- The children of a node pass one after the other, each below the floor of the next. -/
theorem checkChildren_ok {level : Nat} : ∀ {bs : List (Nat × Node level)} {front seg : List (Row H)}
    {count : Nat}, (∀ b ∈ bs, Node.Shape level b.2 ∧ Passes t level b.2) →
    Node.allItems level bs = seg.map Row.item → Chained t (front ++ seg ++ back) →
    (∀ r ∈ seg, r.2.cap = leafCapacity ∨ t.isRootLeaf r.2.id = true) →
    (∀ r ∈ seg, r.1 < ceiling ∧ ∀ e ∈ r.2.entries, e.1 < ceiling) →
    checkChildren (fun child ↦ t.checkSubtree level child) ceiling bs
        (count, front.getLast?.map fun s ↦ s.2.id) =
      .ok (count + (entriesOf seg).length, (front ++ seg).getLast?.map fun s ↦ s.2.id)
  | [], front, seg, count, _, hitems, _, _, _ => by
    obtain rfl : seg = [] := List.map_eq_nil_iff.mp hitems.symm
    rw [List.append_nil]
    rfl
  | b :: more, front, seg, count, hall, hitems, h, hcap, hbelow => by
    rw [List.forall_mem_cons] at hall
    rw [Node.allItems, List.flatMap_cons] at hitems
    obtain ⟨own, others, rfl, hown, hothers⟩ := List.map_eq_append_iff.mp hitems.symm
    have hfirst : Chained t (front ++ own ++ (others ++ back)) := by
      simpa only [List.append_assoc] using h
    have hlater : Chained t ((front ++ own) ++ others ++ back) := by
      simpa only [List.append_assoc] using h
    rw [List.forall_mem_append] at hcap hbelow
    have hceiling : ∀ r ∈ own, r.1 < (more.map Prod.fst).headD ceiling ∧
        ∀ e ∈ r.2.entries, e.1 < (more.map Prod.fst).headD ceiling := by
      cases more with
      | nil => exact hbelow.1
      | cons c more =>
        obtain ⟨leaf, items, hhead⟩ := Node.items_head (hall.2 c List.mem_cons_self).1 c.1
        rw [List.flatMap_cons, hhead, List.cons_append] at hothers
        obtain ⟨s, others, rfl, hs, -⟩ := List.map_eq_cons_iff.mp hothers
        intro r hr
        have hpair := h.stacked.below
        rw [List.append_assoc, List.append_assoc, List.pairwise_append,
          List.pairwise_append] at hpair
        have hrs : Row.Below r s := hpair.2.1.2.2 r hr s (by simp)
        rw [List.map_cons, List.headD_cons, ← show s.1 = c.1 from congrArg Prod.fst hs]
        exact ⟨hrs.floor, hrs.keys⟩
    rw [checkChildren, hall.1.2 _ _ _ _ _ _ hown.symm hfirst hcap.1 hceiling]
    show checkChildren _ _ more _ = _
    rw [checkChildren_ok hall.2 hothers.symm hlater hcap.2 hbelow.2, entriesOf_append,
      List.length_append, Nat.add_assoc, List.append_assoc]

theorem passes : ∀ {level : Nat} {node : Node level}, Node.Shape level node → Passes t level node
  | 0, leaf, _ => passes_leaf leaf
  | level + 1, node, hshape => by
    intro floor ceiling count front seg back hitems h hcap hbelow
    obtain ⟨_, ⟨first, rest, rfl, hn⟩, hall⟩ := hshape.branched floor
    have hbranched : Inner.Branched node floor ((floor, first) :: rest) := ⟨first, rest, rfl, hn⟩
    rw [Node.items_eq hbranched] at hitems
    have hascending : Node.Ascending (Node.allItems level ((floor, first) :: rest)) := by
      have hpair := h.stacked.below
      rw [List.append_assoc, List.pairwise_append, List.pairwise_append] at hpair
      rw [hitems, Node.Ascending, List.pairwise_map]
      exact hpair.2.1.1.imp fun hrs ↦ hrs.floor
    have hfloors := (Node.branches_ascending hall hascending).1
    rw [List.pairwise_cons] at hfloors
    have hrange : ∀ key ∈ rest.map Prod.fst, floor ≤ key ∧ key < ceiling := by
      intro key hkey
      obtain ⟨b, hb, rfl⟩ := List.mem_map.mp hkey
      refine ⟨(hfloors.1 b hb).le, ?_⟩
      obtain ⟨leaf, items, hhead⟩ := Node.items_head (hall b (List.mem_cons_of_mem _ hb)) b.1
      have hmem : (b.1, leaf) ∈ seg.map Row.item := by
        rw [← hitems]
        refine List.mem_flatMap.mpr ⟨b, List.mem_cons_of_mem _ hb, ?_⟩
        rw [hhead]
        exact List.mem_cons_self
      obtain ⟨r, hr, heq⟩ := List.mem_map.mp hmem
      rw [← show r.1 = b.1 from congrArg Prod.fst heq]
      exact (hbelow r hr).1
    have hlen : (rest.map Prod.fst).length = Inner.n node := by rw [List.length_map, hn.n]
    have hat : ∀ i (hi : i < (rest.map Prod.fst).length),
        (Inner.keys node).getD i chunkKeyPad = (rest.map Prod.fst)[i] := by
      intro i hi
      rw [hn.keys, getD_padTo, List.getD_eq_getElem]
    rw [checkSubtree, require_ok, forM_ok, require_ok, hbranched.branches_eq]
    · exact checkChildren_ok (fun b hb ↦ ⟨hall b hb, passes (hall b hb)⟩) hitems h hcap hbelow
    · rw [hn.keys, ← hlen]
      exact drop_padTo
    · intro i hi
      rw [← hlen] at hi
      obtain ⟨hin, hbefore⟩ := range_ok (List.pairwise_map.mpr hfloors.2) hrange hat hi
      show (require _ _ >>= fun _ ↦ require _ _) = _
      rw [require_ok (decide_eq_true hin)]
      exact require_ok (decide_eq_true hbefore) _
    · rw [hn.n]
      exact decide_eq_true hn.fits

/-! ## The tree -/

/-- A tree passes its structural check. -/
theorem Tree.validate_ok (h : Tree t rows) : t.validate = .ok () := by
  have hindexes := h.index
  rcases hindex : t.index with _ | ⟨height, root⟩ | ⟨first, d⟩
  · obtain rfl := h.nil_of_empty hindex
    have hsize : t.size = 0 := h.size
    have htail : t.tail = none := by
      rw [h.tail, h.chain]
      rfl
    rw [validate, hindex]
    exact require_ok (by simpa using ⟨hsize, htail⟩) _
  · obtain ⟨front, r, rfl, htail, -, -⟩ := h.exists_last (by rw [hindex]; exact Index.noConfusion)
    rw [hindex] at hindexes
    have hcap : ∀ x ∈ front ++ [r], x.2.cap = leafCapacity ∨ t.isRootLeaf x.2.id = true := by
      intro x hx
      by_cases hheight : height = 0
      · right
        subst hheight
        obtain ⟨y, hy, hitem⟩ := List.map_eq_singleton_iff.mp hindexes.2.1.symm
        rw [hy, List.mem_singleton] at hx
        subst hx
        rw [isRootLeaf, hindex]
        exact Nat.beq_eq ▸ (congrArg Prod.snd hitem).symm
      · exact Or.inl (hindexes.2.2 hheight x hx)
    have hbelow : ∀ x ∈ front ++ [r], x.1 < chunkKeyPad ∧ ∀ e ∈ x.2.entries, e.1 < chunkKeyPad :=
      fun x hx ↦ ⟨(h.stacked.ok x hx).floor, (h.stacked.ok x hx).sound.lt_pad⟩
    have hchained : Chained t ([] ++ (front ++ [r]) ++ []) := by
      rw [List.nil_append, List.append_nil]
      exact h.toChained
    have hchecked := passes (t := t) hindexes.1 0 chunkKeyPad 0 [] _ [] hindexes.2.1 hchained hcap
      hbelow
    rw [List.nil_append, List.getLast?_concat, Nat.zero_add, ← h.size] at hchecked
    rw [validate, hindex]
    show t.validateLevels height root = _
    rw [validateLevels]
    have hstart : t.checkSubtree height root 0 chunkKeyPad (0, none) = _ := hchecked
    rw [hstart]
    have hmod : t.size % (maxCount + 1) = t.size := Nat.mod_eq_of_lt (Nat.lt_succ_of_le h.bounded)
    have hnext : (t.nextLeaf (t.tail.getD 0)).isNone = true := by
      rw [htail, Option.getD_some, h.nextLeaf_eq]
      rfl
    show (require _ _ >>= fun _ ↦ require _ _ >>= fun _ ↦ require _ _) = _
    rw [require_ok (by simpa using hmod)]
    show (require _ _ >>= fun _ ↦ require _ _) = _
    rw [require_ok (by simpa using htail.symm)]
    exact require_ok hnext _
  · rw [hindex] at hindexes
    exact hindexes.elim

end ChunkTree

end Roaring
