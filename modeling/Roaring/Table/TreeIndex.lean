import Mathlib
import Roaring.Table.ChainSteps

/-!
# Steps on the index

The inner levels of a tree under its three updates: a leaf registered behind
another, a leaf removed with the nodes that held nothing else, and the levels
built anew over the chain when a directory is given up.
-/

namespace Roaring

open Lib

variable {H : Type} {minEntries : Nat}

namespace ChunkTree

variable {t : ChunkTree H minEntries} {rows front back : List (Row H)} {r s : Row H}
variable {path : List Nat} {before behind : List (Nat × LeafId)} {item : Nat × LeafId}

/-! ## Registering a leaf -/

theorem insertInParent_spec {height : Nat} {root : Node height}
    (hindex : t.index = .levels height root)
    (hshape : Node.Shape height root) (hleads : Node.Leads height root 0 path before item behind)
    (separator : Nat) (right : LeafId) :
    ∃ height' root', t.insertInParent path separator right =
        { t with index := .levels (height' + 1) root' } ∧
      Node.Shape (height' + 1) root' ∧
      Node.items (height' + 1) root' 0 = before ++ item :: (separator, right) :: behind := by
  obtain ⟨hnode, hup, hitems⟩ := Node.insertInParent_spec separator right hshape hleads
  rw [insertInParent, hindex]
  dsimp only
  rcases hgiven : (Node.insertInParent height root path separator right).2 with _ | up
  · rw [Node.insertedItems_none hgiven] at hitems
    cases height with
    | zero => exact absurd hgiven (Option.some_ne_none _)
    | succ height => exact ⟨height, _, rfl, hnode, hitems⟩
  · -- the root itself split: a new root above it
    rw [Node.insertedItems_some hgiven] at hitems
    have hbranched : Inner.Branched
        (Inner.root (Node.insertInParent height root path separator right).1 up.1 up.2) 0
        [(0, (Node.insertInParent height root path separator right).1), up] :=
      ⟨_, [up], rfl, Inner.Holds.root _ up.1 up.2⟩
    refine ⟨height, _, rfl, ⟨0, _, hbranched, ?_⟩, ?_⟩
    · rw [List.forall_mem_cons, List.forall_mem_singleton]
      exact ⟨hnode, hup up hgiven⟩
    · rw [Node.items_eq hbranched, Node.allItems, List.flatMap_cons, List.flatMap_singleton, hitems]

/-! ## Removing a leaf -/

theorem removeChild_spec {height : Nat} {root : Node (height + 1)}
    (hindex : t.index = .levels (height + 1) root) (hshape : Node.Shape (height + 1) root)
    (hleads : Node.Leads (height + 1) root 0 path before item behind) :
    (t.removeChild path = { t with index := .empty } ∧ before = [] ∧ behind = []) ∨
      ∃ height' root' behind', t.removeChild path = { t with index := .levels height' root' } ∧
        Node.Shape height' root' ∧ Node.items height' root' 0 = before ++ behind' ∧
        Node.Closed item.1 behind behind' ∧ (0 < path.getLastD 0 → behind' = behind) := by
  have hspec := Node.removeChild_spec hshape hleads
  rw [Node.removeChild] at hspec
  rw [removeChild, hindex]
  dsimp only at hspec ⊢
  rcases hbelow : Node.removeChild height (Inner.childAt root (path.headD 0))
    path.tail with _ | below
  · rw [hbelow] at hspec
    dsimp only at hspec ⊢
    by_cases hn : Inner.n root = 0
    · rw [if_pos hn] at hspec ⊢
      rcases hspec with ⟨-, hbefore, hbehind, -⟩ | ⟨_, _, hsome, -⟩
      · exact Or.inl ⟨rfl, hbefore, hbehind⟩
      · exact absurd hsome.symm (Option.some_ne_none _)
    · rw [if_neg hn] at hspec ⊢
      right
      rcases hspec with ⟨hnone, -⟩ | ⟨node, behind', hsome, hnode, hitems, hclosed⟩
      · exact absurd hnone (Option.some_ne_none _)
      obtain rfl := Option.some.inj hsome
      by_cases hroot : (Inner.removeChild root (path.headD 0)).n = 0
      · -- a root with one child is no root
        rw [if_pos hroot]
        obtain ⟨_, ⟨first, rest, rfl, hholds⟩, hall⟩ := Node.Shape.branched hnode 0
        have hrest : rest = [] := List.eq_nil_of_length_eq_zero (hholds.n.symm.trans hroot)
        subst hrest
        have hbranched : Inner.Branched (Inner.removeChild root (path.headD 0)) 0
            ([] ++ [((0 : Nat), first)]) := ⟨first, [], rfl, hholds⟩
        have hchild : Inner.childAt (Inner.removeChild root (path.headD 0)) 0 = first :=
          hbranched.childAt_eq
        refine ⟨height, _, behind', rfl, ?_, ?_, hclosed⟩
        · rw [hchild]
          exact hall _ List.mem_cons_self
        · rw [hchild, ← hitems, Node.items_eq hbranched, List.nil_append, Node.allItems,
            List.flatMap_singleton]
      · rw [if_neg hroot]
        exact ⟨height + 1, _, behind', rfl, hnode, hitems, hclosed⟩
  · rw [hbelow] at hspec
    dsimp only at hspec ⊢
    right
    rcases hspec with ⟨hnone, -⟩ | ⟨node, behind', hsome, hnode, hitems, hclosed⟩
    · exact absurd hnone (Option.some_ne_none _)
    obtain rfl := Option.some.inj hsome
    exact ⟨height + 1, _, behind', rfl, hnode, hitems, hclosed⟩

/-- Behind a removed row the next may start where it did. -/
theorem closed_rows (hstacked : Stacked (front ++ r :: back)) {behind' : List (Nat × LeafId)}
    (hclosed : Node.Closed r.1 (back.map Row.item) behind') :
    ∃ back', behind' = back'.map Row.item ∧ back'.map Prod.snd = back.map Prod.snd ∧
      Stacked (front ++ back') := by
  rcases hclosed with rfl | ⟨item, rest, hback, rfl⟩
  · refine ⟨back, rfl, rfl, hstacked.of_sublist ?_⟩
    exact (List.Sublist.refl front).append (List.sublist_cons_self r back)
  · obtain ⟨s, back, rfl, rfl, rfl⟩ := List.map_eq_cons_iff.mp hback
    refine ⟨(r.1, s.2) :: back, rfl, rfl, ?_⟩
    have hbelow := hstacked.below_back s List.mem_cons_self
    have hs : Stacked ((front ++ [r]) ++ s :: back) := by rwa [List.append_assoc]
    have hgone : Stacked (front ++ r :: ([s] ++ back)) := hstacked
    have hlower : Row.Ok ((r.1, s.2) : Row H) := ⟨hs.row.sound, fun e he ↦
      hbelow.floor.le.trans (hs.row.above e he), hstacked.row.floor⟩
    have hlowered := hgone.replace (Stacked.singleton hlower)
      (fun m hm ↦ (List.mem_singleton.mp hm).symm ▸ le_rfl)
      (fun m hm x hx ↦ by
        have hsx := hs.below_back x hx
        rw [List.mem_singleton.mp hm]
        exact ⟨hbelow.floor.trans hsx.floor, hsx.keys, hsx.nonempty⟩)
    rwa [List.append_assoc] at hlowered

/-- A leaf unhooked from the chain and from the levels, whatever row it has been: the chain holds
the rows before it and those behind it, the first of which may start where it did. -/
theorem Chained.unhook {height : Nat} {root : Node (height + 1)}
    (h : Chained t (front ++ r :: back)) (hindex : t.index = .levels (height + 1) root)
    (hshape : Node.Shape (height + 1) root)
    (hleads : Node.Leads (height + 1) root 0 path (front.map Row.item) r.item (back.map Row.item))
    (hfull : ∀ x ∈ front ++ r :: back, x.2.cap = leafCapacity) :
    ∃ back' index, (t.freeLeaf r.2.id).removeChild path =
        { t.freeLeaf r.2.id with index := index } ∧
      back'.map Prod.snd = back.map Prod.snd ∧
      Chained ((t.freeLeaf r.2.id).removeChild path) (front ++ back') ∧
      Indexes index (front ++ back') := by
  have hfree := h.freeLeaf
  have hindex' : (t.freeLeaf r.2.id).index = .levels (height + 1) root := hindex
  rcases removeChild_spec hindex' hshape hleads with ⟨heq, hbefore, hbehind⟩ |
    ⟨height', root', behind', heq, hshape', hitems, hclosed, -⟩
  · obtain rfl := List.map_eq_nil_iff.mp hbefore
    obtain rfl := List.map_eq_nil_iff.mp hbehind
    refine ⟨[], _, heq, rfl, ?_, rfl⟩
    rw [heq]
    exact hfree.congr rfl rfl rfl
  · obtain ⟨back', rfl, hleaves, hstacked⟩ := closed_rows h.stacked hclosed
    have hrows : (front ++ back').map Prod.snd = (front ++ back).map Prod.snd := by
      rw [List.map_append, List.map_append, hleaves]
    refine ⟨back', _, heq, hleaves, ?_, hshape', ?_, ?_⟩
    · rw [heq]
      exact (hfree.refloor hrows hstacked).congr rfl rfl rfl
    · rw [hitems, List.map_append]
    · intro _ x hx
      have hmem : x.2 ∈ (front ++ back).map Prod.snd := hrows ▸ List.mem_map_of_mem hx
      obtain ⟨y, hy, hxy⟩ := List.mem_map.mp hmem
      rw [← hxy]
      apply hfull y
      exact ((List.Sublist.refl front).append (List.sublist_cons_self r back)).subset hy

/-- The levels without a leaf that has a neighbour before it under its parent. -/
theorem removeChild_exact {height : Nat} {root : Node (height + 1)}
    (hindex : t.index = .levels (height + 1) root) (hshape : Node.Shape (height + 1) root)
    (hleads : Node.Leads (height + 1) root 0 path (front.map Row.item) item (back.map Row.item))
    (hlast : 0 < path.getLastD 0) (hfront : front ≠ [])
    (hfull : ∀ x ∈ front ++ back, x.2.cap = leafCapacity) :
    ∃ index, t.removeChild path = { t with index := index } ∧ Indexes index (front ++ back) := by
  rcases removeChild_spec hindex hshape hleads with ⟨-, hbefore, -⟩ |
    ⟨height', root', behind', heq, hshape', hitems, -, hexact⟩
  · exact absurd (List.map_eq_nil_iff.mp hbefore) hfront
  · refine ⟨_, heq, hshape', ?_, fun _ ↦ hfull⟩
    rw [hitems, hexact hlast, List.map_append]

/-! ## Building the levels anew -/

/-- The floors `build_levels` gives the leaves of a chain stack them. -/
theorem lowests_spec : ∀ {rows : List (Row H)} (previousLast : Nat), Stacked rows →
    previousLast + 1 < chunkKeyPad →
    ∃ rows', lowests previousLast (rows.map Prod.snd) = rows'.map Row.item ∧
      rows'.map Prod.snd = rows.map Prod.snd ∧ Stacked rows' ∧
      ((∀ e ∈ entriesOf rows, previousLast < e.1) → ∀ s ∈ rows', previousLast < s.1)
  | [], _, _, _ => ⟨[], rfl, rfl, Stacked.nil, by simp⟩
  | r :: rows, previousLast, hstacked, hlast => by
    have hfirst : Stacked ([] ++ r :: rows) := hstacked
    have hrow := hfirst.row
    have hsize := hrow.sound.size_eq
    rw [List.map_cons, lowests]
    rcases List.eq_nil_or_concat r.2.entries with hnil | ⟨init, e, hinit⟩
    · -- the empty last leaf is indexed under a key above everything held
      have hrows : rows = [] := by
        cases rows with
        | nil => rfl
        | cons s rows =>
          exact absurd hnil (hfirst.below_back s List.mem_cons_self).nonempty
      subst hrows
      rw [hnil] at hsize
      rw [if_pos (show r.2.size = 0 from hsize)]
      refine ⟨[(previousLast + 1, r.2)], rfl, rfl, Stacked.singleton ⟨hrow.sound, ?_, hlast⟩, ?_⟩
      · rw [show ((previousLast + 1, r.2) : Row H).2.entries = [] from hnil]
        simp
      · intro _ s hs
        rw [List.mem_singleton.mp hs]
        exact Nat.lt_succ_self _
    · rw [List.concat_eq_append] at hinit
      have hmemLast : e ∈ r.2.entries := by
        rw [hinit]
        exact List.mem_append_right init List.mem_cons_self
      have hle : ∀ a ∈ r.2.entries, a.1 ≤ e.1 := by
        have hsorted := hrow.sound.sorted
        rw [hinit, Sorted, List.pairwise_append] at hsorted
        intro a ha
        rw [hinit] at ha
        rcases List.mem_append.mp ha with ha | ha
        · exact (hsorted.2.2 a ha e List.mem_cons_self).le
        · exact (congrArg Prod.fst (List.mem_singleton.mp ha)).le
      obtain ⟨first, rest, hhead⟩ : ∃ first rest, r.2.entries = first :: rest :=
        List.exists_cons_of_ne_nil (List.ne_nil_of_mem hmemLast)
      have hge : ∀ a ∈ r.2.entries, first.1 ≤ a.1 := by
        have hsorted := hrow.sound.sorted
        rw [hhead, Sorted, List.pairwise_cons] at hsorted
        rw [hhead, List.forall_mem_cons]
        exact ⟨le_rfl, fun a ha ↦ (hsorted.1 a ha).le⟩
      have hfirstMem : first ∈ r.2.entries := by
        rw [hhead]
        exact List.mem_cons_self
      rw [if_neg (by rw [hsize, hhead]; exact Nat.succ_ne_zero _), if_neg (by
        rw [hsize, hhead]; exact Nat.succ_ne_zero _), hrow.sound.lastKey_eq hinit,
        hrow.sound.keyAt_zero hhead]
      obtain ⟨rows', hlowests, hleaves, hstacked', habove⟩ := lowests_spec e.1
        (hstacked.of_sublist (List.sublist_cons_self r rows)) (hrow.sound.legal e hmemLast)
      have hcross : ∀ s ∈ rows', e.1 < s.1 := habove fun a ha ↦
        (hfirst.mem_entriesOf_back a ha).2 e hmemLast
      refine ⟨(first.1, r.2) :: rows', ?_, ?_, ?_, ?_⟩
      · rw [hlowests]
        rfl
      · rw [List.map_cons, hleaves]
      · refine ⟨List.forall_mem_cons.mpr ⟨⟨hrow.sound, hge, ?_⟩, hstacked'.ok⟩,
          List.pairwise_cons.mpr ⟨fun s hs ↦ ?_, hstacked'.below⟩⟩
        · exact hrow.sound.lt_pad first hfirstMem
        · exact ⟨(hle first hfirstMem).trans_lt (hcross s hs), fun a ha ↦
            (hle a ha).trans_lt (hcross s hs), List.ne_nil_of_mem hmemLast⟩
      · intro hall
        have hfirstLt := hall first (by
          rw [entriesOf_cons]
          exact List.mem_append_left _ hfirstMem)
        refine List.forall_mem_cons.mpr ⟨hfirstLt, fun s hs ↦ ?_⟩
        exact (hfirstLt.trans_le (hle first hfirstMem)).trans (hcross s hs)

/-- The first row may start from 0. -/
theorem stacked_from_zero {rows : List (Row H)} (h : Stacked (r :: rows)) :
    Stacked (((0, r.2) : Row H) :: rows) := by
  have hfirst : Stacked ([] ++ r :: rows) := h
  have hrow := hfirst.row
  constructor
  · refine List.forall_mem_cons.mpr ⟨⟨hrow.sound, fun _ _ ↦ Nat.zero_le _, ?_⟩, ?_⟩
    · exact (Nat.zero_le r.1).trans_lt hrow.floor
    · exact fun s hs ↦ h.ok s (List.mem_cons_of_mem r hs)
  · refine List.pairwise_cons.mpr ⟨fun s hs ↦ ?_, (List.pairwise_cons.mp h.below).2⟩
    have hbelow := hfirst.below_back s hs
    exact ⟨(Nat.zero_le r.1).trans_lt hbelow.floor, hbelow.keys, hbelow.nonempty⟩

/-- The size at which a directory is next considered is above the size. -/
theorem lt_doubled {count : Nat} (hpos : 0 < count) (hlt : count < maxCount) :
    count < doubled count := by
  rw [doubled]
  split <;> omega

theorem le_doubled {count : Nat} (hle : count ≤ maxCount) : count ≤ doubled count := by
  rw [doubled]
  split <;> omega

/-- Levels built over a chain of full-sized leaves index it. -/
theorem Chained.abandonDirectory (h : Chained t (r :: rows))
    (hfull : ∀ x ∈ r :: rows, x.2.cap = leafCapacity) :
    ∃ rows' index, t.abandonDirectory r.2.id =
        { t with index := index, nextEval := doubled (max t.size minEntries % (maxCount + 1)) } ∧
      rows'.map Prod.snd = (r :: rows).map Prod.snd ∧
      Chained (t.abandonDirectory r.2.id) rows' ∧ Indexes index rows' := by
  have hdrop : t.chain.dropWhile (·.id ≠ r.2.id) = (r :: rows).map Prod.snd := by
    rw [h.chain, List.map_cons, List.dropWhile_cons_of_neg (by simp)]
  obtain ⟨rows', hlowests, hleaves, hstacked, -⟩ :=
    lowests_spec 0 h.stacked (show 0 + 1 < chunkKeyPad by decide)
  cases rows' with
  | nil => exact absurd (congrArg List.length hleaves) (by simp)
  | cons r' rows' =>
    have hlen : rows'.length = rows.length := by
      have hlen := congrArg List.length hleaves
      simpa using hlen
    have hfuel : (rows'.map Row.item).length ≤ ((r :: rows).map Prod.snd).length := by
      rw [List.length_map, List.length_map, List.length_cons]
      omega
    have hbuilt := @Node.buildLevels_spec ((r :: rows).map Prod.snd).length 0 r'.item
      (rows'.map Row.item) hfuel fun _ _ ↦ trivial
    have heq : t.abandonDirectory r.2.id =
        { t with
          index := .levels (Node.buildLevels ((r :: rows).map Prod.snd).length 0
              (r'.item :: rows'.map Row.item)).1
            (Node.buildLevels ((r :: rows).map Prod.snd).length 0 (r'.item :: rows'.map Row.item)).2
          nextEval := doubled (max t.size minEntries % (maxCount + 1)) } := by
      rw [ChunkTree.abandonDirectory, hdrop, hlowests]
      rfl
    generalize hgen : Node.buildLevels ((r :: rows).map Prod.snd).length 0
      (r'.item :: rows'.map Row.item) = built at hbuilt heq
    have hleaves' : (((0, r'.2) : Row H) :: rows').map Prod.snd = (r :: rows).map Prod.snd :=
      hleaves
    refine ⟨(0, r'.2) :: rows', _, heq, hleaves', ?_, hbuilt.1, ?_, ?_⟩
    · rw [heq]
      exact (h.refloor hleaves' (stacked_from_zero hstacked)).congr rfl rfl rfl
    · have hitems := hbuilt.2
      have hflat : Node.allItems 0 (r'.item :: rows'.map Row.item) = r'.item :: rows'.map
          Row.item :=
        Node.items_leaf _
      rw [hflat] at hitems
      exact Node.items_floor hbuilt.1 hitems
    · intro _ x hx
      have hmem : x.2 ∈ (r :: rows).map Prod.snd := hleaves' ▸ List.mem_map_of_mem hx
      obtain ⟨y, hy, hxy⟩ := List.mem_map.mp hmem
      rw [← hxy]
      exact hfull y hy

end ChunkTree

end Roaring
