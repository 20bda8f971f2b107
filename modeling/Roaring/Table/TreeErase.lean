import Mathlib
import Roaring.Table.TreeSplit

/-!
# Taking an entry out of a tree of inner levels

An erased entry leaves its leaf as it is, empties it, or leaves it so small that
it joins a neighbour under the same parent.  Spare capacity is given back at the
end of the chain and at the root.
-/

namespace Roaring

open Lib

variable {H : Type} {minEntries : Nat}

namespace ChunkTree

variable {t t' : ChunkTree H minEntries} {rows rows' front back : List (Row H)} {r s : Row H}
variable {low high before behind : List (Nat × H)} {e : Nat × H} {pos : LeafId × Nat}

/-! ## The row of an entry -/

/-- The last row that does not start above a probe is one row only. -/
theorem Stacked.last_unique {front' back' : List (Row H)} (h : Stacked (front ++ r :: back))
    (heq : front ++ r :: back = front' ++ s :: back') {probe : Nat} (hr : r.1 ≤ probe)
    (hback : ∀ x ∈ back, probe < x.1) (hs : s.1 ≤ probe) (hback' : ∀ x ∈ back', probe < x.1) :
    front = front' ∧ r = s ∧ back = back' := by
  have hfilter : ∀ {front back : List (Row H)} {r : Row H}, Stacked (front ++ r :: back) →
      r.1 ≤ probe → (∀ x ∈ back, probe < x.1) →
      (front ++ r :: back).filter (fun x ↦ x.1 ≤ probe) = front ++ [r] := by
    intro front back r hstacked hle hlt
    rw [List.filter_append, List.filter_cons_of_pos (by simpa using hle), List.filter_eq_self.mpr,
      List.filter_eq_nil_iff.mpr]
    · intro x hx
      have hx := hlt x hx
      simpa using hx
    · intro x hx
      have hx := (hstacked.front_below x hx).floor
      exact decide_eq_true (hx.le.trans hle)
  have hsame : front ++ [r] = front' ++ [s] := by
    rw [← hfilter h hr hback, heq, hfilter (heq ▸ h) hs hback']
  obtain ⟨rfl, hone⟩ := List.append_inj' hsame rfl
  obtain rfl := (List.cons.inj hone).1
  exact ⟨rfl, rfl, (List.cons.inj (List.append_cancel_left heq)).2⟩

/-- The descent to a key finds the row that holds it. -/
theorem Tree.leads_to {height : Nat} {root : Node height} (h : Tree t (front ++ r :: back))
    (hindex : t.index = .levels height root) (he : e ∈ r.2.entries) :
    Node.Leads height root 0 (Node.descendPath height root e.1) (front.map Row.item) r.item
      (back.map Row.item) := by
  have hrow := h.stacked.row
  have hback : ∀ x ∈ back, e.1 < x.1 := fun x hx ↦ (h.stacked.below_back x hx).keys e he
  obtain ⟨front', s, back', hrows, -, hleads, hs, hback'⟩ :=
    h.descend_spec hindex (hrow.sound.lt_pad e he)
  obtain ⟨rfl, rfl, rfl⟩ := Stacked.last_unique h.stacked hrows (hrow.above e he) hback hs hback'
  exact hleads

/-! ## The states after a removal -/

theorem Chained.modify_leaf (h : Chained t (front ++ r :: back)) {f : Leaf H → Leaf H}
    (hid : (f r.2).id = r.2.id) : (t.modify r.2.id f).leaf r.2.id = f r.2 := by
  rw [leaf, ChunkTree.modify, h.chain_eq, modifyAt_eq h.distinct]
  conv_lhs => rw [← hid]
  rw [nodeAt_eq (h.distinct.replace hid)]
  rfl

theorem freeLeaf_modify (h : Chained t (front ++ r :: back)) {f : Leaf H → Leaf H}
    (hid : (f r.2).id = r.2.id) : (t.modify r.2.id f).freeLeaf r.2.id = t.freeLeaf r.2.id := by
  have hmodified : (t.modify r.2.id f).chain = front.map Prod.snd ++ f r.2 :: back.map
      Prod.snd := by
    rw [modify, h.chain_eq]
    exact modifyAt_eq h.distinct f
  have hdistinct : Distinct Leaf.id (front.map Prod.snd ++ f r.2 :: back.map Prod.snd) :=
    h.distinct.replace hid
  have hunlink : unlink Leaf.id (t.modify r.2.id f).chain r.2.id = unlink Leaf.id t.chain
      r.2.id := by
    rw [hmodified, h.chain_eq, unlink_eq h.distinct]
    conv_lhs => rw [← hid]
    exact unlink_eq hdistinct
  have hnext : nextOf Leaf.id (t.modify r.2.id f).chain r.2.id = nextOf Leaf.id t.chain r.2.id := by
    rw [hmodified, h.chain_eq, nextOf_eq h.distinct]
    conv_lhs => rw [← hid]
    exact nextOf_eq hdistinct
  have hprev : prevOf Leaf.id (t.modify r.2.id f).chain r.2.id = prevOf Leaf.id t.chain r.2.id := by
    rw [hmodified, h.chain_eq, prevOf_eq h.distinct]
    conv_lhs => rw [← hid]
    exact prevOf_eq hdistinct
  rw [freeLeaf, freeLeaf, hunlink, hnext, hprev]
  rfl

theorem freeLeaf_shrunk (t : ChunkTree H minEntries) (id : LeafId) :
    t.shrunk.freeLeaf id = (t.freeLeaf id).shrunk := rfl

theorem removeChild_shrunk (path : List Nat) :
    t.shrunk.removeChild path = (t.removeChild path).shrunk := by
  rw [removeChild, removeChild]
  rcases hindex : t.index with _ | ⟨height, root⟩ | ⟨first, d⟩
  · rw [show t.shrunk.index = _ from hindex]
  · rw [show t.shrunk.index = _ from hindex]
    cases height with
    | zero => rfl
    | succ height =>
      dsimp only
      cases Node.removeChild height (Inner.childAt root (path.headD 0)) path.tail with
      | some below => rfl
      | none =>
        dsimp only
        split
        · rfl
        · split <;> rfl
  · rw [show t.shrunk.index = _ from hindex]

/-- An entry is gone. -/
def Erased (t : ChunkTree H minEntries) (before behind : List (Nat × H)) : Prop :=
  (∃ rows, Tree t rows) ∧ t.entries = before ++ behind

/-- The entries without one, and how many they are. -/
theorem Tree.erased (h : Tree t rows) (hentries : t.entries = before ++ e :: behind)
    (hchained : Chained t' rows') (hindex : Indexes t'.index rows') (hsize : t'.size = t.size - 1)
    (hnext : t'.nextEval = t.nextEval) (hgone : entriesOf rows' = before ++ behind) :
    Erased t' before behind := by
  have hlen := h.size
  rw [← h.entries_eq, hentries, List.length_append, List.length_cons] at hlen
  refine ⟨⟨rows', hchained, ?_, ?_, ?_, hindex⟩, ?_⟩
  · rw [hsize, hgone, List.length_append]
    omega
  · rw [hsize]
    exact (Nat.sub_le _ _).trans h.bounded
  · rw [hnext]
    exact h.due
  · rw [hchained.entries_eq, hgone]

/-! ## The leaf stays -/

theorem Tree.remove (h : Tree t (front ++ r :: back)) (hr : r.2.entries = low ++ e :: high)
    (hne : low ++ high ≠ [] ∨ back = []) :
    Chained (t.modify r.2.id (·.remove low.length)).shrunk
        (front ++ (r.1, r.2.remove low.length) :: back) ∧
      Indexes t.index (front ++ (r.1, r.2.remove low.length) :: back) ∧
      (r.2.remove low.length).entries = low ++ high := by
  obtain ⟨hok, hentries⟩ := h.stacked.row.remove hr
  have hbelow : ∀ s ∈ back, Row.Below (r.1, r.2.remove low.length) s := by
    intro s hs
    have hrs := h.stacked.below_back s hs
    refine ⟨hrs.floor, ?_, ?_⟩
    · intro a ha
      apply hrs.keys a
      rw [hr]
      rw [show ((r.1, r.2.remove low.length) : Row H).2.entries = low ++ high from hentries] at ha
      exact ((List.Sublist.refl low).append (List.sublist_cons_self e high)).subset ha
    · rw [show ((r.1, r.2.remove low.length) : Row H).2.entries = low ++ high from hentries]
      rcases hne with hne | hnil
      · exact hne
      · rw [hnil] at hs
        exact absurd hs List.not_mem_nil
  have hchained : Chained (t.modify r.2.id (·.remove low.length))
      (front ++ (r.1, r.2.remove low.length) :: back) :=
    h.toChained.modify (f := fun l ↦ l.remove low.length) rfl rfl
      (h.stacked.update hok le_rfl hbelow)
  exact ⟨hchained.congr rfl rfl rfl,
    h.index.update (s := (r.1, r.2.remove low.length)) rfl rfl, hentries⟩

/-! ## The leaf joins a neighbour -/

/-- Only the structure has changed: the entries are those there were. -/
def Reshaped (t t' : ChunkTree H minEntries) (rows : List (Row H)) : Prop :=
  ∃ rows', Chained t' rows' ∧ Indexes t'.index rows' ∧ entriesOf rows' = entriesOf rows ∧
    t'.size = t.size ∧ t'.nextEval = t.nextEval

/-- A leaf takes in the one behind it under the same parent. -/
theorem Chained.mergeRight {height : Nat} {root : Node (height + 1)} {path : List Nat}
    (h : Chained t (front ++ r :: s :: back)) (hindex : t.index = .levels (height + 1) root)
    (hindexes : Indexes t.index (front ++ r :: s :: back))
    (hleads : Node.Leads (height + 1) root 0 path ((front ++ [r]).map Row.item) s.item
      (back.map Row.item)) (hlast : 0 < path.getLastD 0)
    (hfits : r.2.size + s.2.size ≤ r.2.cap) :
    Reshaped t (((t.modify r.2.id (·.absorb s.2)).freeLeaf s.2.id).removeChild path)
      (front ++ r :: s :: back) := by
  have hrs := h.stacked.below_back s List.mem_cons_self
  have hnext : Stacked ((front ++ [r]) ++ s :: back) := by
    rw [List.append_assoc]
    exact h.stacked
  obtain ⟨hok, hentries⟩ := h.stacked.row.absorb hnext.row hrs hfits
  -- the leaf is freed first, the entries it had join the leaf before it
  have hfree : Chained (t.freeLeaf s.2.id) (front ++ r :: back) := by
    have hchained : Chained t ((front ++ [r]) ++ s :: back) := by
      rw [List.append_assoc]
      exact h
    have hfree := hchained.freeLeaf
    rwa [List.append_assoc] at hfree
  have hbelow : ∀ x ∈ back, Row.Below ((r.1, r.2.absorb s.2) : Row H) x := by
    intro x hx
    have hsx := hnext.below_back x hx
    refine ⟨hrs.floor.trans hsx.floor, ?_, ?_⟩
    · rw [show ((r.1, r.2.absorb s.2) : Row H).2.entries = _ from hentries, List.forall_mem_append]
      exact ⟨fun a ha ↦ (hrs.keys a ha).trans hsx.floor, hsx.keys⟩
    · rw [show ((r.1, r.2.absorb s.2) : Row H).2.entries = _ from hentries]
      intro hnil
      exact hrs.nonempty (List.append_eq_nil_iff.mp hnil).1
  have hmerged : Chained ((t.freeLeaf s.2.id).modify r.2.id (·.absorb s.2))
      (front ++ (r.1, r.2.absorb s.2) :: back) :=
    hfree.modify (f := fun l ↦ l.absorb s.2) rfl rfl (hfree.stacked.update hok le_rfl hbelow)
  have hswap : (t.modify r.2.id (·.absorb s.2)).freeLeaf s.2.id =
      (t.freeLeaf s.2.id).modify r.2.id (·.absorb s.2) := by
    have hchain := h.chain_eq
    have hdistinct := h.distinct
    rw [List.map_cons] at hchain hdistinct
    have hmodified : (t.modify r.2.id (·.absorb s.2)).chain =
        (front.map Prod.snd ++ [r.2.absorb s.2]) ++ s.2 :: back.map Prod.snd := by
      rw [ChunkTree.modify, hchain, List.append_assoc]
      exact modifyAt_eq hdistinct fun l ↦ l.absorb s.2
    have hdistinct' : Distinct Leaf.id
        ((front.map Prod.snd ++ [r.2.absorb s.2]) ++ s.2 :: back.map Prod.snd) := by
      rw [List.append_assoc]
      exact hdistinct.replace rfl
    have hold : t.chain = (front.map Prod.snd ++ [r.2]) ++ s.2 :: back.map Prod.snd := by
      rw [hchain, List.append_assoc]
      rfl
    have hdistinctOld :
        Distinct Leaf.id ((front.map Prod.snd ++ [r.2]) ++ s.2 :: back.map Prod.snd) :=
      hold ▸ h.names
    have hfreeChain : (t.freeLeaf s.2.id).chain = front.map Prod.snd ++ r.2 :: back.map
        Prod.snd := by
      rw [ChunkTree.freeLeaf, hold]
      refine (unlink_eq hdistinctOld).trans ?_
      rw [List.append_assoc]
      rfl
    have hdistinctFree : Distinct Leaf.id (front.map Prod.snd ++ r.2 :: back.map Prod.snd) :=
      hfreeChain ▸ hfree.names
    have hfreed : t.freeLeaf s.2.id =
        { t with
          chain := front.map Prod.snd ++ r.2 :: back.map Prod.snd
          tail := if (back.map Prod.snd).head?.isNone then some r.2.id else t.tail } := by
      rw [← hfreeChain, ChunkTree.freeLeaf, hold, nextOf_eq hdistinctOld, prevOf_eq hdistinctOld,
        List.getLast?_concat]
      rfl
    have hchanged : (t.freeLeaf s.2.id).modify r.2.id (·.absorb s.2) =
        { t with
          chain := front.map Prod.snd ++ r.2.absorb s.2 :: back.map Prod.snd
          tail := if (back.map Prod.snd).head?.isNone then some r.2.id else t.tail } := by
      rw [hfreed, ChunkTree.modify, modifyAt_eq hdistinctFree]
    rw [hchanged, ChunkTree.freeLeaf, hmodified, unlink_eq hdistinct', nextOf_eq hdistinct',
      prevOf_eq hdistinct', List.getLast?_concat, List.append_assoc]
    rfl
  rw [hswap]
  have hindex' : ((t.freeLeaf s.2.id).modify r.2.id (·.absorb s.2)).index =
      .levels (height + 1) root := hindex
  have hshape := hindexes
  rw [hindex] at hshape
  have hitem : Row.item ((r.1, r.2.absorb s.2) : Row H) = r.item := rfl
  have hfront : (front ++ [((r.1, r.2.absorb s.2) : Row H)]).map Row.item =
      (front ++ [r]).map Row.item := by
    rw [List.map_append, List.map_append, List.map_singleton, List.map_singleton, hitem]
  have hfull : ∀ x ∈ (front ++ [((r.1, r.2.absorb s.2) : Row H)]) ++ back,
      x.2.cap = leafCapacity := by
    have hold := hshape.2.2 (Nat.succ_ne_zero _)
    rw [List.forall_mem_append, List.forall_mem_cons, List.forall_mem_cons] at hold
    rw [List.forall_mem_append, List.forall_mem_append, List.forall_mem_singleton]
    exact ⟨⟨hold.1, hold.2.1⟩, hold.2.2.2⟩
  rw [← hfront] at hleads
  obtain ⟨index, heq, hindexed⟩ := removeChild_exact hindex' hshape.1 hleads hlast (by simp) hfull
  rw [heq]
  refine ⟨(front ++ [((r.1, r.2.absorb s.2) : Row H)]) ++ back, ?_, hindexed, ?_, rfl, rfl⟩
  · rw [List.append_assoc]
    exact hmerged.congr rfl rfl rfl
  · rw [entriesOf_append, entriesOf_append, entriesOf_append, entriesOf_cons, entriesOf_cons,
      entriesOf_cons, entriesOf_nil, List.append_nil,
      show ((r.1, r.2.absorb s.2) : Row H).2.entries = _ from hentries]
    simp only [List.append_assoc]

/-- An underfull leaf joins a neighbour under its parent, or stays. -/
theorem Chained.mergeUnderParent {height : Nat} {root : Node (height + 1)} {path : List Nat}
    (h : Chained t (front ++ r :: back)) (hindex : t.index = .levels (height + 1) root)
    (hindexes : Indexes t.index (front ++ r :: back))
    (hleads : Node.Leads (height + 1) root 0 path (front.map Row.item) r.item (back.map Row.item))
    (index : Nat) :
    Reshaped t (t.mergeUnderParent path r.2.id index).1 (front ++ r :: back) := by
  have hstays : Reshaped t t (front ++ r :: back) := ⟨_, h, hindexes, rfl, rfl, rfl⟩
  have hfull : ∀ x ∈ front ++ r :: back, x.2.cap = leafCapacity := by
    have hfull := hindexes
    rw [hindex] at hfull
    exact hfull.2.2 (Nat.succ_ne_zero height)
  have hlimit : ∀ {count : Nat}, count ≤ mergeLimit → count ≤ leafCapacity := fun hle ↦
    hle.trans (by decide)
  rw [ChunkTree.mergeUnderParent, hindex]
  dsimp only
  split
  next hchild =>
    -- the neighbour behind it
    obtain ⟨next, behind', hback, hbeside, hnext⟩ := hleads.beside_right hchild
    obtain ⟨s, back, rfl, rfl, rfl⟩ := List.map_eq_cons_iff.mp hback
    have hs : Chained t ((front ++ [r]) ++ s :: back) := by rwa [List.append_assoc]
    rw [hbeside, Option.getD_some, show t.leaf s.item.2 = s.2 from hs.leaf_eq]
    split
    next hfits =>
      rw [h.leaf_eq] at hfits
      apply h.mergeRight hindex hindexes
      · rw [List.map_append]
        exact hnext
      · rw [List.getLastD_concat]
        exact Nat.succ_pos _
      · rw [hfull r (by simp)]
        exact hlimit hfits
    next => exact hstays
  next =>
    split
    next hfits =>
      -- the neighbour before it
      obtain ⟨front', before, hfront, hbeside⟩ := hleads.beside_left hfits.1
      obtain ⟨front, last, rfl, rfl, hlast⟩ := List.map_eq_append_iff.mp hfront
      obtain ⟨s, nothing, rfl, rfl, hnil⟩ := List.map_eq_cons_iff.mp hlast
      obtain rfl := List.map_eq_nil_iff.mp hnil
      have hs : Chained t (front ++ s :: r :: back) := by rwa [List.append_assoc] at h
      rw [hbeside, Option.getD_some, show t.leaf s.item.2 = s.2 from hs.leaf_eq,
        h.leaf_eq] at hfits ⊢
      rw [List.append_assoc] at hindexes hfull ⊢
      exact hs.mergeRight hindex hindexes hleads hfits.1
        (by rw [hfull s (by simp)]; exact hlimit hfits.2)
    next => exact hstays

/-! ## Erasing an entry -/

/-- The only leaf empties and goes. -/
theorem Tree.eraseOnly (h : Tree t [r]) (hentries : t.entries = [e]) :
    Erased ({ (t.modify r.2.id (·.remove 0)).shrunk.freeLeaf r.2.id with
      index := .empty, tail := none } : ChunkTree H minEntries) [] [] := by
  have hrow : Chained t ([] ++ r :: []) := h.toChained
  have hfree := hrow.freeLeaf
  rw [freeLeaf_shrunk, freeLeaf_modify hrow rfl]
  have hchained : Chained ({ (t.freeLeaf r.2.id).shrunk with index := .empty, tail := none } :
      ChunkTree H minEntries) [] := by
    refine ⟨hfree.chain, hfree.stacked, hfree.names, hfree.fresh, ?_, hfree.cap, hfree.full⟩
    show none = (t.freeLeaf r.2.id).chain.getLast?.map Leaf.id
    rw [hfree.chain]
    rfl
  exact h.erased (show t.entries = [] ++ e :: [] from hentries) hchained rfl rfl rfl rfl

/-- A leaf beside others empties and goes. -/
theorem Tree.eraseLeaf {height : Nat} {root : Node (height + 1)} (h : Tree t (front ++ r :: back))
    (hindex : t.index = .levels (height + 1) root) (hr : r.2.entries = [e])
    (hentries : t.entries = entriesOf front ++ e :: entriesOf back) :
    Erased (((t.modify r.2.id (·.remove 0)).shrunk.freeLeaf r.2.id).removeChild
      (Node.descendPath (height + 1) root e.1)) (entriesOf front) (entriesOf back) := by
  have hindexes := h.index
  rw [hindex] at hindexes
  have hleads := h.leads_to hindex (by rw [hr]; exact List.mem_singleton_self e)
  obtain ⟨back', index, heq, hleaves, hchained, hindexed⟩ :=
    h.toChained.unhook hindex hindexes.1 hleads (hindexes.2.2 (Nat.succ_ne_zero height))
  have hback : entriesOf back' = entriesOf back := by
    rw [entriesOf, ← List.flatMap_map, hleaves, List.flatMap_map, entriesOf]
  rw [freeLeaf_shrunk, freeLeaf_modify h.toChained rfl, removeChild_shrunk, heq]
  rw [heq] at hchained
  refine h.erased hentries (hchained.congr rfl rfl rfl) hindexed rfl rfl ?_
  rw [entriesOf_append, hback]

/-- `erase` takes the entry at its position out, and nothing else. -/
theorem Tree.erase (h : Tree t rows) (hstands : Stands t pos before e behind) :
    Erased (t.erase pos).1 before behind := by
  obtain ⟨front, r, back, low, high, rfl, rfl, hr, hbefore, hbehind⟩ := h.row_of_stands hstands
  have hentries := hstands.entries_eq
  have hindexes := h.index
  obtain ⟨hok, hremoved⟩ := h.stacked.row.remove hr
  have hmem : e ∈ r.2.entries := by
    rw [hr]
    exact List.mem_append_right low List.mem_cons_self
  have hleaf : ((t.modify r.2.id (·.remove low.length)).shrunk).leaf r.2.id =
      r.2.remove low.length := h.toChained.modify_leaf rfl
  have hkey : t.key (r.2.id, low.length) = e.1 := by
    rw [ChunkTree.key, h.leaf_eq, (h.stacked.row.holds hr).keyAt_of_lt (by simp)]
    simp
  have hsize : (r.2.remove low.length).size = low.length + high.length := by
    rw [hok.sound.size_eq, show Leaf.entries _ = _ from hremoved, List.length_append]
  -- an entry of the leaf is gone, and the leaf holds others or is the last
  have hstays : low ++ high ≠ [] ∨ back = [] → ∀ {t₁ : ChunkTree H minEntries},
      Reshaped ((t.modify r.2.id (·.remove low.length)).shrunk) t₁
        (front ++ (r.1, r.2.remove low.length) :: back) → Erased t₁ before behind := by
    intro hne t₁ hreshaped
    obtain ⟨rows₁, hchained, hindexed, hsame, hsize₁, hnext₁⟩ := hreshaped
    refine h.erased hentries hchained hindexed hsize₁ hnext₁ ?_
    rw [hsame, hbefore, hbehind, entriesOf_append, entriesOf_cons,
      show Leaf.entries _ = _ from hremoved]
    simp only [List.append_assoc]
  rcases hindex : t.index with _ | ⟨height, root⟩ | ⟨first, d⟩
  · rw [hindex] at hindexes
    exact absurd hindexes (by simp [Indexes])
  · have hheight : ((t.modify r.2.id (·.remove low.length)).shrunk).height = height := by
      show t.height = height
      rw [ChunkTree.height, hindex]
    have hpath : ((t.modify r.2.id (·.remove low.length)).shrunk).descendPath e.1 =
        Node.descendPath height root e.1 := by
      show t.descendPath e.1 = _
      rw [ChunkTree.descendPath, hindex]
    rw [ChunkTree.erase, hindex]
    show Erased (eraseInLevels t (r.2.id, low.length)).1 before behind
    rw [eraseInLevels]
    dsimp only
    rw [hkey, hleaf, hsize, hheight, hpath]
    split
    next hkeeps =>
      -- enough is left in the leaf
      have hne : low ++ high ≠ [] := by
        intro hnil
        obtain ⟨rfl, rfl⟩ := List.append_eq_nil_iff.mp hnil
        exact hkeeps.1 rfl
      obtain ⟨hchained, hindexed, -⟩ := h.remove hr (Or.inl hne)
      exact hstays (Or.inl hne) ⟨_, hchained, hindexed, rfl, rfl, rfl⟩
    next hfew =>
      cases height with
      | zero =>
        have halone := h.alone (by rw [ChunkTree.height, hindex])
        rw [List.length_append, List.length_cons] at halone
        obtain rfl : front = [] := List.eq_nil_of_length_eq_zero (by omega)
        obtain rfl : back = [] := List.eq_nil_of_length_eq_zero (by omega)
        have hnone : low.length + high.length = 0 := by
          by_contra hne
          exact hfew ⟨hne, Or.inl rfl⟩
        obtain rfl : low = [] := List.eq_nil_of_length_eq_zero (by omega)
        obtain rfl : high = [] := List.eq_nil_of_length_eq_zero (by omega)
        obtain rfl : before = [] := hbefore
        obtain rfl : behind = [] := hbehind
        rw [if_pos rfl]
        exact h.eraseOnly hentries
      | succ height =>
        rw [if_neg (Nat.succ_ne_zero height)]
        split
        next hnone =>
          -- nothing is left in the leaf
          obtain rfl : low = [] := List.eq_nil_of_length_eq_zero (by omega)
          obtain rfl : high = [] := List.eq_nil_of_length_eq_zero (by omega)
          rw [List.append_nil] at hbefore
          rw [List.nil_append] at hbehind
          rw [hbefore, hbehind] at hentries ⊢
          exact h.eraseLeaf hindex hr hentries
        next hsome =>
          have hne : low ++ high ≠ [] := by
            intro hnil
            obtain ⟨rfl, rfl⟩ := List.append_eq_nil_iff.mp hnil
            exact hsome rfl
          obtain ⟨hchained, hindexed, -⟩ := h.remove hr (Or.inl hne)
          apply hstays (Or.inl hne)
          exact hchained.mergeUnderParent hindex hindexed (h.leads_to hindex hmem) low.length
  · rw [hindex] at hindexes
    exact hindexes.elim

/-! ## Giving back spare capacity -/

/-- The same entries in another structure. -/
def Kept (t t' : ChunkTree H minEntries) : Prop := (∃ rows, Tree t' rows) ∧ t'.entries = t.entries

/-- Nothing is left after a release. -/
theorem Tree.released (h : Tree t rows) (hzero : t.size = 0) : Kept t t.released := by
  refine ⟨⟨[], ⟨rfl, Stacked.nil, List.nodup_nil, ?_, rfl, ?_, ?_⟩, rfl, Nat.zero_le _, le_rfl,
    rfl⟩, ?_⟩
  · simp [ChunkTree.released]
  · simp
  · simp
  · have hlen := h.size
    rw [hzero, ← h.entries_eq] at hlen
    rw [List.eq_nil_of_length_eq_zero hlen.symm]
    rfl

/-- The empty last leaf of an abandoned `open_back()` goes. -/
theorem Tree.dropLast (h : Tree t (front ++ [r])) (hpos : 0 < t.size) (hr : r.2.entries = []) :
    Kept t ((t.freeLeaf r.2.id).removeChild t.rightmostPath) := by
  have hindexes := h.index
  have hne : front ≠ [] := by
    rintro rfl
    have hsize := h.size
    rw [List.nil_append, entriesOf_cons, hr, entriesOf_nil, List.nil_append,
      List.length_nil] at hsize
    omega
  rcases hindex : t.index with _ | ⟨height, root⟩ | ⟨first, d⟩
  · exact absurd (h.nil_of_empty hindex) (by simp)
  · cases height with
    | zero => 
      have hheight : t.height = 0 := by rw [ChunkTree.height, hindex]
      exact absurd (h.root_alone hheight) hne
    | succ height =>
      rw [hindex] at hindexes
      obtain ⟨before, leaf, hleads⟩ := Node.rightmost_spec 0 hindexes.1
      obtain ⟨front', r', back, hrows, rfl, hitem, hback⟩ := h.exists_row hindex hleads
      obtain rfl : back = [] := List.map_eq_nil_iff.mp hback.symm
      obtain ⟨rfl, hlast⟩ := List.append_inj' hrows rfl
      obtain rfl := (List.cons.inj hlast).1
      rw [hitem] at hleads
      obtain ⟨back', index, heq, hleaves, hchained, hindexed⟩ :=
        h.toChained.unhook hindex hindexes.1
        hleads (hindexes.2.2 (Nat.succ_ne_zero height))
      obtain rfl : back' = [] := List.map_eq_nil_iff.mp hleaves
      have hsame : entriesOf (front ++ []) = entriesOf (front ++ [r]) := by
        rw [entriesOf_append, entriesOf_append, entriesOf_cons, hr]
        rfl
      rw [show t.rightmostPath = Node.rightmostPath (height + 1) root by
        rw [ChunkTree.rightmostPath, hindex], heq]
      rw [heq] at hchained
      refine ⟨⟨_, hchained, ?_, h.bounded, h.due, hindexed⟩, ?_⟩
      · rw [hsame]
        exact h.size
      · rw [hchained.entries_eq, hsame, h.entries_eq]
  · rw [hindex] at hindexes
    exact hindexes.elim

theorem rootCapacityFor_spec {count : Nat} (hle : count ≤ leafCapacity) :
    count ≤ rootCapacityFor count ∧ rootCapacityFor count ≤ leafCapacity := by
  rw [rootCapacityFor]
  split
  · exact ⟨by assumption, by decide⟩
  · split
    · exact ⟨by assumption, by decide⟩
    · exact ⟨hle, le_rfl⟩

/-- The root leaf moves to the smallest block that holds it. -/
theorem Tree.shrinkRoot (h : Tree t rows) (hpos : 0 < t.size) (hheight : t.height = 0) :
    Kept t (if rootCapacityFor (t.leaf t.leftmostLeaf).size < (t.leaf t.leftmostLeaf).cap then
      t.relocateRoot t.leftmostLeaf (rootCapacityFor (t.leaf t.leftmostLeaf).size) else t) := by
  split
  swap
  · exact ⟨⟨rows, h⟩, rfl⟩
  have hindexes := h.index
  rcases hindex : t.index with _ | ⟨height, root⟩ | ⟨first, d⟩
  · have hsize := h.size
    rw [h.nil_of_empty hindex] at hsize
    exact absurd hsize hpos.ne'
  · have hzero : height = 0 := by
      rw [ChunkTree.height, hindex] at hheight
      exact hheight
    subst hzero
    rw [hindex] at hindexes
    obtain ⟨r, rfl, hitem⟩ := List.map_eq_singleton_iff.mp hindexes.2.1.symm
    have hroot : t.leftmostLeaf = r.2.id := by
      rw [ChunkTree.leftmostLeaf, hindex]
      exact (congrArg Prod.snd hitem).symm
    have hroot' : Chained t ([] ++ r :: []) := h.toChained
    have hleaf := hroot'.leaf_eq
    have hrow := h.stacked.ok r List.mem_cons_self
    have hfits : r.2.size ≤ leafCapacity := by
      rw [hrow.sound.size_eq]
      exact hrow.sound.holds.fits.trans (h.cap r List.mem_cons_self)
    obtain ⟨hle, hcap⟩ := rootCapacityFor_spec hfits
    rw [hroot, hleaf]
    have hmoved := h.relocateRoot hheight hle hcap
    refine ⟨⟨_, hmoved⟩, ?_⟩
    rw [hmoved.entries_eq, h.entries_eq, entriesOf_cons, entriesOf_cons,
      (hrow.relocate t.nextId hle).2]
  · rw [hindex] at hindexes
    exact hindexes.elim

theorem Tree.shrinkToFit (h : Tree t rows) : Kept t t.shrinkToFit := by
  rw [ChunkTree.shrinkToFit]
  split
  next hzero => exact h.released hzero
  next hne =>
    have hpos : 0 < t.size := Nat.pos_of_ne_zero hne
    have hindex : t.index ≠ .empty := by
      intro hempty
      have hsize := h.size
      rw [h.nil_of_empty hempty] at hsize
      exact hne hsize
    obtain ⟨front, r, rfl, htail, hleaf, -⟩ := h.exists_last hindex
    -- first the empty last leaf goes, then the root leaf shrinks
    have hlater : ∀ {u : ChunkTree H minEntries}, Kept t u →
        Kept t (if u.height ≠ 0 then u
          else if rootCapacityFor (u.leaf u.leftmostLeaf).size < (u.leaf u.leftmostLeaf).cap then
            u.relocateRoot u.leftmostLeaf (rootCapacityFor (u.leaf u.leftmostLeaf).size)
          else u) := by
      intro u hkept
      obtain ⟨⟨rows, htree⟩, hsame⟩ := hkept
      have hupos : 0 < u.size := by
        rw [htree.size, ← htree.entries_eq, hsame, h.entries_eq, ← h.size]
        exact hpos
      split
      · exact ⟨⟨rows, htree⟩, hsame⟩
      · next hheight =>
        obtain ⟨hrows, hkeeps⟩ := htree.shrinkRoot hupos (not_not.mp hheight)
        exact ⟨hrows, hkeeps.trans hsame⟩
    apply hlater
    dsimp only
    rw [hleaf]
    split
    next hempty =>
      have hnil : r.2.entries = [] := by
        apply List.eq_nil_of_length_eq_zero
        rw [← h.stacked.row.sound.size_eq]
        exact hempty
      have hdrop := h.dropLast hpos hnil
      rw [htail, Option.getD_some]
      rcases hi : t.index with _ | ⟨height, root⟩ | ⟨first, d⟩
      · exact absurd hi hindex
      · exact hdrop
      · have hindexes := h.index
        rw [hi] at hindexes
        exact hindexes.elim
    next => exact ⟨⟨_, h⟩, rfl⟩

end ChunkTree

end Roaring
