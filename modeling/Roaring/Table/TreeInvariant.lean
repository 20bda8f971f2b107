import Mathlib
import Roaring.Table.Rows
import Roaring.Table.ChunkTree

/-!
# The invariant of a tree of inner levels

The chain is a stack of rows, and the items of the levels are its floors and
leaves.  Under this a descent finds the row a probe belongs to, and a lookup the
first entry not below the probe.
-/

namespace Roaring

open Lib

variable {H : Type} {minEntries : Nat}

/-- What the levels have for a row. -/
def Row.item (r : Row H) : Nat × LeafId := (r.1, r.2.id)

namespace ChunkTree

/-- The chain is a stack of rows of distinct names, all handed out already, and the tail is its
last. A leaf that is not full-sized is alone. -/
structure Chained (t : ChunkTree H minEntries) (rows : List (Row H)) : Prop where
  chain : t.chain = rows.map Prod.snd
  stacked : Stacked rows
  names : Distinct Leaf.id t.chain
  fresh : ∀ l ∈ t.chain, l.id < t.nextId
  tail : t.tail = t.chain.getLast?.map Leaf.id
  cap : ∀ r ∈ rows, r.2.cap ≤ leafCapacity
  full : 1 < rows.length → ∀ r ∈ rows, r.2.cap = leafCapacity

/-- The index stands over the rows: nothing over none, or levels with the rows' items. -/
def Indexes : Index → List (Row H) → Prop
  | .empty, rows => rows = []
  | .levels height root, rows =>
    Node.Shape height root ∧ Node.items height root 0 = rows.map Row.item ∧
      (height ≠ 0 → ∀ r ∈ rows, r.2.cap = leafCapacity)
  | .directory _ _, _ => False

/-- The invariant of a tree that holds no directory. -/
structure Tree (t : ChunkTree H minEntries) (rows : List (Row H)) :
    Prop extends Chained t rows where
  size : t.size = (entriesOf rows).length
  bounded : t.size ≤ maxCount
  due : min minEntries maxCount ≤ t.nextEval
  index : Indexes t.index rows

variable {t t' : ChunkTree H minEntries} {rows rows' front back : List (Row H)} {r s : Row H}

/-! ## Places in the chain -/

namespace Chained

theorem congr (h : Chained t rows) (hchain : t'.chain = t.chain) (htail : t'.tail = t.tail)
    (hnext : t'.nextId = t.nextId) : Chained t' rows where
  chain := hchain.trans h.chain
  stacked := h.stacked
  names := hchain ▸ h.names
  fresh := by rw [hchain, hnext]; exact h.fresh
  tail := by rw [htail, hchain]; exact h.tail
  cap := h.cap
  full := h.full

theorem entries_eq (h : Chained t rows) : t.entries = entriesOf rows := by
  rw [entries, h.chain, entriesOf, List.flatMap_map]

theorem chain_eq (h : Chained t (front ++ r :: back)) :
    t.chain = front.map Prod.snd ++ r.2 :: back.map Prod.snd := by
  rw [h.chain, List.map_append, List.map_cons]

theorem distinct (h : Chained t (front ++ r :: back)) :
    Distinct Leaf.id (front.map Prod.snd ++ r.2 :: back.map Prod.snd) := h.chain_eq ▸ h.names

theorem leaf_eq (h : Chained t (front ++ r :: back)) : t.leaf r.2.id = r.2 := by
  rw [leaf, h.chain_eq, nodeAt_eq h.distinct]
  rfl

/-- A leaf beside others is full-sized. -/
theorem full_or_alone (h : Chained t (front ++ r :: back)) :
    r.2.cap = leafCapacity ∨ (front = [] ∧ back = []) := by
  by_cases hlen : 1 < (front ++ r :: back).length
  · exact Or.inl (h.full hlen r (List.mem_append_right front List.mem_cons_self))
  · rw [List.length_append, List.length_cons] at hlen
    exact Or.inr
      ⟨List.eq_nil_of_length_eq_zero (by omega), List.eq_nil_of_length_eq_zero (by omega)⟩

theorem nextLeaf_eq (h : Chained t (front ++ r :: back)) :
    t.nextLeaf r.2.id = back.head?.map fun s ↦ s.2.id := by
  rw [nextLeaf, h.leaf_eq, h.chain_eq, nextOf_eq h.distinct, List.head?_map, Option.map_map]
  rcases h.full_or_alone with hcap | ⟨-, rfl⟩
  · rw [if_pos hcap]
    rfl
  · rw [List.head?_nil, Option.map_none, Option.map_none, ite_self]

theorem prevLeaf_eq (h : Chained t (front ++ r :: back)) :
    t.prevLeaf r.2.id = front.getLast?.map fun s ↦ s.2.id := by
  rw [prevLeaf, h.leaf_eq, h.chain_eq, prevOf_eq h.distinct, List.getLast?_map, Option.map_map]
  rcases h.full_or_alone with hcap | ⟨rfl, -⟩
  · rw [if_pos hcap]
    rfl
  · rw [List.getLast?_nil, Option.map_none, Option.map_none, ite_self]

theorem tail_eq (h : Chained t (front ++ [r])) : t.tail = some r.2.id := by
  rw [h.tail, h.chain_eq, List.map_nil, List.getLast?_concat, Option.map_some]

/-- The first entry behind a row. -/
theorem followingCursor_eq (h : Chained t (front ++ r :: back)) :
    (entriesOf back = [] ∧ t.followingCursor r.2.id = none) ∨
      ∃ s e rest back', back = s :: back' ∧ s.2.entries = e :: rest ∧
        t.followingCursor r.2.id = some (s.2.id, 0) := by
  rw [followingCursor, nextNonempty, h.nextLeaf_eq]
  cases back with
  | nil => exact Or.inl ⟨rfl, rfl⟩
  | cons s back =>
    have hs : Chained t ((front ++ [r]) ++ s :: back) := by rwa [List.append_assoc]
    have hsound := (hs.stacked.row).sound
    rw [List.head?_cons, Option.map_some, Option.filter_some, hs.leaf_eq, hsound.size_eq]
    rcases hentries : s.2.entries with _ | ⟨e, rest⟩
    · left
      have hback : back = [] := by
        cases back with
        | nil => rfl
        | cons s' back =>
          exact absurd hentries (hs.stacked.below_back s' List.mem_cons_self).nonempty
      rw [entriesOf_cons, hentries, hback]
      exact ⟨rfl, rfl⟩
    · right
      exact ⟨s, e, rest, back, rfl, hentries, rfl⟩

end Chained

namespace Tree

theorem not_indexed (h : Tree t rows) : t.indexed = false := by
  have hindex := h.index
  rw [indexed]
  rcases heq : t.index with _ | ⟨height, root⟩ | ⟨first, d⟩
  · rfl
  · rfl
  · rw [heq] at hindex
    exact hindex.elim

/-- A root leaf is alone. -/
theorem alone (h : Tree t rows) (hheight : t.height = 0) : rows.length ≤ 1 := by
  have hindex := h.index
  rw [ChunkTree.height] at hheight
  rcases heq : t.index with _ | ⟨height, root⟩ | ⟨first, d⟩
  · rw [heq] at hindex
    have hnil : rows = [] := hindex
    rw [hnil]
    exact Nat.zero_le 1
  · rw [heq] at hindex hheight
    have hzero : height = 0 := hheight
    subst hzero
    have hlen := congrArg List.length hindex.2.1
    rw [List.length_map] at hlen
    rw [← hlen]
    exact le_rfl
  · rw [heq] at hindex
    exact hindex.elim

end Tree

/-! ## Descending -/

/-- The levels of a tree have an item for each of its rows. -/
theorem Tree.exists_row {height : Nat} {root : Node height} (h : Tree t rows)
    (hindex : t.index = .levels height root) {path : List Nat}
    {before behind : List (Nat × LeafId)} {item : Nat × LeafId}
    (hleads : Node.Leads height root 0 path before item behind) :
    ∃ front r back, rows = front ++ r :: back ∧ before = front.map Row.item ∧ item = r.item ∧
      behind = back.map Row.item := by
  have hitems := h.index
  rw [hindex] at hitems
  have heq := hitems.2.1
  rw [hleads.items_eq] at heq
  obtain ⟨front, more, hrows, hfront, hmore⟩ := List.map_eq_append_iff.mp heq.symm
  obtain ⟨r, back, rfl, hr, hback⟩ := List.map_eq_cons_iff.mp hmore
  exact ⟨front, r, back, hrows, hfront.symm, hr.symm, hback.symm⟩

/-- The items of stacked rows ascend. -/
theorem Tree.ascending {height : Nat} {root : Node height} (h : Tree t rows)
    (hindex : t.index = .levels height root) : Node.Ascending (Node.items height root 0) := by
  have hitems := h.index
  rw [hindex] at hitems
  rw [hitems.2.1, Node.Ascending, List.pairwise_map]
  exact h.stacked.below.imp fun hbelow ↦ hbelow.floor

/-- The descent finds the last row that does not start above the probe. -/
theorem Tree.descend_spec {height : Nat} {root : Node height} (h : Tree t rows)
    (hindex : t.index = .levels height root) {probe : Nat} (hprobe : probe < chunkKeyPad) :
    ∃ front r back, rows = front ++ r :: back ∧ Node.descend height root probe = r.2.id ∧
      Node.Leads height root 0 (Node.descendPath height root probe) (front.map Row.item) r.item
        (back.map Row.item) ∧ r.1 ≤ probe ∧ ∀ s ∈ back, probe < s.1 := by
  have hitems := h.index
  rw [hindex] at hitems
  obtain ⟨before, low, behind, hleads, hlow, hbehind⟩ :=
    Node.descend_spec hitems.1 (h.ascending hindex) (Nat.zero_le probe) hprobe
  obtain ⟨front, r, back, hrows, rfl, hitem, rfl⟩ := h.exists_row hindex hleads
  obtain ⟨rfl, hid⟩ := Prod.mk.inj hitem
  refine ⟨front, r, back, hrows, hid, ?_, hlow, fun s hs ↦ ?_⟩
  · rw [hitem] at hleads
    exact hleads
  · exact hbehind s.item (List.mem_map_of_mem hs)

/-! ## Lookups -/

/-- A cursor stands at an entry, with the entries before it and behind it. -/
def Stands (t : ChunkTree H minEntries) (pos : LeafId × Nat) (before : List (Nat × H)) (e : Nat × H)
    (behind : List (Nat × H)) : Prop :=
  ∃ front l back low high, t.chain = front ++ l :: back ∧ l.id = pos.1 ∧
    l.entries = low ++ e :: high ∧ low.length = pos.2 ∧
    before = front.flatMap Leaf.entries ++ low ∧ behind = high ++ back.flatMap Leaf.entries

theorem Stands.entries_eq {pos : LeafId × Nat} {before behind : List (Nat × H)} {e : Nat × H}
    (h : Stands t pos before e behind) : t.entries = before ++ e :: behind := by
  obtain ⟨front, l, back, low, high, hchain, -, hl, -, rfl, rfl⟩ := h
  rw [entries, hchain, List.flatMap_append, List.flatMap_cons, hl]
  simp only [List.append_assoc, List.cons_append]

/-- What a lookup answers: the first entry not below the probe, or none if there is none. -/
def Answers (t : ChunkTree H minEntries) (probe : Nat) (answer : Cursor) : Prop :=
  ∃ before behind, t.entries = before ++ behind ∧ (∀ e ∈ before, e.1 < probe) ∧
    (∀ e ∈ behind, probe ≤ e.1) ∧
    ((behind = [] ∧ answer = none) ∨
      ∃ pos e rest, behind = e :: rest ∧ answer = some pos ∧ Stands t pos before e rest)

namespace Chained

theorem stands (h : Chained t (front ++ r :: back)) {low high : List (Nat × H)} {e : Nat × H}
    (hr : r.2.entries = low ++ e :: high) :
    Stands t (r.2.id, low.length) (entriesOf front ++ low) e (high ++ entriesOf back) := by
  refine ⟨_, _, _, low, high, h.chain_eq, rfl, hr, rfl, ?_, ?_⟩
  · rw [entriesOf, List.flatMap_map]
  · rw [entriesOf, List.flatMap_map]

/-- The scan of a leaf finds the first entry in it that is not below the probe. -/
theorem scan_spec (h : Chained t (front ++ r :: back)) {low high : List (Nat × H)} {probe : Nat}
    (hr : r.2.entries = low ++ high) (hlow : ∀ e ∈ low, e.1 < probe)
    (hhigh : ∀ e ∈ high, probe ≤ e.1) (hprobe : probe < chunkKeyPad) :
    countBelow r.2.keys probe = low.length ∧
      (r.2.keyAt low.length ≠ chunkKeyPad ↔ high ≠ []) ∧ (low.length < r.2.size ↔ high ≠ []) := by
  have hsound := h.stacked.row.sound
  have hholds : r.2.Holds (low ++ high) := hr ▸ hsound.holds
  have hlen : low.length < (low ++ high).length ↔ high ≠ [] := by
    rw [List.length_append, ← List.length_pos_iff]
    omega
  refine ⟨hholds.countBelow_eq hlow hhigh hprobe.le, ?_, ?_⟩
  · rw [hsound.holds.keyAt_ne_pad_iff hsound.lt_pad, hr]
    exact hlen
  · rw [hsound.size_eq, hr]
    exact hlen

end Chained

namespace Tree

/-- Of the leaf a probe belongs to, the first entry not below the probe, or what follows the
leaf. -/
theorem seekInLeaf_spec (h : Tree t (front ++ r :: back)) {probe : Nat}
    (hprobe : probe < chunkKeyPad) (hfloor : r.1 ≤ probe) (hback : ∀ s ∈ back, probe < s.1) :
    Answers t probe (t.seekInLeaf r.2.id probe) := by
  have hrow := h.stacked.row
  obtain ⟨low, high, hr, hlow, hhigh⟩ := hrow.sound.sorted.split probe
  obtain ⟨hcount, hpad, hlt⟩ := h.scan_spec hr hlow hhigh hprobe
  have hbefore : ∀ e ∈ entriesOf front ++ low, e.1 < probe := by
    intro e he
    rcases List.mem_append.mp he with he | he
    · exact (h.stacked.mem_entriesOf_front e he).trans_le hfloor
    · exact hlow e he
  have hbehind : ∀ e ∈ high ++ entriesOf back, probe ≤ e.1 := by
    intro e he
    rcases List.mem_append.mp he with he | he
    · exact hhigh e he
    · obtain ⟨s, hs, he⟩ := List.mem_flatMap.mp he
      have hok := h.stacked.ok s (List.mem_append_right front (List.mem_cons_of_mem r hs))
      exact (hback s hs).le.trans (hok.above e he)
  have hentries : t.entries = (entriesOf front ++ low) ++ (high ++ entriesOf back) := by
    rw [h.entries_eq, entriesOf_append, entriesOf_cons, hr]
    simp only [List.append_assoc]
  refine ⟨_, _, hentries, hbefore, hbehind, ?_⟩
  rw [seekInLeaf, h.leaf_eq, hcount]
  cases high with
  | cons e high =>
    right
    refine ⟨(r.2.id, low.length), e, _, rfl, ?_, h.stands hr⟩
    rw [if_pos (hpad.mpr (List.cons_ne_nil e high)), if_pos (hlt.mpr (List.cons_ne_nil e high)),
      ite_self]
  | nil =>
    rw [if_neg (not_not.mpr rfl ∘ hpad.mp), if_neg (not_not.mpr rfl ∘ hlt.mp), List.nil_append]
    rcases h.followingCursor_eq with ⟨hnil, hnone⟩ | ⟨s, e, rest, back', rfl, hs, hsome⟩
    · left
      rw [hnone, ite_self]
      exact ⟨hnil, rfl⟩
    · right
      have hheight : t.height ≠ 0 := by
        intro hheight
        have halone := h.alone hheight
        rw [List.length_append, List.length_cons, List.length_cons] at halone
        omega
      have hnext : Chained t ((front ++ [r]) ++ s :: back') := by
        rw [List.append_assoc]
        exact h.toChained
      have hstands := hnext.stands (show s.2.entries = [] ++ e :: rest from hs)
      rw [entriesOf_append, entriesOf_cons, hr] at hstands
      refine ⟨(s.2.id, 0), e, rest ++ entriesOf back', ?_, ?_, ?_⟩
      · rw [entriesOf_cons, hs, List.cons_append]
      · rw [if_pos hheight, hsome]
      · simpa using hstands

/-- `lower_bound` answers every probe. -/
theorem lowerBound_spec (h : Tree t rows) {probe : Nat} (hprobe : probe < chunkKeyPad) :
    Answers t probe (t.lowerBound probe) := by
  have hindex := h.index
  rw [lowerBound]
  rcases heq : t.index with _ | ⟨height, root⟩ | ⟨first, d⟩
  · rw [heq] at hindex
    have hnil : rows = [] := hindex
    refine ⟨[], [], ?_, by simp, by simp, Or.inl ⟨rfl, rfl⟩⟩
    rw [h.entries_eq, hnil]
    rfl
  · obtain ⟨front, r, back, rfl, hid, -, hfloor, hback⟩ := h.descend_spec heq hprobe
    dsimp only
    rw [hid]
    exact h.seekInLeaf_spec hprobe hfloor hback
  · rw [heq] at hindex
    exact hindex.elim

end Tree

end ChunkTree

end Roaring
