import Mathlib
import Roaring.Table.TreeGrow

/-!
# Adding an entry to a tree of inner levels

Appending, opening a slot behind the last entry, and inserting where a lookup
stood.  Each either leaves the table on a directory or keeps the invariant of the
tree and adds exactly the entry.
-/

namespace Roaring

open Lib

variable {H : Type} {minEntries : Nat}

namespace ChunkTree

variable {t t' : ChunkTree H minEntries} {rows rows' front back : List (Row H)} {r s : Row H}
variable {low high : List (Nat × H)} {key : Nat} {handle : H}

/-- A tree with an entry more, or a table on a directory. -/
def Adds (t t' : ChunkTree H minEntries) (key : Nat) (handle : H) : Prop :=
  t'.indexed = true ∨ ((∃ rows, Tree t' rows) ∧ Inserted t t' key handle)

theorem Inserted.of_entries {t'' : ChunkTree H minEntries} (h : Inserted t' t'' key handle)
    (heq : t'.entries = t.entries) : Inserted t t'' key handle := by
  rw [Inserted] at h ⊢
  rwa [← heq]

/-! ## The last row -/

/-- The rows of a tree with a leaf: the tail is the last of them, above the largest separator. -/
theorem Tree.exists_last (h : Tree t rows) (hindex : t.index ≠ .empty) :
    ∃ front r, rows = front ++ [r] ∧ t.tail = some r.2.id ∧ t.leaf (t.tail.getD 0) = r.2 ∧
      t.lastSeparator = r.1 := by
  have hitems := h.index
  rcases heq : t.index with _ | ⟨height, root⟩ | ⟨first, d⟩
  · exact absurd heq hindex
  · rw [heq] at hitems
    obtain ⟨before, leaf, hleads⟩ := Node.rightmost_spec 0 hitems.1
    obtain ⟨front, r, back, rfl, -, hitem, hback⟩ := h.exists_row heq hleads
    obtain rfl : back = [] := List.map_eq_nil_iff.mp hback.symm
    have htail := h.tail_eq
    refine ⟨front, r, rfl, htail, ?_, ?_⟩
    · rw [htail]
      exact h.leaf_eq
    · rw [lastSeparator, heq]
      exact congrArg Prod.fst hitem
  · rw [heq] at hitems
    exact hitems.elim

theorem Tree.nil_of_empty (h : Tree t rows) (hindex : t.index = .empty) : rows = [] := by
  have hitems := h.index
  rwa [hindex] at hitems

/-- Where no root leaf can grow, every leaf is full-sized. -/
theorem Tree.row_full (h : Tree t rows) (hmem : r ∈ rows)
    (hgrow : ¬(t.height = 0 ∧ r.2.cap < leafCapacity)) : r.2.cap = leafCapacity := by
  by_cases hheight : t.height = 0
  · have hle := h.cap r hmem
    have hge : ¬r.2.cap < leafCapacity := fun hlt ↦ hgrow ⟨hheight, hlt⟩
    omega
  · exact h.full_of_height hheight r hmem

/-- The only row of a tree without levels. -/
theorem Tree.root_alone (h : Tree t (front ++ [r])) (hheight : t.height = 0) : front = [] := by
  have halone := h.alone hheight
  rw [List.length_append, List.length_singleton] at halone
  exact List.eq_nil_of_length_eq_zero (by omega)

/-- Other rows over the same leaves end in the same leaf. -/
theorem Tree.last_of_reindexed (h : Tree t' rows') (hre : Reindexed t t') (hpos : 0 < t.size)
    {l : Leaf H} (hleaf : t.leaf (t.tail.getD 0) = l) :
    ∃ front r, rows' = front ++ [r] ∧ r.2 = l := by
  have hindex : t'.index ≠ .empty := by
    intro hempty
    obtain rfl := h.nil_of_empty hempty
    have hzero := h.size
    rw [hre.size, entriesOf_nil, List.length_nil] at hzero
    omega
  obtain ⟨front, r, rfl, -, hr, -⟩ := h.exists_last hindex
  refine ⟨front, r, rfl, ?_⟩
  rw [← hr, hre.leaf_eq, hre.tail, hleaf]

/-- A tree of one leaf. -/
theorem Tree.single {l : Leaf H} {t₀ : ChunkTree H minEntries} (hsound : l.Sound)
    (hid : l.id < t₀.nextId) (hcap : l.cap ≤ leafCapacity) (hsize : t₀.size = l.entries.length)
    (hbounded : t₀.size ≤ maxCount) (hdue : min minEntries maxCount ≤ t₀.nextEval)
    (hchain : t₀.chain = [l]) (htail : t₀.tail = some l.id) (hindex : t₀.index = .levels 0 l.id) :
    Tree t₀ [(0, l)] := by
  constructor
  · constructor
    · rw [hchain, List.map_singleton]
    · exact Stacked.singleton ⟨hsound, fun _ _ ↦ Nat.zero_le _, show 0 < chunkKeyPad by decide⟩
    · rw [Distinct, hchain, List.map_singleton]
      exact List.nodup_singleton _
    · rw [hchain, List.forall_mem_singleton]
      exact hid
    · rw [hchain, htail]
      rfl
    · rw [List.forall_mem_singleton]
      exact hcap
    · intro hlen
      exact absurd hlen (by simp)
  · rw [hsize, entriesOf_cons, entriesOf_nil, List.append_nil]
  · exact hbounded
  · exact hdue
  · rw [hindex]
    exact ⟨trivial, rfl, fun hne ↦ absurd rfl hne⟩

/-! ## Appending -/

/-- `append_staged` where no leaf stands yet. -/
theorem Tree.append_first (h : Tree t []) (hindex : t.index = .empty)
    (hkey : key + 1 < chunkKeyPad) (handle : H) :
    (∃ rows, Tree (t.appendStaged key handle) rows) ∧
      Inserted t (t.appendStaged key handle) key handle := by
  have hholds : ((Leaf.make t.nextId 4).append key handle).Holds [(key, handle)] :=
    (Leaf.Holds.make t.nextId 4).append (show 0 < 4 by decide) key handle
  have hsound : ((Leaf.make t.nextId 4).append key handle).Sound :=
    hholds.sound (List.pairwise_singleton _ _) (by simpa using hkey)
  have hstate : t.appendStaged key handle =
      { t with
        index := .levels 0 t.nextId
        chain := [(Leaf.make t.nextId 4).append key handle]
        tail := some t.nextId
        size := 1
        nextId := t.nextId + 1 } := by
    rw [appendStaged, hindex]
  rw [hstate]
  refine ⟨⟨[(0, (Leaf.make t.nextId 4).append key handle)], ?_⟩, [], [], h.entries_eq, by simp,
    by simp, ?_⟩
  · refine Tree.single hsound (Nat.lt_succ_self _) (show 4 ≤ leafCapacity by decide) ?_
      (show 1 ≤ maxCount by decide) h.due rfl rfl rfl
    rw [hholds.entries_eq]
    rfl
  · rw [entries, List.flatMap_singleton, hholds.entries_eq]
    rfl

/-- The entry starts the leaf behind the full last one. -/
theorem Tree.append_fresh (h : Tree t (front ++ [r])) (hcap : r.2.cap = leafCapacity)
    (hne : r.2.entries ≠ []) (hsize : t.size < maxCount) (habove : ∀ e ∈ t.entries, e.1 < key)
    (hkey : key + 1 < chunkKeyPad) (handle : H) :
    let added := (t.linkFresh r.2.id ((Leaf.make t.nextId leafCapacity).append key handle)).grown
    (∃ rows, Tree (added.indexNewLast t.rightmostPath key r.2.id t.nextId) rows) ∧
      Inserted t (added.indexNewLast t.rightmostPath key r.2.id t.nextId) key handle := by
  have hholds : ((Leaf.make t.nextId leafCapacity).append key handle : Leaf H).Holds
      [(key, handle)] :=
        (Leaf.Holds.make _ leafCapacity).append (show 0 < leafCapacity by decide) key
    handle
  generalize hfresh : (Leaf.make t.nextId leafCapacity).append key handle = fresh at hholds ⊢
  have hid : fresh.id = t.nextId := by rw [← hfresh]; rfl
  have hfull : fresh.cap = leafCapacity := by rw [← hfresh]; rfl
  have hok : Row.Ok ((key, fresh) : Row H) := Row.Ok.of_holds hholds (List.pairwise_singleton _ _)
    (by simpa using hkey) (by simp) (by omega)
  have hcount : t.size + 1 = t.size + fresh.entries.length := by
    rw [hholds.entries_eq]
    rfl
  have hlinked := h.linkLast hcap hid hfull hok hne habove hcount hsize
  have hgrown : (t.linkFresh r.2.id fresh).grown =
      { t.linkFresh r.2.id fresh with size := t.size + 1 } := by
    rw [grown]
    congr 1
    exact Nat.mod_eq_of_lt (Nat.succ_lt_succ hsize)
  rw [hgrown]
  refine ⟨⟨_, hlinked⟩, t.entries, [], (List.append_nil _).symm, habove, by simp, ?_⟩
  rw [hlinked.entries_eq, List.append_cons front r, entriesOf_append (front ++ [r]), ← h.entries_eq,
    entriesOf_cons, entriesOf_nil, List.append_nil]
  exact congrArg (t.entries ++ ·) hholds.entries_eq

theorem Tree.appendStaged (h : Tree t rows) (hsize : t.size < maxCount)
    (habove : ∀ e ∈ t.entries, e.1 < key) (hfloor : t.lastSeparator ≤ key)
    (hkey : key + 1 < chunkKeyPad) (handle : H) :
    Adds t (t.appendStaged key handle) key handle := by
  by_cases hindex : t.index = .empty
  · obtain rfl := h.nil_of_empty hindex
    exact Or.inr (h.append_first hindex hkey handle)
  obtain ⟨front, r, rfl, htail, hleaf, hlast⟩ := h.exists_last hindex
  rw [hlast] at hfloor
  have hstate : t.appendStaged key handle =
      if r.2.size < r.2.cap then (t.modify r.2.id (·.append key handle)).grown
      else if t.height = 0 ∧ r.2.cap < leafCapacity then
        ((t.growRootLeaf r.2.id).modify ((t.growRootLeaf r.2.id).tail.getD 0)
          (·.append key handle)).grown
      else
        (t.prepareNewLastLeaf.linkFresh r.2.id
          ((Leaf.make t.prepareNewLastLeaf.nextId leafCapacity).append key
            handle)).grown.indexNewLast
            t.prepareNewLastLeaf.rightmostPath key r.2.id t.prepareNewLastLeaf.nextId := by
    rw [ChunkTree.appendStaged]
    dsimp only
    rw [hleaf, htail]
    cases hi : t.index with
    | empty => exact absurd hi hindex
    | levels height root => rfl
    | directory first d => rfl
  rw [hstate]
  by_cases hroom : r.2.size < r.2.cap
  · rw [if_pos hroom]
    obtain ⟨htree, hinserted⟩ := h.append hsize habove hfloor hkey hroom handle
    exact Or.inr ⟨⟨_, htree⟩, hinserted⟩
  rw [if_neg hroom]
  by_cases hgrow : t.height = 0 ∧ r.2.cap < leafCapacity
  · rw [if_pos hgrow]
    obtain rfl := h.root_alone hgrow.1
    obtain ⟨l, htree, htail', hsize', hentries, -, hspace⟩ :=
      Tree.growRootLeaf (r := r) h hgrow.1 hgrow.2
    rw [htail']
    have hroot : Tree (t.growRootLeaf r.2.id) ([] ++ [(r.1, l)]) := htree
    obtain ⟨htree', hinserted⟩ := hroot.append (hsize'.trans_lt hsize)
      (by rwa [hentries]) hfloor hkey hspace handle
    exact Or.inr ⟨⟨_, htree'⟩, hinserted.of_entries hentries⟩
  · rw [if_neg hgrow]
    -- the last leaf is full: the entry starts the next one
    have hcap := h.row_full (List.mem_append_right front List.mem_cons_self) hgrow
    have hrow := h.stacked.row
    have hne : r.2.entries ≠ [] := by
      intro hnil
      have hzero := hrow.sound.size_eq
      rw [hnil, List.length_nil] at hzero
      exact hroom (by rw [hzero, hcap]; decide)
    have hpos : 0 < t.size := by
      rw [h.size, entriesOf_append, List.length_append, entriesOf_cons, List.length_append]
      have hpos := List.length_pos_iff.mpr hne
      omega
    obtain ⟨first, more, hfirst⟩ : ∃ first more, front ++ [r] = first :: more :=
      List.exists_cons_of_ne_nil (by simp)
    obtain ⟨hre, hcases⟩ := Tree.prepareNewLastLeaf (hfirst ▸ h) hpos hsize
    generalize t.prepareNewLastLeaf = u at hre hcases ⊢
    rcases hcases with hdirectory | ⟨rows', htree⟩
    · left
      apply indexNewLast_indexed
      exact hdirectory
    · right
      obtain ⟨front', r', rfl, hr'⟩ := htree.last_of_reindexed hre hpos hleaf
      rw [← hr'] at hcap hne ⊢
      obtain ⟨htree', hinserted⟩ := htree.append_fresh hcap hne (hre.size.trans_lt hsize)
        (by rwa [hre.entries_eq]) hkey handle
      exact ⟨htree', hinserted.of_entries hre.entries_eq⟩

/-- In a tree `push_back` is the staged append. -/
theorem Tree.pushBack_eq (h : Tree t rows) (key : Nat) (handle : H) :
    t.pushBack key handle = t.appendStaged key handle := by
  rw [pushBack]
  by_cases hindex : t.index = .empty
  · have htail := h.tail
    rw [h.chain, h.nil_of_empty hindex] at htail
    rw [show t.tail = none from htail]
  · obtain ⟨front, r, rfl, htail, hleaf, -⟩ := h.exists_last hindex
    rw [htail, Option.getD_some] at hleaf
    rw [htail]
    dsimp only
    rw [hleaf]
    split
    · rename_i hroom
      rw [ChunkTree.appendStaged]
      cases hi : t.index with
      | empty => exact absurd hi hindex
      | levels height root =>
        dsimp only
        rw [htail, Option.getD_some, hleaf, if_pos hroom]
      | directory first d =>
        dsimp only
        rw [htail, Option.getD_some, hleaf, if_pos hroom]
    · rfl

/-! ## Opening a slot -/

/-- A slot stands open behind the last entry: the last leaf has room, and its floor is the one it
had or just above an entry held. -/
def Opened (t t' : ChunkTree H minEntries) : Prop :=
  ∃ front r, Tree t' (front ++ [r]) ∧ t'.entries = t.entries ∧ t'.size = t.size ∧
    r.2.size < r.2.cap ∧ (r.1 ≤ t.lastSeparator ∨ ∃ e ∈ t.entries, r.1 = e.1 + 1)

/-- `open_back` where no leaf stands yet. -/
theorem Tree.open_first (h : Tree t []) (hindex : t.index = .empty) : Opened t t.openBack := by
  have hstate : t.openBack =
      { t with
        index := .levels 0 t.nextId
        chain := [Leaf.make t.nextId 4]
        tail := some t.nextId
        nextId := t.nextId + 1 } := by
    rw [ChunkTree.openBack, hindex]
  have hholds : (Leaf.make t.nextId 4 : Leaf H).Holds [] := Leaf.Holds.make t.nextId 4
  have hzero : t.size = 0 := h.size
  rw [hstate]
  refine ⟨[], (0, Leaf.make t.nextId 4), ?_, ?_, rfl, show 0 < 4 by decide, Or.inl (Nat.zero_le _)⟩
  · refine Tree.single (hholds.sound List.Pairwise.nil (by simp)) (Nat.lt_succ_self _)
      (show 4 ≤ leafCapacity by decide) ?_ h.bounded h.due rfl rfl rfl
    rw [hholds.entries_eq]
    exact hzero
  · rw [h.entries_eq, entries, List.flatMap_singleton, hholds.entries_eq]
    rfl

/-- No entry lies behind the last one of the last leaf. -/
theorem Tree.last_entry (h : Tree t (front ++ [r])) {init : List (Nat × H)} {e : Nat × H}
    (hinit : r.2.entries = init ++ [e]) : e ∈ t.entries ∧ ∀ a ∈ t.entries, a.1 < e.1 + 1 := by
  have hentries : t.entries = (entriesOf front ++ init) ++ [e] := by
    rw [h.entries_eq, entriesOf_append, entriesOf_cons, hinit, entriesOf_nil, List.append_nil,
      List.append_assoc]
  have hsorted := h.stacked.sorted
  rw [← h.entries_eq, hentries, Sorted, List.pairwise_append] at hsorted
  rw [hentries]
  refine ⟨List.mem_append_right _ List.mem_cons_self, fun a ha ↦ ?_⟩
  rcases List.mem_append.mp ha with ha | ha
  · exact Nat.lt_succ_of_lt (hsorted.2.2 a ha e List.mem_cons_self)
  · rw [List.mem_singleton.mp ha]
    exact Nat.lt_succ_self _

/-- An empty leaf behind the full last one, filed just above the last entry. -/
theorem Tree.open_fresh (h : Tree t (front ++ [r])) (hcap : r.2.cap = leafCapacity)
    {init : List (Nat × H)} {e : Nat × H} (hinit : r.2.entries = init ++ [e]) :
    let opened := (t.linkFresh r.2.id (Leaf.make t.nextId leafCapacity)).indexNewLast
      t.rightmostPath (e.1 + 1) r.2.id t.nextId
    ∃ s, Tree opened (front ++ [r] ++ [s]) ∧ opened.entries = t.entries ∧ opened.size = t.size ∧
      s.2.size < s.2.cap ∧ s.1 = e.1 + 1 := by
  obtain ⟨hmem, habove⟩ := h.last_entry hinit
  have hholds : (Leaf.make t.nextId leafCapacity : Leaf H).Holds [] := Leaf.Holds.make _ _
  have hlegal : e.1 + 1 < chunkKeyPad := by
    apply h.stacked.legal
    rwa [← h.entries_eq]
  have hok : Row.Ok ((e.1 + 1, Leaf.make t.nextId leafCapacity) : Row H) :=
    Row.Ok.of_holds hholds List.Pairwise.nil (by simp) (by simp) hlegal
  have hcount : t.size = t.size + (Leaf.make t.nextId leafCapacity : Leaf H).entries.length := by
    rw [hholds.entries_eq]
    rfl
  have hlinked := h.linkLast hcap rfl rfl hok (by rw [hinit]; simp) habove hcount h.bounded
  rw [List.append_cons front r] at hlinked
  refine ⟨_, hlinked, ?_, ?_, show 0 < leafCapacity by decide, rfl⟩
  · refine hlinked.entries_eq.trans ?_
    rw [entriesOf_append (front ++ [r]), ← h.entries_eq, entriesOf_cons, entriesOf_nil,
      List.append_nil]
    exact (congrArg (t.entries ++ ·) hholds.entries_eq).trans (List.append_nil _)
  · have hsame := hlinked.size
    rw [entriesOf_append (front ++ [r]), entriesOf_cons, entriesOf_nil, List.append_nil] at hsame
    refine hsame.trans ?_
    rw [h.size, List.length_append]
    exact (congrArg (_ + ·) (congrArg List.length hholds.entries_eq)).trans (Nat.add_zero _)

theorem Tree.openBack (h : Tree t rows) (hsize : t.size < maxCount) :
    t.openBack.indexed = true ∨ Opened t t.openBack := by
  by_cases hindex : t.index = .empty
  · obtain rfl := h.nil_of_empty hindex
    exact Or.inr (h.open_first hindex)
  obtain ⟨front, r, rfl, htail, hleaf, hlast⟩ := h.exists_last hindex
  have hstate : t.openBack =
      if r.2.size = r.2.cap then
        if t.height = 0 ∧ r.2.cap < leafCapacity then t.growRootLeaf r.2.id
        else
          (t.prepareNewLastLeaf.linkFresh r.2.id
            (Leaf.make t.prepareNewLastLeaf.nextId leafCapacity)).indexNewLast
              t.prepareNewLastLeaf.rightmostPath (r.2.keyAt (r.2.size - 1) + 1) r.2.id
              t.prepareNewLastLeaf.nextId
      else t := by
    rw [ChunkTree.openBack]
    dsimp only
    rw [hleaf, htail]
    cases hi : t.index with
    | empty => exact absurd hi hindex
    | levels height root => rfl
    | directory first d => rfl
  have hrow := h.stacked.row
  have hfits : r.2.size ≤ r.2.cap := by
    rw [hrow.sound.size_eq]
    exact hrow.sound.holds.fits
  rw [hstate]
  by_cases hfull : r.2.size = r.2.cap
  swap
  · rw [if_neg hfull]
    exact Or.inr ⟨front, r, h, rfl, rfl, by omega, Or.inl hlast.ge⟩
  rw [if_pos hfull]
  by_cases hgrow : t.height = 0 ∧ r.2.cap < leafCapacity
  · rw [if_pos hgrow]
    obtain rfl := h.root_alone hgrow.1
    obtain ⟨l, htree, -, hsize', hentries, -, hspace⟩ :=
      Tree.growRootLeaf (r := r) h hgrow.1 hgrow.2
    exact Or.inr ⟨[], _, htree, hentries, hsize', hspace, Or.inl hlast.ge⟩
  rw [if_neg hgrow]
  have hcap := h.row_full (List.mem_append_right front List.mem_cons_self) hgrow
  obtain ⟨init, e, hinit⟩ : ∃ init e, r.2.entries = init ++ [e] := by
    rcases List.eq_nil_or_concat r.2.entries with hnil | ⟨init, e, hinit⟩
    · have hzero := hrow.sound.size_eq
      rw [hnil, List.length_nil, hfull, hcap] at hzero
      exact absurd hzero (by decide)
    · exact ⟨init, e, by rw [hinit, List.concat_eq_append]⟩
  have hpos : 0 < t.size := by
    rw [h.size, ← h.entries_eq]
    exact List.length_pos_of_mem (h.last_entry hinit).1
  obtain ⟨first, more, hfirst⟩ : ∃ first more, front ++ [r] = first :: more :=
    List.exists_cons_of_ne_nil (by simp)
  obtain ⟨hre, hcases⟩ := Tree.prepareNewLastLeaf (hfirst ▸ h) hpos hsize
  have hlastKey : r.2.keyAt (r.2.size - 1) = e.1 := hrow.sound.lastKey_eq hinit
  rw [hlastKey]
  generalize t.prepareNewLastLeaf = u at hre hcases ⊢
  rcases hcases with hdirectory | ⟨rows', htree⟩
  · left
    apply indexNewLast_indexed
    exact hdirectory
  · right
    obtain ⟨front', r', rfl, hr'⟩ := htree.last_of_reindexed hre hpos hleaf
    rw [← hr'] at hcap hinit ⊢
    obtain ⟨s, hopened, hentries, hsize', hspace, hfloor⟩ := htree.open_fresh hcap hinit
    refine ⟨_, s, hopened, hentries.trans hre.entries_eq, hsize'.trans hre.size, hspace,
      Or.inr ⟨e, ?_, hfloor⟩⟩
    rw [← hre.entries_eq]
    exact (htree.last_entry hinit).1

/-- An opened slot is committed. -/
theorem Tree.commitBack (h : Tree t (front ++ [r])) (hsize : t.size < maxCount)
    (habove : ∀ e ∈ t.entries, e.1 < key) (hfloor : r.1 ≤ key) (hkey : key + 1 < chunkKeyPad)
    (hroom : r.2.size < r.2.cap) (handle : H) :
    (∃ rows, Tree (t.commitBack key handle) rows) ∧
      Inserted t (t.commitBack key handle) key handle := by
  rw [ChunkTree.commitBack, h.tail_eq]
  obtain ⟨htree, hinserted⟩ := h.append hsize habove hfloor hkey hroom handle
  exact ⟨⟨_, htree⟩, hinserted⟩

end ChunkTree

end Roaring
