import Mathlib
import Roaring.Table.TreeIndex

/-!
# Adding an entry to a tree of inner levels

Every way an entry is added keeps the invariant of the tree and puts the entry
where its key belongs: room in a leaf, a root leaf that grows, a new last leaf, a
leaf that splits.  Where a leaf is added a directory may be adopted; it is given
up again within the step or the tree is in its other mode afterwards.
-/

namespace Roaring

open Lib

variable {H : Type} {minEntries : Nat}

namespace ChunkTree

variable {t t' : ChunkTree H minEntries} {rows rows' front back : List (Row H)} {r s : Row H}
variable {low high : List (Nat × H)} {key : Nat} {handle : H}

/-- The entries of the second are those of the first and one more, where its key belongs. -/
def Inserted (t t' : ChunkTree H minEntries) (key : Nat) (handle : H) : Prop :=
  ∃ before behind, t.entries = before ++ behind ∧ (∀ e ∈ before, e.1 < key) ∧
    (∀ e ∈ behind, key < e.1) ∧ t'.entries = before ++ (key, handle) :: behind

/-! ## The index under changed rows -/

theorem Indexes.of_items {index : Index} (h : Indexes index rows)
    (hitems : rows'.map Row.item = rows.map Row.item)
    (hcap : ∀ r' ∈ rows', ∃ r ∈ rows, r'.2.cap = r.2.cap) : Indexes index rows' := by
  unfold Indexes at h ⊢
  cases index with
  | empty =>
    dsimp only at h ⊢
    rw [h] at hitems
    exact List.map_eq_nil_iff.mp hitems
  | levels height root =>
    refine ⟨h.1, h.2.1.trans hitems.symm, fun hheight r' hr' ↦ ?_⟩
    obtain ⟨r, hr, heq⟩ := hcap r' hr'
    exact heq.trans (h.2.2 hheight r hr)
  | directory first d => exact h

/-- One row in another's place, under the same name. -/
theorem Indexes.update {index : Index} (h : Indexes index (front ++ r :: back))
    (hitem : s.item = r.item) (hcap : s.2.cap = r.2.cap) : Indexes index (front ++ s :: back) := by
  apply h.of_items
  · rw [List.map_append, List.map_append, List.map_cons, List.map_cons, hitem]
  · intro x hx
    rcases List.mem_append.mp hx with hx | hx
    · exact ⟨x, List.mem_append_left _ hx, rfl⟩
    · rcases List.mem_cons.mp hx with rfl | hx
      · exact ⟨r, List.mem_append_right front List.mem_cons_self, hcap⟩
      · exact ⟨x, List.mem_append_right front (List.mem_cons_of_mem r hx), rfl⟩

/-! ## Room in a leaf -/

theorem grown_size (h : t.size < maxCount) : t.grown.size = t.size + 1 := by
  show (t.size + 1) % (maxCount + 1) = t.size + 1
  exact Nat.mod_eq_of_lt (Nat.succ_lt_succ h)

/-- A leaf takes an entry that belongs there. -/
theorem Tree.modify_insert (h : Tree t (front ++ r :: back)) (hsize : t.size < maxCount)
    (hr : r.2.entries = low ++ high) (hlow : ∀ e ∈ low, e.1 < key) (hhigh : ∀ e ∈ high, key < e.1)
    (hfloor : r.1 ≤ key) (hback : ∀ s ∈ back, key < s.1) {f : Leaf H → Leaf H}
    (hid : (f r.2).id = r.2.id) (hcap : (f r.2).cap = r.2.cap) (hok : Row.Ok (r.1, f r.2))
    (hentries : (f r.2).entries = low ++ (key, handle) :: high) :
    Tree (t.modify r.2.id f).grown (front ++ (r.1, f r.2) :: back) ∧
      Inserted t (t.modify r.2.id f).grown key handle := by
  have hbelow : ∀ s ∈ back, Row.Below (r.1, f r.2) s := by
    intro s hs
    have hrs := h.stacked.below_back s hs
    refine ⟨hrs.floor, ?_, ?_⟩
    · have hkeys := hrs.keys
      rw [hr, List.forall_mem_append] at hkeys
      show ∀ e ∈ (f r.2).entries, e.1 < s.1
      rw [hentries, List.forall_mem_append, List.forall_mem_cons]
      exact ⟨hkeys.1, hback s hs, hkeys.2⟩
    · show (f r.2).entries ≠ []
      rw [hentries]
      simp
  have hchained : Chained (t.modify r.2.id f) (front ++ (r.1, f r.2) :: back) :=
    h.toChained.modify hid hcap (h.stacked.update hok le_rfl hbelow)
  have hgrown : Chained (t.modify r.2.id f).grown (front ++ (r.1, f r.2) :: back) :=
    hchained.congr rfl rfl rfl
  have hold : entriesOf (front ++ r :: back) = (entriesOf front ++ low) ++
      (high ++ entriesOf back) := by
    rw [entriesOf_append, entriesOf_cons, hr]
    simp only [List.append_assoc]
  have hnew : entriesOf (front ++ (r.1, f r.2) :: back) =
      (entriesOf front ++ low) ++ (key, handle) :: (high ++ entriesOf back) := by
    rw [entriesOf_append, entriesOf_cons]
    show entriesOf front ++ ((f r.2).entries ++ entriesOf back) = _
    rw [hentries]
    simp only [List.append_assoc, List.cons_append]
  have hgrownSize : (t.modify r.2.id f).grown.size = t.size + 1 :=
    grown_size (t := t.modify r.2.id f) hsize
  refine ⟨⟨hgrown, ?_, ?_, h.due, ?_⟩, entriesOf front ++ low, high ++ entriesOf back, ?_,
    ?_, ?_, ?_⟩
  · rw [hgrownSize, h.size, hold, hnew]
    simp only [List.length_append, List.length_cons]
    omega
  · rw [hgrownSize]
    exact hsize
  · exact h.index.update (show (r.1, (f r.2).id) = (r.1, r.2.id) by rw [hid]) hcap
  · rw [h.entries_eq, hold]
  · rw [List.forall_mem_append]
    exact ⟨fun e he ↦ (h.stacked.mem_entriesOf_front e he).trans_le hfloor, hlow⟩
  · rw [List.forall_mem_append]
    refine ⟨hhigh, fun e he ↦ ?_⟩
    obtain ⟨s, hs, he⟩ := List.mem_flatMap.mp he
    have hok := h.stacked.ok s (List.mem_append_right front (List.mem_cons_of_mem r hs))
    exact (hback s hs).trans_le (hok.above e he)
  · rw [hgrown.entries_eq, hnew]

theorem Tree.put (h : Tree t (front ++ r :: back)) (hsize : t.size < maxCount)
    (hr : r.2.entries = low ++ high) (hlow : ∀ e ∈ low, e.1 < key) (hhigh : ∀ e ∈ high, key < e.1)
    (hfloor : r.1 ≤ key) (hback : ∀ s ∈ back, key < s.1) (hkey : key + 1 < chunkKeyPad)
    (hroom : r.2.size < r.2.cap) (handle : H) :
    Tree (t.modify r.2.id (·.put low.length key handle)).grown
        (front ++ (r.1, r.2.put low.length key handle) :: back) ∧
      Inserted t (t.modify r.2.id (·.put low.length key handle)).grown key handle := by
  obtain ⟨hok, hentries⟩ := h.stacked.row.put hr hroom hlow hhigh hfloor hkey handle
  exact h.modify_insert hsize hr hlow hhigh hfloor hback
    (f := fun l ↦ l.put low.length key handle) rfl rfl hok hentries

/-- The last leaf takes an entry above all others. -/
theorem Tree.append (h : Tree t (front ++ [r])) (hsize : t.size < maxCount)
    (habove : ∀ e ∈ t.entries, e.1 < key) (hfloor : r.1 ≤ key) (hkey : key + 1 < chunkKeyPad)
    (hroom : r.2.size < r.2.cap) (handle : H) :
    Tree (t.modify r.2.id (·.append key handle)).grown (front ++ [(r.1, r.2.append key handle)]) ∧
      Inserted t (t.modify r.2.id (·.append key handle)).grown key handle := by
  have hlow : ∀ e ∈ r.2.entries, e.1 < key := by
    intro e he
    apply habove
    rw [h.entries_eq, entriesOf_append, entriesOf_cons]
    exact List.mem_append_right _ (List.mem_append_left _ he)
  obtain ⟨hok, hentries⟩ := h.stacked.row.append hroom hlow hfloor hkey handle
  exact h.modify_insert hsize (List.append_nil r.2.entries).symm hlow (by simp) hfloor (by simp)
    (f := fun l ↦ l.append key handle) rfl rfl hok hentries

/-! ## The root leaf grows -/

theorem Tree.relocateRoot (h : Tree t [r]) (hheight : t.height = 0) {cap : Nat}
    (hfits : r.2.size ≤ cap) (hcap : cap ≤ leafCapacity) :
    Tree (t.relocateRoot r.2.id cap) [(r.1, r.2.relocate t.nextId cap)] := by
  have hindex := h.index
  have hrow := h.stacked.ok r List.mem_cons_self
  have hentries := (hrow.relocate t.nextId hfits).2
  refine ⟨h.toChained.relocateRoot hfits hcap, ?_, h.bounded, h.due, ?_⟩
  · show t.size = _
    rw [h.size, entriesOf_cons, entriesOf_cons, hentries]
  · refine ⟨trivial, ?_, fun hne ↦ absurd rfl hne⟩
    rw [height] at hheight
    rcases heq : t.index with _ | ⟨height, root⟩ | ⟨first, d⟩
    · rw [heq] at hindex
      exact absurd hindex (by simp [Indexes])
    · rw [heq] at hindex hheight
      have hzero : height = 0 := hheight
      subst hzero
      have hone : [((0 : Nat), (root : LeafId))] = [r.item] := hindex.2.1
      have hfloor : (0 : Nat) = r.1 := congrArg Prod.fst (List.cons.inj hone).1
      show [((0 : Nat), t.nextId)] = [(r.1, t.nextId)]
      rw [hfloor]
    · rw [heq] at hindex
      exact hindex.elim

/-- A root leaf moves to the block of the next size: the same entries, and room for one more. -/
theorem Tree.growRootLeaf (h : Tree t [r]) (hheight : t.height = 0)
    (hcap : r.2.cap < leafCapacity) :
    ∃ l, Tree (t.growRootLeaf r.2.id) [(r.1, l)] ∧ (t.growRootLeaf r.2.id).tail.getD 0 = l.id ∧
      (t.growRootLeaf r.2.id).size = t.size ∧ (t.growRootLeaf r.2.id).entries = t.entries ∧
      l.entries = r.2.entries ∧ l.size < l.cap := by
  have hroot : Chained t ([] ++ r :: []) := h.toChained
  have hleaf := hroot.leaf_eq
  have hrow := h.stacked.ok r List.mem_cons_self
  have hfits : r.2.size ≤ r.2.cap := by
    rw [hrow.sound.size_eq]
    exact hrow.sound.holds.fits
  obtain ⟨cap, hgrow, hlt, hle⟩ : ∃ cap, (if r.2.cap < 4 then 4 else if r.2.cap < 8 then 8
      else leafCapacity) = cap ∧ r.2.cap < cap ∧ cap ≤ leafCapacity := by
    refine ⟨_, rfl, ?_, ?_⟩
    · split
      · assumption
      · split <;> assumption
    · split
      · decide
      · split <;> decide
  have heq : t.growRootLeaf r.2.id = t.relocateRoot r.2.id cap := by
    rw [ChunkTree.growRootLeaf, hleaf, hgrow]
  have htree := h.relocateRoot hheight (hfits.trans hlt.le) hle
  have hentries := (hrow.relocate t.nextId (hfits.trans hlt.le)).2
  rw [heq]
  refine ⟨r.2.relocate t.nextId cap, htree, rfl, rfl, ?_, hentries, hfits.trans_lt hlt⟩
  rw [htree.entries_eq, h.entries_eq, entriesOf_cons, entriesOf_cons, hentries]

/-! ## A leaf is registered -/

/-- A leaf linked behind another and registered in the levels. -/
theorem Chained.register {height : Nat} {root : Node height}
    (h : Chained t (front ++ r :: s :: back))
    (hindex : t.index = .levels height root) (hshape : Node.Shape height root) {path : List Nat}
    (hleads : Node.Leads height root 0 path (front.map Row.item) r.item (back.map Row.item))
    (hsize : t.size = (entriesOf (front ++ r :: s :: back)).length) (hbounded : t.size ≤ maxCount)
    (hdue : min minEntries maxCount ≤ t.nextEval) :
    Tree (t.insertInParent path s.1 s.2.id) (front ++ r :: s :: back) := by
  obtain ⟨height', root', heq, hshape', hitems⟩ :=
    insertInParent_spec hindex hshape hleads s.1 s.2.id
  rw [heq]
  refine ⟨h.congr rfl rfl rfl, hsize, hbounded, hdue, hshape', ?_, fun _ ↦ h.full ?_⟩
  · rw [hitems, List.map_append, List.map_cons, List.map_cons]
    rfl
  · rw [List.length_append, List.length_cons, List.length_cons]
    omega

/-! ## Adopting and giving up a directory -/

/-- Another index over the same leaves. -/
structure Reindexed (t t' : ChunkTree H minEntries) : Prop where
  chain : t'.chain = t.chain
  tail : t'.tail = t.tail
  size : t'.size = t.size
  nextId : t'.nextId = t.nextId

namespace Reindexed

theorem refl (t : ChunkTree H minEntries) : Reindexed t t := ⟨rfl, rfl, rfl, rfl⟩

theorem trans {t'' : ChunkTree H minEntries} (h : Reindexed t t') (h' : Reindexed t' t'') :
    Reindexed t t'' where
  chain := h'.chain.trans h.chain
  tail := h'.tail.trans h.tail
  size := h'.size.trans h.size
  nextId := h'.nextId.trans h.nextId

theorem chained (h : Reindexed t t') (hchained : Chained t rows) : Chained t' rows :=
  hchained.congr h.chain h.tail h.nextId

theorem entries_eq (h : Reindexed t t') : t'.entries = t.entries := by
  rw [entries, entries, h.chain]

theorem leaf_eq (h : Reindexed t t') (id : LeafId) : t'.leaf id = t.leaf id := by
  rw [leaf, leaf, h.chain]

theorem of_withDirectory (t : ChunkTree H minEntries) (first : LeafId) (d : Directory) :
    Reindexed t (t.withDirectory first d) := ⟨rfl, rfl, rfl, rfl⟩

theorem of_abandonDirectory (t : ChunkTree H minEntries) (first : LeafId) :
    Reindexed t (t.abandonDirectory first) := ⟨rfl, rfl, rfl, rfl⟩

end Reindexed

theorem adoptDirectory_eq {first : LeafId} (h : t.adoptDirectory first = some t') :
    ∃ d, t' = t.withDirectory first d := by
  rw [adoptDirectory] at h
  dsimp only at h
  split at h
  · exact absurd h.symm (Option.some_ne_none _)
  · obtain ⟨table, -, rfl⟩ := Option.map_eq_some_iff.mp h
    exact ⟨_, rfl⟩

/-- The levels' first leaf is the first row's. -/
theorem Tree.leftmostLeaf_eq (h : Tree t (r :: rows)) : t.leftmostLeaf = r.2.id := by
  have hindex := h.index
  rw [leftmostLeaf]
  rcases heq : t.index with _ | ⟨height, root⟩ | ⟨first, d⟩
  · rw [heq] at hindex
    exact absurd hindex (List.cons_ne_nil _ _)
  · rw [heq] at hindex
    obtain ⟨back, hitems⟩ := Node.leftmostLeaf_spec 0 hindex.1
    rw [hindex.2.1, List.map_cons] at hitems
    exact (congrArg Prod.snd (List.cons.inj hitems).1).symm
  · rw [heq] at hindex
    exact hindex.elim

/-- Where a leaf is about to be added a directory is adopted over the first leaf, or the tree
stays. -/
theorem Tree.adoptIfDue (h : Tree t (r :: rows)) :
    (t.adoptIfDue.2 = true ∧ t.height ≠ 0 ∧ t.nextEval ≤ t.size ∧
      ∃ d, t.adoptIfDue.1 = t.withDirectory r.2.id d) ∨
    (t.adoptIfDue.2 = false ∧ Tree t.adoptIfDue.1 (r :: rows) ∧ Reindexed t t.adoptIfDue.1 ∧
      t.adoptIfDue.1.index = t.index) := by
  rw [ChunkTree.adoptIfDue, h.leftmostLeaf_eq]
  split
  · exact Or.inr ⟨rfl, h, Reindexed.refl t, rfl⟩
  · rename_i hdue
    rw [not_or, Nat.not_lt] at hdue
    rcases hadopt : t.adoptDirectory r.2.id with _ | adopted
    · refine Or.inr ⟨rfl, ⟨h.toChained.congr rfl rfl rfl, h.size, h.bounded, ?_, h.index⟩,
        ⟨rfl, rfl, rfl, rfl⟩, rfl⟩
      exact h.due.trans (hdue.2.trans (le_doubled h.bounded))
    · obtain ⟨d, rfl⟩ := adoptDirectory_eq hadopt
      exact Or.inl ⟨rfl, hdue.1, hdue.2, d, rfl⟩

/-- A tree below levels has full-sized leaves only. -/
theorem Tree.full_of_height (h : Tree t rows) (hheight : t.height ≠ 0) :
    ∀ x ∈ rows, x.2.cap = leafCapacity := by
  have hindex := h.index
  rw [height] at hheight
  rcases heq : t.index with _ | ⟨height, root⟩ | ⟨first, d⟩
  · rw [heq] at hheight
    exact absurd rfl hheight
  · rw [heq] at hindex hheight
    exact hindex.2.2 hheight
  · rw [heq] at hindex
    exact hindex.elim

/-- A directory given up leaves a tree over the same leaves that does not adopt one at once. -/
theorem Tree.abandonDirectory (h : Tree t (r :: rows)) (hheight : t.height ≠ 0)
    (hdue : t.nextEval ≤ t.size) (hpos : 0 < t.size) (hlt : t.size < maxCount)
    (hre : Reindexed t t') :
    (∃ rows', Tree (t'.abandonDirectory r.2.id) rows') ∧
      (t'.abandonDirectory r.2.id).size < (t'.abandonDirectory r.2.id).nextEval := by
  obtain ⟨rows', index, heq, hleaves, hchained, hindex⟩ :=
    (hre.chained h.toChained).abandonDirectory (h.full_of_height hheight)
  have hmin : minEntries ≤ t.size := by
    have hle := h.due.trans hdue
    omega
  have hmax : max t.size minEntries % (maxCount + 1) = t.size := by
    rw [max_eq_left hmin]
    exact Nat.mod_eq_of_lt (Nat.lt_succ_of_lt hlt)
  rw [hre.size, hmax] at heq
  have hnext : (t'.abandonDirectory r.2.id).nextEval = doubled t.size := by rw [heq]
  have hsize : (t'.abandonDirectory r.2.id).size = t.size := by rw [heq]
  have hbelow : t.size < doubled t.size := lt_doubled hpos hlt
  refine ⟨⟨rows', hchained, ?_, ?_, ?_, ?_⟩, ?_⟩
  · rw [hsize, h.size, ← hchained.entries_eq, ← h.entries_eq,
      (Reindexed.of_abandonDirectory t' _).entries_eq,
      hre.entries_eq]
  · rw [hsize]
    exact h.bounded
  · rw [hnext]
    exact h.due.trans (hdue.trans hbelow.le)
  · rw [heq]
    exact hindex
  · rw [hsize, hnext]
    exact hbelow

/-- What the directory is prepared to: left as it is, given up, or with another table. -/
def Prepared (t : ChunkTree H minEntries) (first : LeafId) (t' : ChunkTree H minEntries) : Prop :=
  t' = t ∨ t' = t.abandonDirectory first ∨ ∃ d, t' = t.withDirectory first d

theorem reserveBucket_prepared (t : ChunkTree H minEntries) (first : LeafId) (d : Directory)
    (bucket : Nat) : Prepared t first (t.reserveBucket first d bucket) := by
  rw [reserveBucket]
  split
  · exact Or.inl rfl
  · split
    · exact Or.inr (Or.inl rfl)
    · exact Or.inr (Or.inr ⟨_, rfl⟩)

theorem prepareSplit_prepared (t : ChunkTree H minEntries) (first : LeafId) (d : Directory)
    (id : LeafId) : Prepared t first (t.prepareSplit first d id) := by
  rw [prepareSplit]
  split
  · exact Or.inr (Or.inl rfl)
  · exact reserveBucket_prepared t first d _

/-- Whatever an adopted directory is prepared to, it stands, or a tree of the same leaves does. -/
theorem Tree.prepared (h : Tree t (r :: rows)) (hheight : t.height ≠ 0)
    (hdue : t.nextEval ≤ t.size) (hpos : 0 < t.size) (hlt : t.size < maxCount) {d : Directory}
    (hprepared : Prepared (t.withDirectory r.2.id d) r.2.id t') :
    Reindexed t t' ∧
      (t'.indexed = true ∨ ((∃ rows', Tree t' rows') ∧ t'.size < t'.nextEval)) := by
  have hre := Reindexed.of_withDirectory t r.2.id d
  rcases hprepared with rfl | rfl | ⟨d', rfl⟩
  · exact ⟨hre, Or.inl rfl⟩
  · exact ⟨hre.trans (Reindexed.of_abandonDirectory _ r.2.id),
      Or.inr (h.abandonDirectory hheight hdue hpos hlt hre)⟩
  · exact ⟨hre.trans (Reindexed.of_withDirectory _ r.2.id d'), Or.inl rfl⟩

/-- A leaf is about to be linked behind the full last one: a directory stands, or a tree of the same
leaves. -/
theorem Tree.prepareNewLastLeaf (h : Tree t (r :: rows)) (hpos : 0 < t.size)
    (hlt : t.size < maxCount) :
    Reindexed t t.prepareNewLastLeaf ∧
      (t.prepareNewLastLeaf.indexed = true ∨ ∃ rows', Tree t.prepareNewLastLeaf rows') := by
  have hstart : (if t.indexed then t else t.adoptIfDue.1) = t.adoptIfDue.1 := by
    rw [h.not_indexed]
    rfl
  rw [ChunkTree.prepareNewLastLeaf, hstart]
  rcases h.adoptIfDue with ⟨-, hheight, hdue, d, heq⟩ | ⟨-, htree, hre, -⟩
  · rw [heq]
    dsimp only
    have hprepared : ∀ t', Prepared (t.withDirectory r.2.id d) r.2.id t' →
        Reindexed t t' ∧ (t'.indexed = true ∨ ∃ rows', Tree t' rows') := by
      intro t' hprepared
      obtain ⟨hre, hcases⟩ := h.prepared hheight hdue hpos hlt hprepared
      exact ⟨hre, hcases.imp id And.left⟩
    apply hprepared
    rw [withDirectory]
    dsimp only
    split
    · exact Or.inr (Or.inl rfl)
    · exact reserveBucket_prepared _ _ d _
  · have hnot := htree.not_indexed
    rw [indexed] at hnot
    rcases hi : t.adoptIfDue.1.index with _ | ⟨height, root⟩ | ⟨first, d⟩
    · exact ⟨hre, Or.inr ⟨_, htree⟩⟩
    · exact ⟨hre, Or.inr ⟨_, htree⟩⟩
    · rw [hi] at hnot
      exact absurd (show true = false from hnot) (by decide)

/-! ## A new last leaf -/

theorem indexNewLast_indexed (h : t.indexed = true) (path : List Nat) (separator : Nat)
    (before fresh : LeafId) : (t.indexNewLast path separator before fresh).indexed = true := by
  rw [indexNewLast]
  rw [indexed] at h
  rcases hi : t.index with _ | ⟨height, root⟩ | ⟨first, d⟩
  · rw [hi] at h
    exact absurd (show false = true from h) (by decide)
  · rw [hi] at h
    exact absurd (show false = true from h) (by decide)
  · rfl

/-- A fresh leaf behind the full last one, registered under a separator that is above everything
held and not above what the leaf holds. -/
theorem Tree.linkLast (h : Tree t (front ++ [r])) (hr : r.2.cap = leafCapacity) {fresh : Leaf H}
    {separator : Nat} (hid : fresh.id = t.nextId) (hcap : fresh.cap = leafCapacity)
    (hok : Row.Ok (separator, fresh)) (hne : r.2.entries ≠ [])
    (habove : ∀ e ∈ t.entries, e.1 < separator) {size : Nat}
    (hsize : size = t.size + fresh.entries.length) (hbounded : size ≤ maxCount) :
    Tree (({ t.linkFresh r.2.id fresh with size := size } : ChunkTree H minEntries).indexNewLast
      t.rightmostPath separator r.2.id t.nextId) (front ++ [r, (separator, fresh)]) := by
  have hpush : Stacked ((front ++ [r]) ++ [((separator, fresh) : Row H)]) := by
    apply h.stacked.push hok
    have hkeys : ∀ x ∈ front ++ [r], ∀ e ∈ x.2.entries, e.1 < separator := by
      intro x hx e he
      apply habove
      rw [h.entries_eq]
      exact List.mem_flatMap.mpr ⟨x, hx, he⟩
    have hnonempty : ∀ x ∈ front ++ [r], x.2.entries ≠ [] := by
      rw [List.forall_mem_append, List.forall_mem_singleton]
      exact ⟨fun f hf ↦ (h.stacked.front_below f hf).nonempty, hne⟩
    intro x hx
    refine ⟨?_, hkeys x hx, hnonempty x hx⟩
    obtain ⟨e, he⟩ := List.exists_mem_of_ne_nil _ (hnonempty x hx)
    exact ((h.stacked.ok x hx).above e he).trans_lt (hkeys x hx e he)
  rw [List.append_assoc] at hpush
  have hlink : Chained (t.linkFresh r.2.id fresh) (front ++ [r, (separator, fresh)]) :=
    h.toChained.linkFresh (s := (separator, fresh)) hid hr hcap hpush
  have hindex := h.index
  rcases heq : t.index with _ | ⟨height, root⟩ | ⟨first, d⟩
  · rw [heq] at hindex
    exact absurd hindex (by simp [Indexes])
  · rw [heq] at hindex
    obtain ⟨before, leaf, hleads⟩ := Node.rightmost_spec 0 hindex.1
    obtain ⟨front', r', back', hrows, rfl, hitem, hback⟩ := h.exists_row heq hleads
    obtain rfl : back' = [] := List.map_eq_nil_iff.mp hback.symm
    obtain ⟨rfl, hone⟩ := List.append_inj' hrows rfl
    obtain rfl := (List.cons.inj hone).1
    rw [hitem] at hleads
    have hpath : t.rightmostPath = Node.rightmostPath height root := by
      rw [rightmostPath, heq]
    have hentries : entriesOf (front ++ [r, (separator, fresh)]) =
        entriesOf (front ++ [r]) ++ fresh.entries := by
      rw [List.append_cons front r, entriesOf_append (front ++ [r]), entriesOf_cons, entriesOf_nil,
        List.append_nil]
    have hchained :
        Chained ({ t.linkFresh r.2.id fresh with size := size } : ChunkTree H minEntries)
        (front ++ r :: (separator, fresh) :: []) := hlink.congr rfl rfl rfl
    have hregister := hchained.register (show ChunkTree.index _ = .levels height root from heq)
      hindex.1 hleads
      (by
        show size = _
        rw [hsize, h.size, hentries, List.length_append])
      hbounded h.due
    rw [hpath, indexNewLast]
    have hstale : ({ t.linkFresh r.2.id fresh with size := size } : ChunkTree H minEntries).index =
        .levels height root := heq
    rw [hstale]
    rw [← hid]
    exact hregister
  · rw [heq] at hindex
    exact hindex.elim

end ChunkTree

end Roaring
