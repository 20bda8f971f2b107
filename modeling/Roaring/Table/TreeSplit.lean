import Mathlib
import Roaring.Table.TreeInsert

/-!
# Inserting where a lookup stood

An entry goes into the leaf a lookup stood in, into the leaf a descent finds, or
into one half of a leaf that splits.  A split may come with the adoption of a
directory, and that with giving it up again; then the insertion starts over.
-/

namespace Roaring

open Lib

variable {H : Type} {minEntries : Nat}

namespace ChunkTree

variable {t t' : ChunkTree H minEntries} {rows rows' front back : List (Row H)} {r s : Row H}
variable {low high : List (Nat × H)} {key index : Nat} {handle : H}

/-! ## The halves of a leaf -/

/-- What a split leaves: two leaves that are not empty and hold the old entries and the new one, the
right one from the separator on. -/
structure Halved (l : Leaf H) (right : LeafId) (entries : List (Nat × H))
    (cut : (Leaf H × Leaf H) × (LeafId × Nat) × Nat) : Prop where
  left : ∃ a, cut.1.1.Holds a ∧ a ≠ [] ∧
    ∃ e b, cut.1.2.Holds (e :: b) ∧ entries = a ++ e :: b ∧ cut.2.2 = e.1
  ids : cut.1.1.id = l.id ∧ cut.1.2.id = right
  caps : cut.1.1.cap = leafCapacity ∧ cut.1.2.cap = leafCapacity

theorem halves_spec {l : Leaf H} (hl : l.Holds (low ++ high)) (hcap : l.cap = leafCapacity)
    (hfull : (low ++ high).length = leafCapacity) (right : LeafId) (isFirst isLast : Bool)
    (key : Nat) (handle : H) :
    Halved l right (low ++ (key, handle) :: high)
      (halves l right isFirst isLast low.length key handle) := by
  have hsize : l.size = leafCapacity := hl.size.trans hfull
  have hlen : low.length + high.length = leafCapacity := by
    rw [← List.length_append]
    exact hfull
  rw [halves]
  dsimp only
  split
  · -- the full leaf stays full
    rename_i hlast
    have hhigh : high = [] := List.eq_nil_of_length_eq_zero (by omega)
    subst hhigh
    have hnew : ((Leaf.make right leafCapacity).put 0 key handle).Holds [(key, handle)] :=
      (Leaf.Holds.make right leafCapacity).put le_rfl (show 0 < leafCapacity by decide) key handle
    rw [List.append_nil] at hl hfull
    refine ⟨⟨low, hl, ?_, _, [], hnew, rfl, rfl⟩, ⟨rfl, rfl⟩, hcap, rfl⟩
    rintro rfl
    exact absurd (show 0 = leafCapacity from hfull) (by decide)
  · obtain ⟨kept, hkept, hcases⟩ :
        ∃ kept, (if low.length = 0 ∧ isFirst = true then 0 else l.size / 2) =
        kept ∧ (kept = 7 ∨ kept = 0 ∧ low = []) := by
      refine ⟨_, rfl, ?_⟩
      split
      · rename_i hfirst
        exact Or.inr ⟨rfl, List.eq_nil_of_length_eq_zero hfirst.1⟩
      · rw [hsize]
        exact Or.inl rfl
    have hle : kept ≤ (low ++ high).length := by
      rw [hfull]
      rcases hcases with rfl | ⟨rfl, -⟩ <;> decide
    rw [hkept]
    obtain ⟨hleft, hright⟩ := hl.split hcap right hle
    have hlenLeft : ((low ++ high).take kept).length = kept := List.length_take_of_le hle
    have hlenRight : ((low ++ high).drop kept).length = leafCapacity - kept := by
      rw [List.length_drop, hfull]
    have h15 : leafCapacity = 15 := rfl
    split
    · -- the new entry goes to the left half
      rename_i hindex
      have htake : (low ++ high).take kept = low ++ high.take (kept - low.length) := by
        rw [List.take_append, List.take_of_length_le hindex]
      have hdrop : (low ++ high).drop kept = high.drop (kept - low.length) := by
        rw [List.drop_append, List.drop_of_length_le hindex, List.nil_append]
      have hput : ((l.split right kept).1.put low.length key handle).Holds
          (low ++ (key, handle) :: high.take (kept - low.length)) := by
        have hput := hleft.put (show low.length ≤ ((low ++ high).take kept).length by omega)
          (show ((low ++ high).take kept).length < l.cap by omega) key handle
        rwa [htake, insertIdx_length_append] at hput
      obtain ⟨e, b, heb⟩ : ∃ e b, high.drop (kept - low.length) = e :: b := by
        apply List.exists_cons_of_length_pos
        rw [← hdrop, hlenRight]
        omega
      rw [hdrop, heb] at hright
      refine ⟨⟨_, hput, by simp, e, b, hright, ?_, ?_⟩, ⟨rfl, rfl⟩, hcap, rfl⟩
      · rw [List.append_assoc, List.cons_append, ← heb, List.take_append_drop]
      · exact hright.keyAt_of_lt (i := 0) (Nat.succ_pos _)
    · -- the new entry goes to the right half
      rename_i hindex
      have hseven : kept = 7 := by
        rcases hcases with hseven | ⟨rfl, rfl⟩
        · exact hseven
        · exact absurd (Nat.le_refl 0) hindex
      have hkeptLt : kept < low.length := by omega
      have htake : (low ++ high).take kept = low.take kept := by
        rw [List.take_append_of_le_length hkeptLt.le]
      have hdrop : (low ++ high).drop kept = low.drop kept ++ high := by
        rw [List.drop_append_of_le_length hkeptLt.le]
      have hlenDrop : (low.drop kept).length = low.length - kept := List.length_drop
      have hput : ((l.split right kept).2.put (low.length - kept) key handle).Holds
          (low.drop kept ++ (key, handle) :: high) := by
        have hput := hright.put (show low.length - kept ≤ ((low ++ high).drop kept).length by omega)
          (show ((low ++ high).drop kept).length < leafCapacity by omega) key handle
        rwa [hdrop, ← hlenDrop, insertIdx_length_append, hlenDrop] at hput
      obtain ⟨e, b, heb⟩ : ∃ e b, low.drop kept = e :: b := by
        apply List.exists_cons_of_length_pos
        omega
      rw [htake] at hleft
      rw [heb, List.cons_append] at hput
      refine ⟨⟨_, hleft, ?_, e, _, hput, ?_, ?_⟩, ⟨rfl, rfl⟩, hcap, rfl⟩
      · rw [htake] at hlenLeft
        intro hnil
        rw [hnil, List.length_nil] at hlenLeft
        omega
      · rw [← List.cons_append, ← heb, ← List.append_assoc, List.take_append_drop]
      · exact hput.keyAt_of_lt (i := 0) (Nat.succ_pos _)

/-! ## A leaf splits -/

/-- Two rows in the place of one. -/
theorem Stacked.split (h : Stacked (front ++ r :: back)) {left right : Leaf H}
    {a b : List (Nat × H)}
    {e : Nat × H} (hleft : left.Holds a) (hright : right.Holds (e :: b)) (hne : a ≠ [])
    (hsorted : Sorted (a ++ e :: b)) (hlegal : ∀ x ∈ a ++ e :: b, x.1 + 1 < chunkKeyPad)
    (habove : ∀ x ∈ a ++ e :: b, r.1 ≤ x.1)
    (hback : ∀ s ∈ back, r.1 < s.1 ∧ ∀ x ∈ a ++ e :: b, x.1 < s.1) :
    Stacked (front ++ ((r.1, left) : Row H) :: (e.1, right) :: back) := by
  rw [Sorted, List.pairwise_append] at hsorted
  rw [List.forall_mem_append] at hlegal habove
  have hcross : ∀ x ∈ a, x.1 < e.1 := fun x hx ↦ hsorted.2.2 x hx e List.mem_cons_self
  obtain ⟨x, hx⟩ := List.exists_mem_of_ne_nil a hne
  have hle : ∀ y ∈ e :: b, e.1 ≤ y.1 := by
    have hpair := hsorted.2.1
    rw [List.pairwise_cons] at hpair
    rw [List.forall_mem_cons]
    exact ⟨le_rfl, fun y hy ↦ (hpair.1 y hy).le⟩
  have hokLeft : Row.Ok ((r.1, left) : Row H) :=
    Row.Ok.of_holds hleft hsorted.1 hlegal.1 habove.1 h.row.floor
  have hokRight : Row.Ok ((e.1, right) : Row H) :=
    Row.Ok.of_holds hright hsorted.2.1 hlegal.2 hle (by
      have hlt := hlegal.2 e List.mem_cons_self
      omega)
  have hleftRight : Row.Below ((r.1, left) : Row H) (e.1, right) := by
    refine ⟨(habove.1 x hx).trans_lt (hcross x hx), ?_, ?_⟩
    · rw [show ((r.1, left) : Row H).2.entries = a from hleft.entries_eq]
      exact hcross
    · rw [show ((r.1, left) : Row H).2.entries = a from hleft.entries_eq]
      exact hne
  have hgone : Stacked (front ++ r :: ([] ++ back)) := h
  have hreplaced := hgone.replace (Stacked.pair hokLeft hokRight hleftRight) ?_ ?_
  · rwa [List.append_assoc] at hreplaced
  · rw [List.forall_mem_cons, List.forall_mem_singleton]
    exact ⟨le_rfl, habove.2 e List.mem_cons_self⟩
  · rw [List.forall_mem_cons, List.forall_mem_singleton]
    constructor
    · intro s hs
      refine ⟨(hback s hs).1, ?_, ?_⟩
      · rw [show ((r.1, left) : Row H).2.entries = a from hleft.entries_eq]
        exact fun y hy ↦ (hback s hs).2 y (List.mem_append_left _ hy)
      · rw [show ((r.1, left) : Row H).2.entries = a from hleft.entries_eq]
        exact hne
    · intro s hs
      refine ⟨(hback s hs).2 e (List.mem_append_right a List.mem_cons_self), ?_, ?_⟩
      · rw [show ((e.1, right) : Row H).2.entries = e :: b from hright.entries_eq]
        exact fun y hy ↦ (hback s hs).2 y (List.mem_append_right a hy)
      · rw [show ((e.1, right) : Row H).2.entries = e :: b from hright.entries_eq]
        exact List.cons_ne_nil e b

theorem noted_of_levels {height : Nat} {root : Node height} (h : t.index = .levels height root)
    (id : LeafId) (index key : Nat) : t.noted id index key = t := by
  rw [noted, h]

/-- A full leaf splits around an entry that belongs into it. -/
theorem Tree.splitLeaf {height : Nat} {root : Node height} (h : Tree t (front ++ r :: back))
    (hindex : t.index = .levels height root) {path : List Nat}
    (hleads : Node.Leads height root 0 path (front.map Row.item) r.item (back.map Row.item))
    (hsize : t.size < maxCount) (hr : r.2.entries = low ++ high) (hlow : ∀ e ∈ low, e.1 < key)
    (hhigh : ∀ e ∈ high, key < e.1) (hfloor : r.1 ≤ key) (hback : ∀ s ∈ back, key < s.1)
    (hkey : key + 1 < chunkKeyPad) (hcap : r.2.cap = leafCapacity) (hfull : ¬r.2.size < r.2.cap)
    (handle : H) :
    (∃ rows, Tree (t.splitLeaf path r.2.id low.length key handle).1 rows) ∧
      Inserted t (t.splitLeaf path r.2.id low.length key handle).1 key handle := by
  have hrow := h.stacked.row
  have hholds : r.2.Holds (low ++ high) := hrow.holds hr
  have hlen : (low ++ high).length = leafCapacity := by
    have hle := hholds.fits
    rw [hcap] at hle hfull
    rw [hholds.size] at hfull
    omega
  have hhalved := halves_spec hholds hcap hlen t.nextId (t.prevLeaf r.2.id).isNone
    (t.nextLeaf r.2.id).isNone key handle
  rw [ChunkTree.splitLeaf, h.leaf_eq]
  dsimp only
  generalize halves r.2 t.nextId (t.prevLeaf r.2.id).isNone (t.nextLeaf r.2.id).isNone
    low.length key
    handle = cut at hhalved ⊢
  obtain
      ⟨⟨a, hleft, hne, e, b, hright, hentries, hsep⟩, ⟨hidLeft, hidRight⟩, hcapLeft, hcapRight⟩ :=
    hhalved
  have hsorted : Sorted (low ++ (key, handle) :: high) :=
    Sorted.insert (hr ▸ hrow.sound.sorted) hlow hhigh handle
  have hlegal : ∀ x ∈ low ++ (key, handle) :: high, x.1 + 1 < chunkKeyPad := by
    have hold := hrow.sound.legal
    rw [hr, List.forall_mem_append] at hold
    rw [List.forall_mem_append, List.forall_mem_cons]
    exact ⟨hold.1, hkey, hold.2⟩
  have habove : ∀ x ∈ low ++ (key, handle) :: high, r.1 ≤ x.1 := by
    have hold := hrow.above
    rw [hr, List.forall_mem_append] at hold
    rw [List.forall_mem_append, List.forall_mem_cons]
    exact ⟨hold.1, hfloor, hold.2⟩
  have hbelow : ∀ s ∈ back, r.1 < s.1 ∧ ∀ x ∈ low ++ (key, handle) :: high, x.1 < s.1 := by
    intro s hs
    have hrs := h.stacked.below_back s hs
    have hold := hrs.keys
    rw [hr, List.forall_mem_append] at hold
    rw [List.forall_mem_append, List.forall_mem_cons]
    exact ⟨hrs.floor, hold.1, hback s hs, hold.2⟩
  rw [hentries] at hsorted hlegal habove hbelow
  have hstacked := Stacked.split h.stacked hleft hright hne hsorted hlegal habove hbelow
  have hsub : (front ++ ((r.1, cut.1.1) : Row H) :: back).Sublist
      (front ++ ((r.1, cut.1.1) : Row H) :: (e.1, cut.1.2) :: back) :=
    (List.Sublist.refl front).append ((List.sublist_cons_self _ back).cons_cons _)
  have hmodify : Chained (t.modify r.2.id fun _ ↦ cut.1.1) (front ++ (r.1, cut.1.1) :: back) :=
    h.toChained.modify (f := fun _ ↦ cut.1.1) hidLeft (hcapLeft.trans hcap.symm)
      (hstacked.of_sublist hsub)
  have hlink := hmodify.linkFresh (s := (e.1, cut.1.2)) hidRight hcapLeft hcapRight hstacked
  have hgrown : Chained ((t.modify r.2.id fun _ ↦ cut.1.1).linkFresh r.2.id cut.1.2).grown
      (front ++ (r.1, cut.1.1) :: (e.1, cut.1.2) :: back) := by
    rw [show r.2.id = cut.1.1.id from hidLeft.symm] at hlink ⊢
    exact hlink.congr rfl rfl rfl
  have hnew : entriesOf (front ++ ((r.1, cut.1.1) : Row H) :: (e.1, cut.1.2) :: back) =
      (entriesOf front ++ low) ++ (key, handle) :: (high ++ entriesOf back) := by
    rw [entriesOf_append, entriesOf_cons, entriesOf_cons]
    show entriesOf front ++ (cut.1.1.entries ++ (cut.1.2.entries ++ entriesOf back)) = _
    rw [hleft.entries_eq, hright.entries_eq, ← List.append_assoc a, ← hentries]
    simp only [List.append_assoc, List.cons_append]
  have hold : t.entries = (entriesOf front ++ low) ++ (high ++ entriesOf back) := by
    rw [h.entries_eq, entriesOf_append, entriesOf_cons, hr]
    simp only [List.append_assoc]
  generalize hadded : ((t.modify r.2.id fun _ ↦ cut.1.1).linkFresh r.2.id cut.1.2).grown = added
    at hgrown ⊢
  have hstale : added.index = .levels height root := by rw [← hadded]; exact hindex
  have haddedSize : added.size = t.size + 1 := by
    rw [← hadded]
    exact grown_size (t := (t.modify r.2.id fun _ ↦ cut.1.1).linkFresh r.2.id cut.1.2) hsize
  have haddedDue : min minEntries maxCount ≤ added.nextEval := by rw [← hadded]; exact h.due
  have hitems := h.index
  rw [hindex] at hitems
  have hitem : r.item = Row.item ((r.1, cut.1.1) : Row H) := congrArg (Prod.mk r.1) hidLeft.symm
  have hregister := hgrown.register hstale hitems.1 (hitem ▸ hleads)
    (by
      rw [haddedSize, h.size, ← h.entries_eq, hnew, hold]
      simp only [List.length_append, List.length_cons]
      omega)
    (by rw [haddedSize]; exact hsize) haddedDue
  rw [hstale]
  dsimp only
  rw [hsep, ← hidRight]
  obtain ⟨height', root', hlevels, -, -⟩ :=
    insertInParent_spec hstale hitems.1 hleads e.1 cut.1.2.id
  rw [noted_of_levels (by rw [hlevels])]
  refine ⟨⟨_, hregister⟩, _, _, hold, ?_, ?_, ?_⟩
  · rw [List.forall_mem_append]
    exact ⟨fun x hx ↦ (h.stacked.mem_entriesOf_front x hx).trans_le hfloor, hlow⟩
  · rw [List.forall_mem_append]
    refine ⟨hhigh, fun x hx ↦ ?_⟩
    obtain ⟨s, hs, hx⟩ := List.mem_flatMap.mp hx
    have hok := h.stacked.ok s (List.mem_append_right front (List.mem_cons_of_mem r hs))
    exact (hback s hs).trans_le (hok.above x hx)
  · rw [← hnew]
    exact hregister.entries_eq

/-! ## The insertion -/

/-- The row a cursor stands in. -/
theorem Tree.row_of_stands (h : Tree t rows) {pos : LeafId × Nat} {before behind : List (Nat × H)}
    {e : Nat × H} (hstands : Stands t pos before e behind) :
    ∃ front r back low high, rows = front ++ r :: back ∧ pos = (r.2.id, low.length) ∧
      r.2.entries = low ++ e :: high ∧ before = entriesOf front ++ low ∧
      behind = high ++ entriesOf back := by
  obtain ⟨lf, l, lb, low, high, hchain, hid, hl, hlen, rfl, rfl⟩ := hstands
  rw [h.chain] at hchain
  obtain ⟨front, more, rfl, rfl, hmore⟩ := List.map_eq_append_iff.mp hchain
  obtain ⟨r, back, rfl, rfl, rfl⟩ := List.map_eq_cons_iff.mp hmore
  refine ⟨front, r, back, low, high, rfl, Prod.ext hid.symm hlen.symm, hl, ?_, ?_⟩
  · rw [entriesOf, List.flatMap_map]
  · rw [entriesOf, List.flatMap_map]

/-- The first row starts from 0. -/
theorem Tree.first_floor (h : Tree t (r :: rows)) : r.1 = 0 := by
  have hindex := h.index
  rcases heq : t.index with _ | ⟨height, root⟩ | ⟨first, d⟩
  · rw [heq] at hindex
    exact absurd hindex (List.cons_ne_nil _ _)
  · rw [heq] at hindex
    obtain ⟨leaf, more, hitems⟩ := Node.items_head hindex.1 0
    rw [hindex.2.1, List.map_cons] at hitems
    exact congrArg Prod.fst (List.cons.inj hitems).1
  · rw [heq] at hindex
    exact hindex.elim

/-- The entry goes in front of the one a cursor stands at, into the leaf the cursor is in. -/
theorem Tree.put_here (h : Tree t (front ++ r :: back)) (hsize : t.size < maxCount)
    (hkey : key + 1 < chunkKeyPad) {e : Nat × H} (hr : r.2.entries = low ++ e :: high)
    (hlow : ∀ x ∈ low, x.1 < key) (he : key < e.1) (hfirst : low ≠ [] ∨ front = [])
    (hroom : r.2.size < r.2.cap) (handle : H) :
    (∃ rows, Tree (t.modify r.2.id (·.put low.length key handle)).grown rows) ∧
      Inserted t (t.modify r.2.id (·.put low.length key handle)).grown key handle := by
  have hrow := h.stacked.row
  have hhigh : ∀ x ∈ e :: high, key < x.1 := by
    have hsorted := hrow.sound.sorted
    rw [hr, Sorted, List.pairwise_append, List.pairwise_cons] at hsorted
    exact List.forall_mem_cons.mpr ⟨he, fun x hx ↦ he.trans (hsorted.2.1.1 x hx)⟩
  have hfloor : r.1 ≤ key := by
    cases low with
    | cons x low =>
      have hx : x ∈ r.2.entries := by
        rw [hr]
        exact List.mem_cons_self
      exact (hrow.above x hx).trans (hlow x List.mem_cons_self).le
    | nil =>
      obtain rfl : front = [] := hfirst.resolve_left (absurd rfl)
      rw [h.first_floor]
      exact Nat.zero_le key
  have hback : ∀ s ∈ back, key < s.1 := fun s hs ↦
    he.trans ((h.stacked.below_back s hs).keys e (by rw [hr]; simp))
  obtain ⟨htree, hinserted⟩ := h.put hsize hr hlow hhigh hfloor hback hkey hroom handle
  exact ⟨⟨_, htree⟩, hinserted⟩

/-- The root leaf grows and takes the entry. -/
theorem Tree.growRootLeaf_put (h : Tree t (front ++ r :: back)) (hsize : t.size < maxCount)
    (hheight : t.height = 0) (hcap : r.2.cap < leafCapacity) (hr : r.2.entries = low ++ high)
    (hlow : ∀ x ∈ low, x.1 < key) (hhigh : ∀ x ∈ high, key < x.1) (hfloor : r.1 ≤ key)
    (hkey : key + 1 < chunkKeyPad) (handle : H) :
    let u := t.growRootLeaf r.2.id
    (∃ rows, Tree (u.modify (u.tail.getD 0) (·.put low.length key handle)).grown rows) ∧
      Inserted t (u.modify (u.tail.getD 0) (·.put low.length key handle)).grown key handle := by
  have halone := h.alone hheight
  rw [List.length_append, List.length_cons] at halone
  obtain rfl : front = [] := List.eq_nil_of_length_eq_zero (by omega)
  obtain rfl : back = [] := List.eq_nil_of_length_eq_zero (by omega)
  obtain ⟨l, htree, htail, hsize', hsame, hentries, hroom⟩ :=
    Tree.growRootLeaf (r := r) h hheight hcap
  dsimp only
  rw [htail]
  have hroot : Tree (t.growRootLeaf r.2.id) ([] ++ (r.1, l) :: []) := htree
  obtain ⟨htree', hinserted⟩ := hroot.put (hsize'.trans_lt hsize) (hentries.trans hr) hlow hhigh
    hfloor (by simp) hkey hroom handle
  exact ⟨⟨_, htree'⟩, hinserted.of_entries hsame⟩

/-- Where no directory is adopted, the full leaf splits. -/
theorem Tree.splitLeaf_staged {height : Nat} {root : Node height}
    (h : Tree t (front ++ r :: back)) (hindex : t.index = .levels height root) {path : List Nat}
    (hleads : Node.Leads height root 0 path (front.map Row.item) r.item (back.map Row.item))
    (hdue : t.adoptIfDue.2 = false) (hsize : t.size < maxCount) (hr : r.2.entries = low ++ high)
    (hlow : ∀ x ∈ low, x.1 < key) (hhigh : ∀ x ∈ high, key < x.1) (hfloor : r.1 ≤ key)
    (hback : ∀ s ∈ back, key < s.1) (hkey : key + 1 < chunkKeyPad) (hcap : r.2.cap = leafCapacity)
    (hfull : ¬r.2.size < r.2.cap) (handle : H) :
    (∃ rows, Tree (t.adoptIfDue.1.splitLeaf path r.2.id low.length key handle).1 rows) ∧
      Inserted t (t.adoptIfDue.1.splitLeaf path r.2.id low.length key handle).1 key handle := by
  obtain ⟨first, more, hfirst⟩ : ∃ first more, front ++ r :: back = first :: more :=
    List.exists_cons_of_ne_nil (by simp)
  rcases Tree.adoptIfDue (hfirst ▸ h) with ⟨htrue, -⟩ | ⟨-, htree, hre, hsame⟩
  · rw [hdue] at htrue
    exact absurd htrue Bool.false_ne_true
  · rw [← hfirst] at htree
    obtain ⟨htree', hinserted⟩ := htree.splitLeaf (hsame.trans hindex) hleads
      (hre.size.trans_lt hsize) hr hlow hhigh hfloor hback hkey hcap hfull handle
    exact ⟨htree', hinserted.of_entries hre.entries_eq⟩

/-- A tree takes the entry in this attempt, unless it adopts a directory and starts over. -/
theorem Tree.insertStaged_step (h : Tree t rows) (hsize : t.size < maxCount)
    (hkey : key + 1 < chunkKeyPad) {pos : LeafId × Nat} {before behind : List (Nat × H)}
    {e : Nat × H} (hstands : Stands t pos before e behind) (hbefore : ∀ x ∈ before, x.1 < key)
    (he : key < e.1) (hnew : ∀ x ∈ t.entries, x.1 ≠ key) (attempts : Nat) (handle : H) :
    ((∃ rows', Tree (insertStaged (attempts + 1) t (some pos) key handle).1 rows') ∧
      Inserted t (insertStaged (attempts + 1) t (some pos) key handle).1 key handle) ∨
    (t.adoptIfDue.2 = true ∧ insertStaged (attempts + 1) t (some pos) key handle =
      insertStaged attempts t.adoptIfDue.1 (some pos) key handle) := by
  obtain ⟨front, r, back, low, high, rfl, rfl, hr, rfl, rfl⟩ := h.row_of_stands hstands
  have hitems := h.index
  rcases hindex : t.index with _ | ⟨height, root⟩ | ⟨first, d⟩
  · rw [hindex] at hitems
    exact absurd hitems (by simp [Indexes])
  swap
  · rw [hindex] at hitems
    exact hitems.elim
  rw [insertStaged]
  dsimp only
  rw [h.leaf_eq, h.prevLeaf_eq, hindex]
  dsimp only
  by_cases hfast : (low.length ≠ 0 ∨ (front.getLast?.map fun s ↦ s.2.id).isNone) ∧
      r.2.size < r.2.cap
  · -- it belongs where the cursor stands
    rw [if_pos hfast]
    have hfirst : low ≠ [] ∨ front = [] := by
      rcases hfast.1 with hne | hnone
      · exact .inl (List.ne_nil_of_length_pos (Nat.pos_of_ne_zero hne))
      · rw [Option.isNone_iff_eq_none, Option.map_eq_none_iff, List.getLast?_eq_none_iff] at hnone
        exact .inr hnone
    have hput := h.put_here hsize hkey hr (fun x hx ↦ hbefore x (List.mem_append_right _ hx)) he
      hfirst hfast.2 handle
    have hstale : (t.modify r.2.id (·.put low.length key handle)).grown.index =
        .levels height root := hindex
    rw [hstale]
    exact Or.inl hput
  rw [if_neg hfast]
  clear hr hfast
  obtain ⟨front', r', back', hrows, hid, hleads, hfloor, hback⟩ :=
    h.descend_spec hindex (show key < chunkKeyPad by omega)
  rw [hrows] at h
  have hrow := h.stacked.row
  obtain ⟨low', high', hr', hlow', hhigh'⟩ := hrow.sound.sorted.split key
  have hhigh : ∀ x ∈ high', key < x.1 := by
    intro x hx
    have hne : x.1 ≠ key := by
      apply hnew
      rw [h.entries_eq, entriesOf_append, entriesOf_cons, hr']
      simp [hx]
    have hle := hhigh' x hx
    omega
  have hcount := (h.scan_spec hr' hlow' hhigh' (show key < chunkKeyPad by omega)).1
  have hdescend : t.descend key = r'.2.id := by rw [ChunkTree.descend, hindex]; exact hid
  have hpath : t.descendPath key = Node.descendPath height root key := by
    rw [ChunkTree.descendPath, hindex]
  rw [hdescend, hpath, h.leaf_eq, hcount]
  by_cases hroom : r'.2.size < r'.2.cap
  · rw [if_pos hroom]
    obtain ⟨htree, hinserted⟩ := h.put hsize hr' hlow' hhigh hfloor hback hkey hroom handle
    have hstale : (t.modify r'.2.id (·.put low'.length key handle)).grown.index =
        .levels height root := hindex
    rw [noted_of_levels hstale]
    exact Or.inl ⟨⟨_, htree⟩, hinserted⟩
  rw [if_neg hroom]
  by_cases hgrow : t.height = 0 ∧ r'.2.cap < leafCapacity
  · rw [if_pos hgrow]
    exact Or.inl (h.growRootLeaf_put hsize hgrow.1 hgrow.2 hr' hlow' hhigh hfloor hkey handle)
  rw [if_neg hgrow]
  have hcap := h.row_full (List.mem_append_right front' List.mem_cons_self) hgrow
  cases hdue : t.adoptIfDue.2 with
  | true => exact Or.inr ⟨rfl, if_pos rfl⟩
  | false =>
    rw [if_neg Bool.false_ne_true]
    exact Or.inl (h.splitLeaf_staged hindex hleads hdue hsize hr' hlow' hhigh hfloor hback hkey hcap
      hroom handle)

theorem Stands.of_reindexed {pos : LeafId × Nat} {before behind : List (Nat × H)} {e : Nat × H}
    (h : Stands t pos before e behind) (hre : Reindexed t t') : Stands t' pos before e behind := by
  rw [Stands, hre.chain]
  exact h

theorem indexed_directory {first : LeafId} {d : Directory} (h : t.index = .directory first d) :
    t.indexed = true := by
  rw [indexed, h]

theorem noted_indexed (h : t.indexed = true) (id : LeafId) (index key : Nat) :
    (t.noted id index key).indexed = true := by
  rw [noted]
  rw [indexed] at h
  rcases hi : t.index with _ | ⟨height, root⟩ | ⟨first, d⟩
  · rw [hi] at h
    exact absurd (show false = true from h) (by decide)
  · rw [hi] at h
    exact absurd (show false = true from h) (by decide)
  · dsimp only
    split
    · rfl
    · exact indexed_directory hi

theorem splitLeaf_indexed (h : t.indexed = true) (path : List Nat) (id : LeafId) (index key : Nat)
    (handle : H) : (t.splitLeaf path id index key handle).1.indexed = true := by
  rw [splitLeaf]
  dsimp only
  apply noted_indexed
  rw [indexed] at h
  rcases hi : t.index with _ | ⟨height, root⟩ | ⟨first, d⟩
  · rw [hi] at h
    exact absurd (show false = true from h) (by decide)
  · rw [hi] at h
    exact absurd (show false = true from h) (by decide)
  · generalize hadded : ((t.modify id fun _ ↦ _).linkFresh id _).grown = added
    have hstale : added.index = .directory first d := by
      rw [← hadded]
      exact hi
    rw [hstale]
    rfl

/-- On an adopted directory the entry goes in, or the directory is given up and it starts over. -/
theorem insertStaged_adopted (t : ChunkTree H minEntries) (first : LeafId) (d : Directory)
    (attempts : Nat) (pos : LeafId × Nat) (key : Nat) (handle : H) :
    (insertStaged (attempts + 1) (t.withDirectory first d) (some pos) key handle).1.indexed = true ∨
      ∃ t', Prepared (t.withDirectory first d) first t' ∧ t'.indexed = false ∧
        insertStaged (attempts + 1) (t.withDirectory first d) (some pos) key handle =
          insertStaged attempts t' (some pos) key handle := by
  have hindex : (t.withDirectory first d).index = .directory first d := rfl
  rw [insertStaged]
  generalize t.withDirectory first d = u at hindex ⊢
  dsimp only
  split
  · left
    have hstale : (u.modify pos.1 (·.put pos.2 key handle)).grown.index = .directory first d :=
      hindex
    rw [hstale]
    dsimp only
    split
    · rfl
    · exact indexed_directory hstale
  · rw [hindex]
    dsimp only
    split
    · left
      apply noted_indexed
      exact indexed_directory hindex
    · rw [if_neg]
      · cases hprepare : (u.prepareSplit first d (u.locateIndexed d key)).indexed with
        | true =>
          left
          exact splitLeaf_indexed hprepare _ _ _ _ _
        | false => exact Or.inr ⟨_, prepareSplit_prepared u first d _, hprepare, rfl⟩
      · rw [height, hindex]
        exact fun hgrow ↦ Nat.one_ne_zero hgrow.1

/-- `insert` at the place of its key: three attempts are enough. -/
theorem Tree.insert_spec (h : Tree t rows) (hsize : t.size < maxCount)
    (hkey : key + 1 < chunkKeyPad) (hnew : ∀ x ∈ t.entries, x.1 ≠ key)
    (hfloor : (∀ x ∈ t.entries, x.1 < key) → t.lastSeparator ≤ key) (handle : H) :
    Adds t (t.insert (t.lowerBound key) key handle).1 key handle := by
  obtain ⟨before, behind, hentries, hbefore, hbehind, hanswer⟩ :=
    h.lowerBound_spec (show key < chunkKeyPad by omega)
  rw [insert]
  rcases hanswer with ⟨rfl, hnone⟩ | ⟨pos, e, rest, rfl, hsome, hstands⟩
  · -- past every key: an append
    rw [List.append_nil] at hentries
    rw [hnone, insertStaged]
    rw [← hentries] at hbefore
    exact h.appendStaged hsize hbefore (hfloor hbefore) hkey handle
  · rw [hsome]
    have he : key < e.1 := by
      have hle := hbehind e List.mem_cons_self
      have hne := hnew e (by rw [hentries]; simp)
      omega
    rcases h.insertStaged_step hsize hkey hstands hbefore he hnew 2 handle with
      ⟨htree, hinserted⟩ | ⟨hadopted, hagain⟩
    · exact Or.inr ⟨htree, hinserted⟩
    rw [hagain]
    have hpos : 0 < t.size := by
      rw [h.size, ← h.entries_eq, hentries, List.length_append, List.length_cons]
      omega
    obtain ⟨first, more, rfl⟩ : ∃ first more, rows = first :: more := by
      apply List.exists_cons_of_ne_nil
      rintro rfl
      have hzero : t.size = 0 := h.size
      omega
    rcases h.adoptIfDue with ⟨-, hheight, hdue, d, heq⟩ | ⟨hfalse, -⟩
    · rw [heq]
      rcases insertStaged_adopted t first.2.id d 1 pos key handle with hindexed |
        ⟨t', hprepared, hnot, hagain'⟩
      · exact Or.inl hindexed
      · obtain ⟨hre, hcases⟩ := h.prepared hheight hdue hpos hsize hprepared
        rw [hagain']
        rcases hcases with hindexed | ⟨⟨rows', htree⟩, hlt⟩
        · rw [hnot] at hindexed
          exact absurd hindexed Bool.false_ne_true
        · rcases htree.insertStaged_step (hre.size.trans_lt hsize) hkey (hstands.of_reindexed hre)
            hbefore he (by rwa [hre.entries_eq]) 0 handle with ⟨htree', hinserted⟩ | ⟨hadopted', -⟩
          · exact Or.inr ⟨htree', hinserted.of_entries hre.entries_eq⟩
          · rw [ChunkTree.adoptIfDue, if_pos (Or.inr hlt)] at hadopted'
            exact absurd hadopted' Bool.false_ne_true
    · rw [hadopted] at hfalse
      exact absurd hfalse.symm Bool.false_ne_true

end ChunkTree

end Roaring
