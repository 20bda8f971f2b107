import Mathlib
import Roaring.Lib.SortedMap
import Roaring.Table.TreeValidate

/-!
# Runs of a tree of inner levels

A chunk tree is there to be a finite map from chunk keys to handles.  A run
starts from the empty tree and takes any number of operations, each where it may
be called; beside the tree it keeps the map the tree should be.
-/

namespace Roaring

open Lib

variable {H : Type} {minEntries : Nat}

namespace ChunkTree

/-! ## Operations -/

/-- The operations of a run: an entry inserted at the place of its key, appended, or written to an
opened slot; the entry at a position erased; spare capacity given back; a slot opened and abandoned.
-/
inductive Op (H : Type) where
  | insert (key : Nat) (handle : H)
  | pushBack (key : Nat) (handle : H)
  | openAndCommit (key : Nat) (handle : H)
  | erase (pos : LeafId × Nat)
  | shrinkToFit
  | abandonOpen

def perform (t : ChunkTree H minEntries) : Op H → ChunkTree H minEntries
  | .insert key handle => (t.insert (t.lowerBound key) key handle).1
  | .pushBack key handle => t.pushBack key handle
  | .openAndCommit key handle => t.openBack.commitBack key handle
  | .erase pos => (t.erase pos).1
  | .shrinkToFit => t.shrinkToFit
  | .abandonOpen => t.openBack

/-- What an operation does to the map. -/
def mapAfter (t : ChunkTree H minEntries) (m : Nat → Option H) : Op H → Nat → Option H
  | .insert key handle => Function.update m key (some handle)
  | .pushBack key handle => Function.update m key (some handle)
  | .openAndCommit key handle => Function.update m key (some handle)
  | .erase pos => Function.update m (t.key pos) none
  | .shrinkToFit => m
  | .abandonOpen => m

/-- Where an operation may be called: a legal key that is not held, or is above every key held; the
position of an entry. -/
def Allowed (t : ChunkTree H minEntries) (m : Nat → Option H) : Op H → Prop
  | .insert key _ => key + 1 < chunkKeyPad ∧ m key = none
  | .pushBack key _ => key + 1 < chunkKeyPad ∧ ∀ k, m k ≠ none → k < key
  | .openAndCommit key _ => key + 1 < chunkKeyPad ∧ ∀ k, m k ≠ none → k < key
  | .erase pos => ∃ l ∈ t.chain, l.id = pos.1 ∧ pos.2 < l.size
  | .shrinkToFit => True
  | .abandonOpen => True

/-- A step in the mode of inner levels: no directory stands after it. -/
def Step (condition : ChunkTree H minEntries → Op H → Prop)
    (s s' : ChunkTree H minEntries × (Nat → Option H)) : Prop :=
  ∃ op, Allowed s.1 s.2 op ∧ condition s.1 op ∧ s' = (s.1.perform op, s.1.mapAfter s.2 op) ∧
    s'.1.indexed = false

/-- A run whose steps meet a condition reaches a tree, and the map it should be. -/
def Run (condition : ChunkTree H minEntries → Op H → Prop) (t : ChunkTree H minEntries)
    (m : Nat → Option H) : Prop :=
  Relation.ReflTransGen (Step condition) (ChunkTree.empty, fun _ ↦ none) (t, m)

/-- The key an operation adds an entry under. -/
def Op.added : Op H → Option Nat
  | .insert key _ => some key
  | .pushBack key _ => some key
  | .openAndCommit key _ => some key
  | _ => none

/-- An operation that adds an entry, or opens a slot for one. -/
def Op.grows : Op H → Bool
  | .erase _ => false
  | .shrinkToFit => false
  | _ => true

/-- An entry that goes behind all others does not go below a separator: the last leaf may have been
left by an abandoned `open_back()`, under a separator above keys that have been erased since.  The
path has room for the levels, and the counter for an entry more. -/
def AboveSeparators (t : ChunkTree H minEntries) (op : Op H) : Prop :=
  (∀ key ∈ op.added, (∀ e ∈ t.entries, e.1 < key) → t.lastSeparator ≤ key) ∧
    t.height ≤ maxHeight ∧ (op.grows → t.size < maxCount)

/-! ## What a tree answers -/

/-- A lookup answers with the entry of the least key from the probe on. -/
def Answer (t : ChunkTree H minEntries) (answer : Cursor) : Option (Nat × H) → Prop
  | none => answer = none
  | some e => ∃ pos, answer = some pos ∧ t.key pos = e.1 ∧ t.slot pos = some e.2

/-- A tree is the map: it holds the map's entries in ascending key order, passes its structural
check, and answers every lookup as the map does. -/
structure Refines (t : ChunkTree H minEntries) (m : Nat → Option H) : Prop where
  entries : Represents t.entries m
  valid : t.validate = .ok ()
  lowerBound : ∀ probe < chunkKeyPad, ∃ least, LeastFrom m probe least ∧
    Answer t (t.lowerBound probe) least
  find : ∀ key < chunkKeyPad, Answer t (t.find key) ((m key).map fun handle ↦ (key, handle))

variable {t : ChunkTree H minEntries} {m : Nat → Option H} {rows : List (Row H)}
variable {s s' : ChunkTree H minEntries × (Nat → Option H)}
variable {before behind : List (Nat × H)} {e : Nat × H} {pos : LeafId × Nat}

theorem Tree.start : Tree (ChunkTree.empty : ChunkTree H minEntries) [] where
  chain := rfl
  stacked := Stacked.nil
  names := List.nodup_nil
  fresh := by simp [ChunkTree.empty]
  tail := rfl
  cap := by simp
  full := by simp
  size := rfl
  bounded := Nat.zero_le _
  due := le_rfl
  index := rfl

/-- The entry a cursor stands at. -/
theorem Tree.at_cursor (h : Tree t rows) (hstands : Stands t pos before e behind) :
    t.key pos = e.1 ∧ t.slot pos = some e.2 := by
  obtain ⟨front, r, back, low, high, rfl, rfl, hr, -, -⟩ := h.row_of_stands hstands
  have hholds := h.stacked.row.holds hr
  constructor
  · rw [key, h.leaf_eq, hholds.keyAt_of_lt (by simp)]
    simp
  · rw [slot, h.leaf_eq, hholds.slots]
    simp

/-- A position within the size of a leaf is that of an entry. -/
theorem Tree.stands (h : Tree t rows) {l : Leaf H} (hl : l ∈ t.chain) (hid : l.id = pos.1)
    (hlt : pos.2 < l.size) : ∃ before e behind, Stands t pos before e behind := by
  obtain ⟨front, back, hchain⟩ := List.append_of_mem hl
  have hsize : l.size = l.entries.length := by
    rw [h.chain] at hl
    obtain ⟨r, hr, rfl⟩ := List.mem_map.mp hl
    exact (h.stacked.ok r hr).sound.size_eq
  rw [hsize] at hlt
  refine ⟨_, l.entries[pos.2], _, front, l, back, l.entries.take pos.2, l.entries.drop (pos.2 + 1),
    hchain, hid, ?_, ?_, rfl, rfl⟩
  · rw [List.getElem_cons_drop, List.take_append_drop]
  · exact List.length_take_of_le hlt.le

/-! ## Refinement -/

/-- A tree over rows is the map of its entries. -/
theorem Tree.refines (h : Tree t rows) (hm : Represents t.entries m) : Refines t m := by
  have hlower : ∀ probe < chunkKeyPad, ∃ least, LeastFrom m probe least ∧
      Answer t (t.lowerBound probe) least := by
    intro probe hprobe
    obtain ⟨before, behind, hentries, hbefore, hbehind, hanswer⟩ := h.lowerBound_spec hprobe
    rw [hentries] at hm
    refine ⟨behind.head?, hm.leastFrom hbefore hbehind, ?_⟩
    rcases hanswer with ⟨rfl, hnone⟩ | ⟨pos, e, rest, rfl, hsome, hstands⟩
    · exact hnone
    · exact ⟨pos, hsome, h.at_cursor hstands⟩
  refine ⟨hm, h.validate_ok, hlower, fun key hkey ↦ ?_⟩
  obtain ⟨least, hleast, hanswer⟩ := hlower key hkey
  rw [find]
  cases hk : m key with
  | none =>
    cases least with
    | none =>
      rw [show t.lowerBound key = none from hanswer]
      rfl
    | some e =>
      obtain ⟨pos, hpos, hat, -⟩ := hanswer
      rw [hpos, Option.filter_some, hat]
      have hne : e.1 ≠ key := by
        rintro rfl
        obtain ⟨hvalue, -⟩ := hleast
        rw [hk] at hvalue
        exact absurd hvalue.symm (Option.some_ne_none _)
      rw [if_neg (by simpa using hne)]
      rfl
  | some handle =>
    have hheld : m key ≠ none := by
      rw [hk]
      exact Option.some_ne_none handle
    cases least with
    | none => exact absurd (hleast key hheld) (lt_irrefl key)
    | some e =>
      obtain ⟨hvalue, hle, hmin⟩ := hleast
      have heq : e.1 = key := le_antisymm (hmin key hheld le_rfl) hle
      obtain ⟨pos, hpos, hat, hslot⟩ := hanswer
      rw [hpos, Option.filter_some, hat, if_pos (by simpa using heq)]
      rw [heq, hk] at hvalue
      exact ⟨pos, rfl, hat.trans heq, hslot.trans hvalue.symm⟩

/-! ## Runs -/

/-- What a run keeps: the tree stands over rows, and its entries are the map. -/
def Standing (t : ChunkTree H minEntries) (m : Nat → Option H) : Prop :=
  (∃ rows, Tree t rows) ∧ Represents t.entries m

theorem Standing.adds {t' : ChunkTree H minEntries} {key : Nat} {handle : H} (h : Standing t m)
    (hadds : Adds t t' key handle) (htree : t'.indexed = false) :
    Standing t' (Function.update m key (some handle)) := by
  rcases hadds with hindexed | ⟨hrows, before, behind, hentries, hbefore, hbehind, hnew⟩
  · rw [htree] at hindexed
    exact absurd hindexed Bool.false_ne_true
  · refine ⟨hrows, ?_⟩
    rw [hnew]
    exact (hentries ▸ h.2).insert hbefore hbehind handle

/-- A step keeps it. -/
theorem Standing.step {condition : ChunkTree H minEntries → Op H → Prop}
    (hcondition : ∀ t op, condition t op → AboveSeparators t op) (h : Standing s.1 s.2)
    (hstep : Step condition s s') : Standing s'.1 s'.2 := by
  obtain ⟨t, m⟩ := s
  obtain ⟨op, hallowed, hmeets, rfl, hmode⟩ := hstep
  obtain ⟨⟨rows, htree⟩, hm⟩ := h
  obtain ⟨hfloor, -, hsize⟩ := hcondition t op hmeets
  cases op with
  | insert key handle =>
    have hsize := hsize rfl
    refine Standing.adds ⟨⟨rows, htree⟩, hm⟩ ?_ hmode
    exact htree.insert_spec hsize hallowed.1 (hm.eq_none_iff.mp hallowed.2) (hfloor key rfl) handle
  | pushBack key handle =>
    have hsize := hsize rfl
    refine Standing.adds ⟨⟨rows, htree⟩, hm⟩ ?_ hmode
    have habove := hm.forall_key.mp hallowed.2
    rw [perform, htree.pushBack_eq]
    exact htree.appendStaged hsize habove (hfloor key rfl habove) hallowed.1 handle
  | openAndCommit key handle =>
    have hsize := hsize rfl
    refine Standing.adds ⟨⟨rows, htree⟩, hm⟩ ?_ hmode
    have habove := hm.forall_key.mp hallowed.2
    rcases htree.openBack hsize with hindexed | ⟨front, r, hopen, hentries, hcount, hroom, hr⟩
    · exact Or.inl hindexed
    · right
      have hle : r.1 ≤ key := by
        rcases hr with hr | ⟨e, he, hr⟩
        · exact hr.trans (hfloor key rfl habove)
        · rw [hr]
          exact habove e he
      obtain ⟨hrows, hinserted⟩ := hopen.commitBack (hcount.trans_lt hsize) (by rwa [hentries]) hle
        hallowed.1 hroom handle
      exact ⟨hrows, hinserted.of_entries hentries⟩
  | erase pos =>
    obtain ⟨l, hl, hid, hlt⟩ := hallowed
    obtain ⟨before, e, behind, hstands⟩ := htree.stands hl hid hlt
    obtain ⟨hrows, hentries⟩ := htree.erase hstands
    refine ⟨hrows, ?_⟩
    rw [perform, hentries, mapAfter, (htree.at_cursor hstands).1]
    exact (hstands.entries_eq ▸ hm).erase
  | shrinkToFit =>
    obtain ⟨hrows, hentries⟩ := htree.shrinkToFit
    refine ⟨hrows, ?_⟩
    rw [perform, hentries]
    exact hm
  | abandonOpen =>
    rcases htree.openBack (hsize rfl) with hindexed | ⟨front, r, hopen, hentries, -⟩
    · exact absurd (hmode.symm.trans hindexed) Bool.false_ne_true
    · refine ⟨⟨_, hopen⟩, ?_⟩
      rw [perform, hentries]
      exact hm

theorem Standing.run {condition : ChunkTree H minEntries → Op H → Prop}
    (hcondition : ∀ t op, condition t op → AboveSeparators t op) (h : Run condition t m) :
    Standing t m := by
  have hall : ∀ s, Relation.ReflTransGen (Step condition) (ChunkTree.empty, fun _ ↦ none) s →
      Standing s.1 s.2 := by
    intro s hs
    induction hs with
    | refl => exact ⟨⟨[], Tree.start⟩, Represents.nil⟩
    | tail _ hstep ih => exact ih.step hcondition hstep
  exact hall (t, m) h

theorem Run.step {condition : ChunkTree H minEntries → Op H → Prop} (h : Run condition t m)
    (op : Op H)
    (hallowed : Allowed t m op) (hmeets : condition t op) (hmode : (t.perform op).indexed = false) :
    Run condition (t.perform op) (t.mapAfter m op) :=
  Relation.ReflTransGen.tail h ⟨op, hallowed, hmeets, rfl, hmode⟩

theorem Run.mono {condition condition' : ChunkTree H minEntries → Op H → Prop}
    (himp : ∀ t op, condition t op → condition' t op) (h : Run condition t m) :
    Run condition' t m := by
  apply Relation.ReflTransGen.mono _ _ _ h
  rintro s s' ⟨op, hallowed, hmeets, heq⟩
  exact ⟨op, hallowed, himp s.1 op hmeets, heq⟩

theorem Run.pushBack (h : Run AboveSeparators t m) {key : Nat} (hkey : key + 1 < chunkKeyPad)
    (habove : ∀ e ∈ t.entries, e.1 < key) (hfloor : t.lastSeparator ≤ key)
    (hheight : t.height ≤ maxHeight) (hsize : t.size < maxCount) (handle : H)
    (hmode : (t.pushBack key handle).indexed = false) :
    ∃ m', Run AboveSeparators (t.pushBack key handle) m' := by
  obtain ⟨-, hm⟩ := Standing.run (fun _ _ hmeets ↦ hmeets) h
  refine ⟨_, h.step (.pushBack key handle) ⟨hkey, hm.forall_key.mpr habove⟩
    ⟨?_, hheight, fun _ ↦ hsize⟩
    hmode⟩
  intro k hk _
  rw [← Option.some.inj hk]
  exact hfloor

/-- The first even numbers, appended in order. -/
def evens : Nat → ChunkTree Unit 65536
  | 0 => .empty
  | n + 1 => (evens n).pushBack (2 * n) ()

theorem evens_run : ∀ n ≤ 15, ∃ m, Run AboveSeparators (evens n) m
  | 0, _ => ⟨_, Relation.ReflTransGen.refl⟩
  | n + 1, hn => by
    obtain ⟨m, h⟩ := evens_run n (by omega)
    have hchecked : ∀ n < 15, 2 * n + 1 < chunkKeyPad ∧ (∀ e ∈ (evens n).entries, e.1 < 2 * n) ∧
        (evens n).lastSeparator ≤ 2 * n ∧ (evens n).height ≤ maxHeight ∧ (evens n).size < maxCount ∧
        ((evens n).pushBack (2 * n) ()).indexed = false := by decide +kernel
    obtain ⟨hkey, habove, hfloor, hheight, hsize, hmode⟩ := hchecked n hn
    exact h.pushBack hkey habove hfloor hheight hsize () hmode

/-- Fifteen keys fill a leaf, a slot is opened behind them and abandoned, and the last key
erased. -/
theorem abandoned_run : ∃ m, Run AboveSeparators ((evens 15).openBack.erase (2, 14)).1 m := by
  obtain ⟨m, hevens⟩ := evens_run 15 le_rfl
  have hopened := hevens.step .abandonOpen trivial ⟨by simp [Op.added], by decide +kernel⟩
    (by decide +kernel)
  have hallowed : ∃ l ∈ (evens 15).openBack.chain, l.id = 2 ∧ 14 < l.size := by decide +kernel
  exact ⟨_, hopened.step (.erase (2, 14)) hallowed ⟨by simp [Op.added], by decide +kernel⟩
    (by decide +kernel)⟩

/-! ## The refinement -/

/-- A run in the mode of inner levels that appends no entry below a separator reaches a tree that is
the map it should be. -/
theorem chunkTree_refines (h : Run AboveSeparators t m) : Refines t m := by
  obtain ⟨⟨rows, htree⟩, hm⟩ := Standing.run (fun _ _ hmeets ↦ hmeets) h
  exact htree.refines hm

/-- Of the fifteen keys the last is erased under an abandoned slot, and a larger one appended. -/
theorem chunkTree_refines_abandoned :
    ∃ m, Refines (((evens 15).openBack.erase (2, 14)).1.pushBack 40 ()) m := by
  obtain ⟨m, h⟩ := abandoned_run
  obtain ⟨m', h'⟩ := h.pushBack (show 40 + 1 < chunkKeyPad by decide) (by decide +kernel)
    (by decide +kernel) (by decide +kernel) (by decide +kernel) () (by decide +kernel)
  exact ⟨m', chunkTree_refines h'⟩

/-- 29 is the separator of the empty last leaf then, above the 27 appended next. -/
theorem chunkTree_refines_not_always :
    ¬∀ (t : ChunkTree Unit 65536) (m : Nat → Option Unit), Run (fun _ _ ↦ True) t m →
      Refines t m := by
  intro hall
  obtain ⟨m, h⟩ := abandoned_run
  obtain ⟨-, hm⟩ := Standing.run (fun _ _ hmeets ↦ hmeets) h
  have hrun := (h.mono fun _ _ _ ↦ trivial).step (.pushBack 27 ())
    ⟨by decide, hm.forall_key.mpr (by decide +kernel)⟩ trivial (by decide +kernel)
  have hvalid := (hall _ _ hrun).valid
  revert hvalid
  decide +kernel

end ChunkTree

end Roaring
