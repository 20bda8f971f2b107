import Mathlib
import Roaring.Table.ChunkArray

/-!
# The flat chunk table when an allocation fails

Every operation that throws leaves the entries it found, and every payload with
the holders it had, but for two that promise less and for one that goes wrong:
an insertion of a copy into a table with room moves the entries up before it
makes the copy, and has nothing to move them back.
-/

namespace Roaring

open Lib

namespace ChunkArray

/-! ## The operations -/

inductive Op where
  | insert (index key : Nat) (source : HandleSource)
  | pushBack (key : Nat) (source : HandleSource)
  | insertAbsentFrom (other : ChunkArray) (count : Nat) (wanted : HandleBytes → Bool)
  | reserve (count : Nat)
  | shrinkToFit
  | detach (minCapacity : Nat)
  | copyFrom (other : ChunkArray)

namespace Op

def perform (P : TablePolicy) (t : ChunkArray) (w : Heap) : Op → Outcome
  | insert index key source => t.insert P index key source w
  | pushBack key source => t.pushBack P key source w
  | insertAbsentFrom other count wanted => t.insertAbsentFrom P other count wanted w
  | reserve count => t.reserve count w
  | shrinkToFit => t.shrinkToFit P w
  | detach minCapacity => t.detach P minCapacity w
  | copyFrom other => t.copyFrom P other w

/-- The handles handed over with a call. -/
def given : Op → List HandleBytes
  | insert _ _ source | pushBack _ source => source.given
  | _ => []

/-- The handles of the operands that stay their holders'. -/
def lent : Op → List HandleBytes
  | insert _ _ source | pushBack _ source => source.lent
  | insertAbsentFrom other _ _ | copyFrom other => other.slots
  | _ => []

end Op

/-- A table as every operation leaves it: ascending keys in a block of its capacity. -/
structure Sound (t : ChunkArray) : Prop where
  block : t.cells.length = t.capacity
  fits : t.size ≤ t.capacity
  bounded : t.capacity < indexLimit
  ascending : t.keys.Pairwise (· < ·)

/-- An entry of another table that is absent here and wanted. -/
def wants (t : ChunkArray) (wanted : HandleBytes → Bool) (c : Cell) : Bool :=
  decide (c.key ∉ t.keys) && wanted c.slot

/-- What a caller sees to: the position is the key's, the key is above every key
held, the count is exact, an operand is a sound table. -/
def Op.Meets (t : ChunkArray) : Op → Prop
  | .insert index key _ =>
    index ≤ t.size ∧ (∀ k ∈ t.keys.take index, k < key) ∧ ∀ k ∈ t.keys.drop index, key < k
  | .pushBack key _ => ∀ k ∈ t.keys, k < key
  | .insertAbsentFrom other count wanted =>
    other.Sound ∧ count = (other.entries.filter (t.wants wanted)).length
  | .copyFrom other => other.Sound
  | _ => True

/-- A call of an operation on a sound table whose handles, those of the operands
included, are accounted for. -/
structure Call (P : TablePolicy) (t : ChunkArray) (w : Heap) (op : Op) : Prop where
  sound : t.Sound
  meets : op.Meets t
  accounted : Accounted P.handle w (t.slots ++ op.given ++ op.lent)

/-! ## What a throw leaves -/

/-- `d`, in the heap `w'`, is a copy of the entry `c` in the heap `w`. -/
structure CopiedCell (P : TablePolicy) (w : Heap) (c : Cell) (w' : Heap) (d : Cell) : Prop where
  key : d.key = c.key
  slot : CopyOf P.handle w c.slot w' d.slot

/-- The entries a throw may leave: those there were, for a merge some of the union
with copies of what was wanted, for a copy a prefix of the source's. -/
def Op.Leaves (P : TablePolicy) (t : ChunkArray) (w : Heap) (op : Op) (o : Outcome) : Prop :=
  match op with
  | .insertAbsentFrom other _ wanted =>
    t.entries.Sublist o.table.entries ∧ ∀ d ∈ o.table.entries, d ∈ t.entries ∨
      ∃ c ∈ other.entries, t.wants wanted c = true ∧ CopiedCell P w c o.heap d
  | .copyFrom other =>
    ∃ n, List.Forall₂ (fun c d ↦ CopiedCell P w c o.heap d) (other.entries.take n) o.table.entries
  | _ => o.table.entries = t.entries

/-- A throw is survived: the table is sound, its handles and the operands' are
accounted for, no count has lost or gained a holder that the table does not
account for, no payload has been written, and the entries are what they may be. -/
structure Survived (P : TablePolicy) (t : ChunkArray) (w : Heap) (op : Op) (o : Outcome) :
    Prop where
  sound : o.table.Sound
  accounted : Accounted P.handle o.heap (o.table.slots ++ op.lent)
  balanced : ∀ p,
    o.heap.holders p - claims (HandleBytes.claim P.handle) o.table.slots p =
      w.holders p - claims (HandleBytes.claim P.handle) (t.slots ++ op.given) p
  contents : ∀ p < w.fresh, o.heap.contents p = w.contents p
  entries : op.Leaves P t w o

/-- The calls that go wrong: an entry is inserted below others, in place, as a copy
of a handle whose payload has to be cloned, and there is no memory for the clone. -/
def Op.Clobbers (P : TablePolicy) (t : ChunkArray) (w : Heap) : Op → Prop
  | .insert index _ (.copied other) =>
    index < t.size ∧ t.size < t.capacity ∧ other.CloneFails P.handle w
  | _ => False

/-! ## Entries -/

section Entries

variable {P : TablePolicy} {t : ChunkArray} {w w' : Heap} {op : Op}

theorem Sound.length_entries (h : t.Sound) : t.entries.length = t.size := by
  rw [entries, List.length_take, h.block]
  exact min_eq_left h.fits

theorem keys_eq : t.keys = t.entries.map Cell.key := rfl

theorem slots_eq : t.slots = t.entries.map Cell.slot := rfl

/-- A throw after which some of the handles there were are gone, the others are
kept, and the copies made are in the table with them. -/
theorem survived_built {gone kept copies : List HandleBytes} {o : Outcome} (hc : Call P t w op)
    (ht : o.table.Sound) (hsplit : (t.slots ++ op.given).Perm (gone ++ kept))
    (hslots : o.table.slots.Perm (copies ++ kept)) (hp : ∀ h ∈ copies, h.Placed P.handle o.heap)
    (hw : Built P.handle (releaseAll P.handle gone w) copies o.heap) (hl : op.Leaves P t w o) :
    Survived P t w op o := by
  have hacc : Accounted P.handle (releaseAll P.handle gone w) (kept ++ op.lent) := by
    apply Accounted.releaseAll
    rw [← List.append_assoc]
    exact hc.accounted.perm (hsplit.append_right _)
  constructor
  · exact ht
  · refine (hacc.built hw hp).perm ?_
    rw [← List.append_assoc]
    exact (hslots.append_right _).symm
  · intro p
    rw [claims_perm hslots, claims_perm hsplit, hw.holders, holders_releaseAll, claims_append,
      claims_append]
    ring
  · intro p hp
    rw [hw.contents p (by rwa [fresh_releaseAll]), contents_releaseAll]
  · exact hl

/-- A throw that leaves the table alone and the heap as it was but for the handles
handed over, which are destroyed. -/
theorem survived_unchanged (hc : Call P t w op) {o : Outcome} (ht : o.table.Sound)
    (he : o.table.entries = t.entries) (hl : op.Leaves P t w o)
    (hw : Built P.handle (releaseAll P.handle op.given w) [] o.heap) : Survived P t w op o := by
  have hs : o.table.slots = t.slots := by rw [slots_eq, he, slots_eq]
  exact survived_built hc ht List.perm_append_comm (hs ▸ List.Perm.refl _) (by simp) hw hl

/-! ## Growth -/

theorem relocate_threw {capacity : Nat} (hf : (t.relocate capacity w).completed = false) :
    t.relocate capacity w = ⟨t, w.request, false⟩ := by
  unfold relocate Heap.allocateBlock at hf ⊢
  cases hn : w.failsNext with
  | true => rfl
  | false => simp [hn] at hf

theorem reserve_threw {count : Nat} (hf : (t.reserve count w).completed = false) :
    t.reserve count w = ⟨t, w.request, false⟩ := by
  unfold reserve at hf ⊢
  split at hf
  · rename_i hlt
    rw [if_pos hlt]
    exact relocate_threw hf
  · cases hf

theorem length_relocated {cs : List Cell} {capacity : Nat} (h : cs.length ≤ capacity) :
    (overwrite (uninitialized capacity) 0 cs).length = capacity := by
  rw [length_overwrite] <;> simp [uninitialized, h]

/-- A relocation that returned has made room and touched nothing else. -/
theorem relocate_returned {capacity : Nat} (ht : t.Sound) (hs : t.size ≤ capacity)
    (hc : capacity < indexLimit) (hr : (t.relocate capacity w).completed = true) :
    (t.relocate capacity w).table.Sound ∧ (t.relocate capacity w).table.capacity = capacity ∧
      (t.relocate capacity w).table.entries = t.entries ∧
        (t.relocate capacity w).heap = w.request := by
  unfold relocate Heap.allocateBlock at hr ⊢
  cases hn : w.failsNext with
  | true => simp [hn] at hr
  | false =>
    have hentries : (overwrite (uninitialized capacity) 0 t.entries).take t.size = t.entries := by
      rw [take_overwrite_zero ht.length_entries.ge, List.take_of_length_le ht.length_entries.le]
    refine ⟨⟨length_relocated ?_, hs, hc, ?_⟩, rfl, hentries, rfl⟩
    · exact ht.length_entries.le.trans hs
    · have hasc := ht.ascending
      rw [keys_eq, ← hentries] at hasc
      exact hasc

theorem reserve_returned {count : Nat} (ht : t.Sound) (hc : count < indexLimit)
    (hr : (t.reserve count w).completed = true) :
    (t.reserve count w).table.Sound ∧ count ≤ (t.reserve count w).table.capacity ∧
      (t.reserve count w).table.entries = t.entries ∧
        Built P.handle w [] (t.reserve count w).heap := by
  simp only [reserve, Nat.mod_eq_of_lt hc] at hr ⊢
  split at hr
  · rename_i hlt
    rw [if_pos hlt]
    obtain ⟨hsound, hcap, hentries, hheap⟩ := relocate_returned ht (ht.fits.trans hlt.le) hc hr
    rw [hheap]
    exact ⟨hsound, hcap.ge, hentries, built_request⟩
  · rename_i hle
    rw [if_neg hle]
    exact ⟨ht, not_lt.mp hle, rfl, Built.refl w⟩

theorem shrinkToFit_threw (hf : (t.shrinkToFit P w).completed = false) :
    t.shrinkToFit P w = ⟨t, w.request, false⟩ := by
  unfold shrinkToFit at hf ⊢
  split at hf
  · cases hf
  · rename_i hne
    split at hf
    · rename_i hlt
      rw [if_neg hne, if_pos hlt]
      exact relocate_threw hf
    · cases hf

/-! ## Insertion of one entry -/

/-- The arm that grows is never in trouble: the copy is made first. -/
theorem insertGrowing_threw {index key : Nat} {source : HandleSource}
    (hp : ∀ h ∈ source.lent, h.Placed P.handle w)
    (hf : (t.insertGrowing P index key source w).completed = false) :
    (t.insertGrowing P index key source w).table = t ∧
      Built P.handle (releaseAll P.handle source.given w) []
        (t.insertGrowing P index key source w).heap := by
  unfold insertGrowing at hf ⊢
  by_cases hc : (source.construct P.handle w).completed = true
  · simp only [hc, if_true] at hf ⊢
    by_cases hg : (t.grow (t.size + 1) (source.construct P.handle w).heap).completed = true
    · simp [hg] at hf
    · have hthrew := relocate_threw (Bool.eq_false_iff.mpr hg)
      have hgrow : t.grow (t.size + 1) (source.construct P.handle w).heap =
        ⟨t, (source.construct P.handle w).heap.request, false⟩ := hthrew
      simp only [hgrow, Bool.false_eq_true, if_false]
      exact ⟨trivial, construct_released hp hc built_request⟩
  · have hfalse := Bool.eq_false_iff.mpr hc
    obtain ⟨other, rfl, _, hb, _⟩ := construct_threw hp hfalse
    simp only [hfalse, Bool.false_eq_true, if_false]
    exact ⟨trivial, hb⟩

/-! ## Copies of whole tables -/

/-- What the copy loop has built when it ends: copies of a first part of the cells,
of all of them when it returned.  The cells are those of an earlier heap. -/
theorem cloneSlots_spec {cs : List Cell} {base : Heap} {fresh : List HandleBytes}
    (hw : Built P.handle base fresh w) (hp : ∀ c ∈ cs, c.slot.Placed P.handle base) :
    Built P.handle w (cloneSlots P cs w).1 (cloneSlots P cs w).2.2 ∧
      List.Forall₂ (fun c h ↦ CopyOf P.handle base c.slot (cloneSlots P cs w).2.2 h)
        (cs.take (cloneSlots P cs w).1.length) (cloneSlots P cs w).1 := by
  induction cs generalizing w fresh with
  | nil => exact ⟨Built.refl w, List.Forall₂.nil⟩
  | cons c cs ih =>
    simp only [cloneSlots]
    have hc := hp c List.mem_cons_self
    have hends := cloneFrom_spec (hc.mono hw.fresh)
    generalize c.slot.cloneFrom P.handle w = copy at hends ⊢
    cases hends with
    | returned completed _ copied =>
      simp only [completed, if_true]
      obtain ⟨hb, hcopies⟩ := ih (hw.trans copied.built) fun d hd ↦ hp d (List.mem_cons_of_mem c hd)
      exact ⟨copied.built.trans hb,
        List.Forall₂.cons ((copied.copy.later hb).earlier hc hw) hcopies⟩
    | threw completed _ clobbered =>
      simp only [completed, Bool.false_eq_true, if_false]
      exact ⟨clobbered.built, List.Forall₂.nil⟩

/-- A failed `detach` destroys the handles it has built. -/
theorem detach_threw {minCapacity : Nat} (hp : ∀ c ∈ t.entries, c.slot.Placed P.handle w)
    (hf : (t.detach P minCapacity w).completed = false) :
    (t.detach P minCapacity w).table = t ∧
      Built P.handle w [] (t.detach P minCapacity w).heap := by
  unfold detach Heap.allocateBlock at hf ⊢
  cases hn : w.failsNext with
  | true => exact ⟨rfl, built_request⟩
  | false =>
    have hspec := @cloneSlots_spec P w.request t.entries w [] built_request hp
    simp only [hn, Bool.not_false] at hf ⊢
    generalize cloneSlots P t.entries w.request = r at hf hspec ⊢
    obtain ⟨built, completed, w'⟩ := r
    cases completed with
    | true => cases hf
    | false => exact ⟨rfl, built_request.trans hspec.1.releaseAll⟩

theorem copied_withSlots {cs : List Cell} {hs : List HandleBytes}
    (h : List.Forall₂ (fun c d ↦ CopyOf P.handle w c.slot w' d) cs hs) :
    List.Forall₂ (fun c d ↦ CopiedCell P w c w' d) cs (withSlots cs hs) ∧
      (withSlots cs hs).map Cell.key = cs.map Cell.key ∧ (withSlots cs hs).map Cell.slot = hs := by
  induction h with
  | nil => exact ⟨List.Forall₂.nil, rfl, rfl⟩
  | cons hcopy _ ih =>
    obtain ⟨hcells, hkeys, hslots⟩ := ih
    exact ⟨List.Forall₂.cons ⟨rfl, hcopy⟩ hcells, congrArg (_ :: ·) hkeys, congrArg (_ :: ·) hslots⟩

theorem placed_of_copied {cs ds : List Cell}
    (h : List.Forall₂ (fun c d ↦ CopiedCell P w c w' d) cs ds) :
    ∀ h ∈ ds.map Cell.slot, h.Placed P.handle w' := by
  induction h with
  | nil => exact nofun
  | cons hcopy _ ih =>
    rw [List.map_cons]
    exact List.forall_mem_cons.mpr ⟨hcopy.slot.placed, ih⟩

/-- A failed `copy_from` leaves copies of a first part of the source. -/
theorem copyFrom_threw {other : ChunkArray} (ht : t.Sound) (ho : other.Sound)
    (hp : ∀ c ∈ other.entries, c.slot.Placed P.handle w)
    (hf : (t.copyFrom P other w).completed = false) :
    ∃ n, List.Forall₂ (fun c d ↦ CopiedCell P w c (t.copyFrom P other w).heap d)
      (other.entries.take n) (t.copyFrom P other w).table.entries ∧
      (t.copyFrom P other w).table.Sound ∧
      Built P.handle (releaseAll P.handle t.slots w) (t.copyFrom P other w).table.slots
        (t.copyFrom P other w).heap := by
  have hp' : ∀ c ∈ other.entries, c.slot.Placed P.handle (destroy P t.entries w) :=
    fun c hc ↦ (hp c hc).mono (by rw [destroy, fresh_releaseAll])
  have hempty : Sound { t with size := 0 } :=
    ⟨ht.block, Nat.zero_le _, ht.bounded, List.Pairwise.nil⟩
  unfold copyFrom destroyAll at hf ⊢
  by_cases hz : other.size = 0
  · simp [hz] at hf
  simp only [hz, if_false] at hf ⊢
  by_cases hr : (reserve { t with size := 0 } other.size (destroy P t.entries w)).completed = true
  · have hroom := @reserve_returned P _ _ _ hempty (ho.fits.trans_lt ho.bounded) hr
    generalize reserve { t with size := 0 } other.size (destroy P t.entries w) = room
      at hf hr hroom ⊢
    obtain ⟨hsound, hcap, _, hheap⟩ := hroom
    have hspec := cloneSlots_spec hheap hp'
    simp only [hr, if_true] at hf ⊢
    generalize cloneSlots P other.entries room.heap = r at hf hspec ⊢
    obtain ⟨built, completed, w'⟩ := r
    dsimp only at hf hspec ⊢
    obtain ⟨hb, hcopies⟩ := hspec
    have hle : built.length ≤ other.size := by
      have hlen := hcopies.length_eq
      rw [List.length_take, ho.length_entries] at hlen
      exact min_eq_left_iff.mp hlen
    obtain ⟨hcells, hkeys, hslots⟩ := copied_withSlots (hcopies.imp fun _ _ h ↦ h.of_released)
    have hcopied : (withSlots other.entries
        (built ++ (room.table.cells.map Cell.slot).drop built.length)).length = other.size := by
      simp only [withSlots, List.length_zipWith, ho.length_entries, List.length_append,
        List.length_drop, List.length_map, hsound.block]
      omega
    generalize hslotsAll : built ++ (room.table.cells.map Cell.slot).drop built.length = slots
      at hcopied ⊢
    have hkept : entries
        ⟨overwrite room.table.cells 0 (withSlots other.entries slots), built.length,
          room.table.capacity, room.table.holders⟩ =
        withSlots (other.entries.take built.length) built := by
      rw [entries, take_overwrite_zero (hle.trans hcopied.ge), withSlots, List.take_zipWith,
        ← hslotsAll, List.take_left]
      rfl
    refine ⟨built.length, ?_, ⟨?_, hle.trans hcap, hsound.bounded, ?_⟩, ?_⟩
    · rw [hkept]
      exact hcells
    · rw [length_overwrite (by rw [hcopied, hsound.block]; omega)]
      exact hsound.block
    · rw [keys_eq, hkept, hkeys]
      exact ho.ascending.sublist ((List.take_sublist _ _).map _)
    · rw [← hslots, ← hkept] at hb
      exact hheap.trans hb
  · have hthrew := reserve_threw (Bool.eq_false_iff.mpr hr)
    simp only [hthrew, Bool.false_eq_true, if_false]
    exact ⟨0, List.Forall₂.nil, hempty, built_request⟩

/-! ## The merge -/

/-- Where a merge stands that is yet to look at the first `j` entries of `other`:
the entries from `stop` on and the copies made so far are final. -/
structure Merging (P : TablePolicy) (t other : ChunkArray) (wanted : HandleBytes → Bool) (w : Heap)
    (j : Nat) (m : Merge) (final copies : List Cell) : Prop where
  block : m.cells.length = t.capacity
  untouched : m.relocated ≠ none → m.cells = t.cells
  kept : m.cells.take m.stop = t.entries.take m.stop
  stop_le : m.stop ≤ t.size
  final_eq : (m.target.take (m.dst + final.length)).drop m.dst = final
  room : m.dst + final.length ≤ m.target.length
  total : m.dst + final.length = t.size + (other.entries.filter (t.wants wanted)).length
  perm : final.Perm (t.entries.drop m.stop ++ copies)
  held : (t.entries.drop m.stop).Sublist final
  ascending : (final.map Cell.key).Pairwise (· < ·)
  above : ∀ d ∈ final, (∀ c ∈ t.entries.take m.stop, c.key < d.key) ∧
    ∀ c ∈ other.entries.take j, c.key < d.key
  count : m.dst = m.stop + ((other.entries.take j).filter (t.wants wanted)).length
  copied : ∀ d ∈ copies, ∃ c ∈ other.entries, t.wants wanted c = true ∧ CopiedCell P w c m.heap d
  built : Built P.handle w (copies.map Cell.slot) m.heap

@[simp] theorem Merge.target_write {m : Merge} {cells : List Cell} :
    (m.write cells).target = cells := by
  unfold Merge.write Merge.target
  cases m.relocated <;> rfl

/-- The merge looks for a key among the entries still in place. -/
theorem Merging.search {other : ChunkArray} {wanted : HandleBytes → Bool} {j : Nat} {m : Merge}
    {final copies : List Cell} (h : Merging P t other wanted w j m final copies) (ht : t.Sound)
    (key : Nat) :
    lowerBound m.cells m.stop key ≤ m.stop ∧
      (∀ c ∈ t.entries.take (lowerBound m.cells m.stop key), c.key < key) ∧
      ∀ c ∈ (t.entries.take m.stop).drop (lowerBound m.cells m.stop key), key ≤ c.key := by
  have hasc : ((t.entries.take m.stop).map Cell.key).Pairwise (· < ·) :=
    ht.ascending.sublist ((List.take_sublist _ _).map _)
  obtain ⟨hfront, hback⟩ := takeWhile_cuts hasc key
  rw [lowerBound, h.kept]
  have hle : ((t.entries.take m.stop).takeWhile fun c ↦ decide (c.key < key)).length ≤ m.stop :=
    (List.takeWhile_prefix _).length_le.trans (List.length_take_le _ _)
  refine ⟨hle, fun c hc ↦ hfront c ?_, hback⟩
  rwa [List.take_take, min_eq_left hle]

section Steps

variable {other : ChunkArray} {wanted : HandleBytes → Bool} {j : Nat} {m : Merge}
  {final copies : List Cell}

/-- An entry that is not to be inserted is passed over. -/
theorem Merging.skip (h : Merging P t other wanted w (j + 1) m final copies)
    (hj : j < other.entries.length) (hw : t.wants wanted other.entries[j] = false) :
    Merging P t other wanted w j m final copies := by
  have htake := List.take_succ_eq_append_getElem hj
  refine { h with above := fun d hd ↦ ⟨(h.above d hd).1, fun c hc ↦ ?_⟩, count := ?_ }
  · apply (h.above d hd).2
    rw [htake]
    exact List.mem_append_left _ hc
  · have hcount := h.count
    rwa [htake, List.filter_append, List.filter_cons_of_neg (by simp [hw]), List.filter_nil,
      List.append_nil] at hcount

/-- The key an entry is inserted under is not among those in place, nor among those that have
moved. -/
theorem Merging.absent (h : Merging P t other wanted w (j + 1) m final copies) (ht : t.Sound)
    (hj : j < other.entries.length) :
    (other.entries[j].key ∈ t.keys ↔
      lowerBound m.cells m.stop other.entries[j].key < m.stop ∧
        (m.cells.getD (lowerBound m.cells m.stop other.entries[j].key) default).key =
          other.entries[j].key) := by
  obtain ⟨hle, hfront, hback⟩ := h.search ht other.entries[j].key
  have hmoved : ∀ c ∈ t.entries.drop m.stop, other.entries[j].key < c.key := by
    intro c hc
    apply (h.above c (h.held.subset hc)).2
    rw [List.take_succ_eq_append_getElem hj]
    exact List.mem_append_right _ (List.mem_singleton_self _)
  generalize other.entries[j].key = key at hle hfront hback hmoved ⊢
  generalize lowerBound m.cells m.stop key = index at hle hfront hback ⊢
  have hlen : (t.entries.take m.stop).length = m.stop := by
    rw [List.length_take, ht.length_entries]
    exact min_eq_left h.stop_le
  have hat : ∀ hi : index < m.stop, m.cells.getD index default =
      (t.entries.take m.stop)[index] := by
    intro hi
    rw [List.getD_eq_getElem?_getD, ← List.getElem?_take_of_lt hi, h.kept,
      List.getElem?_eq_getElem (hi.trans_eq hlen.symm)]
    rfl
  constructor
  · intro hkey
    obtain ⟨c, hc, rfl⟩ := List.mem_map.mp hkey
    have hin : c ∈ (t.entries.take m.stop).drop index := by
      rw [← List.take_append_drop m.stop t.entries] at hc
      rcases List.mem_append.mp hc with hc | hc
      · rw [← List.take_append_drop index (t.entries.take m.stop), List.take_take,
          min_eq_left hle] at hc
        rcases List.mem_append.mp hc with hc | hc
        · exact absurd (hfront c hc) (lt_irrefl _)
        · exact hc
      · exact absurd (hmoved c hc) (lt_irrefl _)
    have hi : index < m.stop := by
      by_contra hge
      rw [List.drop_of_length_le (hlen.le.trans (not_lt.mp hge))] at hin
      cases hin
    refine ⟨hi, ?_⟩
    rw [hat hi]
    have hasc : ((t.entries.take m.stop).drop index).Pairwise fun c d ↦ c.key < d.key :=
      (List.pairwise_map.mp ht.ascending).sublist
        ((List.drop_sublist _ _).trans (List.take_sublist _ _))
    have hfirst := hback (t.entries.take m.stop)[index]
    rw [List.drop_eq_getElem_cons (hi.trans_eq hlen.symm)] at hin hasc hfirst
    rcases List.mem_cons.mp hin with heq | hin
    · rw [heq]
    · exact absurd (hfirst List.mem_cons_self) (not_le.mpr (List.rel_of_pairwise_cons hasc hin))
  · rintro ⟨hi, hkey⟩
    rw [← hkey, hat hi]
    exact List.mem_map_of_mem (List.mem_of_mem_take (List.getElem_mem _))

/-- What the merge writes for an entry: the entry itself, and behind it the entries that move. -/
theorem Merging.target_take (h : Merging P t other wanted w (j + 1) m final copies)
    (hroom : m.stop < m.dst) {index : Nat} (hi : index ≤ m.stop) (key : Nat) (copy : Constructed) :
    (m.take index key copy).target =
      overwrite m.target (m.dst - (m.stop - index) - 1)
        (⟨key, copy.bytes⟩ :: (t.entries.take m.stop).drop index) := by
  have hmoved : (m.cells.drop index).take (m.stop - index) = (t.entries.take m.stop).drop
      index := by
    rw [← List.drop_take, h.kept]
  have hsucc : m.dst - (m.stop - index) = m.dst - (m.stop - index) - 1 + 1 := by omega
  have hlt : m.dst - (m.stop - index) - 1 < m.target.length := by
    have hle := h.room
    omega
  have htarget : (m.take index key copy).target =
      (overwrite m.target (m.dst - (m.stop - index))
        ((m.cells.drop index).take (m.stop - index))).set
        (m.dst - (m.stop - index) - 1) ⟨key, copy.bytes⟩ := Merge.target_write
  rw [htarget, hmoved]
  nth_rewrite 1 [hsucc]
  exact set_overwrite hlt

/-- The block of the table itself is written above the entries that stay. -/
theorem Merging.cells_take (h : Merging P t other wanted w (j + 1) m final copies)
    (hroom : m.stop < m.dst) {index : Nat} (hi : index ≤ m.stop) (key : Nat) (copy : Constructed) :
    (m.take index key copy).cells.length = t.capacity ∧
      ((m.take index key copy).relocated ≠ none → (m.take index key copy).cells = t.cells) ∧
      (m.take index key copy).cells.take index = t.entries.take index := by
  have hkept : m.cells.take index = t.entries.take index := by
    have heq := congrArg (List.take index) h.kept
    rwa [List.take_take, List.take_take, min_eq_left hi] at heq
  cases hr : m.relocated with
  | some block =>
    have hcells : (m.take index key copy).cells = m.cells := by
      simp [Merge.take, Merge.write, hr]
    rw [hcells]
    exact ⟨h.block, fun _ ↦ h.untouched (by simp [hr]), hkept⟩
  | none =>
    have hnone : (m.take index key copy).relocated = none := by
      simp [Merge.take, Merge.write, hr]
    have htarget : m.target = m.cells := by simp [Merge.target, hr]
    have hcells : (m.take index key copy).cells = (m.take index key copy).target := by
      rw [Merge.target, hnone]
      rfl
    have hroom' := h.room
    have hlen : ((t.entries.take m.stop).drop index).length ≤ m.stop - index := by
      rw [List.length_drop]
      exact Nat.sub_le_sub_right (List.length_take_le _ _) _
    rw [hcells, h.target_take hroom hi key copy, htarget]
    rw [htarget] at hroom'
    refine ⟨?_, fun hsome ↦ absurd hnone hsome, ?_⟩
    · rw [length_overwrite, h.block]
      rw [List.length_cons]
      omega
    · rw [take_overwrite (by omega) (by omega)]
      exact hkept

/-- A wanted entry lies below all that it goes in front of. -/
theorem Merging.key_lt (h : Merging P t other wanted w (j + 1) m final copies)
    (hj : j < other.entries.length) (hw : t.wants wanted other.entries[j] = true) {index : Nat}
    (hback : ∀ d ∈ (t.entries.take m.stop).drop index, other.entries[j].key ≤ d.key) :
    (∀ d ∈ (t.entries.take m.stop).drop index, other.entries[j].key < d.key) ∧
      ∀ d ∈ final, other.entries[j].key < d.key := by
  have habsent : other.entries[j].key ∉ t.keys := by
    have hboth := hw
    simp only [wants, Bool.and_eq_true, decide_eq_true_eq] at hboth
    exact hboth.1
  constructor
  · intro d hd
    refine lt_of_le_of_ne (hback d hd) fun heq ↦ habsent ?_
    rw [heq]
    exact List.mem_map_of_mem (List.mem_of_mem_take (List.mem_of_mem_drop hd))
  · intro d hd
    apply (h.above d hd).2
    rw [List.take_succ_eq_append_getElem hj]
    exact List.mem_append_right _ (List.mem_singleton_self _)

/-- The final entries stay ascending with the wanted one and those it goes in front of. -/
theorem Merging.ascending_take (h : Merging P t other wanted w (j + 1) m final copies)
    (ht : t.Sound) {index key : Nat}
    (hmoved : ∀ d ∈ (t.entries.take m.stop).drop index, key < d.key)
    (hfinal : ∀ d ∈ final, key < d.key) (bytes : HandleBytes) :
    ((Cell.mk key bytes :: ((t.entries.take m.stop).drop index ++ final)).map
      Cell.key).Pairwise (· < ·) := by
  rw [List.map_cons, List.map_append, List.pairwise_cons, List.pairwise_append]
  refine ⟨?_, ?_, h.ascending, ?_⟩
  · rw [← List.map_append]
    intro k hk
    obtain ⟨d, hd, rfl⟩ := List.mem_map.mp hk
    rcases List.mem_append.mp hd with hd | hd
    · exact hmoved d hd
    · exact hfinal d hd
  · exact ht.ascending.sublist (((List.drop_sublist _ _).trans (List.take_sublist _ _)).map _)
  · intro k hk l hl
    obtain ⟨c, hc, rfl⟩ := List.mem_map.mp hk
    obtain ⟨d, hd, rfl⟩ := List.mem_map.mp hl
    exact (h.above d hd).1 c (List.mem_of_mem_drop hc)

/-- A wanted entry goes in front of the entries above it, which take their final places. -/
theorem Merging.take (h : Merging P t other wanted w (j + 1) m final copies) (ht : t.Sound)
    (ho : other.Sound) (hj : j < other.entries.length) (hroom : m.stop < m.dst)
    (hw : t.wants wanted other.entries[j] = true)
    (hp : other.entries[j].slot.Placed P.handle w) {copy : Constructed}
    (hc : copy.Copied P.handle m.heap other.entries[j].slot) :
    let index := lowerBound m.cells m.stop other.entries[j].key
    let entry := Cell.mk other.entries[j].key copy.bytes
    Merging P t other wanted w j
      (m.take index other.entries[j].key copy)
      (entry :: ((t.entries.take m.stop).drop index ++ final)) (entry :: copies) := by
  obtain ⟨hle, hfront, hback⟩ := h.search ht other.entries[j].key
  dsimp only
  generalize lowerBound m.cells m.stop other.entries[j].key = index at hle hfront hback ⊢
  obtain ⟨hblock, huntouched, hkept⟩ := h.cells_take hroom hle other.entries[j].key copy
  have htarget := h.target_take hroom hle other.entries[j].key copy
  have hlen : ((t.entries.take m.stop).drop index).length = m.stop - index := by
    rw [List.length_drop, List.length_take, ht.length_entries, min_eq_left h.stop_le]
  have hroom' := h.room
  have hwritten : m.dst - (m.stop - index) - 1 +
      (⟨other.entries[j].key, copy.bytes⟩ :: (t.entries.take m.stop).drop index :
        List Cell).length =
        m.dst := by
    rw [List.length_cons, hlen]
    omega
  have hdrop : t.entries.drop index =
      (t.entries.take m.stop).drop index ++ t.entries.drop m.stop := by
    rw [List.drop_take]
    nth_rewrite 1 [← List.take_append_drop (m.stop - index) (t.entries.drop index)]
    rw [List.drop_drop, Nat.add_sub_cancel' hle]
  have htake := List.take_succ_eq_append_getElem hj
  obtain ⟨hmoved, hfinal⟩ := h.key_lt hj hw hback
  have hroom'' : m.dst - (m.stop - index) - 1 + (⟨other.entries[j].key, copy.bytes⟩ ::
      ((t.entries.take m.stop).drop index ++ final) : List Cell).length = m.dst + final.length := by
    rw [← hwritten]
    simp only [List.length_cons, List.length_append]
    omega
  have hstop : (m.take index other.entries[j].key copy).stop = index := rfl
  have hdst : (m.take index other.entries[j].key copy).dst = m.dst - (m.stop - index) - 1 := rfl
  have hheap : (m.take index other.entries[j].key copy).heap = copy.heap := rfl
  generalize m.take index other.entries[j].key copy = m' at *
  constructor
  · exact hblock
  · exact huntouched
  · rw [hstop]
    exact hkept
  · rw [hstop]
    exact hle.trans h.stop_le
  · -- what was final before stands behind what has been written
    rw [hdst, hroom'', htarget, drop_take_overwrite (by omega) (by omega), hwritten, h.final_eq]
    rfl
  · rw [hdst, hroom'', htarget, length_overwrite (by omega)]
    exact hroom'
  · rw [hdst, hroom'']
    exact h.total
  · rw [hstop, hdrop, List.append_assoc]
    refine (List.Perm.cons _ (h.perm.append_left _)).trans ?_
    rw [← List.append_assoc, ← List.append_assoc]
    exact List.perm_middle.symm
  · rw [hstop, hdrop]
    exact ((List.Sublist.refl _).append h.held).cons _
  · exact h.ascending_take ht hmoved hfinal copy.bytes
  · rw [hstop]
    have hkey : ∀ c ∈ other.entries.take j, c.key < other.entries[j].key := by
      have hasc := (List.pairwise_map.mp ho.ascending).sublist (List.take_sublist (j + 1) _)
      rw [htake, List.pairwise_append] at hasc
      exact fun c hc ↦ hasc.2.2 c hc _ (List.mem_singleton_self _)
    intro d hd
    have hle : other.entries[j].key ≤ d.key := by
      rcases List.mem_cons.mp hd with rfl | hd
      · exact le_refl _
      · rcases List.mem_append.mp hd with hd | hd
        · exact (hmoved d hd).le
        · exact (hfinal d hd).le
    exact ⟨fun c hc ↦ (hfront c hc).trans_le hle, fun c hc ↦ (hkey c hc).trans_le hle⟩
  · have hcount := h.count
    rw [htake, List.filter_append, List.filter_cons_of_pos hw, List.filter_nil, List.length_append,
      List.length_singleton] at hcount
    omega
  · intro d hd
    rw [hheap]
    rcases List.mem_cons.mp hd with rfl | hd
    · exact ⟨_, List.getElem_mem hj, hw, rfl, hc.copy.earlier hp h.built⟩
    · obtain ⟨c, hmem, hwants, hkey, hslot⟩ := h.copied d hd
      exact ⟨c, hmem, hwants, hkey, hslot.later hc.built⟩
  · rw [hheap]
    exact (h.built.trans hc.built).perm List.perm_append_comm

/-- The merge, from wherever it stands, ends in such a place. -/
theorem Merging.run (h : Merging P t other wanted w j m final copies) (ht : t.Sound)
    (ho : other.Sound)
    (hj : j ≤ other.entries.length) (hp : ∀ c ∈ other.entries, c.slot.Placed P.handle w) :
    ∃ i final copies, Merging P t other wanted w i (mergeFrom P other wanted j m) final copies := by
  induction j generalizing m final copies with
  | zero => exact ⟨0, final, copies, h⟩
  | succ j ih =>
    have hj' : j < other.entries.length := hj
    have hentry : other.cells.getD j default = other.entries[j] := by
      rw [List.getD_eq_getElem?_getD, ← List.getElem?_take_of_lt (hj'.trans_eq ho.length_entries)]
      exact congrArg (Option.getD · default) (List.getElem?_eq_getElem hj')
    simp only [mergeFrom, hentry]
    by_cases hroom : m.stop < m.dst
    · rw [if_pos hroom]
      have habsent := h.absent ht hj'
      generalize hindex : lowerBound m.cells m.stop other.entries[j].key = index at habsent ⊢
      split
      · rename_i hskip
        refine ih (h.skip hj' ?_) hj'.le
        rw [Bool.or_eq_true, Bool.and_eq_true, decide_eq_true_eq, decide_eq_true_eq,
          ← habsent] at hskip
        rcases hskip with hkey | hunwanted
        · simp [wants, hkey]
        · have hfalse : wanted other.entries[j].slot = false := by simpa using hunwanted
          simp [wants, hfalse]
      · rename_i htake
        have hw : t.wants wanted other.entries[j] = true := by
          rw [Bool.or_eq_true, Bool.and_eq_true, decide_eq_true_eq, decide_eq_true_eq,
            ← habsent, not_or] at htake
          simpa [wants] using htake
        have hplaced := hp _ (List.getElem_mem hj')
        have hends := cloneFrom_spec (hplaced.mono h.built.fresh)
        generalize other.entries[j].slot.cloneFrom P.handle m.heap = copy at hends ⊢
        cases hends with
        | returned completed _ copied =>
          simp only [completed, if_true]
          rw [← hindex]
          exact ih (h.take ht ho hj' hroom hw hplaced copied) hj'.le
        | threw completed _ clobbered =>
          simp only [completed, Bool.false_eq_true, if_false]
          refine ⟨j + 1, final, copies, { h with copied := ?_, built := ?_ }⟩
          · intro d hd
            obtain ⟨c, hmem, hwants, hkey, hslot⟩ := h.copied d hd
            exact ⟨c, hmem, hwants, hkey, hslot.later clobbered.built⟩
          · rw [← List.append_nil (copies.map Cell.slot)]
            exact h.built.trans clobbered.built
    · rw [if_neg hroom]
      exact ⟨j + 1, final, copies, h⟩

theorem isSome_mergeFrom :
    (mergeFrom P other wanted j m).relocated.isSome = m.relocated.isSome := by
  induction j generalizing m with
  | zero => rfl
  | succ j ih =>
    simp only [mergeFrom]
    split
    · split
      · exact ih
      · split
        · rw [ih]
          simp only [Merge.take, Merge.write]
          cases m.relocated <;> simp
        · rfl
    · rfl

/-- In place, the hole of a merge that stops early is closed over what is held. -/
theorem Merging.close (h : Merging P t other wanted w j m final copies) (ht : t.Sound)
    (hin : m.relocated = none) {total : Nat} (htotal : total = m.dst + final.length) :
    (closeGap { t with cells := m.cells } m.stop m.dst total).entries =
      t.entries.take m.stop ++ final ∧
    (closeGap { t with cells := m.cells } m.stop m.dst total).Sound := by
  have htarget : m.target = m.cells := by simp [Merge.target, hin]
  have hroom := h.room
  have hfinal := h.final_eq
  rw [htarget] at hroom hfinal
  have hlen : total - m.dst = final.length := by omega
  have hmoved : (m.cells.drop m.dst).take final.length = final := by
    rwa [List.drop_take, Nat.add_sub_cancel_left] at hfinal
  have hcut : m.stop ≤ m.dst := by
    have hcount := h.count
    omega
  have hcells : (closeGap { t with cells := m.cells } m.stop m.dst total).cells =
      overwrite m.cells m.stop final := by
    rw [closeGap, memmove, hlen, hmoved]
  have hsize : (closeGap { t with cells := m.cells } m.stop m.dst total).size =
      m.stop + final.length := by
    rw [closeGap, hlen]
  have hentries : (closeGap { t with cells := m.cells } m.stop m.dst total).entries =
      t.entries.take m.stop ++ final := by
    rw [entries, hcells, hsize, take_add_overwrite (by omega), h.kept]
  have hfits : m.stop + final.length ≤ t.capacity := by
    rw [← h.block]
    omega
  refine ⟨hentries, ⟨?_, hsize.trans_le hfits, ht.bounded, ?_⟩⟩
  · rw [hcells, length_overwrite (by omega)]
    exact h.block
  · rw [keys_eq, hentries, List.map_append, List.pairwise_append]
    refine ⟨ht.ascending.sublist ((List.take_sublist _ _).map _), h.ascending, ?_⟩
    intro k hk l hl
    obtain ⟨c, hc, rfl⟩ := List.mem_map.mp hk
    obtain ⟨d, hd, rfl⟩ := List.mem_map.mp hl
    exact (h.above d hd).1 c hc

/-- Relocating, the cells of the new block that are not held are the copies. -/
theorem Merging.copies_perm (h : Merging P t other wanted w j m final copies) :
    (final.filter fun c ↦ decide (c.key ∉ t.keys)).Perm copies := by
  have hheld : (t.entries.drop m.stop).filter (fun c ↦ decide (c.key ∉ t.keys)) = [] := by
    rw [List.filter_eq_nil_iff]
    intro c hc
    have hkey : c.key ∈ t.keys := List.mem_map_of_mem (List.mem_of_mem_drop hc)
    simpa using hkey
  have hcopies : copies.filter (fun c ↦ decide (c.key ∉ t.keys)) = copies := by
    rw [List.filter_eq_self]
    intro d hd
    obtain ⟨c, _, hwants, hcopy⟩ := h.copied d hd
    simp only [wants, Bool.and_eq_true] at hwants
    rw [hcopy.key]
    exact hwants.1
  have hperm := h.perm.filter fun c ↦ decide (c.key ∉ t.keys)
  rwa [List.filter_append, hheld, hcopies, List.nil_append] at hperm

/-- A merge starts with every entry in place. -/
theorem Merging.start (ht : t.Sound) (ho : other.Sound) {count : Nat}
    (hcount : count = (other.entries.filter (t.wants wanted)).length)
    {relocated : Option (List Cell)}
    (hroom : t.size + count ≤ (relocated.getD t.cells).length) (hw : Built P.handle w [] w') :
    Merging P t other wanted w other.size
      { cells := t.cells, relocated := relocated, stop := t.size, dst := t.size + count,
        heap := w' }
      [] [] where
  block := ht.block
  untouched := fun _ ↦ rfl
  kept := by rw [entries, List.take_take, min_self]
  stop_le := le_refl _
  final_eq := List.drop_eq_nil_of_le (List.length_take_le _ _)
  room := hroom
  total := by rw [hcount]; rfl
  perm := by
    rw [List.drop_of_length_le ht.length_entries.le]
    exact List.Perm.nil
  held := by
    rw [List.drop_of_length_le ht.length_entries.le]
  ascending := List.Pairwise.nil
  above := fun d hd ↦ nomatch hd
  count := by rw [hcount, List.take_of_length_le ho.length_entries.le]
  copied := fun d hd ↦ nomatch hd
  built := hw

/-- A merge that throws: a table that had to grow is as it was, and one with room
holds the copies made so far as well. -/
theorem insertAbsentFrom_threw {count : Nat} (ht : t.Sound) (ho : other.Sound)
    (hcount : count = (other.entries.filter (t.wants wanted)).length)
    (hp : ∀ c ∈ other.entries, c.slot.Placed P.handle w)
    (hf : (t.insertAbsentFrom P other count wanted w).completed = false) :
    ∃ copies,
      (t.insertAbsentFrom P other count wanted w).table.entries.Perm (t.entries ++ copies) ∧
      t.entries.Sublist (t.insertAbsentFrom P other count wanted w).table.entries ∧
      (t.insertAbsentFrom P other count wanted w).table.Sound ∧
      (∀ d ∈ copies, ∃ c ∈ other.entries, t.wants wanted c = true ∧
        CopiedCell P w c (t.insertAbsentFrom P other count wanted w).heap d) ∧
      Built P.handle w (copies.map Cell.slot)
        (t.insertAbsentFrom P other count wanted w).heap := by
  have hunchanged : ∀ w', Built P.handle w [] w' → ∃ copies,
      t.entries.Perm (t.entries ++ copies) ∧ t.entries.Sublist t.entries ∧ t.Sound ∧
      (∀ d ∈ copies, ∃ c ∈ other.entries, t.wants wanted c = true ∧ CopiedCell P w c w' d) ∧
      Built P.handle w (copies.map Cell.slot) w' :=
    fun w' hw ↦ ⟨[], by simp, List.Sublist.refl _, ht, by simp, hw⟩
  have hend := fun r w' (hroom : t.size + count ≤ (Option.getD r t.cells).length)
      (hw : Built P.handle w [] w') ↦
    (Merging.start ht ho hcount hroom hw).run ht ho ho.length_entries.ge hp
  unfold insertAbsentFrom at hf ⊢
  by_cases hz : count = 0
  · simp [hz] at hf
  simp only [hz, if_false] at hf ⊢
  by_cases hfits : t.capacity < t.size + count
  · simp only [hfits, decide_true, if_true, Heap.allocateBlock] at hf ⊢
    cases hn : w.failsNext with
    | true =>
      simp only [Bool.not_true, Bool.false_eq_true, if_false]
      exact hunchanged _ built_request
    | false =>
      simp only [hn, Bool.not_false, if_true] at hf ⊢
      obtain ⟨i, final, copies, hm⟩ :=
        hend (some (uninitialized (t.grownCapacity (t.size + count))))
        w.request (by simp [uninitialized, grownCapacity]) built_request
      generalize mergeFrom P other wanted other.size _ = m at hf hm ⊢
      cases hdone : m.completed with
      | true => simp [hdone] at hf
      | false =>
        simp only [Bool.false_eq_true, if_false]
        apply hunchanged
        rw [hcount, ← hm.total, hm.final_eq, destroy]
        exact (hm.built.perm (hm.copies_perm.symm.map _)).releaseAll
  · simp only [hfits, decide_false, Bool.false_eq_true, if_false, if_true] at hf ⊢
    obtain ⟨i, final, copies, hm⟩ := hend none w (by rw [Option.getD_none, ht.block]; omega)
      (Built.refl w)
    have hmode := @isSome_mergeFrom P other wanted other.size
      { cells := t.cells, relocated := none, stop := t.size, dst := t.size + count, heap := w }
    generalize mergeFrom P other wanted other.size _ = m at hf hm hmode ⊢
    cases hdone : m.completed with
    | true => simp [hdone] at hf
    | false =>
      simp only [Bool.false_eq_true, if_false]
      have hin : m.relocated = none := Option.not_isSome_iff_eq_none.mp (by simp [hmode])
      obtain ⟨hentries, hsound⟩ := hm.close ht hin (hcount ▸ hm.total.symm)
      rw [hentries]
      have hcut := List.take_append_drop m.stop t.entries
      refine ⟨copies, ?_, ?_, hsound, hm.copied, hm.built⟩
      · nth_rewrite 2 [← hcut]
        rw [List.append_assoc]
        exact hm.perm.append_left _
      · nth_rewrite 1 [← hcut]
        exact (List.Sublist.refl _).append hm.held

end Steps

end Entries

/-! ## The claim -/

variable {P : TablePolicy} {t : ChunkArray} {w : Heap}

/-- The gap stands open, and what the constructor wrote stands in it. -/
theorem clobbered_slot {index : Nat} (hi : index < t.size) (ht : t.Sound) (bytes : HandleBytes) :
    bytes ∈ ((t.openGap index).setSlot index bytes).slots := by
  have hlen : index < t.cells.length := by
    rw [ht.block]
    exact hi.trans_le ht.fits
  have hgap : (memmove t.cells (index + 1) index (t.size - index))[index]? =
      some t.cells[index] := by
    rw [← List.getElem?_take_of_lt (Nat.lt_succ_self index), memmove,
      take_overwrite (le_refl _) hlen, List.getElem?_take_of_lt (Nat.lt_succ_self index),
      List.getElem?_eq_getElem hlen]
  apply List.mem_map.mpr
  refine ⟨⟨t.cells[index].key, bytes⟩, ?_, rfl⟩
  apply @List.mem_of_getElem? _ _ index
  change ((List.modify _ index _).take t.size)[index]? = _
  rw [List.getElem?_take_of_lt hi, List.getElem?_modify_eq]
  change Option.map _ (memmove t.cells (index + 1) index (t.size - index))[index]? = _
  rw [hgap]
  rfl

/-- The one call that goes wrong leaves a handle in the table whose payload is
that of the handle it was to copy. -/
theorem clobbers_not_survived {op : Op} (hc : Call P t w op) (h : op.Clobbers P t w) :
    (op.perform P t w).completed = false ∧ ¬ Survived P t w op (op.perform P t w) := by
  cases op with
  | insert index key source =>
    cases source with
    | moved other => cases h
    | copied other =>
      obtain ⟨hi, hroom, hfails⟩ := h
      have hlent : other ∈ (Op.insert index key (.copied other)).lent := List.mem_singleton_self _
      have hplaced := hc.accounted.placed other (List.mem_append_right _ hlent)
      cases cloneFrom_spec hplaced with
      | returned _ fits _ => exact absurd hfails fits
      | threw completed _ clobbered =>
        simp only [Op.perform, insert, HandleSource.construct, if_neg hroom.ne, completed,
          Bool.false_eq_true, if_false]
        refine ⟨trivial, fun hs ↦ ?_⟩
        have hmem := clobbered_slot hi hc.sound (other.cloneFrom P.handle w).bytes
        rw [slots_eq, hs.entries, ← slots_eq, clobbered.bytes] at hmem
        obtain ⟨hvalue, howner, hspilled, _⟩ := hfails
        obtain ⟨p, hdata⟩ := other.exists_data hspilled
        have hacc := hc.accounted
        rw [hvalue] at hacc hplaced
        have hclaim : other.claim .valueSemantics = some p := by
          cases ho : other.owner with
          | unique => simp only [HandleBytes.claim, ho, hdata]
          | shared => exact absurd ho (hplaced.owner rfl)
          | borrowed => exact absurd ho howner
        exact hacc.not_both (List.mem_append_left _ hmem) hlent hdata hclaim
  | _ => cases h

/-- A handle built past the last entry is not the table's yet. -/
theorem entries_setSlot {index : Nat} (hi : t.size ≤ index) (bytes : HandleBytes) :
    (t.setSlot index bytes).entries = t.entries := by
  rw [entries, entries, setSlot]
  apply List.ext_getElem?
  intro k
  simp only [List.getElem?_take, List.getElem?_modify]
  by_cases hk : k < t.size
  · have hne : index ≠ k := (hk.trans_le hi).ne'
    simp [hne]
  · simp [hk]

/-- A gap behind the last entry moves nothing. -/
theorem openGap_size (ht : t.Sound) (hroom : t.size < t.capacity) : t.openGap t.size = t := by
  have hlt : t.size + 1 ≤ t.cells.length := hroom.trans_eq ht.block.symm
  have hcells : memmove t.cells (t.size + 1) t.size (t.size - t.size) = t.cells := by
    rw [memmove, Nat.sub_self, List.take_zero, overwrite, List.append_nil, List.length_nil,
      add_zero, List.take_append_drop]
  rw [openGap, hcells]

/-- An insertion in place that throws does no harm behind the last entry. -/
theorem survived_setSlot {op : Op} {source : HandleSource} (hc : Call P t w op)
    (hs : source.lent = op.lent) (hg : source.given = op.given)
    (hl : ∀ o : Outcome, o.table.entries = t.entries → op.Leaves P t w o)
    (hf : (source.construct P.handle w).completed = false) :
    Survived P t w op ⟨t.setSlot t.size (source.construct P.handle w).bytes,
      (source.construct P.handle w).heap, false⟩ := by
  have hp : ∀ h ∈ source.lent, h.Placed P.handle w := fun h hm ↦
    hc.accounted.placed h (List.mem_append_right _ (hs ▸ hm))
  obtain ⟨other, rfl, _, hb, _⟩ := construct_threw hp hf
  have ht := hc.sound
  have he := @entries_setSlot t t.size (le_refl _)
    (HandleSource.construct P.handle (.copied other) w).bytes
  refine survived_unchanged hc ⟨?_, ht.fits, ht.bounded, ?_⟩ he (hl _ he) ?_
  · exact (List.length_modify _ _ _).trans ht.block
  · rw [keys_eq, he]
    exact ht.ascending
  · rw [← hg]
    exact hb

theorem survived_of_threw {op : Op} (hc : Call P t w op)
    (hf : (op.perform P t w).completed = false) (h : ¬ op.Clobbers P t w) :
    Survived P t w op (op.perform P t w) := by
  have ht := hc.sound
  have hlent : ∀ h ∈ op.lent, h.Placed P.handle w := fun h hm ↦
    hc.accounted.placed h (List.mem_append_right _ hm)
  cases op with
  | insert index key source =>
    simp only [Op.perform, insert] at hf ⊢
    split at hf
    · rename_i hfull
      rw [if_pos hfull]
      obtain ⟨htable, hheap⟩ := insertGrowing_threw hlent hf
      have he := congrArg entries htable
      exact survived_unchanged hc (by rw [htable]; exact ht) he he hheap
    · rename_i hroom
      rw [if_neg hroom]
      split at hf
      · cases hf
      · rename_i hthrew
        have hthrew := Bool.eq_false_iff.mpr hthrew
        obtain ⟨other, rfl, hfails, _, _⟩ := construct_threw hlent hthrew
        have hlt : t.size < t.capacity := lt_of_le_of_ne ht.fits hroom
        -- what is below the last entry would have been overwritten
        have hlast : index = t.size := by
          refine le_antisymm hc.meets.1 (not_lt.mp fun hi ↦ h ⟨hi, hlt, hfails⟩)
        subst hlast
        rw [if_neg (by rw [hthrew]; simp), openGap_size ht hlt]
        exact survived_setSlot hc rfl rfl (fun _ he ↦ he) hthrew
  | pushBack key source =>
    simp only [Op.perform, pushBack] at hf ⊢
    split at hf
    · rename_i hfull
      rw [if_pos hfull]
      obtain ⟨htable, hheap⟩ := insertGrowing_threw hlent hf
      have he := congrArg entries htable
      exact survived_unchanged hc (by rw [htable]; exact ht) he he hheap
    · rename_i hroom
      rw [if_neg hroom]
      split at hf
      · cases hf
      · rename_i hthrew
        have hthrew := Bool.eq_false_iff.mpr hthrew
        rw [if_neg (by rw [hthrew]; simp)]
        exact survived_setSlot hc rfl rfl (fun _ he ↦ he) hthrew
  | insertAbsentFrom other count wanted =>
    obtain ⟨ho, hcount⟩ := hc.meets
    have hp : ∀ c ∈ other.entries, c.slot.Placed P.handle w := fun c hm ↦
      hlent _ (List.mem_map_of_mem hm)
    obtain ⟨copies, hperm, hsub, hsound, hcopies, hb⟩ := insertAbsentFrom_threw ht ho hcount hp hf
    simp only [Op.perform] at hf ⊢
    generalize t.insertAbsentFrom P other count wanted w = o at *
    have hslots : o.table.slots.Perm (copies.map Cell.slot ++ t.slots) := by
      rw [slots_eq, slots_eq, ← List.map_append]
      exact (hperm.trans List.perm_append_comm).map _
    have hsplit : (t.slots ++ []).Perm ([] ++ t.slots) := by simp
    refine survived_built hc hsound hsplit hslots ?_ hb ⟨hsub, ?_⟩
    · intro h hm
      obtain ⟨d, hd, rfl⟩ := List.mem_map.mp hm
      obtain ⟨c, _, _, hcopy⟩ := hcopies d hd
      exact hcopy.slot.placed
    · intro d hd
      rcases List.mem_append.mp (hperm.mem_iff.mp hd) with hd | hd
      · exact Or.inl hd
      · exact Or.inr (hcopies d hd)
  | reserve count =>
    rw [Op.perform, reserve_threw hf]
    exact survived_unchanged hc ht rfl rfl built_request
  | shrinkToFit =>
    rw [Op.perform, shrinkToFit_threw hf]
    exact survived_unchanged hc ht rfl rfl built_request
  | detach minCapacity =>
    have hheld : ∀ c ∈ t.entries, c.slot.Placed P.handle w := fun c hm ↦
      hc.accounted.placed _ (List.mem_append_left _
        (List.mem_append_left _ (List.mem_map_of_mem hm)))
    obtain ⟨htable, hheap⟩ := detach_threw hheld hf
    have he := congrArg entries htable
    exact survived_unchanged hc (by rw [Op.perform, htable]; exact ht) he he hheap
  | copyFrom other =>
    have hp : ∀ c ∈ other.entries, c.slot.Placed P.handle w := fun c hm ↦
      hlent _ (List.mem_map_of_mem hm)
    obtain ⟨n, hcopies, hsound, hb⟩ := copyFrom_threw ht hc.meets hp hf
    simp only [Op.perform] at hf ⊢
    generalize t.copyFrom P other w = o at *
    have hsplit : (t.slots ++ []).Perm (t.slots ++ []) := List.Perm.refl _
    have hslots : o.table.slots.Perm (o.table.slots ++ []) := by simp
    exact survived_built hc hsound hsplit hslots (placed_of_copied hcopies) hb ⟨n, hcopies⟩

/-- When a call of the flat table throws, the entries, the counts of their payloads
and the payloads are as the call promises, but for an insertion of a copy below
other entries in a table with room, whose clone finds no memory. -/
theorem survives_iff {op : Op} (hc : Call P t w op) :
    ((op.perform P t w).completed = false → Survived P t w op (op.perform P t w)) ↔
      ¬ op.Clobbers P t w := by
  constructor
  · intro hs h
    obtain ⟨hf, hns⟩ := clobbers_not_survived hc h
    exact hns (hs hf)
  · exact fun h hf ↦ survived_of_threw hc hf h

/-! ### A table with room and no memory -/

def twoEntries : ChunkArray where
  cells := [⟨1, {}⟩, ⟨3, {}⟩, default, default]
  size := 2
  capacity := 4

/-- One payload, held by a handle outside the table; every allocation fails. -/
def exhausted : Heap where
  fails := fun _ ↦ true
  fresh := 1
  holders := fun p ↦ if p = 0 then 1 else 0
  contents := fun _ ↦ .array [2, 3, 5, 7, 11, 13, 17, 19, 23]

def spilledHandle : HandleBytes where
  cardinality := 9
  min := 2
  max := 23
  body := .spilled 0 16

def flatPolicy : TablePolicy := ⟨.valueSemantics, false, 0⟩

theorem twoEntries_sound : twoEntries.Sound :=
  ⟨rfl, by decide, by decide, by decide⟩

theorem exhausted_accounted : Accounted .valueSemantics exhausted [{}, {}, spilledHandle] where
  placed := by
    intro h hm
    simp only [List.mem_cons, List.not_mem_nil, or_false] at hm
    rcases hm with rfl | rfl | rfl
    · exact ⟨nofun, fun _ ↦ nofun⟩
    · exact ⟨nofun, fun _ ↦ nofun⟩
    · refine ⟨fun p hd ↦ ?_, fun _ ↦ nofun⟩
      cases hd
      exact Nat.zero_lt_one
  counted := by
    intro p
    by_cases hp : p = 0
    · subst hp
      decide
    · have hne : ¬ (some 0 : Option Nat) = some p := fun heq ↦ hp (Option.some.inj heq).symm
      simp [HandleBytes.claim, HandleBytes.data, spilledHandle, exhausted, hp, hne]
  tidy := by
    constructor
    · intro _ p
      change (if p = 0 then (1 : Int) else 0) ≤ 1
      split <;> decide
    · intro p hp
      change (if p = 0 then (1 : Int) else 0) = 0
      rw [if_neg (Nat.one_le_iff_ne_zero.mp hp)]

theorem twoEntries_call :
    Call flatPolicy twoEntries exhausted (.insert 0 0 (.copied spilledHandle)) :=
  ⟨twoEntries_sound, ⟨by decide, by decide, by decide⟩, exhausted_accounted⟩

/-- An insertion of a copy in front of the keys 1 and 3 throws and leaves the keys
1 and 1. -/
theorem insert_not_survived :
    ¬ ∀ (P : TablePolicy) (t : ChunkArray) (w : Heap) (op : Op), Call P t w op →
      (op.perform P t w).completed = false → Survived P t w op (op.perform P t w) := by
  intro hall
  have hs := hall _ _ _ _ twoEntries_call rfl
  have hasc := hs.sound.ascending
  exact absurd hasc (by decide)

/-- A growth and an insertion behind the last entry throw and survive it; the insertion in
front of the entries does not. -/
theorem survives_iff_insert :
    Survived flatPolicy twoEntries exhausted (.reserve 10)
        ((Op.reserve 10).perform flatPolicy twoEntries exhausted) ∧
      Survived flatPolicy twoEntries exhausted (.insert 2 5 (.copied spilledHandle))
        ((Op.insert 2 5 (.copied spilledHandle)).perform flatPolicy twoEntries exhausted) ∧
      ¬ Survived flatPolicy twoEntries exhausted (.insert 0 0 (.copied spilledHandle))
        ((Op.insert 0 0 (.copied spilledHandle)).perform flatPolicy twoEntries exhausted) := by
  have hbehind : Call flatPolicy twoEntries exhausted (.insert 2 5 (.copied spilledHandle)) :=
    ⟨twoEntries_sound, ⟨by decide, by decide, by decide⟩, exhausted_accounted⟩
  refine ⟨?_, ?_, ?_⟩
  · exact (@survives_iff flatPolicy twoEntries exhausted (.reserve 10) ⟨twoEntries_sound, trivial,
      @Accounted.of_append_left .valueSemantics exhausted [{}, {}] [spilledHandle]
        exhausted_accounted⟩).mpr id rfl
  · exact (survives_iff hbehind).mpr (fun h ↦ absurd h.1 (by decide)) rfl
  · intro hs
    exact (survives_iff twoEntries_call).mp (fun _ ↦ hs)
      ⟨by decide, by decide, rfl, nofun, rfl, rfl⟩

end ChunkArray

end Roaring
