import Mathlib
import Roaring.Bitmap.Shared

/-!
# The counts of shared bitmaps

Every count is the number of handles that name the block, and of the one that a
call holds outside of them while it runs: what a handle swapped out, or the block
that a change left.  A call moves that one claim about, so each of its steps is an
exchange with a handle, a count taken, a block made, or a count given up.
-/

namespace Roaring.SharedState

variable {ι B Key : Type}

/-- The block that a handle names. -/
def naming (s : SharedState ι B) (i : ι) : Option Nat := (s.handles i).bind SharedHandle.block

/-- How many handles name a block. -/
def holders [Fintype ι] (s : SharedState ι B) (p : Nat) : Nat :=
  (Finset.univ.filter fun i ↦ s.naming i = some p).card

/-- The handles that name a block, and the call that holds it as `left`. -/
def claimants [Fintype ι] (s : SharedState ι B) (left : Option Nat) (p : Nat) : Nat :=
  s.holders p + if left = some p then 1 else 0

/-- The counts are those of the handles and of `left`, a block is there while it has a claimant, and
every block that was made is there or was deleted once.  The handles are fewer than a count can tell
apart. -/
structure Counted [Fintype ι] (s : SharedState ι B) (left : Option Nat) : Prop where
  few : Fintype.card ι < 2 ^ 32
  count_eq : ∀ p b, s.blocks p = some b → b.count = BitVec.ofNat 32 (s.claimants left p)
  claimed : ∀ p, s.blocks p ≠ none ↔ 0 < s.claimants left p
  born : ∀ p, s.blocks p ≠ none → p < s.fresh
  freed_iff : ∀ p, p ∈ s.freed ↔ p < s.fresh ∧ s.blocks p = none
  once : s.freed.Nodup

/-- The blocks that handles name read as they did. -/
def Kept [Fintype ι] (s s' : SharedState ι B) : Prop :=
  ∀ p, 0 < s.holders p → (s'.blocks p).map SharedBlock.value = (s.blocks p).map SharedBlock.value

variable {s s' : SharedState ι B} {i j : ι} {p : Nat} {left left' : Option Nat} {h : SharedHandle}
  {o : Option SharedHandle} {b : SharedBlock B} {v w : B}

/-! ## What a handle names -/

theorem naming_eq (hi : s.handles i = some h) : s.naming i = h.block := by
  simp [naming, hi]

theorem naming_absent (hi : s.handles i = none) : s.naming i = none := by
  simp [naming, hi]

theorem naming_congr (hh : s'.handles = s.handles) : s'.naming = s.naming := by
  funext i
  rw [naming, naming, hh]

@[simp] theorem naming_setBlock {c : Option (SharedBlock B)} : (s.setBlock p c).naming = s.naming :=
  rfl

@[simp] theorem naming_makeBlock : (s.makeBlock v).naming = s.naming := rfl

@[simp] theorem handles_setBlock {c : Option (SharedBlock B)} :
    (s.setBlock p c).handles = s.handles := rfl

@[simp] theorem handles_makeBlock : (s.makeBlock v).handles = s.handles := rfl

@[simp] theorem fresh_makeBlock : (s.makeBlock v).fresh = s.fresh + 1 := rfl

theorem blocks_makeBlock : (s.makeBlock v).blocks = Function.update s.blocks s.fresh
    (some ⟨1#32, v⟩) := rfl

@[simp] theorem naming_setHandle [DecidableEq ι] :
    (s.setHandle i o).naming = Function.update s.naming i (o.bind SharedHandle.block) := by
  funext j
  rcases eq_or_ne j i with rfl | hj
  · simp [naming, setHandle]
  · simp [naming, setHandle, hj]

variable [Fintype ι]

theorem holders_of_naming (hn : s'.naming = s.naming) : s'.holders = s.holders := by
  funext p
  simp [holders, hn]

/-- A handle that is set gives up what it named and names what it is given. -/
theorem holders_setHandle [DecidableEq ι] (p : Nat) :
    (s.setHandle i o).holders p + (if s.naming i = some p then 1 else 0) =
      s.holders p + if o.bind SharedHandle.block = some p then 1 else 0 := by
  have hrest : ∑ j ∈ {i}ᶜ, (if (s.setHandle i o).naming j = some p then 1 else 0) =
      ∑ j ∈ {i}ᶜ, (if s.naming j = some p then 1 else 0) := by
    apply Finset.sum_congr rfl
    intro j hj
    rw [naming_setHandle, Function.update_of_ne (by simpa using hj)]
  rw [holders, holders, Finset.card_filter, Finset.card_filter, Fintype.sum_eq_add_sum_compl i,
    Fintype.sum_eq_add_sum_compl i (fun j ↦ if s.naming j = some p then 1 else 0), hrest]
  simp only [naming_setHandle, Function.update_self]
  omega

theorem holders_pos_iff : 0 < s.holders p ↔ ∃ i, s.naming i = some p := by
  simp [holders, Finset.card_pos, Finset.filter_nonempty_iff]

/-- The only name of a block. -/
theorem eq_of_holders (hp : s.holders p = 1) (hi : s.naming i = some p) (hj : s.naming j = some p) :
    j = i := by
  obtain ⟨k, hk⟩ := Finset.card_eq_one.1 hp
  have hik : i ∈ ({k} : Finset ι) := hk ▸ by simpa using hi
  have hjk : j ∈ ({k} : Finset ι) := hk ▸ by simpa using hj
  rw [Finset.mem_singleton.1 hik, Finset.mem_singleton.1 hjk]

/-! ## Counted states -/

@[simp] theorem claimants_none : s.claimants none p = s.holders p := rfl

theorem claimants_some : s.claimants (some p) p = s.holders p + 1 := by
  rw [claimants, if_pos rfl]

theorem claimants_other {q : Nat} (hq : q ≠ p) : s.claimants (some p) q = s.holders q := by
  rw [claimants, if_neg fun h ↦ hq (Option.some.inj h).symm, Nat.add_zero]

theorem claimants_congr (hn : s'.naming = s.naming) : s'.claimants = s.claimants := by
  funext left p
  rw [claimants, claimants, holders_of_naming hn]

theorem holders_le_card : s.holders p ≤ Fintype.card ι := Finset.card_le_univ _

theorem claimants_le : s.claimants left p ≤ Fintype.card ι + 1 := by
  rw [claimants]
  refine Nat.add_le_add holders_le_card ?_
  split
  · exact le_rfl
  · exact Nat.zero_le _

/-- A handle that is set exchanges its claim with the call. -/
theorem claimants_exchange [DecidableEq ι] (ho : o.bind SharedHandle.block = left) :
    (s.setHandle i o).claimants (s.naming i) = s.claimants left := by
  funext p
  have hset := holders_setHandle (s := s) (i := i) (o := o) p
  rw [ho] at hset
  exact hset

theorem counted_start (hfew : Fintype.card ι < 2 ^ 32) : Counted ({} : SharedState ι B) none where
  few := hfew
  count_eq p b hb := by cases hb
  claimed p := by simp [holders, naming]
  born p hp := absurd rfl hp
  freed_iff p := by simp
  once := List.nodup_nil

/-- What is claimed is there. -/
theorem Counted.block (hc : Counted s left) (hp : 0 < s.claimants left p) :
    ∃ b, s.blocks p = some b :=
  Option.ne_none_iff_exists'.1 ((hc.claimed p).2 hp)

theorem Counted.named (hc : Counted s left) (hi : s.naming i = some p) : ∃ b, s.blocks p = some b :=
  hc.block (Nat.add_pos_left (holders_pos_iff.2 ⟨i, hi⟩) _)

theorem Counted.fresh_absent (hc : Counted s left) : s.blocks s.fresh = none := by
  by_contra hne
  exact lt_irrefl _ (hc.born _ hne)

/-- A block that is not there has no claimant. -/
theorem Counted.unclaimed (hc : Counted s left) (hp : s.blocks p = none) :
    s.claimants left p = 0 := by
  by_contra hne
  exact (hc.claimed p).2 (Nat.pos_of_ne_zero hne) hp

/-- The count tells a single claimant, as a wrapped one would need more handles than there are. -/
theorem Counted.count_eq_one_iff (hc : Counted s left) (hb : s.blocks p = some b) :
    b.count = 1#32 ↔ s.claimants left p = 1 := by
  have hle : s.claimants left p ≤ Fintype.card ι + 1 := claimants_le
  have hfew := hc.few
  rw [hc.count_eq p b hb, ← BitVec.toNat_inj, BitVec.toNat_ofNat]
  rcases Nat.lt_or_eq_of_le (hle.trans hfew) with hlt | heq
  · rw [Nat.mod_eq_of_lt hlt]
    rfl
  · rw [heq]
    decide

/-- The count is the number of handles. -/
theorem Counted.toNat_count (hc : Counted s none) (hb : s.blocks p = some b) :
    b.count.toNat = s.holders p := by
  rw [hc.count_eq p b hb, BitVec.toNat_ofNat]
  exact Nat.mod_eq_of_lt (holders_le_card.trans_lt hc.few)

/-- A block that was made was deleted once if no handle names it, and else not. -/
theorem Counted.freed_once (hc : Counted s none) (hp : p < s.fresh) :
    s.freed.count p = if s.holders p = 0 then 1 else 0 := by
  rw [List.Nodup.count hc.once]
  refine if_congr ?_ rfl rfl
  rw [hc.freed_iff, and_iff_right hp]
  constructor
  · exact hc.unclaimed
  · intro hzero
    by_contra hne
    exact ((hc.claimed p).1 hne).ne' hzero

/-- A handle hands over what it names for what the call holds. -/
theorem Counted.exchange [DecidableEq ι] (hc : Counted s left)
    (ho : o.bind SharedHandle.block = left) (i : ι) : Counted (s.setHandle i o) (s.naming i) where
  few := hc.few
  count_eq p b hb := by
    rw [claimants_exchange ho]
    exact hc.count_eq p b hb
  claimed p := by
    rw [claimants_exchange ho]
    exact hc.claimed p
  born := hc.born
  freed_iff := hc.freed_iff
  once := hc.once

/-- A block that stays takes the count that its claimants then have. -/
theorem Counted.setBlock (hc : Counted s left) (hb : s.blocks p = some b) {c : SharedBlock B}
    (hpos : 0 < s.claimants left' p) (hcount : c.count = BitVec.ofNat 32 (s.claimants left' p))
    (hothers : ∀ q, q ≠ p → s.claimants left' q = s.claimants left q) :
    Counted (s.setBlock p (some c)) left' where
  few := hc.few
  count_eq q d hd := by
    rw [claimants_congr naming_setBlock]
    rcases eq_or_ne q p with rfl | hq
    · obtain rfl : c = d := by simpa [SharedState.setBlock] using hd
      exact hcount
    · rw [hothers q hq]
      exact hc.count_eq q d (by simpa [SharedState.setBlock, hq] using hd)
  claimed q := by
    rw [claimants_congr naming_setBlock]
    rcases eq_or_ne q p with rfl | hq
    · simpa [SharedState.setBlock] using hpos
    · rw [hothers q hq, ← hc.claimed q]
      simp [SharedState.setBlock, hq]
  born q hq' := by
    rcases eq_or_ne q p with rfl | hq
    · exact hc.born q (by simp [hb])
    · exact hc.born q (by simpa [SharedState.setBlock, hq] using hq')
  freed_iff q := by
    rcases eq_or_ne q p with rfl | hq
    · simp [SharedState.setBlock, hc.freed_iff, hb]
    · simp [SharedState.setBlock, hq, hc.freed_iff]
  once := hc.once

/-- The last claim on a block is given up: no handle names it. -/
theorem Counted.delete (hc : Counted s (some p)) (hb : s.blocks p = some b) (hp : s.holders p = 0) :
    Counted { s.setBlock p none with freed := p :: s.freed } none where
  few := hc.few
  count_eq q c hc' := by
    rcases eq_or_ne q p with rfl | hq
    · simp [SharedState.setBlock] at hc'
    · rw [hc.count_eq q c (by simpa [SharedState.setBlock, hq] using hc'), claimants_other hq]
      rfl
  claimed q := by
    show (s.setBlock p none).blocks q ≠ none ↔ 0 < s.holders q
    rcases eq_or_ne q p with rfl | hq
    · simp [SharedState.setBlock, hp]
    · rw [← claimants_other hq, ← hc.claimed q]
      simp [SharedState.setBlock, hq]
  born q hq' := by
    rcases eq_or_ne q p with rfl | hq
    · simp [SharedState.setBlock] at hq'
    · exact hc.born q (by simpa [SharedState.setBlock, hq] using hq')
  freed_iff q := by
    rcases eq_or_ne q p with rfl | hq
    · simpa [SharedState.setBlock] using hc.born q (by simp [hb])
    · simp [SharedState.setBlock, hq, hc.freed_iff]
  once := by
    refine List.nodup_cons.2 ⟨?_, hc.once⟩
    intro hm
    rw [((hc.freed_iff p).1 hm).2] at hb
    cases hb

theorem kept_setBlock (hb : s.blocks p = some b) {c : SharedBlock B} (hv : c.value = b.value) :
    Kept s (s.setBlock p (some c)) := by
  intro q _
  rcases eq_or_ne q p with rfl | hq
  · simp [setBlock, hb, hv]
  · simp [setBlock, hq]

theorem get_kept [CountedBitmap B Key] (hi : s.handles i = some h) (hk : Kept s s') :
    s'.get h = s.get h := by
  cases hb : h.block with
  | none => simp [get, hb]
  | some p => simpa [get, hb] using hk p (holders_pos_iff.2 ⟨i, (naming_eq hi).trans hb⟩)

/-- A handle that exists reads a bitmap. -/
theorem Counted.get [CountedBitmap B Key] (hc : Counted s left) (hi : s.handles i = some h) :
    ∃ v, s.get h = some v := by
  cases hb : h.block with
  | none => exact ⟨CountedBitmap.empty, by simp [SharedState.get, hb]⟩
  | some p =>
    obtain ⟨c, hp⟩ := hc.named ((naming_eq hi).trans hb)
    exact ⟨c.value, by simp [SharedState.get, hb, hp]⟩

/-- The bitmap that a reference to a handle's names reads the same while its block has a name. -/
theorem place_kept [CountedBitmap B Key] (hj : s.handles j = some h) (hw : s.get h = some w) :
    ∃ place, s.locate (.get j) = some place ∧ ∀ s', Kept s s' → s'.read place = some w := by
  cases hb : h.block with
  | none =>
    refine ⟨.empty, by simp [locate, hj, hb], ?_⟩
    intro s' _
    rwa [SharedState.get, hb] at hw
  | some p =>
    refine ⟨.block p, by simp [locate, hj, hb], ?_⟩
    intro s' hk
    have hnamed := hk p (holders_pos_iff.2 ⟨j, (naming_eq hj).trans hb⟩)
    rw [SharedState.get, hb] at hw
    exact hnamed.trans hw

/-! ## The steps of a call -/

theorem Counted.increment (hc : Counted s none)
    (hq : ∀ p, left = some p → ∃ b, s.blocks p = some b) :
    ∃ s', s.increment left = some s' ∧ Counted s' left ∧ s'.handles = s.handles ∧
      s'.editing = s.editing ∧ Kept s s' := by
  cases left with
  | none => exact ⟨s, rfl, hc, rfl, rfl, fun _ _ ↦ rfl⟩
  | some p =>
    obtain ⟨b, hb⟩ := hq p rfl
    have hset : Counted (s.setBlock p (some { b with count := b.count + 1#32 })) (some p) := by
      refine hc.setBlock hb ?_ ?_ fun q hq ↦ claimants_other hq
      · rw [claimants_some]
        exact Nat.succ_pos _
      · rw [claimants_some, BitVec.ofNat_add, hc.count_eq p b hb]
        rfl
    exact ⟨_, by simp [SharedState.increment, hb], hset, rfl, rfl, kept_setBlock hb rfl⟩

theorem Counted.release (hc : Counted s left) :
    ∃ s', s.release left = some s' ∧ Counted s' none ∧ s'.handles = s.handles ∧
      s'.editing = s.editing ∧ Kept s s' := by
  cases left with
  | none => exact ⟨s, rfl, hc, rfl, rfl, fun _ _ ↦ rfl⟩
  | some p =>
    have hclaimants := claimants_some (s := s) (p := p)
    obtain ⟨b, hb⟩ := hc.block (by rw [hclaimants]; exact Nat.succ_pos _)
    have hlast := hc.count_eq_one_iff hb
    rw [hclaimants, Nat.add_eq_right] at hlast
    by_cases hone : b.count = 1#32
    · refine ⟨_, by simp [SharedState.release, hb, hone], hc.delete hb (hlast.1 hone), rfl, rfl, ?_⟩
      intro q hq
      rcases eq_or_ne q p with rfl | hne
      · exact absurd (hlast.1 hone) hq.ne'
      · simp [SharedState.setBlock, hne]
    · have hset : Counted (s.setBlock p (some { b with count := b.count - 1#32 })) none := by
        refine hc.setBlock hb (Nat.pos_of_ne_zero fun hzero ↦ hone (hlast.2 hzero)) ?_ fun q hq ↦
          (claimants_other hq).symm
        show b.count - 1#32 = BitVec.ofNat 32 (s.holders p)
        rw [hc.count_eq p b hb, hclaimants, BitVec.ofNat_add]
        exact BitVec.add_sub_cancel _ _
      exact ⟨_, by simp [SharedState.release, hb, hone], hset, rfl, rfl, kept_setBlock hb rfl⟩

theorem Counted.makeBlock (hc : Counted s none) (v : B) :
    Counted (s.makeBlock v) (some s.fresh) ∧ Kept s (s.makeBlock v) := by
  have hzero : s.holders s.fresh = 0 := hc.unclaimed hc.fresh_absent
  have hclaimants : (s.makeBlock v).claimants = s.claimants := claimants_congr naming_makeBlock
  refine ⟨⟨hc.few, ?_, ?_, ?_, ?_, hc.once⟩, ?_⟩
  · intro q c hc'
    rw [blocks_makeBlock] at hc'
    rw [hclaimants]
    rcases eq_or_ne q s.fresh with rfl | hq
    · obtain rfl : _ = c := by simpa using hc'
      rw [claimants_some, hzero]
    · rw [claimants_other hq]
      exact hc.count_eq q c (by simpa [hq] using hc')
  · intro q
    rw [blocks_makeBlock, hclaimants]
    rcases eq_or_ne q s.fresh with rfl | hq
    · simp [claimants_some]
    · rw [claimants_other hq, Function.update_of_ne hq]
      exact hc.claimed q
  · intro q hq'
    rw [blocks_makeBlock] at hq'
    rcases eq_or_ne q s.fresh with rfl | hq
    · exact Nat.lt_succ_self _
    · exact (hc.born q (by simpa [hq] using hq')).trans (Nat.lt_succ_self _)
  · intro q
    rw [show (s.makeBlock v).freed = s.freed from rfl, blocks_makeBlock, fresh_makeBlock,
      hc.freed_iff]
    rcases eq_or_ne q s.fresh with rfl | hq
    · simp
    · simp only [Function.update_of_ne hq]
      constructor
      · intro hlt
        exact ⟨hlt.1.trans (Nat.lt_succ_self _), hlt.2⟩
      · intro hlt
        exact ⟨lt_of_le_of_ne (Nat.le_of_lt_succ hlt.1) hq, hlt.2⟩
  · intro q hq'
    rw [blocks_makeBlock]
    rcases eq_or_ne q s.fresh with rfl | hq
    · omega
    · simp [hq]

end Roaring.SharedState
