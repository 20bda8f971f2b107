import Mathlib
import Roaring.Bitmap.SharedCounts

/-!
# Sound handles

The sets that the handles read are those of plain bitmaps, one to a handle, to
which the same is done.  A call that fails in the change itself leaves what the
bitmap's own member leaves when it fails.

A state is sound when its counts are right, every handle knows the size of its
bitmap, and a block that is edited has one name.  The last is what keeps the
editor from writing what another handle reads.
-/

namespace Roaring.SharedState

open CountedBitmap LawfulCountedBitmap

variable {ι B Key : Type} [DecidableEq Key] [CountedBitmap B Key] [LawfulCountedBitmap B Key]

/-! ## Plain bitmaps -/

/-- The set that a handle reads. -/
def reads (s : SharedState ι B) (i : ι) : Option (Finset Key) :=
  (s.handles i).bind fun h ↦ (s.get h).map values

/-- The set of an operand, where the bitmaps by name have the sets `r`. -/
def operandSet (r : ι → Option (Finset Key)) : SharedOperand ι B → Option (Finset Key)
  | .bitmap b => some (values b)
  | .get j => r j

open Function (update)

/-- What a call does to plain bitmaps, given as their sets by name, when it ends with an outcome. -/
inductive PlainStep [DecidableEq ι] (fate : Fate) :
    SharedOp ι B Key → SharedOutcome → (ι → Option (Finset Key)) → (ι → Option (Finset Key)) → Prop
  | create {r i} : PlainStep fate (.create i) (.done true) r (update r i (some ∅))
  | wrap {r i b} : PlainStep fate (.wrap i b) (.done true) r (update r i (some (values b)))
  | copyConstruct {r i j a} (hj : r j = some a) :
      PlainStep fate (.copyConstruct i j) (.done true) r (update r i (some a))
  | moveConstruct {r i j a} (hj : r j = some a) :
      PlainStep fate (.moveConstruct i j) (.done true) r (update (update r j (some ∅)) i (some a))
  | copyAssign {r i j a} (hj : r j = some a) :
      PlainStep fate (.copyAssign i j) (.done true) r (update r i (some a))
  | moveAssign {r i j a} (hj : r j = some a) :
      PlainStep fate (.moveAssign i j) (.done true) r (update (update r j (some ∅)) i (some a))
  | swap {r i j a b} (hi : r i = some a) (hj : r j = some b) :
      PlainStep fate (.swap i j) (.done true) r (update (update r i (some b)) j (some a))
  | drop {r i} : PlainStep fate (.drop i) (.done true) r (update r i none)
  | add {r i k a} (hi : r i = some a) :
      PlainStep fate (.add i k) (.done (decide (k ∉ a))) r (update r i (some (insert k a)))
  | remove {r i k a} (hi : r i = some a) :
      PlainStep fate (.remove i k) (.done (decide (k ∈ a))) r (update r i (some (a.erase k)))
  | assignHandle {r op i j a b} (hi : r i = some a) (hj : r j = some b) :
      PlainStep fate (.assignHandle op i j) (.done true) r (update r i (some (op.apply a b)))
  | assignBitmap {r op i o a b} (hi : r i = some a) (ho : operandSet r o = some b) :
      PlainStep fate (.assignBitmap op i o) (.done true) r (update r i (some (op.apply a b)))
  | clear {r i} : PlainStep fate (.clear i) (.done true) r (update r i (some ∅))
  | edit {r i} : PlainStep fate (.edit i) (.done true) r r
  | through {r i f} (v : B) (hi : r i = some (values v)) :
      PlainStep fate (.through i f) (.done true) r (update r i (some (values (f v))))
  | endEdit {r i} : PlainStep fate (.endEdit i) (.done true) r r
  | threwCopying {r op} (hf : fate.block = true) : PlainStep fate op .threwCopying r r
  | addThrew {r i k} (v : B) (hi : r i = some (values v))
      (hv : (CountedBitmap.add fate.change v k).answer = none) :
      PlainStep fate (.add i k) .threwChanging r
        (update r i (some (values (CountedBitmap.add fate.change v k).value)))
  | removeThrew {r i k} (v : B) (hi : r i = some (values v))
      (hv : (CountedBitmap.remove fate.change v k).answer = none) :
      PlainStep fate (.remove i k) .threwChanging r
        (update r i (some (values (CountedBitmap.remove fate.change v k).value)))
  | assignHandleThrew {r op i j} (v w : B) (hi : r i = some (values v)) (hj : r j = some (values w))
      (hv : (assign op fate.change v w).answer = none) :
      PlainStep fate (.assignHandle op i j) .threwChanging r
        (update r i (some (values (assign op fate.change v w).value)))
  | assignBitmapThrew {r op i o} (v w : B) (hi : r i = some (values v))
      (ho : operandSet r o = some (values w)) (hv : (assign op fate.change v w).answer = none) :
      PlainStep fate (.assignBitmap op i o) .threwChanging r
        (update r i (some (values (assign op fate.change v w).value)))

/-! ## Sound states -/

/-- The counts are right beside a block that a call holds, the sizes are those of the sets, and a
block that is edited has one name. -/
structure Sound [Fintype ι] (s : SharedState ι B) (left : Option Nat) : Prop where
  counted : Counted s left
  sized : ∀ i h v, s.handles i = some h → s.editing i = false → s.get h = some v →
    h.size = (values v).card
  alone : ∀ i, s.editing i = true → ∃ p, s.naming i = some p ∧ ∀ j, s.naming j = some p → j = i

/-- A handle that exists and has no living editor. -/
def Idle (s : SharedState ι B) (i : ι) : Prop := s.handles i ≠ none ∧ s.editing i = false

variable {s s' : SharedState ι B} {i j : ι} {p : Nat} {left left' : Option Nat} {h : SharedHandle}
  {o : Option SharedHandle} {b : SharedBlock B} {v w : B} {fate : Fate}

theorem reads_eq (hi : s.handles i = some h) (hv : s.get h = some v) :
    s.reads i = some (values v) := by
  simp [reads, hi, hv]

/-- A handle without a block reads nothing. -/
theorem block_ne_none (hv : s.get h = some v) (hne : values v ≠ ∅) : h.block ≠ none := by
  intro hnone
  obtain rfl : CountedBitmap.empty = v := by simpa [get, hnone] using hv
  exact hne values_empty

/-- A handle reads what it read if it is as it was and so is the bitmap of its block. -/
theorem reads_congr (hh : s'.handles i = s.handles i)
    (hk : ∀ p, s.naming i = some p →
      (s'.blocks p).map SharedBlock.value = (s.blocks p).map SharedBlock.value) :
    s'.reads i = s.reads i := by
  rw [reads, reads, hh]
  cases hi : s.handles i with
  | none => rfl
  | some h =>
    have hget : s'.get h = s.get h := by
      cases hb : h.block with
      | none => simp [get, hb]
      | some p => simpa [get, hb] using hk p ((naming_eq hi).trans hb)
    simp [hget]

theorem update_reads [DecidableEq ι] {a : Finset Key} (hi : s.reads i = some a) :
    update s.reads i (some a) = s.reads :=
  Function.update_eq_self_iff.2 hi.symm

/-- Handles that name one block read one set. -/
theorem reads_of_shares {h g : SharedHandle} (hi : s.handles i = some h) (hj : s.handles j = some g)
    (hshares : sharesStorageWith h g = true) : s.reads i = s.reads j ∧ s.naming i = s.naming j ∧
      s.naming i ≠ none := by
  rw [sharesStorageWith, Bool.and_eq_true, decide_eq_true_iff, Option.isSome_iff_ne_none] at hshares
  refine ⟨by simp [reads, hi, hj, get, hshares.2], ?_, ?_⟩
  · rw [naming_eq hi, naming_eq hj, hshares.2]
  · rw [naming_eq hi]
    exact hshares.1

/-- Handles that share a storage read the same set. -/
theorem values_eq_of_shares {g : SharedHandle} (hh : s.handles i = some h)
    (hg : s.handles j = some g) (hi : s.reads i = some (values v)) (hj : s.reads j = some (values w))
    (hshares : sharesStorageWith h g = true) : values v = values w := by
  have hsame := (reads_of_shares hh hg hshares).1
  rw [hi, hj] at hsame
  exact Option.some.inj hsame

/-- Where only one set was replaced and none changed, it is what it was. -/
theorem unchanged [DecidableEq ι] {a a' : Finset Key} (hi : s.reads i = some a)
    (hreads : s'.reads = update s.reads i (some a')) (hsame : s'.reads = s.reads) : a' = a := by
  have hval := congrFun (hreads.symm.trans hsame) i
  rw [Function.update_self, hi] at hval
  exact Option.some.inj hval

variable [Fintype ι]

theorem sound_start (hfew : Fintype.card ι < 2 ^ 32) : Sound ({} : SharedState ι B) none where
  counted := counted_start hfew
  sized i h v hi := by cases hi
  alone i hi := by cases hi

/-- What leaves the handles and the bitmaps they read leaves the sets. -/
theorem Sound.keep (hs : Sound s left) (hc : Counted s' left') (hh : s'.handles = s.handles)
    (he : s'.editing = s.editing) (hk : Kept s s') : Sound s' left' ∧ s'.reads = s.reads := by
  have hn : s'.naming = s.naming := naming_congr hh
  constructor
  · constructor
    · exact hc
    · intro i h v hi hidle hv
      rw [hh] at hi
      rw [he] at hidle
      rw [get_kept hi hk] at hv
      exact hs.sized i h v hi hidle hv
    · intro i hi
      rw [he] at hi
      rw [hn]
      exact hs.alone i hi
  · funext i
    apply reads_congr (congrFun hh i)
    intro p hp
    exact hk p (holders_pos_iff.2 ⟨i, hp⟩)

/-- What the call holds is given up. -/
theorem Sound.giveUp (hs : Sound s left) :
    ∃ s', s.release left = some s' ∧ Sound s' none ∧ s'.handles = s.handles ∧
      s'.editing = s.editing ∧
      s'.reads = s.reads ∧ Kept s s' := by
  obtain ⟨s', hrelease, hc, hh, he, hk⟩ := hs.counted.release
  obtain ⟨hs', hreads⟩ := hs.keep hc hh he hk
  exact ⟨s', hrelease, hs', hh, he, hreads, hk⟩

/-- The count is taken for a handle that will share the block. -/
theorem Sound.lend (hs : Sound s none) (hj : s.handles j = some h) :
    ∃ s', s.increment h.block = some s' ∧ Sound s' h.block ∧ s'.handles = s.handles ∧
      s'.editing = s.editing ∧ s'.reads = s.reads ∧ s'.get h = s.get h := by
  have hnamed : ∀ p, h.block = some p → ∃ b, s.blocks p = some b := by
    intro p hp
    exact hs.counted.named ((naming_eq hj).trans hp)
  obtain ⟨s', hinc, hc, hh, he, hk⟩ := hs.counted.increment hnamed
  obtain ⟨hs', hreads⟩ := hs.keep hc hh he hk
  exact ⟨s', hinc, hs', hh, he, hreads, get_kept hj hk⟩

theorem Sound.fresh_unnamed (hs : Sound s left) (j : ι) : s.naming j ≠ some s.fresh := by
  intro hj
  obtain ⟨c, hc⟩ := hs.counted.named hj
  rw [hs.counted.fresh_absent] at hc
  cases hc

theorem Sound.not_editing_absent (hs : Sound s left) (hi : s.handles i = none) :
    s.editing i = false := by
  by_contra he
  obtain ⟨p, hp, _⟩ := hs.alone i (by simpa using he)
  rw [naming_absent hi] at hp
  cases hp

/-- A block that is edited has no second name. -/
theorem Sound.not_editing (hs : Sound s left) (hi : s.editing i = false) (hp : s.naming i = some p)
    (hj : s.editing j = true) : s.naming j ≠ some p := by
  intro hjp
  obtain ⟨q, hq, halone⟩ := hs.alone j hj
  have hpq : p = q := Option.some.inj (hjp.symm.trans hq)
  have hij : i = j := halone i (hpq ▸ hp)
  rw [hij, hj] at hi
  cases hi

/-- What a handle that exists names, reads and counts. -/
theorem Sound.handle (hs : Sound s left) (hi : Idle s i) :
    ∃ h v, s.handles i = some h ∧ s.get h = some v ∧ s.reads i = some (values v) ∧
      h.size = (values v).card := by
  obtain ⟨h, hh⟩ := Option.ne_none_iff_exists'.1 hi.1
  obtain ⟨v, hv⟩ := hs.counted.get hh
  exact ⟨h, v, hh, hv, reads_eq hh hv, hs.sized i h v hh hi.2 hv⟩

/-- Whether a handle is the only one to name its block. -/
theorem Sound.isUnique (hs : Sound s none) (hi : s.handles i = some h) :
    ∃ u, s.isUnique h = some u ∧ (u = true ↔ ∀ p, h.block = some p → s.holders p = 1) := by
  cases hb : h.block with
  | none => exact ⟨true, by simp [SharedState.isUnique, hb], by simp⟩
  | some p =>
    obtain ⟨c, hp⟩ := hs.counted.named ((naming_eq hi).trans hb)
    refine ⟨decide (c.count = 1#32), by simp [SharedState.isUnique, hb, hp], ?_⟩
    simp [hs.counted.count_eq_one_iff hp]

/-- An operand refers to a bitmap with the set that is meant. -/
theorem Sound.place (hs : Sound s none) {other : SharedOperand ι B}
    (ho : ∀ j, other = .get j → s.handles j ≠ none) :
    ∃ place w, s.locate other = some place ∧ operandSet s.reads other = some (values w) ∧
      ∀ s', Kept s s' → s'.read place = some w := by
  cases other with
  | bitmap w => exact ⟨.outside w, w, rfl, rfl, fun _ _ ↦ rfl⟩
  | get j =>
    obtain ⟨h, hh⟩ := Option.ne_none_iff_exists'.1 (ho j rfl)
    obtain ⟨w, hw⟩ := hs.counted.get hh
    obtain ⟨place, hlocate, hplace⟩ := place_kept hh hw
    exact ⟨place, w, hlocate, reads_eq hh hw, hplace⟩

/-- What an edited handle names. -/
theorem Sound.edited (hs : Sound s none) (hi : s.editing i = true) :
    ∃ p n b, s.handles i = some ⟨some p, n⟩ ∧ s.blocks p = some b ∧ s.naming i = some p ∧
      (∀ j, s.naming j = some p → j = i) ∧ s.reads i = some (values b.value) := by
  obtain ⟨p, hp, halone⟩ := hs.alone i hi
  obtain ⟨b, hb⟩ := hs.counted.named hp
  obtain ⟨⟨q, n⟩, hh, hq⟩ := Option.bind_eq_some_iff.1 hp
  obtain rfl : q = some p := hq
  exact ⟨p, n, b, hh, hb, hp, halone, reads_eq hh (by simp [get, hb])⟩

variable [DecidableEq ι]

/-- A handle is set to what the call holds, which no editor writes. -/
theorem Sound.setHandle (hs : Sound s left) (hi : s.editing i = false)
    (ho : o.bind SharedHandle.block = left)
    (hsize : ∀ h v, o = some h → s.get h = some v → h.size = (values v).card)
    (hleft : ∀ j p, s.editing j = true → left = some p → s.naming j ≠ some p) :
    Sound (s.setHandle i o) (s.naming i) ∧
      (s.setHandle i o).reads = update s.reads i (o.bind fun h ↦ (s.get h).map values) := by
  constructor
  · constructor
    · exact hs.counted.exchange ho i
    · intro j h v hj hidle hv
      rcases eq_or_ne j i with rfl | hne
      · exact hsize h v (by simpa [SharedState.setHandle] using hj) hv
      · exact hs.sized j h v (by simpa [SharedState.setHandle, hne] using hj) hidle hv
    · intro e he
      obtain ⟨p, hp, halone⟩ := hs.alone e he
      have hei : e ≠ i := by
        rintro rfl
        rw [show s.editing e = true from he] at hi
        cases hi
      refine ⟨p, by rw [naming_setHandle, Function.update_of_ne hei, hp], ?_⟩
      intro j hj
      rw [naming_setHandle] at hj
      rcases eq_or_ne j i with rfl | hne
      · rw [Function.update_self, ho] at hj
        exact absurd hp (hleft e p he hj)
      · rw [Function.update_of_ne hne] at hj
        exact halone j hj
  · funext j
    rcases eq_or_ne j i with rfl | hne
    · simp only [reads, SharedState.setHandle, Function.update_self]
      rfl
    · rw [Function.update_of_ne hne]
      exact reads_congr (by simp [SharedState.setHandle, hne]) fun _ _ ↦ rfl

/-- The bitmap of a block with one name is changed, and its handle takes the size. -/
theorem Sound.setOwn (hs : Sound s left) (hi : s.naming i = some p)
    (halone : ∀ j, s.naming j = some p → j = i) (hb : s.blocks p = some b) (v : B) (n : Nat)
    (hn : s.editing i = false → n = (values v).card) :
    Sound ((s.setBlock p (some { b with value := v })).setHandle i (some ⟨some p, n⟩))
        left ∧
      ((s.setBlock p (some { b with value := v })).setHandle i
        (some ⟨some p, n⟩)).reads = update s.reads i (some (values v)) := by
  have hset : Counted (s.setBlock p (some { b with value := v })) left :=
    hs.counted.setBlock hb ((hs.counted.claimed p).1 (by simp [hb])) (hs.counted.count_eq p b hb)
      fun _ _ ↦ rfl
  have hnaming : ((s.setBlock p (some { b with value := v })).setHandle i
      (some ⟨some p, n⟩)).naming = s.naming := by
    rw [naming_setHandle, naming_setBlock]
    exact Function.update_eq_self_iff.2 hi.symm
  have hvalue : ∀ j q, j ≠ i → s.naming j = some q →
      (s.setBlock p (some { b with value := v })).blocks q = s.blocks q := by
    intro j q hj hq
    have hqp : q ≠ p := by
      rintro rfl
      exact hj (halone j hq)
    simp [SharedState.setBlock, hqp]
  constructor
  · constructor
    · have hclaimants := claimants_congr hnaming
      constructor
      · exact hset.few
      · intro q c hc
        rw [hclaimants]
        exact hset.count_eq q c hc
      · intro q
        rw [hclaimants]
        exact hset.claimed q
      · exact hset.born
      · exact hset.freed_iff
      · exact hset.once
    · intro j h w hj hidle hw
      rcases eq_or_ne j i with rfl | hne
      · obtain rfl : _ = h := by simpa [SharedState.setHandle] using hj
        have hvw : v = w := by simpa [SharedState.get, SharedState.setHandle,
          SharedState.setBlock] using hw
        rw [← hvw]
        exact hn hidle
      · have hj' : s.handles j = some h := by
          simpa [SharedState.setHandle, hne] using hj
        refine hs.sized j h w hj' hidle ?_
        rw [← hw]
        cases hq : h.block with
        | none => simp [SharedState.get, hq]
        | some q =>
          simp only [SharedState.get, hq]
          rw [show ((s.setBlock p (some { b with value := v })).setHandle i
            (some ⟨some p, n⟩)).blocks q = s.blocks q from
              hvalue j q hne ((naming_eq hj').trans hq)]
    · intro e he
      rw [hnaming]
      exact hs.alone e he
  · funext j
    rcases eq_or_ne j i with rfl | hne
    · simp [reads, SharedState.get, SharedState.setHandle, SharedState.setBlock]
    · rw [Function.update_of_ne hne]
      apply reads_congr
      · simp [SharedState.setHandle, SharedState.setBlock, hne]
      · intro q hq
        rw [show ((s.setBlock p (some { b with value := v })).setHandle i
          (some ⟨some p, n⟩)).blocks q = s.blocks q from hvalue j q hne hq]

/-! ## A block of its own -/

/-- What `take_own` leaves: the block is the handle's only and reads as the handle did, and a block
that had one name stays. -/
structure Owned (s : SharedState ι B) (i : ι) (h : SharedHandle) (v : B) (s' : SharedState ι B)
    (left : Option Nat) (p : Nat) : Prop where
  sound : Sound s' left
  reads_eq : s'.reads = s.reads
  handle : s'.handles i = some { h with block := some p }
  block : ∃ c, s'.blocks p = some ⟨c, v⟩
  alone : ∀ j, s'.naming j = some p → j = i
  kept : Kept s s'
  editing : s'.editing = s.editing
  naming_eq : (∀ p, h.block = some p → s.holders p = 1) → h.block ≠ none → s'.naming = s.naming

/-- A handle takes a copy of what it reads. -/
theorem Sound.copied (hs : Sound s none) (hi : Idle s i) (hh : s.handles i = some h)
    (hv : s.get h = some v) (hb : h.block = none ∨ ∃ p, h.block = some p ∧ s.holders p ≠ 1) :
    Owned s i h v ((s.makeBlock v).setHandle i (some { h with block := some s.fresh })) h.block
      s.fresh := by
  obtain ⟨hmade, hkept⟩ := hs.counted.makeBlock v
  obtain ⟨hs₁, hreads₁⟩ := hs.keep hmade rfl rfl hkept
  have hget : (s.makeBlock v).get { h with block := some s.fresh } = some v := by
    simp [SharedState.get, blocks_makeBlock]
  obtain ⟨hs₂, hreads₂⟩ := hs₁.setHandle (i := i) (o := some { h with block := some s.fresh })
    hi.2 rfl
    (by
      intro h' w hh' hw
      obtain rfl : _ = h' := Option.some.inj hh'
      rw [hget] at hw
      obtain rfl : v = w := Option.some.inj hw
      exact hs.sized i h v hh hi.2 hv)
    (by
      intro j p _ hp
      rw [← hp]
      exact hs.fresh_unnamed j)
  rw [naming_makeBlock, SharedState.naming_eq hh] at hs₂
  constructor
  · exact hs₂
  · rw [hreads₂, hreads₁, Option.bind_some, hget, Option.map_some, Function.update_eq_self_iff,
      SharedState.reads_eq hh hv]
  · simp [SharedState.setHandle]
  · exact ⟨1#32, by simp [SharedState.setHandle, blocks_makeBlock]⟩
  · intro j hj
    by_contra hne
    rw [naming_setHandle, Function.update_of_ne hne] at hj
    exact hs.fresh_unnamed j hj
  · exact hkept
  · rfl
  · intro hone hsome
    obtain hb | ⟨p, hp, htwo⟩ := hb
    · exact absurd hb hsome
    · exact absurd (hone p hp) htwo

theorem Sound.takeOwn (hs : Sound s none) (hi : Idle s i) (hh : s.handles i = some h)
    (hv : s.get h = some v) (fails : Bool) :
    (s.takeOwn fails i = some none ∧ fails = true) ∨
      ∃ s' left p, s.takeOwn fails i = some (some (s', left)) ∧ Owned s i h v s' left p := by
  cases hb : h.block with
  | none =>
    have hempty : CountedBitmap.empty = v := by simpa [SharedState.get, hb] using hv
    cases fails with
    | true => exact .inl ⟨by simp [SharedState.takeOwn, hh, hb], rfl⟩
    | false =>
      refine .inr ⟨_, none, s.fresh, ?_, hb ▸ hs.copied hi hh hv (.inl hb)⟩
      simp [SharedState.takeOwn, hh, hb, hempty]
  | some p =>
    obtain ⟨c, hc⟩ := hs.counted.named ((naming_eq hh).trans hb)
    have hvalue : c.value = v := by simpa [SharedState.get, hb, hc] using hv
    have hcount : c.count = 1#32 ↔ s.holders p = 1 := hs.counted.count_eq_one_iff hc
    by_cases hone : c.count = 1#32
    · refine .inr ⟨s, none,
        p, by simp [SharedState.takeOwn, hh, hb, hc, hone], hs, rfl, ?_, ?_, ?_, ?_, rfl, ?_⟩
      · rw [hh, ← hb]
      · exact ⟨c.count, by rw [hc, ← hvalue]⟩
      · intro j hj
        exact eq_of_holders (hcount.1 hone) ((naming_eq hh).trans hb) hj
      · intro q _
        rfl
      · intro _ _
        rfl
    · cases fails with
      | true => exact .inl ⟨by simp [SharedState.takeOwn, hh, hb, hc, hone], rfl⟩
      | false =>
        refine .inr ⟨_, some p, s.fresh, ?_,
          hb ▸ hs.copied hi hh hv (.inr ⟨p, hb, fun hp ↦ hone (hcount.2 hp)⟩)⟩
        simp [SharedState.takeOwn, hh, hb, hc, hone, hvalue]

/-- How a change ends, given what the member of the bitmap leaves. -/
def changeOutcome (r : Attempt B Bool) : SharedOutcome :=
  match r.answer with
  | some answer => .done answer
  | none => .threwChanging

/-- A change of the bitmap `v` of a handle, whose member leaves `r`. -/
structure Changed (s : SharedState ι B) (i : ι) (h : SharedHandle) (r : Attempt B Bool)
    (s' : SharedState ι B) : Prop where
  sound : Sound s' none
  reads_eq : s'.reads = update s.reads i (some (values r.value))
  naming_eq : (∀ p, h.block = some p → s.holders p = 1) → h.block ≠ none → s'.naming = s.naming

theorem Sound.changeOwn (hs : Sound s none) (hi : Idle s i) (hh : s.handles i = some h)
    (hv : s.get h = some v) (fate : Fate) (change : SharedState ι B → B → Option (Attempt B Bool))
    {r : Attempt B Bool} (hchange : ∀ s', Kept s s' → change s' v = some r) :
    (s.changeOwn fate i change = some (s, .threwCopying) ∧ fate.block = true) ∨
      ∃ s', s.changeOwn fate i change = some (s', changeOutcome r) ∧ Changed s i h r s' := by
  obtain ⟨htake, hf⟩ | ⟨s₁, left, p, htake, hown⟩ := hs.takeOwn hi hh hv fate.block
  · exact .inl ⟨by simp [SharedState.changeOwn, htake], hf⟩
  obtain ⟨c, hc⟩ := hown.block
  have hnaming : s₁.naming i = some p := by rw [SharedState.naming_eq hown.handle]
  obtain ⟨hs₂, hreads₂⟩ := hown.sound.setOwn hnaming hown.alone hc r.value
    (CountedBitmap.size r.value) fun _ ↦ size_eq _
  obtain ⟨s₃, hrelease, hc₃, hh₃, he₃, hk₃⟩ := hs₂.counted.release
  obtain ⟨hs₃, hreads₃⟩ := hs₂.keep hc₃ hh₃ he₃ hk₃
  refine .inr ⟨s₃, ?_, hs₃, ?_, ?_⟩
  · have hrefresh : (s₁.setBlock p (some ⟨c, r.value⟩)).refresh i =
        some ((s₁.setBlock p (some ⟨c, r.value⟩)).setHandle i
          (some ⟨some p, CountedBitmap.size r.value⟩)) := by
      simp [refresh, hown.handle, SharedState.setBlock]
    simp only [SharedState.changeOwn, htake, hown.handle, hc, hchange s₁ hown.kept, hrefresh,
      hrelease,
      Option.bind_eq_bind, Option.bind_some, Option.pure_def]
    rfl
  · rw [hreads₃, hreads₂, hown.reads_eq]
  · intro hone hsome
    rw [← hown.naming_eq hone hsome]
    funext j
    rw [naming, hh₃]
    show ((s₁.setBlock p (some ⟨c, r.value⟩)).setHandle i
      (some ⟨some p, CountedBitmap.size r.value⟩)).naming j = _
    rw [naming_setHandle, naming_setBlock]
    exact congrFun (Function.update_eq_self_iff.2 hnaming.symm) j

end Roaring.SharedState
