import Mathlib
import Roaring.Bitmap.SharedSound

/-!
# Runs of counted handles

Each call on a sound state returns or throws, leaves a sound state, and does to the
sets what plain bitmaps would do.  A run is then an induction over its calls: the
handles read what plain bitmaps hold that went through the same calls.
-/

namespace Roaring.SharedState

open CountedBitmap LawfulCountedBitmap
open Function (update)

variable {ι B Key : Type} [DecidableEq Key] [CountedBitmap B Key] [LawfulCountedBitmap B Key]
  [Fintype ι] [DecidableEq ι]
  {s s' : SharedState ι B} {i j : ι} {p : Nat} {left left' : Option Nat} {h : SharedHandle}
  {o : Option SharedHandle} {b : SharedBlock B} {v w : B} {fate : Fate}

/-! ## One call -/

/-- The changes that find out first whether they change the set: all but `clear`, `edit`, and `-=`
by a handle that names the same block. -/
def FindsOut (s : SharedState ι B) : SharedOp ι B Key → Prop
  | .add .. | .remove .. | .assignBitmap .. => True
  | .assignHandle op i j => op = .bitAndnot → s.naming i = none ∨ s.naming i ≠ s.naming j
  | _ => False

/-- The operators that ask a handle for its size: they trust an operand to know its own. -/
def TrustsSize : SetOp → Prop
  | .bitOr | .bitXor => True
  | .bitAnd | .bitAndnot => False

/-- What one call keeps and does. -/
structure Stepped (fate : Fate) (op : SharedOp ι B Key) (s s' : SharedState ι B)
    (outcome : SharedOutcome) : Prop where
  sound : Sound s' none
  plain : PlainStep fate op outcome s.reads s'.reads
  copying : outcome = .threwCopying → s' = s
  sharing : ∀ answer, outcome = .done answer → s.FindsOut op → s'.reads = s.reads →
    s'.naming = s.naming

/-- Nothing is done. -/
theorem Sound.skip (hs : Sound s none) {op : SharedOp ι B Key} {answer : Bool}
    (hplain : PlainStep fate op (.done answer) s.reads s.reads) :
    Stepped fate op s s (.done answer) :=
  ⟨hs, hplain, fun h ↦ (by cases h), fun _ _ _ _ ↦ rfl⟩

theorem Sound.failed (hs : Sound s none) {op : SharedOp ι B Key} (hf : fate.block = true) :
    Stepped fate op s s .threwCopying :=
  ⟨hs, .threwCopying hf, fun _ ↦ rfl, fun _ h ↦ (by cases h)⟩

theorem Sound.add (hs : Sound s none) (hi : Idle s i) (fate : Fate) (k : Key) :
    ∃ s' outcome, s.add fate i k = some (s', outcome) ∧ Stepped fate (.add i k) s s' outcome := by
  obtain ⟨h, v, hh, hv, hreads, _⟩ := hs.handle hi
  obtain ⟨u, hu, hunique⟩ := hs.isUnique hh
  by_cases hskip : u = false ∧ contains v k = true
  · have hk : k ∈ values v := (contains_iff v k).1 hskip.2
    refine ⟨s, .done false, by simp [SharedState.add, hh, hv, hu, hskip.1, hskip.2], hs.skip ?_⟩
    have hplain : PlainStep fate (.add i k : SharedOp ι B Key) _ _ _ := .add hreads
    rwa [Finset.insert_eq_of_mem hk, update_reads hreads,
      decide_eq_false (not_not_intro hk)] at hplain
  have hgo : s.add fate i k = s.changeOwn fate i fun _ own ↦
      some (CountedBitmap.add fate.change own k) := by
    simp only [SharedState.add, hh, hv, hu, Option.bind_eq_bind, Option.bind_some]
    rw [if_neg (by simpa using hskip)]
  obtain ⟨hthrew, hf⟩ | ⟨s', hdone, hc⟩ := hs.changeOwn hi hh hv fate
    (fun _ own ↦ some (CountedBitmap.add fate.change own k)) (fun _ _ ↦ rfl)
  · exact ⟨s, _, hgo.trans hthrew, hs.failed hf⟩
  refine ⟨s', _, hgo.trans hdone, ?_⟩
  cases hr : (CountedBitmap.add fate.change v k).answer with
  | none =>
    rw [changeOutcome, hr]
    refine ⟨hc.sound, ?_, fun h ↦ (by cases h), fun _ h ↦ (by cases h)⟩
    rw [hc.reads_eq]
    exact .addThrew v hreads hr
  | some r =>
    obtain ⟨hvalues, hans⟩ := add_answer fate.change v k r hr
    have hr' : r = decide (k ∉ values v) := by
      rw [Bool.eq_iff_iff, hans, decide_eq_true_iff]
    rw [changeOutcome, hr]
    refine ⟨hc.sound, ?_, fun h ↦ (by cases h), ?_⟩
    · rw [hc.reads_eq, hvalues, hr']
      exact .add hreads
    · intro _ _ _ hsame
      have hk : k ∈ values v := by
        have hins := unchanged hreads hc.reads_eq hsame
        rw [hvalues] at hins
        exact Finset.insert_eq_self.1 hins
      have hone : u = true := by
        by_contra hfalse
        exact hskip ⟨by simpa using hfalse, (contains_iff v k).2 hk⟩
      refine hc.naming_eq (hunique.1 hone) ?_
      intro hnone
      have hempty : CountedBitmap.empty = v := by simpa [get, hnone] using hv
      rw [← hempty, values_empty] at hk
      exact absurd hk (Finset.notMem_empty k)

theorem Sound.remove (hs : Sound s none) (hi : Idle s i) (fate : Fate) (k : Key) :
    ∃ s' outcome, s.remove fate i k = some (s', outcome) ∧
      Stepped fate (.remove i k) s s' outcome := by
  obtain ⟨h, v, hh, hv, hreads, _⟩ := hs.handle hi
  obtain ⟨u, hu, hunique⟩ := hs.isUnique hh
  have hempty : h.block = none → k ∉ values v := by
    intro hnone
    have hempty : CountedBitmap.empty = v := by simpa [get, hnone] using hv
    rw [← hempty, values_empty]
    exact Finset.notMem_empty k
  by_cases hskip : h.block = none ∨ u = false ∧ contains v k = false
  · have hk : k ∉ values v := by
      obtain hnone | ⟨_, hk⟩ := hskip
      · exact hempty hnone
      · rw [← contains_iff, hk]
        exact Bool.false_ne_true
    refine ⟨s, .done false, ?_, hs.skip ?_⟩
    · simp only [SharedState.remove, hh, hv, hu, Option.bind_eq_bind, Option.bind_some]
      rw [if_pos (by simpa using hskip)]
      rfl
    · have hplain : PlainStep fate (.remove i k : SharedOp ι B Key) _ _ _ := .remove hreads
      rwa [Finset.erase_eq_of_notMem hk, update_reads hreads, decide_eq_false hk] at hplain
  have hgo : s.remove fate i k =
      s.changeOwn fate i fun _ own ↦ some (CountedBitmap.remove fate.change own k) := by
    simp only [SharedState.remove, hh, hv, hu, Option.bind_eq_bind, Option.bind_some]
    rw [if_neg (by simpa using hskip)]
  obtain ⟨hthrew, hf⟩ | ⟨s', hdone, hc⟩ := hs.changeOwn hi hh hv fate
    (fun _ own ↦ some (CountedBitmap.remove fate.change own k)) (fun _ _ ↦ rfl)
  · exact ⟨s, _, hgo.trans hthrew, hs.failed hf⟩
  refine ⟨s', _, hgo.trans hdone, ?_⟩
  cases hr : (CountedBitmap.remove fate.change v k).answer with
  | none =>
    rw [changeOutcome, hr]
    refine ⟨hc.sound, ?_, fun h ↦ (by cases h), fun _ h ↦ (by cases h)⟩
    rw [hc.reads_eq]
    exact .removeThrew v hreads hr
  | some r =>
    obtain ⟨hvalues, hans⟩ := remove_answer fate.change v k r hr
    have hr' : r = decide (k ∈ values v) := by
      rw [Bool.eq_iff_iff, hans, decide_eq_true_iff]
    rw [changeOutcome, hr]
    refine ⟨hc.sound, ?_, fun h ↦ (by cases h), ?_⟩
    · rw [hc.reads_eq, hvalues, hr']
      exact .remove hreads
    · intro _ _ _ hsame
      have hk : k ∉ values v := by
        have her := unchanged hreads hc.reads_eq hsame
        rw [hvalues] at her
        exact Finset.erase_eq_self.1 her
      have hnone : h.block ≠ none := fun hnone ↦ hskip (.inl hnone)
      refine hc.naming_eq (hunique.1 ?_) hnone
      by_contra hfalse
      refine hskip (.inr ⟨by simpa using hfalse, ?_⟩)
      rw [← Bool.not_eq_true, contains_iff]
      exact hk

/-! ## Assignments -/

/-- A handle gives its block up to the call. -/
theorem Sound.empty (hs : Sound s none) (hi : s.editing i = false) :
    Sound (s.setHandle i (some {})) (s.naming i) ∧
      (s.setHandle i (some {})).reads = update s.reads i (some ∅) := by
  obtain ⟨hs', hreads⟩ := hs.setHandle (i := i) (o := some {}) hi rfl
    (by
      intro h v hh hv
      obtain rfl : {} = h := Option.some.inj hh
      obtain rfl : CountedBitmap.empty = v := by simpa [get] using hv
      simp [values_empty])
    (by
      intro j p _ hp
      cases hp)
  refine ⟨hs', hreads.trans ?_⟩
  simp [get, values_empty]

theorem Sound.clear (hs : Sound s none) (hi : Idle s i) :
    ∃ s', s.clear i = some s' ∧ Sound s' none ∧ s'.reads = update s.reads i (some ∅) := by
  obtain ⟨h, v, hh, hv, _, _⟩ := hs.handle hi
  obtain ⟨hs₁, hreads₁⟩ := hs.empty hi.2
  obtain ⟨s', hrelease, hs', _, _, hreads, _⟩ := hs₁.giveUp
  refine ⟨s', ?_, hs', hreads.trans hreads₁⟩
  rw [naming_eq hh] at hrelease
  simp [SharedState.clear, hh, hrelease]

/-- A handle takes what the call holds of another's block. -/
theorem Sound.adopt (hs : Sound s left) (hi : s.editing i = false) (hleft : h.block = left)
    (hv : s.get h = some v) (hsize : h.size = (values v).card)
    (hidle : ∀ j p, s.editing j = true → left = some p → s.naming j ≠ some p) :
    Sound (s.setHandle i (some h)) (s.naming i) ∧
      (s.setHandle i (some h)).reads = update s.reads i (some (values v)) := by
  obtain ⟨hs', hreads⟩ := hs.setHandle (i := i) (o := some h) hi hleft
    (by
      intro h' w hh hw
      obtain rfl : h = h' := Option.some.inj hh
      rw [hv] at hw
      obtain rfl : v = w := Option.some.inj hw
      exact hsize)
    hidle
  refine ⟨hs', hreads.trans ?_⟩
  rw [Option.bind_some, hv, Option.map_some]

theorem Sound.copyAssign (hs : Sound s none) (hi : Idle s i) (hj : Idle s j) :
    ∃ s', s.copyAssign i j = some s' ∧ Sound s' none ∧ s'.reads = update s.reads i (s.reads j) := by
  obtain ⟨h, v, hh, hv, hreadsj, hsize⟩ := hs.handle hj
  obtain ⟨own, hown⟩ := Option.ne_none_iff_exists'.1 hi.1
  obtain ⟨s₁, hinc, hs₁, hh₁, he₁, hreads₁, hget₁⟩ := hs.lend hh
  have hnaming₁ : s₁.naming = s.naming := naming_congr hh₁
  obtain ⟨hs₂, hreads₂⟩ := hs₁.adopt (i := i) (he₁ ▸ hi.2) rfl (hget₁.trans hv) hsize (by
    intro k p hk hp
    rw [hnaming₁]
    exact hs.not_editing hj.2 ((naming_eq hh).trans hp) (he₁ ▸ hk))
  obtain ⟨s', hrelease, hs', _, _, hreads, _⟩ := hs₂.giveUp
  refine ⟨s', ?_, hs', ?_⟩
  · rw [hnaming₁, naming_eq hown] at hrelease
    simp [SharedState.copyAssign, hh, hinc, hh₁, hown, hrelease]
  · rw [hreads, hreads₂, hreads₁, hreadsj]

/-! ## Set operations -/

/-- What a set operation on the bitmap `v` of a handle keeps and does, with an operand `w`. -/
structure Assigned (fate : Fate) (op : SetOp) (i : ι) (v w : B) (s s' : SharedState ι B)
    (outcome : SharedOutcome) : Prop where
  sound : Sound s' none
  copying : outcome = .threwCopying → s' = s ∧ fate.block = true
  changing : outcome = .threwChanging → (assign op fate.change v w).answer = none ∧
    s'.reads = update s.reads i (some (values (assign op fate.change v w).value))
  done : ∀ answer, outcome = .done answer → answer = true ∧
    s'.reads = update s.reads i (some (op.apply (values v) (values w)))
  sharing : ∀ answer, outcome = .done answer → s'.reads = s.reads → s'.naming = s.naming

/-- A set operation that leaves the set as it is. -/
theorem Sound.quiet (hs : Sound s none) (hi : s.reads i = some (values v)) {op : SetOp}
    (hsame : op.apply (values v) (values w) = values v) :
    Assigned fate op i v w s s (.done true) where
  sound := hs
  copying h := by cases h
  changing h := by cases h
  done answer h := by
    cases h
    rw [hsame, update_reads hi]
    exact ⟨rfl, rfl⟩
  sharing _ _ _ := rfl

/-- A set operation through a block of the handle's own. -/
theorem Sound.assigned (hs : Sound s none) (hi : Idle s i) (hh : s.handles i = some h)
    (hv : s.get h = some v) {place : SharedPlace B}
    (hplace : ∀ s', Kept s s' → s'.read place = some w) (fate : Fate) (op : SetOp)
    (hquiet : op.apply (values v) (values w) = values v →
      (∀ p, h.block = some p → s.holders p = 1) ∧ h.block ≠ none) :
    ∃ s' outcome, s.changeOwn fate i (assigning op fate place) = some (s', outcome) ∧
      Assigned fate op i v w s s' outcome := by
  have hreads := reads_eq hh hv
  obtain ⟨hthrew, hf⟩ | ⟨s', hdone, hc⟩ := hs.changeOwn hi hh hv fate (assigning op fate place)
    (r := ⟨(assign op fate.change v w).value, (assign op fate.change v w).answer.map fun _ ↦ true⟩)
    (by
      intro s' hk
      simp [assigning, hplace s' hk])
  · refine ⟨s, _, hthrew, hs, fun _ ↦ ⟨rfl, hf⟩, fun h ↦ (by cases h), fun _ h ↦ (by cases h),
      fun _ h ↦ (by cases h)⟩
  refine ⟨s', _, hdone, ?_⟩
  cases hr : (assign op fate.change v w).answer with
  | none =>
    rw [changeOutcome, Option.map_none]
    exact ⟨hc.sound, fun h ↦ (by cases h), fun _ ↦ ⟨hr, hc.reads_eq⟩, fun _ h ↦ (by cases h),
      fun _ h ↦ (by cases h)⟩
  | some r =>
    have hvalues := assign_answer op fate.change v w r hr
    have hreads' : s'.reads = update s.reads i (some (op.apply (values v) (values w))) := by
      rw [hc.reads_eq, hvalues]
    rw [changeOutcome, Option.map_some]
    refine ⟨hc.sound, fun h ↦ (by cases h), fun h ↦ (by cases h), ?_, ?_⟩
    · intro answer h
      cases h
      exact ⟨rfl, hreads'⟩
    · intro _ _ hsame
      have happly := unchanged hreads hreads' hsame
      exact hc.naming_eq (hquiet happly).1 (hquiet happly).2

theorem card_size_eq_zero (w : B) : CountedBitmap.size w = 0 ↔ values w = ∅ := by
  rw [size_eq, Finset.card_eq_zero]

section SetOps

variable (hs : Sound s none) (hi : Idle s i) (hh : s.handles i = some h) (hv : s.get h = some v)
  {place : SharedPlace B} (hplace : ∀ s', Kept s s' → s'.read place = some w) (fate : Fate)

include hs hi hh hv hplace

theorem Sound.unite (hw : values w ≠ ∅) :
    ∃ s' outcome, s.unite fate i place = some (s', outcome) ∧
      Assigned fate .bitOr i v w s s' outcome := by
  obtain ⟨u, hu, hunique⟩ := hs.isUnique hh
  have hread := hplace s fun _ _ ↦ rfl
  have hgo : s.unite fate i place =
      if !u && isSubsetOf w v then some (s, .done true) else s.changeOwn fate i
        (assigning .bitOr fate place) := by
    simp [SharedState.unite, hh, hv, hu, hread]
  by_cases hskip : u = false ∧ isSubsetOf w v = true
  · rw [hgo, if_pos (by simpa using hskip)]
    exact ⟨s, _, rfl,
      hs.quiet (reads_eq hh hv) (Finset.union_eq_left.2 ((isSubsetOf_iff w v).1 hskip.2))⟩
  · rw [hgo, if_neg (by simpa using hskip)]
    refine hs.assigned hi hh hv hplace fate .bitOr ?_
    intro hsame
    have hsub : values w ⊆ values v := Finset.union_eq_left.1 hsame
    constructor
    · apply hunique.1
      by_contra hfalse
      exact hskip ⟨by simpa using hfalse, (isSubsetOf_iff w v).2 hsub⟩
    · apply block_ne_none hv
      intro hempty
      exact hw (Finset.subset_empty.1 (hempty ▸ hsub))

theorem Sound.intersect (hsize : h.size = (values v).card) :
    ∃ s' outcome, s.intersect fate i place = some (s', outcome) ∧
      Assigned fate .bitAnd i v w s s' outcome := by
  obtain ⟨u, hu, hunique⟩ := hs.isUnique hh
  have hreads := reads_eq hh hv
  have hread := hplace s fun _ _ ↦ rfl
  by_cases hzero : h.size = 0
  · refine ⟨s, _, by simp [SharedState.intersect, hh, hv, hread, hzero], hs.quiet hreads ?_⟩
    rw [hsize, Finset.card_eq_zero] at hzero
    rw [hzero]
    exact Finset.empty_inter _
  have hne : values v ≠ ∅ := by
    rw [hsize, Finset.card_eq_zero] at hzero
    exact hzero
  by_cases hw : CountedBitmap.size w = 0
  · obtain ⟨s', hclear, hs', hreads'⟩ := hs.clear hi
    have hempty : SetOp.bitAnd.apply (values v) (values w) = ∅ := by
      rw [(card_size_eq_zero w).1 hw]
      exact Finset.inter_empty _
    refine ⟨s', .done true, by simp [SharedState.intersect, hh, hv, hread, hzero, hw, hclear], hs',
      fun h ↦ (by cases h), fun h ↦ (by cases h), ?_, ?_⟩
    · intro answer h
      cases h
      rw [hreads', hempty]
      exact ⟨rfl, rfl⟩
    · intro _ _ hsame
      exact absurd (unchanged hreads hreads' hsame).symm hne
  have hgo : s.intersect fate i place =
      if !u && isSubsetOf v w then some (s, .done true) else s.changeOwn fate i
        (assigning .bitAnd fate place) := by
    simp [SharedState.intersect, hh, hv, hu, hread, hzero, hw]
  by_cases hskip : u = false ∧ isSubsetOf v w = true
  · rw [hgo, if_pos (by simpa using hskip)]
    exact ⟨s, _, rfl, hs.quiet hreads (Finset.inter_eq_left.2 ((isSubsetOf_iff v w).1 hskip.2))⟩
  · rw [hgo, if_neg (by simpa using hskip)]
    refine hs.assigned hi hh hv hplace fate .bitAnd ?_
    intro hsame
    refine ⟨hunique.1 ?_, block_ne_none hv hne⟩
    by_contra hfalse
    exact hskip ⟨by simpa using hfalse, (isSubsetOf_iff v w).2 (Finset.inter_eq_left.1 hsame)⟩

theorem Sound.subtract (hsize : h.size = (values v).card) :
    ∃ s' outcome, s.subtract fate i place = some (s', outcome) ∧
      Assigned fate .bitAndnot i v w s s' outcome := by
  obtain ⟨u, hu, hunique⟩ := hs.isUnique hh
  have hreads := reads_eq hh hv
  have hread := hplace s fun _ _ ↦ rfl
  by_cases hzero : h.size = 0 ∨ CountedBitmap.size w = 0
  · refine ⟨s, _, by simp [SharedState.subtract, hh, hv, hread, hzero], hs.quiet hreads ?_⟩
    rw [hsize, Finset.card_eq_zero, card_size_eq_zero] at hzero
    show values v \ values w = values v
    rcases hzero with hzero | hzero <;> simp [hzero]
  have hne : values v ≠ ∅ := by
    rw [hsize, Finset.card_eq_zero] at hzero
    exact fun hempty ↦ hzero (.inl hempty)
  have hgo : s.subtract fate i place =
      if !u && !intersects v w then some (s, .done true)
      else s.changeOwn fate i (assigning .bitAndnot fate place) := by
    simp [SharedState.subtract, hh, hv, hu, hread, hzero]
  have hdisjoint : intersects v w = false ↔ Disjoint (values v) (values w) := by
    rw [← Bool.not_eq_true, intersects_iff, not_not]
  by_cases hskip : u = false ∧ intersects v w = false
  · rw [hgo, if_pos (by simpa using hskip)]
    exact ⟨s, _, rfl, hs.quiet hreads (Finset.sdiff_eq_self_iff_disjoint.2 (hdisjoint.1 hskip.2))⟩
  · rw [hgo, if_neg (by simpa using hskip)]
    refine hs.assigned hi hh hv hplace fate .bitAndnot ?_
    intro hsame
    refine ⟨hunique.1 ?_, block_ne_none hv hne⟩
    by_contra hfalse
    exact hskip ⟨by simpa using hfalse, hdisjoint.2 (Finset.sdiff_eq_self_iff_disjoint.1 hsame)⟩

theorem Sound.exclude (hw : values w ≠ ∅) :
    ∃ s' outcome, s.changeOwn fate i (assigning .bitXor fate place) = some (s', outcome) ∧
      Assigned fate .bitXor i v w s s' outcome := by
  refine hs.assigned hi hh hv hplace fate .bitXor ?_
  intro hsame
  exact absurd (symmDiff_eq_left.1 hsame) hw

end SetOps

theorem Assigned.bitmap {op : SetOp} {other : SharedOperand ι B} {outcome : SharedOutcome}
    (ha : Assigned fate op i v w s s' outcome) (hi : s.reads i = some (values v))
    (ho : operandSet s.reads other = some (values w)) :
    Stepped fate (.assignBitmap op i other) s s' outcome where
  sound := ha.sound
  plain := by
    cases outcome with
    | done answer =>
      obtain ⟨rfl, hreads⟩ := ha.done answer rfl
      exact hreads ▸ .assignBitmap hi ho
    | threwCopying =>
      obtain ⟨rfl, hf⟩ := ha.copying rfl
      exact .threwCopying hf
    | threwChanging =>
      obtain ⟨hthrew, hreads⟩ := ha.changing rfl
      exact hreads ▸ .assignBitmapThrew v w hi ho hthrew
  copying h := (ha.copying h).1
  sharing answer h _ := ha.sharing answer h

theorem Assigned.handle {op : SetOp} {outcome : SharedOutcome}
    (ha : Assigned fate op i v w s s' outcome) (hi : s.reads i = some (values v))
    (hj : s.reads j = some (values w)) : Stepped fate (.assignHandle op i j) s s' outcome where
  sound := ha.sound
  plain := by
    cases outcome with
    | done answer =>
      obtain ⟨rfl, hreads⟩ := ha.done answer rfl
      exact hreads ▸ .assignHandle hi hj
    | threwCopying =>
      obtain ⟨rfl, hf⟩ := ha.copying rfl
      exact .threwCopying hf
    | threwChanging =>
      obtain ⟨hthrew, hreads⟩ := ha.changing rfl
      exact hreads ▸ .assignHandleThrew v w hi hj hthrew
  copying h := (ha.copying h).1
  sharing answer h _ := ha.sharing answer h

theorem Sound.assignBitmap (hs : Sound s none) (hi : Idle s i) (fate : Fate) (op : SetOp)
    {other : SharedOperand ι B} (ho : ∀ j, other = .get j → s.handles j ≠ none) :
    ∃ s' outcome, s.assignBitmap fate op i other = some (s', outcome) ∧
      Stepped fate (.assignBitmap op i other) s s' outcome := by
  obtain ⟨h, v, hh, hv, hreads, hsize⟩ := hs.handle hi
  obtain ⟨place, w, hlocate, hset, hplace⟩ := hs.place ho
  have hread := hplace s fun _ _ ↦ rfl
  suffices hassigned : ∃ s' outcome, s.assignBitmap fate op i other = some (s', outcome) ∧
      Assigned fate op i v w s s' outcome by
    obtain ⟨s', outcome, hstep, ha⟩ := hassigned
    exact ⟨s', outcome, hstep, ha.bitmap hreads hset⟩
  cases op with
  | bitOr =>
    by_cases hw : CountedBitmap.size w = 0
    · refine ⟨s, _, by simp [SharedState.assignBitmap, hlocate, hread, hw], hs.quiet hreads ?_⟩
      rw [(card_size_eq_zero w).1 hw]
      exact Finset.union_empty _
    · obtain ⟨s', outcome, hstep, ha⟩ :=
        hs.unite hi hh hv hplace fate (hw ∘ (card_size_eq_zero w).2)
      exact ⟨s', outcome, by simp [SharedState.assignBitmap, hlocate, hread, hw, hstep], ha⟩
  | bitAnd =>
    obtain ⟨s', outcome, hstep, ha⟩ := hs.intersect hi hh hv hplace fate hsize
    exact ⟨s', outcome, by simp [SharedState.assignBitmap, hlocate, hread, hstep], ha⟩
  | bitAndnot =>
    obtain ⟨s', outcome, hstep, ha⟩ := hs.subtract hi hh hv hplace fate hsize
    exact ⟨s', outcome, by simp [SharedState.assignBitmap, hlocate, hread, hstep], ha⟩
  | bitXor =>
    by_cases hw : CountedBitmap.size w = 0
    · refine ⟨s, _, by simp [SharedState.assignBitmap, hlocate, hread, hw], hs.quiet hreads ?_⟩
      rw [(card_size_eq_zero w).1 hw]
      exact symmDiff_bot _
    · obtain ⟨s', outcome, hstep, ha⟩ :=
        hs.exclude hi hh hv hplace fate (hw ∘ (card_size_eq_zero w).2)
      exact ⟨s', outcome, by simp [SharedState.assignBitmap, hlocate, hread, hw, hstep], ha⟩

/-- A call that cannot fail leaves the result, and changes the set where it is asked to find that
out. -/
theorem Sound.changed (hs' : Sound s' none) {op : SetOp} (hi : s.reads i = some (values v))
    (hj : s.reads j = some (values w))
    (hreads' : s'.reads = update s.reads i (some (op.apply (values v) (values w))))
    (hne : s.FindsOut (.assignHandle op i j : SharedOp ι B Key) →
      op.apply (values v) (values w) ≠ values v) :
    Stepped fate (.assignHandle op i j) s s' (.done true) where
  sound := hs'
  plain := hreads' ▸ .assignHandle hi hj
  copying h := by cases h
  sharing _ _ hfinds hsame := absurd (unchanged hi hreads' hsame) (hne hfinds)

theorem Sound.assignHandle (hs : Sound s none) (hi : Idle s i) (hj : s.handles j ≠ none)
    (fate : Fate) (op : SetOp) (hsettled : TrustsSize op → s.editing j = false) :
    ∃ s' outcome, s.assignHandle fate op i j = some (s', outcome) ∧
      Stepped fate (.assignHandle op i j) s s' outcome := by
  obtain ⟨h, v, hh, hv, hreads, hsize⟩ := hs.handle hi
  obtain ⟨g, hg⟩ := Option.ne_none_iff_exists'.1 hj
  obtain ⟨w, hw⟩ := hs.counted.get hg
  have hreadsj := reads_eq hg hw
  obtain ⟨place, hlocate, hplace⟩ := place_kept hg hw
  have hknown : TrustsSize op → g.size = (values w).card :=
    fun hop ↦ hs.sized j g w hg (hsettled hop) hw
  have hne : g.size = (values w).card → g.size ≠ 0 → values w ≠ ∅ := by
    intro hsizej hsize hempty
    rw [hsizej, hempty] at hsize
    exact hsize rfl
  have hshare : sharesStorageWith h g = true → values v = values w :=
    values_eq_of_shares hh hg hreads hreadsj
  cases op with
  | bitOr =>
    have hsizej := hknown trivial
    have hidle : Idle s j := ⟨hj, hsettled trivial⟩
    by_cases hskip : g.size = 0 ∨ sharesStorageWith h g = true
    · refine ⟨s, _, by simp [SharedState.assignHandle, hh, hg, hlocate, hskip],
        (hs.quiet hreads ?_ : Assigned fate .bitOr i v w s s _).handle hreads hreadsj⟩
      show values v ∪ values w = values v
      rcases hskip with hzero | hshares
      · rw [hsizej, Finset.card_eq_zero] at hzero
        rw [hzero, Finset.union_empty]
      · rw [hshare hshares, Finset.union_self]
    push Not at hskip
    by_cases hzero : h.size = 0
    · obtain ⟨s', hcopy, hs', hreads'⟩ := hs.copyAssign hi hidle
      rw [hsize, Finset.card_eq_zero] at hzero
      have hresult : SetOp.bitOr.apply (values v) (values w) = values w := by
        simp [SetOp.apply, hzero]
      refine ⟨s', .done true, ?_, hs'.changed hreads hreadsj ?_ fun _ ↦ ?_⟩
      · have hz : h.size = 0 := by rw [hsize, hzero, Finset.card_empty]
        simp [SharedState.assignHandle, hh, hg, hlocate, hskip, hz, hcopy]
      · rw [hresult, hreads', hreadsj]
      · rw [hresult, hzero]
        exact hne hsizej hskip.1
    · obtain ⟨s', outcome, hstep, ha⟩ := hs.unite hi hh hv hplace fate (hne hsizej hskip.1)
      exact ⟨s', outcome, by simp [SharedState.assignHandle, hh, hg, hlocate, hskip, hzero, hstep],
        ha.handle hreads hreadsj⟩
  | bitAnd =>
    by_cases hshares : sharesStorageWith h g = true
    · refine ⟨s, _, by simp [SharedState.assignHandle, hh, hg, hlocate, hshares],
        (hs.quiet hreads ?_ : Assigned fate .bitAnd i v w s s _).handle hreads hreadsj⟩
      show values v ∩ values w = values v
      rw [hshare hshares, Finset.inter_self]
    · obtain ⟨s', outcome, hstep, ha⟩ := hs.intersect hi hh hv hplace fate hsize
      exact ⟨s', outcome, by simp [SharedState.assignHandle, hh, hg, hlocate, hshares, hstep],
        ha.handle hreads hreadsj⟩
  | bitAndnot =>
    by_cases hshares : sharesStorageWith h g = true
    · obtain ⟨s', hclear, hs', hreads'⟩ := hs.clear hi
      refine ⟨s', .done true,
        by simp [SharedState.assignHandle, hh, hg, hlocate, hshares, hclear],
        hs'.changed hreads hreadsj ?_ fun hfinds ↦ ?_⟩
      · rw [hreads', show SetOp.bitAndnot.apply (values v) (values w) = ∅ by
          simp [SetOp.apply, hshare hshares]]
      · obtain ⟨_, hsame, hsome⟩ := reads_of_shares hh hg hshares
        rcases hfinds rfl with hnone | hne
        · exact absurd hnone hsome
        · exact absurd hsame hne
    · obtain ⟨s', outcome, hstep, ha⟩ := hs.subtract hi hh hv hplace fate hsize
      exact ⟨s', outcome, by simp [SharedState.assignHandle, hh, hg, hlocate, hshares, hstep],
        ha.handle hreads hreadsj⟩
  | bitXor =>
    have hsizej := hknown trivial
    have hidle : Idle s j := ⟨hj, hsettled trivial⟩
    by_cases hzeroj : g.size = 0
    · refine ⟨s, _, by simp [SharedState.assignHandle, hh, hg, hlocate, hzeroj],
        (hs.quiet hreads ?_ : Assigned fate .bitXor i v w s s _).handle hreads hreadsj⟩
      rw [hsizej, Finset.card_eq_zero] at hzeroj
      show symmDiff (values v) (values w) = values v
      rw [hzeroj]
      exact symmDiff_bot _
    by_cases hshares : sharesStorageWith h g = true
    · obtain ⟨s', hclear, hs', hreads'⟩ := hs.clear hi
      have hresult : SetOp.bitXor.apply (values v) (values w) = ∅ := by
        simp [SetOp.apply, hshare hshares]
      refine ⟨s', .done true,
        by simp [SharedState.assignHandle, hh, hg, hlocate, hzeroj, hshares, hclear],
        hs'.changed hreads hreadsj ?_ fun _ ↦ ?_⟩
      · rw [hresult, hreads']
      · rw [hresult, hshare hshares]
        exact (hne hsizej hzeroj).symm
    by_cases hzero : h.size = 0
    · obtain ⟨s', hcopy, hs', hreads'⟩ := hs.copyAssign hi hidle
      have hempty : values v = ∅ := by rwa [hsize, Finset.card_eq_zero] at hzero
      have hresult : SetOp.bitXor.apply (values v) (values w) = values w := by
        rw [hempty]
        exact bot_symmDiff _
      refine ⟨s', .done true,
        by simp [SharedState.assignHandle, hh, hg, hlocate, hzeroj, hshares, hzero, hcopy],
        hs'.changed hreads hreadsj ?_ fun _ ↦ ?_⟩
      · rw [hresult, hreads', hreadsj]
      · rw [hresult, hempty]
        exact hne hsizej hzeroj
    · obtain ⟨s', outcome, hstep, ha⟩ := hs.exclude hi hh hv hplace fate (hne hsizej hzeroj)
      exact ⟨s', outcome,
        by simp [SharedState.assignHandle, hh, hg, hlocate, hzeroj, hshares, hzero, hstep],
        ha.handle hreads hreadsj⟩

/-! ## Making, moving and dropping handles -/

/-- Calls that end one way and are not asked to leave the sharing. -/
theorem Sound.stepped (hs : Sound s' none) {op : SharedOp ι B Key}
    (hplain : PlainStep fate op (.done true) s.reads s'.reads) (hfinds : ¬ s.FindsOut op) :
    Stepped fate op s s' (.done true) :=
  ⟨hs, hplain, fun h ↦ (by cases h), fun _ _ h ↦ absurd h hfinds⟩

theorem Sound.create (hs : Sound s none) (hi : s.handles i = none) :
    Sound (s.setHandle i (some {})) none ∧
      (s.setHandle i (some {})).reads = update s.reads i (some ∅) := by
  have hempty := hs.empty (hs.not_editing_absent hi)
  rwa [naming_absent hi] at hempty

theorem Sound.wrap (hs : Sound s none) (hi : s.handles i = none) (v : B) :
    Sound ((s.makeBlock v).setHandle i (some ⟨some s.fresh, CountedBitmap.size v⟩)) none ∧
      ((s.makeBlock v).setHandle i (some ⟨some s.fresh, CountedBitmap.size v⟩)).reads =
        update s.reads i (some (values v)) := by
  obtain ⟨hmade, hkept⟩ := hs.counted.makeBlock v
  obtain ⟨hs₁, hreads₁⟩ := hs.keep hmade rfl rfl hkept
  obtain ⟨hs₂, hreads₂⟩ := hs₁.adopt (i := i) (h := ⟨some s.fresh, CountedBitmap.size v⟩) (v := v)
    (hs.not_editing_absent hi) rfl (by simp [get, blocks_makeBlock]) (size_eq v) (by
      intro j p _ hp
      rw [← hp]
      exact hs.fresh_unnamed j)
  rw [naming_makeBlock, naming_absent hi] at hs₂
  exact ⟨hs₂, hreads₂.trans (by rw [hreads₁])⟩

theorem Sound.copyConstruct (hs : Sound s none) (hi : s.handles i = none) (hj : Idle s j)
    (hg : s.handles j = some h) :
    ∃ s₁, s.increment h.block = some s₁ ∧ Sound (s₁.setHandle i (some h)) none ∧
      (s₁.setHandle i (some h)).reads = update s.reads i (s.reads j) := by
  obtain ⟨v, hv⟩ := hs.counted.get hg
  obtain ⟨s₁, hinc, hs₁, hh₁, he₁, hreads₁, hget₁⟩ := hs.lend hg
  have hnaming₁ : s₁.naming = s.naming := naming_congr hh₁
  obtain ⟨hs₂, hreads₂⟩ := hs₁.adopt (i := i) (he₁ ▸ hs.not_editing_absent hi) rfl (hget₁.trans hv)
    (hs.sized j h v hg hj.2 hv) (by
      intro k p hk hp
      rw [hnaming₁]
      exact hs.not_editing hj.2 ((naming_eq hg).trans hp) (he₁ ▸ hk))
  rw [hnaming₁, naming_absent hi] at hs₂
  exact ⟨s₁, hinc, hs₂, by rw [hreads₂, hreads₁, reads_eq hg hv]⟩

/-- A handle's block is moved to another, and what that named is with the call. -/
theorem Sound.moved (hs : Sound s none) (hi : s.editing i = false) (hj : Idle s j)
    (hg : s.handles j = some h) :
    Sound ((s.setHandle j (some {})).setHandle i (some h)) ((s.setHandle j (some {})).naming i) ∧
      ((s.setHandle j (some {})).setHandle i (some h)).reads =
        update (update s.reads j (some ∅)) i (s.reads j) := by
  obtain ⟨v, hv⟩ := hs.counted.get hg
  obtain ⟨hs₁, hreads₁⟩ := hs.empty hj.2
  obtain ⟨hs₂, hreads₂⟩ := hs₁.adopt (i := i) (h := h) (v := v) hi (naming_eq hg).symm hv
    (hs.sized j h v hg hj.2 hv) (by
      intro k p hk hp
      have hkj : k ≠ j := by
        rintro rfl
        exact Bool.false_ne_true (hj.2.symm.trans hk)
      rw [naming_setHandle, Function.update_of_ne hkj]
      exact hs.not_editing hj.2 hp hk)
  exact ⟨hs₂, by rw [hreads₂, hreads₁, reads_eq hg hv]⟩

theorem Sound.moveAssign (hs : Sound s none) (hi : Idle s i) (hj : Idle s j) :
    ∃ s', s.moveAssign i j = some s' ∧ Sound s' none ∧
      s'.reads = update (update s.reads j (some ∅)) i (s.reads j) := by
  obtain ⟨h, hg⟩ := Option.ne_none_iff_exists'.1 hj.1
  obtain ⟨hs₁, hreads₁⟩ := hs.moved hi.2 hj hg
  obtain ⟨own, hown⟩ : ∃ own, (s.setHandle j (some {})).handles i = some own := by
    rcases eq_or_ne i j with rfl | hne
    · exact ⟨{}, by simp [SharedState.setHandle]⟩
    · obtain ⟨own, hown⟩ := Option.ne_none_iff_exists'.1 hi.1
      exact ⟨own, by simp [SharedState.setHandle, hne, hown]⟩
  obtain ⟨s', hrelease, hs', _, _, hreads', _⟩ := hs₁.giveUp
  rw [naming_eq hown] at hrelease
  refine ⟨s', ?_, hs', hreads'.trans hreads₁⟩
  simp only [SharedState.moveAssign, hg, hown, Option.bind_eq_bind, Option.bind_some]
  exact hrelease

theorem Sound.moveConstruct (hs : Sound s none) (hi : s.handles i = none) (hj : Idle s j)
    (hg : s.handles j = some h) :
    Sound ((s.setHandle j (some {})).setHandle i (some h)) none ∧
      ((s.setHandle j (some {})).setHandle i (some h)).reads =
        update (update s.reads j (some ∅)) i (s.reads j) := by
  have hij : i ≠ j := by
    rintro rfl
    exact hj.1 hi
  obtain ⟨hs₁, hreads₁⟩ := hs.moved (hs.not_editing_absent hi) hj hg
  have hnone : (s.setHandle j (some {})).naming i = none := by
    rw [naming_setHandle, Function.update_of_ne hij, naming_absent hi]
  rw [hnone] at hs₁
  exact ⟨hs₁, hreads₁⟩

/-- Two handles trade places: one gives its block to the call, which the other exchanges for its
own. -/
theorem Sound.swap (hs : Sound s none) (hi : Idle s i) (hj : Idle s j) {g : SharedHandle}
    (hh : s.handles i = some h) (hg : s.handles j = some g) :
    Sound ((s.setHandle i (some g)).setHandle j (some h)) none ∧
      ((s.setHandle i (some g)).setHandle j (some h)).reads =
        update (update s.reads i (s.reads j)) j (s.reads i) := by
  rcases eq_or_ne i j with rfl | hij
  · obtain rfl : h = g := Option.some.inj (hh.symm.trans hg)
    have hsame : (s.setHandle i (some h)).setHandle i (some h) = s := by
      have hupdate : update s.handles i (some h) = s.handles :=
        Function.update_eq_self_iff.2 hh.symm
      simp only [SharedState.setHandle, hupdate]
    rw [hsame]
    exact ⟨hs, by simp⟩
  obtain ⟨v, hv⟩ := hs.counted.get hh
  obtain ⟨w, hw⟩ := hs.counted.get hg
  obtain ⟨hs₁, hreads₁⟩ := hs.moved hj.2 hi hh
  have hname₁ : (s.setHandle i (some {})).naming j = g.block := by
    rw [naming_setHandle, Function.update_of_ne hij.symm, naming_eq hg]
  rw [hname₁] at hs₁
  obtain ⟨hs₂, hreads₂⟩ := hs₁.adopt (i := i) (h := g) (v := w) hi.2 rfl hw
    (hs.sized j g w hg hj.2 hw) (by
      intro k p hk hp
      have hki : k ≠ i := by
        rintro rfl
        exact Bool.false_ne_true (hi.2.symm.trans hk)
      have hkj : k ≠ j := by
        rintro rfl
        exact Bool.false_ne_true (hj.2.symm.trans hk)
      rw [naming_setHandle, Function.update_of_ne hkj, naming_setHandle, Function.update_of_ne hki]
      exact hs.not_editing hj.2 ((naming_eq hg).trans hp) hk)
  have hname₂ : ((s.setHandle i (some {})).setHandle j (some h)).naming i = none := by
    rw [naming_setHandle, Function.update_of_ne hij, naming_setHandle, Function.update_self]
    rfl
  have hsame : ((s.setHandle i (some {})).setHandle j (some h)).setHandle i (some g) =
      (s.setHandle i (some g)).setHandle j (some h) := by
    simp only [SharedState.setHandle]
    rw [Function.update_comm hij.symm, Function.update_idem]
  rw [hname₂, hsame] at hs₂
  refine ⟨hs₂, ?_⟩
  rw [← hsame, hreads₂, hreads₁, Function.update_comm hij.symm, Function.update_idem,
    reads_eq hg hw]

theorem Sound.drop (hs : Sound s none) (hi : Idle s i) :
    ∃ h s', s.handles i = some h ∧ (s.setHandle i none).release h.block = some s' ∧ Sound s' none ∧
      s'.reads = update s.reads i none := by
  obtain ⟨h, hh⟩ := Option.ne_none_iff_exists'.1 hi.1
  obtain ⟨hs₁, hreads₁⟩ := hs.setHandle (i := i) (o := none) hi.2 rfl (by
      intro h v hh
      cases hh) (by
      intro j p _ hp
      cases hp)
  obtain ⟨s', hrelease, hs', _, _, hreads', _⟩ := hs₁.giveUp
  rw [naming_eq hh] at hrelease
  exact ⟨h, s', hh, hrelease, hs', hreads'.trans hreads₁⟩

/-! ## Editors -/

theorem Sound.edit (hs : Sound s none) (hi : Idle s i) (fate : Fate) :
    ∃ s' outcome, s.edit fate i = some (s', outcome) ∧ Stepped fate (.edit i) s s' outcome := by
  obtain ⟨h, v, hh, hv, hreads, _⟩ := hs.handle hi
  obtain ⟨htake, hf⟩ | ⟨s₁, left, p, htake, hown⟩ := hs.takeOwn hi hh hv fate.block
  · exact ⟨s, _, by simp [SharedState.edit, htake], hs.failed hf⟩
  obtain ⟨s₂, hrelease, hs₂, hh₂, he₂, hreads₂, _⟩ := hown.sound.giveUp
  have hnaming₂ : s₂.naming = s₁.naming := naming_congr hh₂
  have hsound : Sound { s₂ with editing := update s₂.editing i true } none := by
    constructor
    · exact ⟨hs₂.counted.few, hs₂.counted.count_eq, hs₂.counted.claimed, hs₂.counted.born,
        hs₂.counted.freed_iff, hs₂.counted.once⟩
    · intro j g w hj hidle hw
      refine hs₂.sized j g w hj ?_ hw
      rcases eq_or_ne j i with rfl | hne
      · simp at hidle
      · simpa [hne] using hidle
    · intro j hj
      rcases eq_or_ne j i with rfl | hne
      · refine ⟨p, ?_, ?_⟩
        · show s₂.naming j = some p
          rw [hnaming₂, naming_eq hown.handle]
        · intro k hk
          exact hown.alone k (hnaming₂ ▸ hk)
      · exact hs₂.alone j (by simpa [hne] using hj)
  refine ⟨_, .done true, by simp [SharedState.edit, htake, hrelease], hsound, ?_,
    fun h ↦ (by cases h),
    fun _ _ h ↦ (by cases h)⟩
  show PlainStep fate (.edit i) (.done true) s.reads s₂.reads
  rw [hreads₂, hown.reads_eq]
  exact .edit

theorem Sound.through (hs : Sound s none) (hi : s.editing i = true) (fate : Fate) (change : B → B) :
    ∃ s', s.through i change = some s' ∧ Stepped fate (.through i change) s s' (.done true) := by
  obtain ⟨p, n, b, hh, hb, hp, halone, hreads⟩ := hs.edited hi
  obtain ⟨hs', hreads'⟩ := hs.setOwn hp halone hb (change b.value) n fun hidle ↦ by
    rw [hi] at hidle
    cases hidle
  have hupdate : update s.handles i (some ⟨some p, n⟩) = s.handles :=
    Function.update_eq_self_iff.2 hh.symm
  have hsame : (s.setBlock p (some { b with value := change b.value })).setHandle i
      (some ⟨some p, n⟩) =
      s.setBlock p (some { b with value := change b.value }) := by
    simp only [SharedState.setHandle, SharedState.setBlock, hupdate]
  rw [hsame] at hs' hreads'
  refine ⟨_, by simp [SharedState.through, hh, hb], hs'.stepped ?_ id⟩
  rw [hreads']
  exact .through b.value hreads

theorem Sound.endEdit (hs : Sound s none) (hi : s.editing i = true) (fate : Fate) :
    ∃ s', s.endEdit i = some s' ∧ Stepped fate (.endEdit i) s s' (.done true) := by
  obtain ⟨p, n, b, hh, hb, hp, halone, hreads⟩ := hs.edited hi
  obtain ⟨hs₁, hreads₁⟩ := hs.setOwn hp halone hb b.value (CountedBitmap.size b.value) fun _ ↦
    size_eq _
  have hupdate : update s.blocks p (some b) = s.blocks := Function.update_eq_self_iff.2 hb.symm
  have hsame : (s.setBlock p (some { b with value := b.value })).setHandle i
      (some ⟨some p, CountedBitmap.size b.value⟩) =
        s.setHandle i (some ⟨some p, CountedBitmap.size b.value⟩) := by
    simp only [SharedState.setHandle, SharedState.setBlock, hupdate]
  rw [hsame] at hs₁ hreads₁
  have hsound : Sound { s.setHandle i (some ⟨some p, CountedBitmap.size b.value⟩) with
      editing := update s.editing i false } none := by
    constructor
    · exact ⟨hs₁.counted.few, hs₁.counted.count_eq, hs₁.counted.claimed, hs₁.counted.born,
        hs₁.counted.freed_iff, hs₁.counted.once⟩
    · intro j g w hj hidle hw
      rcases eq_or_ne j i with rfl | hne
      · obtain rfl : _ = g := by simpa [SharedState.setHandle] using hj
        obtain rfl : b.value = w := by simpa [get, SharedState.setHandle, hb] using hw
        exact size_eq _
      · exact hs₁.sized j g w hj (by simpa [SharedState.setHandle, hne] using hidle) hw
    · intro j hj
      rcases eq_or_ne j i with rfl | hne
      · simp at hj
      · exact hs₁.alone j (by simpa [SharedState.setHandle, hne] using hj)
  refine ⟨_, by simp only [SharedState.endEdit, refresh, hh, hb, Option.bind_eq_bind,
    Option.bind_some,
    Option.pure_def]; rfl, hsound.stepped ?_ id⟩
  show PlainStep fate (.endEdit i) (.done true) s.reads
    (s.setHandle i (some ⟨some p, CountedBitmap.size b.value⟩)).reads
  rw [hreads₁, update_reads hreads]
  exact .endEdit

/-! ## Runs -/

/-- What a caller may do: the handles are there, and one with a living editor is not copied, cleared
or assigned, is changed through the editor only, and is no operand of an operator that trusts its
size. -/
def Admissible (s : SharedState ι B) : SharedOp ι B Key → Prop
  | .create i | .wrap i _ => s.handles i = none
  | .copyConstruct i j | .moveConstruct i j => s.handles i = none ∧ Idle s j
  | .copyAssign i j | .moveAssign i j | .swap i j => Idle s i ∧ Idle s j
  | .assignHandle op i j => Idle s i ∧ s.handles j ≠ none ∧ (TrustsSize op → s.editing j = false)
  | .drop i | .add i _ | .remove i _ | .clear i | .edit i => Idle s i
  | .assignBitmap _ i other => Idle s i ∧ ∀ j, other = .get j → s.handles j ≠ none
  | .through i _ | .endEdit i => s.editing i = true

theorem Sound.step (hs : Sound s none) (fate : Fate) {op : SharedOp ι B Key}
    (ha : s.Admissible op) :
    ∃ s' outcome, s.step fate op = some (s', outcome) ∧ Stepped fate op s s' outcome := by
  cases op with
  | create i =>
    obtain ⟨hs', hreads⟩ := hs.create ha
    exact ⟨_, _, rfl, hs'.stepped (hreads ▸ .create) id⟩
  | wrap i b =>
    by_cases hf : fate.block = true
    · exact ⟨s, _, by simp [SharedState.step, hf], hs.failed hf⟩
    · obtain ⟨hs', hreads⟩ := hs.wrap ha b
      exact ⟨_, _, by simp [SharedState.step, hf], hs'.stepped (hreads ▸ .wrap) id⟩
  | copyConstruct i j =>
    obtain ⟨h, v, hh, _, hreads, _⟩ := hs.handle ha.2
    obtain ⟨s₁, hinc, hs', hreads'⟩ := hs.copyConstruct ha.1 ha.2 hh
    refine ⟨_, _, by simp [SharedState.step, hh, hinc], hs'.stepped ?_ id⟩
    rw [hreads', hreads]
    exact .copyConstruct hreads
  | moveConstruct i j =>
    obtain ⟨h, v, hh, _, hreads, _⟩ := hs.handle ha.2
    obtain ⟨hs', hreads'⟩ := hs.moveConstruct ha.1 ha.2 hh
    refine ⟨_, _, by simp [SharedState.step, hh], hs'.stepped ?_ id⟩
    rw [hreads', hreads]
    exact .moveConstruct hreads
  | copyAssign i j =>
    obtain ⟨h, v, hh, _, hreads, _⟩ := hs.handle ha.2
    obtain ⟨s', hstep, hs', hreads'⟩ := hs.copyAssign ha.1 ha.2
    refine ⟨s', _, by simp [SharedState.step, hstep], hs'.stepped ?_ id⟩
    rw [hreads', hreads]
    exact .copyAssign hreads
  | moveAssign i j =>
    obtain ⟨h, v, hh, _, hreads, _⟩ := hs.handle ha.2
    obtain ⟨s', hstep, hs', hreads'⟩ := hs.moveAssign ha.1 ha.2
    refine ⟨s', _, by simp [SharedState.step, hstep], hs'.stepped ?_ id⟩
    rw [hreads', hreads]
    exact .moveAssign hreads
  | swap i j =>
    obtain ⟨h, v, hh, _, hreads, _⟩ := hs.handle ha.1
    obtain ⟨g, w, hg, _, hreadsj, _⟩ := hs.handle ha.2
    obtain ⟨hs', hreads'⟩ := hs.swap ha.1 ha.2 hh hg
    refine ⟨_, _, by simp [SharedState.step, hh, hg], hs'.stepped ?_ id⟩
    rw [hreads', hreads, hreadsj]
    exact .swap hreads hreadsj
  | drop i =>
    obtain ⟨h, s', hh, hrelease, hs', hreads'⟩ := hs.drop ha
    exact ⟨s', _, by simp [SharedState.step, hh, hrelease], hs'.stepped (hreads' ▸ .drop) id⟩
  | add i k => exact hs.add ha fate k
  | remove i k => exact hs.remove ha fate k
  | assignHandle op i j => exact hs.assignHandle ha.1 ha.2.1 fate op ha.2.2
  | assignBitmap op i other => exact hs.assignBitmap ha.1 fate op ha.2
  | clear i =>
    obtain ⟨s', hstep, hs', hreads'⟩ := hs.clear ha
    exact ⟨s', _, by simp [SharedState.step, hstep], hs'.stepped (hreads' ▸ .clear) id⟩
  | edit i => exact hs.edit ha fate
  | through i change =>
    obtain ⟨s', hstep, hs'⟩ := hs.through ha fate change
    exact ⟨s', _, by simp [SharedState.step, hstep], hs'⟩
  | endEdit i =>
    obtain ⟨s', hstep, hs'⟩ := hs.endEdit ha fate
    exact ⟨s', _, by simp [SharedState.step, hstep], hs'⟩

/-- A call that was made: which allocations failed, what was called, and how it ended. -/
structure SharedCall (ι B Key : Type) where
  fate : Fate
  op : SharedOp ι B Key
  outcome : SharedOutcome

/-- The states that calls lead to from one without handles. -/
inductive Ran : List (SharedCall ι B Key) → SharedState ι B → Prop
  | start : Ran [] {}
  | call {calls s s' fate op outcome} (hr : Ran calls s) (ha : s.Admissible op)
      (hstep : s.step fate op = some (s', outcome)) : Ran (calls ++ [⟨fate, op, outcome⟩]) s'

/-- The sets that the same calls leave in plain bitmaps. -/
inductive PlainRan : List (SharedCall ι B Key) → (ι → Option (Finset Key)) → Prop
  | start : PlainRan [] fun _ ↦ none
  | call {calls r r' fate op outcome} (hr : PlainRan calls r)
      (hstep : PlainStep fate op outcome r r') :
      PlainRan (calls ++ [⟨fate, op, outcome⟩]) r'

theorem Ran.sound (hfew : Fintype.card ι < 2 ^ 32) {calls : List (SharedCall ι B Key)}
    (hr : Ran calls s) :
    Sound s none ∧ PlainRan calls s.reads := by
  induction hr with
  | start => exact ⟨sound_start hfew, .start⟩
  | call hr ha hstep ih =>
    obtain ⟨s', outcome, hstep', hdone⟩ := ih.1.step _ ha
    obtain ⟨rfl, rfl⟩ : s' = _ ∧ outcome = _ := by
      rw [hstep] at hstep'
      exact ⟨congrArg Prod.fst (Option.some.inj hstep').symm,
        congrArg Prod.snd (Option.some.inj hstep').symm⟩
    exact ⟨hdone.sound, .call ih.2 hdone.plain⟩

/-- In every state that calls lead to, the handles read what plain bitmaps hold after the same calls
and know its size, the counts are those of the handles, and blocks are deleted once.  Every further
call ends, leaves the state as it was if the copy for it fails, and leaves the sharing if it finds
out first and changes no set. -/
theorem handles_areValues (hfew : Fintype.card ι < 2 ^ 32) {calls : List (SharedCall ι B Key)}
    (hr : Ran calls s) :
    PlainRan calls s.reads ∧
    (∀ i h, s.handles i = some h → ∃ a, s.reads i = some a ∧
      (s.editing i = false → h.size = a.card)) ∧
    (∀ p b, s.blocks p = some b → b.count.toNat = s.holders p) ∧
    (∀ p, p < s.fresh → s.freed.count p = if s.holders p = 0 then 1 else 0) ∧
    (∀ p, p ∈ s.freed → p < s.fresh ∧ s.blocks p = none) ∧
    ∀ fate (op : SharedOp ι B Key), s.Admissible op →
      ∃ s' outcome, s.step fate op = some (s', outcome) ∧
      (outcome = .threwCopying → s' = s) ∧
      ∀ answer, outcome = .done answer → s.FindsOut op → s'.reads = s.reads →
        s'.naming = s.naming := by
  obtain ⟨hs, hplain⟩ := hr.sound hfew
  refine ⟨hplain, ?_, ?_, fun p hp ↦ hs.counted.freed_once hp,
    fun p hp ↦ (hs.counted.freed_iff p).1 hp, ?_⟩
  · intro i h hh
    obtain ⟨v, hv⟩ := hs.counted.get hh
    exact ⟨values v, reads_eq hh hv, fun hidle ↦ hs.sized i h v hh hidle hv⟩
  · exact fun p b hb ↦ hs.counted.toNat_count hb
  · intro fate op ha
    obtain ⟨s', outcome, hstep, hdone⟩ := hs.step fate ha
    exact ⟨s', outcome, hstep, hdone.copying, hdone.sharing⟩

/-! ## A bitmap that is its set -/

/-- The set itself as a bitmap, whose `add` allocates once. -/
instance : CountedBitmap (Finset Nat) Nat where
  empty := ∅
  size a := a.card
  contains a k := decide (k ∈ a)
  isSubsetOf a b := decide (a ⊆ b)
  intersects a b := decide (a ∩ b ≠ ∅)
  add fails a k := if fails 0 then ⟨a, none⟩ else ⟨insert k a, some (decide (k ∉ a))⟩
  remove _ a k := ⟨a.erase k, some (decide (k ∈ a))⟩
  assign op _ a b := ⟨op.apply a b, some ()⟩

instance : LawfulCountedBitmap (Finset Nat) Nat where
  values a := a
  values_empty := rfl
  size_eq _ := rfl
  contains_iff _ _ := decide_eq_true_iff
  isSubsetOf_iff _ _ := decide_eq_true_iff
  intersects_iff a b := by
    rw [Finset.disjoint_iff_inter_eq_empty]
    exact decide_eq_true_iff
  add_answer fails a k r hr := by
    cases hf : fails 0 with
    | true => simp [CountedBitmap.add, hf] at hr
    | false =>
      simp only [CountedBitmap.add, hf] at hr ⊢
      obtain rfl : decide (k ∉ a) = r := Option.some.inj hr
      exact ⟨rfl, decide_eq_true_iff⟩
  remove_answer _ a k r hr := by
    obtain rfl : decide (k ∈ a) = r := Option.some.inj hr
    exact ⟨rfl, decide_eq_true_iff⟩
  assign_answer _ _ _ _ _ _ := rfl

/-- Nothing fails. -/
def noFault : Fate := ⟨false, fun _ ↦ false⟩

/-- Two handles that share one bitmap. -/
def sharedPair (a : Finset Nat) : SharedState Bool (Finset Nat) :=
  (((({} : SharedState Bool (Finset Nat)).makeBlock a).setHandle false
    (some ⟨some 0, a.card⟩)).setBlock 0 (some ⟨2, a⟩)).setHandle true (some ⟨some 0, a.card⟩)

theorem ran_sharedPair (a : Finset Nat) :
    Ran [⟨noFault, .wrap false a, .done true⟩, ⟨noFault, .copyConstruct true false, .done true⟩]
      (sharedPair a) := by
  have hwrap :
      Ran [⟨noFault, .wrap false a, .done true⟩]
      ((({} : SharedState Bool (Finset Nat)).makeBlock a).setHandle
      false (some ⟨some 0, a.card⟩)) := Ran.call .start rfl rfl
  have hidle : Idle ((({} : SharedState Bool (Finset Nat)).makeBlock a).setHandle false
      (some ⟨some 0, a.card⟩)) false := ⟨fun habsent ↦ (by cases habsent), rfl⟩
  exact Ran.call hwrap ⟨rfl, hidle⟩ rfl

theorem handles_areValues_pair :
    PlainRan [⟨noFault, .wrap false ({7} : Finset Nat), .done true⟩,
      ⟨noFault, .copyConstruct true false, .done true⟩] (sharedPair {7}).reads ∧
    (∀ p b, (sharedPair {7}).blocks p = some b → b.count.toNat = (sharedPair {7}).holders p) ∧
    ∃ s', (sharedPair {7}).step noFault (.add true 7) = some (s', .done false) ∧
      s'.naming = (sharedPair {7}).naming := by
  obtain ⟨hplain, -, hcounts, -, -, hnext⟩ := handles_areValues (by decide) (ran_sharedPair {7})
  obtain ⟨s', outcome, hstep, -, hsharing⟩ := hnext noFault (.add true 7)
    ⟨fun habsent ↦ (by cases habsent), rfl⟩
  obtain ⟨rfl, rfl⟩ := Prod.mk.inj (Option.some.inj hstep)
  exact ⟨hplain, hcounts, _, rfl, hsharing false rfl trivial rfl⟩

/-- So many of `n` handles share one bitmap. -/
def crowd (n m : Nat) (a : Finset Nat) : SharedState (Fin n) (Finset Nat) where
  handles i := if i < m then some ⟨some 0, a.card⟩ else none
  blocks := update (fun _ ↦ none) 0 (some ⟨BitVec.ofNat 32 m, a⟩)
  fresh := 1

section Crowd

variable {n m : Nat} {a : Finset Nat}

theorem handles_crowd (i : Fin n) :
    (crowd n m a).handles i = if i < m then some ⟨some 0, a.card⟩ else none := rfl

theorem blocks_crowd :
    (crowd n m a).blocks = update (fun _ ↦ none) 0 (some ⟨BitVec.ofNat 32 m, a⟩) := rfl

/-- The first of the handles makes the bitmap. -/
theorem crowd_first (hn : 0 < n) :
    (({} : SharedState (Fin n) (Finset Nat)).makeBlock a).setHandle ⟨0, hn⟩
      (some ⟨some 0, a.card⟩) = crowd n 1 a := by
  have hhandles : update (fun _ ↦ none) (⟨0, hn⟩ : Fin n) (some ⟨some 0, a.card⟩) =
      (crowd n 1 a).handles := by
    funext i
    rw [handles_crowd]
    rcases eq_or_ne i ⟨0, hn⟩ with rfl | hi
    · rw [Function.update_self, if_pos Nat.one_pos]
    · rw [Function.update_of_ne hi, if_neg fun hlt ↦ hi (Fin.ext (Nat.lt_one_iff.1 hlt))]
  have hcrowd : crowd n 1 a =
      { crowd n 1 a with handles := update (fun _ ↦ none) ⟨0, hn⟩ (some ⟨some 0, a.card⟩) } := by
    rw [hhandles]
  exact hcrowd.symm

/-- One more handle copies the first. -/
theorem crowd_next (hn : 0 < n) (hm : 0 < m) (hlt : m < n) :
    (crowd n m a).step noFault (.copyConstruct ⟨m, hlt⟩ ⟨0, hn⟩) = some
    (crowd n (m + 1) a, .done true) := by
  have hfirst : (crowd n m a).handles ⟨0, hn⟩ = some ⟨some 0, a.card⟩ := if_pos hm
  have hblock : (crowd n m a).blocks 0 = some ⟨BitVec.ofNat 32 m, a⟩ := by
    rw [blocks_crowd, Function.update_self]
  have hhandles : update (crowd n m a).handles ⟨m, hlt⟩ (some ⟨some 0, a.card⟩) =
      (crowd n (m + 1) a).handles := by
    funext i
    rw [handles_crowd]
    rcases eq_or_ne i ⟨m, hlt⟩ with rfl | hi
    · rw [Function.update_self, if_pos (Nat.lt_succ_self m)]
    · have hne : i.val ≠ m := fun h ↦ hi (Fin.ext h)
      rw [Function.update_of_ne hi, handles_crowd]
      exact if_congr (by omega) rfl rfl
  have hblocks : update (crowd n m a).blocks 0 (some ⟨BitVec.ofNat 32 m + 1#32, a⟩) =
      (crowd n (m + 1) a).blocks := by
    rw [blocks_crowd, blocks_crowd, Function.update_idem, BitVec.ofNat_add]
  simp only [SharedState.step, hfirst, SharedState.increment, hblock, Option.bind_eq_bind,
    Option.bind_some,
    Option.pure_def, SharedState.setHandle, SharedState.setBlock, hblocks, hhandles]
  rfl

/-- Any number of handles can come to share one bitmap. -/
theorem ran_crowd (hm : 0 < m) (hle : m ≤ n) (a : Finset Nat) : ∃ calls,
    Ran calls (crowd n m a) := by
  induction m, hm using Nat.le_induction with
  | base =>
    have hwrap : ({} : SharedState (Fin n) (Finset Nat)).step noFault (.wrap ⟨0, hle⟩ a) =
        some (crowd n 1 a, .done true) := by
      rw [← crowd_first hle]
      rfl
    have hadmissible : ({} : SharedState (Fin n) (Finset Nat)).Admissible
      (.wrap ⟨0, hle⟩ a : SharedOp _ _ Nat) := rfl
    exact ⟨_, Ran.call .start hadmissible hwrap⟩
  | succ m hm ih =>
    obtain ⟨calls, hr⟩ := ih (Nat.le_of_succ_le hle)
    have hn : 0 < n := Nat.zero_lt_of_lt hle
    have hpresent : (crowd n m a).handles ⟨0, hn⟩ = some ⟨some 0, a.card⟩ := if_pos hm
    have habsent : (crowd n m a).handles ⟨m, hle⟩ = none := by
      rw [handles_crowd, if_neg (lt_irrefl m)]
    have hadmissible :
        (crowd n m a).Admissible (.copyConstruct ⟨m, hle⟩ ⟨0, hn⟩ : SharedOp _ _ Nat) := by
      refine ⟨habsent, ?_, rfl⟩
      rw [hpresent]
      exact Option.some_ne_none _
    exact ⟨_, Ran.call hr hadmissible (crowd_next hn hm hle)⟩

theorem holders_crowd : (crowd n n a).holders 0 = n := by
  have hall : ∀ i, (crowd n n a).naming i = some 0 := by
    intro i
    rw [naming, show (crowd n n a).handles i = some ⟨some 0, a.card⟩ from if_pos i.isLt]
    rfl
  rw [holders, Finset.filter_true_of_mem fun i _ ↦ hall i, Finset.card_univ, Fintype.card_fin]

end Crowd

/-- Handles are not always independent values.  Where two handles share an empty bitmap, `clear`,
`-=` by the other handle and `edit` change no set and end the sharing; so does an `add` that throws
after the copy. A handle with a living editor does not know its size, and as an operand of `|=` its
keys are lost.  And the count of a block that 2 ^ 32 handles share has wrapped around to zero. -/
theorem handles_sharingEnds :
    Ran [⟨noFault, .wrap false ∅, .done true⟩, ⟨noFault, .copyConstruct true false, .done true⟩]
      (sharedPair ∅) ∧
    (∃ s', (sharedPair ∅).step noFault (.clear true) = some (s', .done true) ∧
      s'.reads = (sharedPair ∅).reads ∧ s'.naming ≠ (sharedPair ∅).naming) ∧
    (∃ s', (sharedPair ∅).step noFault (.assignHandle .bitAndnot true false) =
      some (s', .done true) ∧
      s'.reads = (sharedPair ∅).reads ∧ s'.naming ≠ (sharedPair ∅).naming) ∧
    (∃ s', (sharedPair ∅).step noFault (.edit true) = some (s', .done true) ∧
      s'.reads = (sharedPair ∅).reads ∧ s'.naming ≠ (sharedPair ∅).naming) ∧
    (∃ s', (sharedPair ∅).step ⟨false, fun _ ↦ true⟩ (.add true 7) = some (s', .threwChanging) ∧
      s'.reads = (sharedPair ∅).reads ∧ s'.naming ≠ (sharedPair ∅).naming) ∧
    (∃ s₁ s₂ s₃, (sharedPair ∅).step noFault (.edit true) = some (s₁, .done true) ∧
      s₁.step noFault (.through true fun a ↦ insert 7 a) = some (s₂, .done true) ∧
      (s₂.handles true).map SharedHandle.size = some 0 ∧ s₂.reads true = some {7} ∧
      s₂.step noFault (.assignHandle .bitOr false true) = some (s₃, .done true) ∧
        s₃.reads false = some ∅) ∧
    ∃ calls, ∃ s : SharedState (Fin (2 ^ 32)) (Finset Nat), Ran calls s ∧ s.holders 0 = 2 ^ 32 ∧
      ∃ b, s.blocks 0 = some b ∧ b.count = 0#32 := by
  refine ⟨ran_sharedPair ∅, ⟨_, rfl, ?_, ?_⟩, ⟨_, rfl, ?_, ?_⟩, ⟨_, rfl, ?_, ?_⟩, ⟨_, rfl, ?_, ?_⟩,
    ⟨_, _, _, rfl, rfl, ?_, ?_, rfl, ?_⟩, ?_⟩
  case refine_12 =>
    obtain ⟨calls, hr⟩ := ran_crowd (Nat.two_pow_pos 32) le_rfl ∅
    exact ⟨calls, _, hr, holders_crowd, ⟨BitVec.ofNat 32 (2 ^ 32), ∅⟩, rfl, by decide⟩
  all_goals first
    | rfl
    | decide

end Roaring.SharedState
