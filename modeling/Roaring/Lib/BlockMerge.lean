import Mathlib
import Roaring.Lib.Bitonic

/-!
# Merging two arrays by blocks

Two strictly ascending arrays are taken block by block, always from the side whose next
value is smaller; each block is merged with the block that is held back, and the lower
half is passed on.  What has been passed on is never above a value that has not been
taken.  Of the stream that arises the values are kept once, or those that stand in it
alone, by comparing neighbours across the blocks.

What is left at the end is a handful of values, which are sorted by insertion and cancel
in pairs.
-/

namespace Lib

variable {α : Type} [LinearOrder α]

/-! ## The blocks -/

/-- `pa` and `pb` values are taken of the two arrays: `raw` is passed on and `held` is held back. -/
structure Taken (a b : List α) (pa pb : Nat) (raw held : List α) : Prop where
  perm : (raw ++ held).Perm (a.take pa ++ b.take pb)
  ascending : (raw ++ held).Pairwise (· ≤ ·)
  before_left : ∀ x ∈ raw, ∀ y ∈ a.drop pa, x ≤ y
  before_right : ∀ x ∈ raw, ∀ y ∈ b.drop pb, x ≤ y

section Blocks

variable {a b raw held block lo hi : List α} {pa pb w : Nat}

theorem Taken.swap (h : Taken a b pa pb raw held) : Taken b a pb pa raw held :=
  ⟨h.perm.trans List.perm_append_comm, h.ascending, h.before_right, h.before_left⟩

theorem MergedBlocks.swap (h : MergedBlocks block held lo hi) : MergedBlocks held block lo hi :=
  ⟨h.perm.trans List.perm_append_comm, h.ascending, h.below_right, h.below_left⟩

theorem MergedBlocks.mem (h : MergedBlocks block held lo hi) {x : α} (hx : x ∈ lo ++ hi) :
    x ∈ block ∨ x ∈ held :=
  List.mem_append.1 (h.perm.mem_iff.1 hx)

theorem lt_of_take_drop (ha : a.Pairwise (· < ·)) {p : Nat} {x y : α} (hx : x ∈ a.take p)
    (hy : y ∈ a.drop p) : x < y := by
  rw [← List.take_append_drop p a] at ha
  exact (List.pairwise_append.1 ha).2.2 x hx y hy

/-- The first blocks of the two arrays. -/
theorem Taken.start (ha : a.Pairwise (· < ·)) (hb : b.Pairwise (· < ·))
    (h : MergedBlocks (a.take w) (b.take w) lo hi) :
    Taken a b w w lo hi := by
  refine ⟨h.perm, h.ascending, fun x hx y hy ↦ ?_, fun x hx y hy ↦ ?_⟩
  · obtain ⟨z, hz, hle⟩ := h.below_left x hx
    exact hle.trans (lt_of_take_drop ha hz hy).le
  · obtain ⟨z, hz, hle⟩ := h.below_right x hx
    exact hle.trans (lt_of_take_drop hb hz hy).le

/-- One block more of the side whose next value is not larger. -/
theorem Taken.step (ht : Taken a b pa pb raw held) (ha : a.Pairwise (· < ·))
    (hb : b.Pairwise (· < ·)) {x : α} (hx : a[pa]? = some x) (hle : ∀ y ∈ b.drop pb, x ≤ y)
    (hmerge : MergedBlocks ((a.drop pa).take w) held lo hi) :
    Taken a b (pa + w) pb (raw ++ lo) hi := by
  obtain ⟨hraw, hheld, hrawHeld⟩ := List.pairwise_append.1 ht.ascending
  have hsplit : a.take (pa + w) = a.take pa ++ (a.drop pa).take w := List.take_add
  have hrest : a.drop (pa + w) = (a.drop pa).drop w := (List.drop_drop).symm
  refine ⟨?_, ?_, ?_, ?_⟩
  · rw [List.append_assoc, hsplit, List.append_assoc]
    refine (List.Perm.append_left raw hmerge.perm).trans ?_
    refine (List.Perm.append_left raw List.perm_append_comm).trans ?_
    rw [← List.append_assoc]
    refine (List.Perm.append_right _ ht.perm).trans ?_
    rw [List.append_assoc]
    exact List.Perm.append_left _ List.perm_append_comm
  · rw [List.append_assoc]
    refine List.pairwise_append.2 ⟨hraw, hmerge.ascending, fun u hu v hv ↦ ?_⟩
    rcases hmerge.mem hv with hblock | hheld
    · exact ht.before_left u hu v (List.mem_of_mem_take hblock)
    · exact hrawHeld u hu v hheld
  · intro u hu v hv
    rw [hrest] at hv
    rcases List.mem_append.1 hu with hu | hu
    · exact ht.before_left u hu v (List.mem_of_mem_drop hv)
    · obtain ⟨z, hz, huz⟩ := hmerge.below_left u hu
      exact huz.trans (lt_of_take_drop (ha.sublist (List.drop_sublist _ _)) hz hv).le
  · intro u hu v hv
    rcases List.mem_append.1 hu with hu | hu
    · exact ht.before_right u hu v hv
    · -- what is held is below the next value of its own side
      obtain ⟨z, hz, huz⟩ := hmerge.below_right u hu
      refine huz.trans ?_
      rcases List.mem_append.1
        (ht.perm.mem_iff.1 (List.mem_append_right raw hz)) with hleft | hright
      · have hmem : x ∈ a.drop pa := by
          rw [List.mem_iff_getElem?]
          exact ⟨0, by rw [List.getElem?_drop, Nat.add_zero, hx]⟩
        exact (lt_of_take_drop ha hleft hmem).le.trans (hle v hv)
      · exact (lt_of_take_drop hb hright hv).le

end Blocks

/-! ## Every value once -/

/-- The values that differ from the one in front of them. -/
def uniqueAfter (last : α) : List α → List α
  | [] => []
  | v :: vs => if v = last then uniqueAfter v vs else v :: uniqueAfter v vs

section Unique

variable {last v : α} {vs ws zs raw : List α}

theorem uniqueAfter_spec {last : α} {vs : List α} (hasc : (last :: vs).Pairwise (· ≤ ·)) :
    (last :: uniqueAfter last vs).Pairwise (· < ·) ∧ ∀ v, v ∈ uniqueAfter last vs ↔ v ∈ vs ∧
      v ≠ last := by
  induction vs generalizing last with
  | nil => exact ⟨List.pairwise_singleton _ _, fun v ↦ by simp [uniqueAfter]⟩
  | cons w vs ih =>
    obtain ⟨hstrict, hmem⟩ := ih hasc.of_cons
    have hle : last ≤ w := List.rel_of_pairwise_cons hasc List.mem_cons_self
    rw [uniqueAfter]
    split
    · rename_i heq
      subst heq
      refine ⟨hstrict, fun v ↦ ?_⟩
      rw [hmem, List.mem_cons]
      tauto
    · rename_i hne
      have hlt := lt_of_le_of_ne hle (Ne.symm hne)
      refine ⟨List.pairwise_cons.2 ⟨fun v hv ↦ ?_, hstrict⟩, fun v ↦ ?_⟩
      · rcases List.mem_cons.1 hv with rfl | hv
        · exact hlt
        · exact hlt.trans (List.rel_of_pairwise_cons hstrict hv)
      · rw [List.mem_cons, hmem, List.mem_cons]
        constructor
        · rintro (rfl | ⟨hv, -⟩)
          · exact ⟨.inl rfl, hne⟩
          · exact ⟨.inr hv, (hlt.trans_le (List.rel_of_pairwise_cons hasc.of_cons hv)).ne'⟩
        · rintro ⟨rfl | hv, hv'⟩
          · exact .inl rfl
          · by_cases heq : v = w
            · exact .inl heq
            · exact .inr ⟨hv, heq⟩

theorem length_uniqueAfter_le (last : α) (vs : List α) :
    (uniqueAfter last vs).length ≤ vs.length := by
  induction vs generalizing last with
  | nil => exact le_rfl
  | cons w vs ih =>
    rw [uniqueAfter, List.length_cons]
    split
    · exact (ih w).trans (Nat.le_succ _)
    · exact Nat.succ_le_succ (ih w)

/-- `zs` holds the values of `raw` once each, and `last` is the greatest of them. -/
structure OnceEach (raw zs : List α) (last : α) : Prop where
  ascending : zs.Pairwise (· < ·)
  mem : ∀ v, v ∈ zs ↔ v ∈ raw
  last_mem : last ∈ raw
  le_last : ∀ v ∈ raw, v ≤ last
  length_le : zs.length ≤ raw.length

/-- A first block, behind a value that differs from its first one. -/
theorem OnceEach.start (hasc : (v :: vs).Pairwise (· ≤ ·)) (hne : v ≠ last) :
    OnceEach (v :: vs) (uniqueAfter last (v :: vs)) ((v :: vs).getLast (List.cons_ne_nil _ _)) := by
  obtain ⟨hstrict, hmem⟩ := uniqueAfter_spec hasc
  rw [uniqueAfter, if_neg hne]
  refine ⟨hstrict, fun u ↦ ?_, List.getLast_mem _, fun u hu ↦ ?_, ?_⟩
  · rw [List.mem_cons, hmem, List.mem_cons]
    tauto
  · exact List.Pairwise.rel_getLast hasc hu
  · exact Nat.succ_le_succ (length_uniqueAfter_le _ _)

/-- One block more. -/
theorem OnceEach.append (h : OnceEach raw zs last) (hasc : (raw ++ v :: vs).Pairwise (· ≤ ·)) :
    OnceEach (raw ++ v :: vs) (zs ++ uniqueAfter last (v :: vs))
    ((v :: vs).getLast (List.cons_ne_nil _ _)) := by
  obtain ⟨-, hblock, hbetween⟩ := List.pairwise_append.1 hasc
  have hbehind : (last :: v :: vs).Pairwise (· ≤ ·) :=
    List.pairwise_cons.2 ⟨fun u hu ↦ hbetween last h.last_mem u hu, hblock⟩
  obtain ⟨hstrict, hmem⟩ := uniqueAfter_spec hbehind
  obtain ⟨habove, hascending⟩ := List.pairwise_cons.1 hstrict
  refine ⟨?_, fun u ↦ ?_, List.mem_append_right _ (List.getLast_mem _), fun u hu ↦ ?_, ?_⟩
  · refine List.pairwise_append.2 ⟨h.ascending, hascending, fun x hx y hy ↦ ?_⟩
    exact (h.le_last x ((h.mem x).1 hx)).trans_lt (habove y hy)
  · rw [List.mem_append, List.mem_append, h.mem, hmem]
    constructor
    · rintro (hu | ⟨hu, -⟩)
      · exact .inl hu
      · exact .inr hu
    · rintro (hu | hu)
      · exact .inl hu
      · by_cases heq : u = last
        · exact .inl (heq ▸ h.last_mem)
        · exact .inr ⟨hu, heq⟩
  · rcases List.mem_append.1 hu with hu | hu
    · exact hbetween u hu _ (List.getLast_mem _)
    · exact List.Pairwise.rel_getLast hblock hu
  · rw [List.length_append, List.length_append]
    exact Nat.add_le_add h.length_le (length_uniqueAfter_le _ _)

end Unique

/-! ## The values that stand alone -/

/-- Of a stream behind two values, the values that differ from both neighbours; the last one is not
decided. -/
def survivors (twoBack oneBack : α) : List α → List α
  | [] => []
  | v :: vs =>
      if oneBack = twoBack ∨ oneBack = v then survivors oneBack v vs
      else oneBack :: survivors oneBack v vs

/-- The same where the stream ends. -/
def standalone (twoBack oneBack : α) : List α → List α
  | [] => if oneBack = twoBack then [] else [oneBack]
  | v :: vs =>
      if oneBack = twoBack ∨ oneBack = v then standalone oneBack v vs
      else oneBack :: standalone oneBack v vs

section Alone

variable {x y p q v : α} {us vs ws : List α}

theorem standalone_append (x y : α) (us : List α) (p q : α) (ws : List α) :
    standalone x y (us ++ p :: q :: ws) = survivors x y (us ++ [p, q]) ++ standalone p q ws := by
  induction us generalizing x y with
  | nil =>
    simp only [List.nil_append, standalone, survivors]
    split_ifs <;> rfl
  | cons u us ih =>
    rw [List.cons_append, List.cons_append, standalone, survivors]
    split
    · exact ih y u
    · rw [List.cons_append, ih y u]

theorem survivors_append (x y : α) (us : List α) (p q : α) (ws : List α) :
    survivors x y (us ++ p :: q :: ws) = survivors x y (us ++ [p, q]) ++ survivors p q ws := by
  induction us generalizing x y with
  | nil =>
    simp only [List.nil_append, survivors]
    split_ifs <;> rfl
  | cons u us ih =>
    rw [List.cons_append, List.cons_append, survivors, survivors]
    split
    · exact ih y u
    · rw [List.cons_append, ih y u]

theorem length_survivors_le (x y : α) (vs : List α) : (survivors x y vs).length ≤ vs.length := by
  induction vs generalizing x y with
  | nil => exact le_rfl
  | cons v vs ih =>
    rw [survivors, List.length_cons]
    split
    · exact (ih y v).trans (Nat.le_succ _)
    · exact Nat.succ_le_succ (ih y v)

/-- What survives is below a later value. -/
theorem exists_gt_of_mem_survivors (hasc : (y :: vs).Pairwise (· ≤ ·)) : ∀ u ∈ survivors x y vs,
    ∃ v ∈ vs, u < v := by
  induction vs generalizing x y with
  | nil => exact List.forall_mem_nil _
  | cons v vs ih =>
    intro u hu
    have hrest : u ∈ survivors y v vs → ∃ w ∈ v :: vs, u < w := by
      intro hu
      obtain ⟨w, hw, hlt⟩ := ih hasc.of_cons u hu
      exact ⟨w, List.mem_cons_of_mem _ hw, hlt⟩
    rw [survivors] at hu
    split at hu
    · exact hrest hu
    · rename_i hne
      rcases List.mem_cons.1 hu with rfl | hu
      · exact ⟨v, List.mem_cons_self,
          lt_of_le_of_ne (List.rel_of_pairwise_cons hasc List.mem_cons_self) fun h ↦ hne (.inr h)⟩
      · exact hrest hu

theorem count_cons_eq_one (hasc : (y :: v :: vs).Pairwise (· ≤ ·)) (u : α) :
    (y :: v :: vs).count u = 1 ↔ (u = y ∧ y ≠ v) ∨ (u ≠ y ∧ (v :: vs).count u = 1) := by
  by_cases huy : u = y
  · subst huy
    rw [List.count_cons_self, Nat.add_eq_right, List.count_eq_zero]
    have hmem : u ∈ v :: vs ↔ u = v := by
      refine ⟨fun h ↦ ?_, fun h ↦ h ▸ List.mem_cons_self⟩
      rcases List.mem_cons.1 h with h | h
      · exact h
      · exact le_antisymm (List.rel_of_pairwise_cons hasc List.mem_cons_self)
          (List.rel_of_pairwise_cons hasc.of_cons h)
    rw [hmem]
    tauto
  · rw [List.count_cons_of_ne (Ne.symm huy)]
    tauto

/-- The standalone values of an ascending stream are those that occur once, in ascending order. -/
theorem standalone_spec (hasc : (y :: vs).Pairwise (· ≤ ·)) :
    (standalone x y vs).Pairwise (· < ·) ∧ ∀ u, u ∈ standalone x y vs ↔ ¬ (y = x ∧ u = y) ∧
      (y :: vs).count u = 1 := by
  induction vs generalizing x y with
  | nil =>
    rw [standalone]
    split
    · rename_i heq
      refine ⟨List.Pairwise.nil, fun u ↦ ⟨fun h ↦ absurd h List.not_mem_nil, ?_⟩⟩
      rintro ⟨hnot, hcount⟩
      have hmem := List.count_pos_iff.1 (by omega : 0 < [y].count u)
      exact absurd ⟨heq, List.mem_singleton.1 hmem⟩ hnot
    · rename_i hne
      refine ⟨List.pairwise_singleton _ _, fun u ↦ ?_⟩
      rw [List.mem_singleton]
      constructor
      · rintro rfl
        exact ⟨fun h ↦ hne h.1, List.count_singleton_self⟩
      · rintro ⟨-, hcount⟩
        exact List.mem_singleton.1 (List.count_pos_iff.1 (by omega : 0 < [y].count u))
  | cons v vs ih =>
    obtain ⟨hstrict, hmem⟩ := ih (x := y) hasc.of_cons
    have hle : y ≤ v := List.rel_of_pairwise_cons hasc List.mem_cons_self
    have hhas : ∀ u, (v :: vs).count u = 1 → v ≤ u := by
      intro u hu
      rcases List.mem_cons.1 (List.count_pos_iff.1 (by omega : 0 < (v :: vs).count u)) with rfl | hu
      · exact le_rfl
      · exact List.rel_of_pairwise_cons hasc.of_cons hu
    have hrest : ∀ u, u ∈ standalone y v vs ↔ u ≠ y ∧ (v :: vs).count u = 1 := by
      intro u
      rw [hmem]
      constructor
      · rintro ⟨hnot, hcount⟩
        refine ⟨?_, hcount⟩
        rintro rfl
        exact hnot ⟨le_antisymm (hhas _ hcount) hle, le_antisymm hle (hhas _ hcount)⟩
      · rintro ⟨hne, hcount⟩
        exact ⟨fun h ↦ hne (h.2.trans h.1), hcount⟩
    rw [standalone]
    split
    · rename_i hdrop
      refine ⟨hstrict, fun u ↦ ?_⟩
      rw [hrest, count_cons_eq_one hasc]
      tauto
    · rename_i hkeep
      rw [not_or] at hkeep
      refine ⟨List.pairwise_cons.2 ⟨fun u hu ↦ ?_, hstrict⟩, fun u ↦ ?_⟩
      · obtain ⟨hne, hcount⟩ := (hrest u).1 hu
        exact lt_of_le_of_ne (hle.trans (hhas u hcount)) (Ne.symm hne)
      · rw [List.mem_cons, hrest, count_cons_eq_one hasc]
        tauto

end Alone

/-! ## A handful of values -/

/-- A value is put behind the values that are not greater, looking from the back. -/
def insertFromBack (sorted : List α) (v : α) : List α :=
  sorted.rdropWhile (fun x ↦ decide (v < x)) ++ v :: sorted.rtakeWhile fun x ↦ decide (v < x)

/-- A value is put behind the others, or removes the last one if that is the same. -/
def cancelPair (kept : List α) (v : α) : List α :=
  if kept.getLast? = some v then kept.dropLast else kept ++ [v]

section Handful

variable {sorted kept vs : List α} {v : α}

theorem insertFromBack_perm (sorted : List α) (v : α) :
    (insertFromBack sorted v).Perm (v :: sorted) := by
  rw [insertFromBack]
  refine List.perm_middle.trans ?_
  rw [List.rdropWhile_append_rtakeWhile]

theorem insertFromBack_ascending (h : sorted.Pairwise (· ≤ ·)) (v : α) :
    (insertFromBack sorted v).Pairwise (· ≤ ·) := by
  have hsplit : sorted.rdropWhile (fun x ↦ decide (v < x)) ++ sorted.rtakeWhile
      (fun x ↦ decide (v < x)) = sorted :=
    List.rdropWhile_append_rtakeWhile
  rw [← hsplit] at h
  obtain ⟨hfront, hback, hbetween⟩ := List.pairwise_append.1 h
  rw [insertFromBack]
  have hlater : ∀ x ∈ sorted.rtakeWhile (fun x ↦ decide (v < x)), v ≤ x := by
    intro x hx
    have hlt : decide (v < x) = true := List.mem_rtakeWhile_imp (p := fun x ↦ decide (v < x)) hx
    exact (of_decide_eq_true hlt).le
  have hearlier : ∀ x ∈ sorted.rdropWhile (fun x ↦ decide (v < x)), x ≤ v := by
    intro x hx
    have hne := List.ne_nil_of_mem hx
    have hlast := List.rdropWhile_last_not (fun x ↦ decide (v < x)) sorted hne
    rw [decide_eq_true_eq, not_lt] at hlast
    exact (List.Pairwise.rel_getLast hfront hx).trans hlast
  refine List.pairwise_append.2 ⟨hfront, List.pairwise_cons.2 ⟨hlater, hback⟩, fun x hx y hy ↦ ?_⟩
  rcases List.mem_cons.1 hy with rfl | hy
  · exact hearlier x hx
  · exact hbetween x hx y hy

/-- Inserting one value after the other sorts. -/
theorem insertionFold_spec (vs : List α) {sorted : List α} (h : sorted.Pairwise (· ≤ ·)) :
    (vs.foldl insertFromBack sorted).Pairwise (· ≤ ·) ∧
      (vs.foldl insertFromBack sorted).Perm (sorted ++ vs) := by
  induction vs generalizing sorted with
  | nil => exact ⟨h, by rw [List.append_nil]; exact List.Perm.refl _⟩
  | cons v vs ih =>
    obtain ⟨hasc, hperm⟩ := ih (insertFromBack_ascending h v)
    refine ⟨hasc, hperm.trans ?_⟩
    exact ((insertFromBack_perm sorted v).append_right vs).trans List.perm_middle.symm

/-- Of an ascending list the values that occur an odd number of times are left, once each. -/
theorem cancelFold_spec {done vs : List α} (hasc : (done ++ vs).Pairwise (· ≤ ·)) {kept : List α}
    (hkept : kept.Pairwise (· < ·)) (hodd : ∀ u, u ∈ kept ↔ Odd (done.count u)) :
    (vs.foldl cancelPair kept).Pairwise (· < ·) ∧ ∀ u, u ∈ vs.foldl cancelPair kept ↔
      Odd ((done ++ vs).count u) := by
  induction vs generalizing done kept with
  | nil => exact ⟨hkept, fun u ↦ by rw [List.append_nil]; exact hodd u⟩
  | cons v vs ih =>
    have hshift : done ++ v :: vs = (done ++ [v]) ++ vs := by
      rw [List.append_assoc, List.singleton_append]
    have hle : ∀ u ∈ kept, u ≤ v := by
      intro u hu
      have hmem : u ∈ done := List.count_pos_iff.1 ((hodd u).1 hu).pos
      exact (List.pairwise_append.1 hasc).2.2 u hmem v List.mem_cons_self
    have hcount : ∀ u, (done ++ [v]).count u = done.count u + if u = v then 1 else 0 := by
      intro u
      rw [List.count_append, List.count_singleton]
      simp only [beq_iff_eq, eq_comm (a := v)]
    rw [hshift] at hasc ⊢
    rw [List.foldl_cons]
    by_cases hlast : kept.getLast? = some v
    · obtain ⟨front, rfl⟩ := List.getLast?_eq_some_iff.1 hlast
      rw [cancelPair, if_pos hlast, List.dropLast_concat]
      obtain ⟨hfront, -, hbelow⟩ := List.pairwise_append.1 hkept
      refine ih hasc hfront fun u ↦ ?_
      have hmem := hodd u
      rw [List.mem_append, List.mem_singleton] at hmem
      rw [hcount]
      by_cases huv : u = v
      · have hnot : u ∉ front := fun hu ↦ lt_irrefl v (huv ▸ hbelow u hu v List.mem_cons_self)
        have hwas := hmem.1 (.inr huv)
        rw [if_pos huv]
        exact iff_of_false hnot (Nat.not_odd_iff_even.2 hwas.add_one)
      · rw [if_neg huv, Nat.add_zero, ← hmem, or_iff_left huv]
    · have hnew : v ∉ kept := by
        intro hv
        refine hlast ?_
        rw [List.getLast?_eq_some_getLast (List.ne_nil_of_mem hv), Option.some_inj]
        refine le_antisymm (hle _ (List.getLast_mem _)) ?_
        exact List.Pairwise.rel_getLast (hkept.imp le_of_lt) hv
      rw [cancelPair, if_neg hlast]
      refine ih hasc (List.pairwise_append.2
        ⟨hkept, List.pairwise_singleton _ v, fun u hu w hw ↦ ?_⟩) fun u ↦ ?_
      · obtain rfl := List.mem_singleton.1 hw
        exact lt_of_le_of_ne (hle u hu) fun heq ↦ hnew (heq ▸ hu)
      · rw [List.mem_append, List.mem_singleton, hcount, hodd]
        by_cases huv : u = v
        · have heven : Even (done.count v) := Nat.not_odd_iff_even.1 fun hodd' ↦
            hnew ((hodd v).2 hodd')
          rw [if_pos huv, huv]
          exact iff_of_true (.inr rfl) heven.add_one
        · rw [if_neg huv, Nat.add_zero, or_iff_left huv]

end Handful

end Lib
