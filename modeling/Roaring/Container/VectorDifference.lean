import Mathlib
import Roaring.Container.VectorIntersect

/-!
# The vector difference of sorted arrays

The lanes of the current block of the first array that also occur in the second one are
marked while the second array moves on below it; once nothing of the second array can
match it any more, the lanes that are not marked are put in front and stored.  The compare
takes a zero as the end of its operand, so a zero in front of either array is settled
first, and the values behind the last whole block of the second array are compared with an
explicit length.
-/

namespace Roaring

open Lib

structure MarkWalk where
  ia : Nat
  ib : Nat
  va : Lanes
  vb : Lanes
  found : Nat → Bool
  count : Nat
  out : List Nat
  ended : Bool

/-- The lanes that are not marked are stored. -/
def storeUnmarked (v : Lanes) (found : Nat → Bool) (count : Nat) (out : List Nat) :
    Option (Nat × List Nat) :=
  (memmoveInto out count (lanesOf 8 (shuffleBytes v (compactControl fun i ↦ !found i)))).map
    fun out ↦ (count + popcountLanes 8 fun i ↦ !found i, out)

section Walk

variable (a : Operand) (sta : Nat) (b : Operand) (stb : Nat)

/-- A block that nothing can match any more is stored, and the next one starts without marks. -/
def leaveBlock (s : MarkWalk) : Option MarkWalk :=
  (storeUnmarked s.va s.found s.count s.out).map fun r ↦
    if s.ia + 8 = sta then { s with ia := s.ia + 8, count := r.1, out := r.2, ended := true }
    else
      { s with
        ia := s.ia + 8, count := r.1, out := r.2, found := fun _ ↦ false,
        va := loadRegister r.2 a (s.ia + 8) }

def nextRight (s : MarkWalk) : MarkWalk :=
  if s.ib + 8 = stb then { s with ib := s.ib + 8, ended := true }
  else { s with ib := s.ib + 8, vb := loadRegister s.out b (s.ib + 8) }

/-- A turn of the loop. -/
def markTurn (s : MarkWalk) : Option MarkWalk :=
  let s := { s with found := fun i ↦ s.found i || cmpistrm s.vb s.va i }
  let amax := a.read s.out (s.ia + 7)
  let bmax := b.read s.out (s.ib + 7)
  (if amax ≤ bmax then leaveBlock a sta s else some s).map fun t ↦
    if t.ended then t else if bmax ≤ amax then nextRight b stb t else t

/-- The block that is left when the blocks of the second array have run out. -/
def finishBlock (sb : Nat) (s : MarkWalk) : Option MarkWalk :=
  if s.ia < sta then
    let vb : Lanes := fun i ↦ if i < sb - s.ib then b.read s.out (s.ib + i) else 0
    (storeUnmarked s.va (fun i ↦ s.found i || cmpestrm vb (sb - s.ib) s.va 8 i) s.count s.out).map
      fun r ↦ { s with ia := s.ia + 8, count := r.1, out := r.2 }
  else some s

end Walk

/-- A step of the scalar tail. -/
def subtractStep (a b : Operand) (s : MergeState) : Option MergeState :=
  let av := a.read s.out s.i
  let bv := b.read s.out s.j
  if av < bv then (store s.out s.k av).map fun out ↦ ⟨s.i + 1, s.j, s.k + 1, out⟩
  else if bv < av then some ⟨s.i, s.j + 1, s.k, s.out⟩
  else some ⟨s.i + 1, s.j + 1, s.k, s.out⟩

/-- A zero in front of either array. -/
def settleZeros (a b : Operand) (out : List Nat) : Option MergeState :=
  if a.read out 0 = 0 ∨ b.read out 0 = 0 then
    if a.read out 0 = 0 ∧ b.read out 0 = 0 then some ⟨1, 1, 0, out⟩
    else if a.read out 0 = 0 then (store out 0 0).map fun out ↦ ⟨1, 0, 1, out⟩
    else some ⟨0, 1, 0, out⟩
  else some ⟨0, 0, 0, out⟩

/-- The blocks behind the zeros. -/
def subtractBlocks (a : Operand) (sa : Nat) (b : Operand) (sb : Nat) (s : MergeState) :
    Option MergeState :=
  let sta := s.i + (sa - s.i) / 8 * 8
  let stb := s.j + (sb - s.j) / 8 * 8
  if s.i < sta ∧ s.j < stb then
    ((loop (fun s ↦ !s.ended) (markTurn a sta b stb) (sta + stb + 1)
      ⟨s.i, s.j, loadRegister s.out a s.i, loadRegister s.out b s.j, fun _ ↦ false, s.k, s.out,
        false⟩).bind (finishBlock sta b sb)).map
        fun t ↦ ⟨t.ia, t.ib, t.count, t.out⟩
  else some s

/-- `difference_array_array_sse42`. -/
def differenceArrayArraySse42 (a : Operand) (sa : Nat) (b : Operand) (sb : Nat) (out : List Nat) :
    Option (Nat × List Nat) :=
  if sa = 0 then some (0, out)
  else if sb = 0 then (memmoveInto out 0 (a.block out 0 sa)).map fun out ↦ (sa, out)
  else
    ((settleZeros a b out).bind (subtractBlocks a sa b sb)).bind fun s ↦
      (loop (fun s ↦ decide (s.i < sa ∧ s.j < sb)) (subtractStep a b) (sa + sb + 1) s).bind fun s ↦
        if s.i < sa then
          (memmoveInto s.out s.k (a.block s.out s.i (sa - s.i))).map fun out ↦
            (s.k + (sa - s.i), out)
        else some (s.k, s.out)

/-! ## The walk -/

/-- The walk stands in front of two blocks, the lanes of the first one marked as far as the second
array has been passed, or at the end of the blocks of one array. -/
structure Marking (as bs : List Nat) (size i₀ j₀ sta stb : Nat) (s : MarkWalk) (zs : List Nat) :
    Prop where
  left_start : i₀ ≤ s.ia
  left_le : s.ia ≤ sta
  left_block : (sta - s.ia) % 8 = 0
  right_start : j₀ ≤ s.ib
  right_le : s.ib ≤ stb
  right_block : (stb - s.ib) % 8 = 0
  ended : s.ended = true ↔ s.ia = sta ∨ s.ib = stb
  left : s.ia < sta → lanesOf 8 s.va = (as.drop s.ia).take 8
  right : s.ib < stb → lanesOf 8 s.vb = (bs.drop s.ib).take 8
  found : s.ia < sta → ∀ i < 8, s.found i = true ↔ s.va i ∈ bs.take s.ib
  wide : Subtracted as bs 8 s.ia s.ib zs
  narrow : s.ia = sta → Subtracted as bs 0 s.ia s.ib zs
  written : s.count = zs.length
  front : s.out.take s.count = zs
  size : s.out.length = size

section Difference

variable {as bs zs : List Nat} {size i₀ j₀ sta stb : Nat} {s : MarkWalk}

/-- The unmarked lanes are stored behind what is kept already. -/
theorem storeUnmarked_spec {v : Lanes} {found : Nat → Bool} {P : Nat → Prop} (count : Nat)
    (out : List Nat) (hlow : ∀ l < 8, v l < lowDomainSize)
    (hfound : ∀ i < 8, found i = true ↔ P (v i)) (hfit : count + 8 ≤ out.length) :
    ∃ out' ms, storeUnmarked v found count out = some (count + ms.length, out') ∧
      out'.length = out.length ∧
      out'.take (count + ms.length) = out.take count ++ ms ∧ ms.Sublist (lanesOf 8 v) ∧
        ∀ u, u ∈ ms ↔ u ∈ lanesOf 8 v ∧ ¬ P u := by
  have hlanes : ∀ i < 8, shuffleBytes v (compactControl fun i ↦ !found i) i =
      (keptLanes 8 v fun i ↦ !found i).getD i 0 :=
    fun i hi ↦ shuffleBytes_compactControl hlow hi
  obtain ⟨out', hmove, hlength, hfront, -⟩ := storeKept_spec hlanes hfit
  refine ⟨out', keptLanes 8 v fun i ↦ !found i, ?_, hlength, ?_, keptLanes_sublist 8 v _,
    fun u ↦ mem_keptLanes (fun u ↦ ¬ P u) fun i hi ↦ ?_⟩
  · rw [storeUnmarked, hmove, Option.map_some, length_keptLanes]
  · rw [length_keptLanes]
    exact hfront
  · rw [Bool.not_eq_true', ← Bool.not_eq_true, hfound i hi]

/-- What the walk relies on: 16-bit values, no zero from the first cursors on, whole blocks in front
of the last ones, and slots. -/
structure MarkInput (as bs : List Nat) (size i₀ j₀ sta stb : Nat) : Prop where
  left_ascending : as.Pairwise (· < ·)
  right_ascending : bs.Pairwise (· < ·)
  low : ∀ v ∈ as, v < lowDomainSize
  left_ne_zero : ∀ v ∈ as.drop i₀, v ≠ 0
  right_ne_zero : ∀ v ∈ bs.drop j₀, v ≠ 0
  left_fits : sta ≤ as.length
  right_fits : stb ≤ bs.length
  slots : as.length ≤ size

theorem Marking.room (h : Marking as bs size i₀ j₀ sta stb s zs) (hgo : s.ended = false) :
    s.ia + 8 ≤ sta ∧ s.ib + 8 ≤ stb := by
  have hnot : ¬ (s.ia = sta ∨ s.ib = stb) :=
    fun hend ↦ Bool.false_ne_true (hgo.symm.trans (h.ended.2 hend))
  have hleft := h.left_le
  have hblock := h.left_block
  have hright := h.right_le
  have hblock' := h.right_block
  omega

theorem ne_zero_of_block {v : Lanes} {xs : List Nat} {i j : Nat} (hxs : ∀ u ∈ xs.drop i, u ≠ 0)
    (hij : i ≤ j) (hv : lanesOf 8 v = (xs.drop j).take 8) : ∀ l < 8, v l ≠ 0 := by
  intro l hl
  refine hxs _ ?_
  have hmem := List.mem_of_mem_take (hv ▸ mem_lanesOf.2 ⟨l, hl, rfl⟩)
  rw [← Nat.add_sub_cancel' hij, ← List.drop_drop] at hmem
  exact List.mem_of_mem_drop hmem

/-- The second array moves on; the marks say so already. -/
theorem Marking.nextRight (h : Marking as bs size i₀ j₀ sta stb s zs)
    (hin : MarkInput as bs size i₀ j₀ sta stb) (hgo : s.ended = false)
    {f : Nat → Bool} (hf : ∀ i < 8, f i = true ↔ s.va i ∈ bs.take (s.ib + 8))
    (hwide : Subtracted as bs 8 s.ia (s.ib + 8) zs) :
    ∃ t, Roaring.nextRight (.apart bs) stb { s with found := f } = t ∧
      Marking as bs size i₀ j₀ sta stb t zs ∧ t.ia = s.ia ∧
      t.ib = s.ib + 8 := by
  obtain ⟨hroom, hroom'⟩ := h.room hgo
  have hblock := h.right_block
  have hstart := h.right_start
  have hfits := hin.right_fits
  rw [Roaring.nextRight]
  by_cases hend : s.ib + 8 = stb
  · rw [if_pos hend]
    exact ⟨_, rfl, ⟨h.left_start, h.left_le, h.left_block, by dsimp only; omega, hend.le, by
      dsimp only; omega,
      iff_of_true rfl (.inr hend), h.left, fun hlt ↦ absurd hend hlt.ne, fun _ ↦ hf, hwide,
        fun heq ↦ absurd heq (by dsimp only; omega),
      h.written, h.front, h.size⟩, rfl, rfl⟩
  · rw [if_neg hend]
    refine ⟨_, rfl, ⟨h.left_start, h.left_le, h.left_block, by dsimp only; omega, by
      dsimp only; omega, by dsimp only; omega, ?_, h.left,
      fun _ ↦ ?_, fun _ ↦ hf, hwide, fun heq ↦ absurd heq (by dsimp only; omega), h.written,
        h.front, h.size⟩, rfl, rfl⟩
    · dsimp only
      rw [hgo]
      exact iff_of_false Bool.false_ne_true (by omega)
    · have hapart : (Operand.apart bs).Holds s.out (s.ib + 8) bs := fun x _ _ ↦ rfl
      exact lanesOf_loadRegister hapart (show s.ib + 8 + 8 ≤ bs.length by omega)

/-- The block of the first array is left behind with all its marks. -/
theorem Marking.leave (h : Marking as bs size i₀ j₀ sta stb s zs)
    (hin : MarkInput as bs size i₀ j₀ sta stb) (hgo : s.ended = false)
    {f : Nat → Bool} (hf : ∀ i < 8, f i = true ↔ s.va i ∈ bs) :
    ∃ t ws, leaveBlock (.apart as) sta { s with found := f } = some t ∧
      Marking as bs size i₀ j₀ sta stb t ws ∧
      Subtracted as bs 0 (s.ia + 8) s.ib ws ∧ t.ia = s.ia + 8 ∧ t.ib = s.ib ∧
        ∀ i < 8, t.ended = false → t.found i = false := by
  obtain ⟨hroom, hroom'⟩ := h.room hgo
  have hblock := h.left_block
  have hstart := h.left_start
  have hfits := hin.left_fits
  have hfew := h.wide.length_le
  have hslots := hin.slots
  have hlanes := h.left (by omega)
  obtain ⟨out', ms, hstore, hlength, hfront, hsub, hmem⟩ :=
    storeUnmarked_spec s.count s.out (lane_lt hin.low hlanes) hf
    (by rw [h.size, h.written]; omega)
  have htaken : Subtracted as bs 0 (s.ia + 8) s.ib (zs ++ ms) := by
    refine h.wide.take hin.left_ascending ?_ fun v ↦ by rw [hmem, hlanes]
    refine List.Pairwise.sublist hsub ?_
    rw [hlanes]
    exact (hin.left_ascending.sublist (List.drop_sublist _ _)).sublist (List.take_sublist _ _)
  have hwritten : s.count + ms.length = (zs ++ ms).length := by rw [List.length_append, h.written]
  rw [h.front] at hfront
  rw [leaveBlock]
  dsimp only
  rw [hstore, Option.map_some]
  by_cases hend : s.ia + 8 = sta
  · rw [if_pos hend]
    exact ⟨_, zs ++ ms, rfl,
      ⟨by dsimp only; omega,
      hend.le, by dsimp only; omega, h.right_start, h.right_le, h.right_block,
      iff_of_true rfl (.inl hend), fun hlt ↦ absurd hend hlt.ne, h.right,
        fun hlt ↦ absurd hend hlt.ne, htaken.widen 8, fun _ ↦ htaken,
      hwritten, hfront, hlength.trans h.size⟩, htaken, rfl, rfl,
        fun i _ hended ↦ absurd hended.symm Bool.false_ne_true⟩
  · rw [if_neg hend]
    refine ⟨_, zs ++ ms, rfl,
      ⟨by dsimp only; omega, by dsimp only; omega, by dsimp only; omega, h.right_start, h.right_le,
      h.right_block, ?_, fun _ ↦ ?_, h.right, fun _ i hi ↦ ?_, htaken.widen 8, fun _ ↦ htaken,
        hwritten, hfront, hlength.trans h.size⟩,
      htaken, rfl, rfl, fun i _ _ ↦ rfl⟩
    · dsimp only
      rw [hgo]
      exact iff_of_false Bool.false_ne_true (by omega)
    · have hapart : (Operand.apart as).Holds out' (s.ia + 8) as := fun x _ _ ↦ rfl
      exact lanesOf_loadRegister hapart (show s.ia + 8 + 8 ≤ as.length by omega)
    · refine iff_of_false Bool.false_ne_true fun hmark ↦ ?_
      have hapart : (Operand.apart as).Holds out' (s.ia + 8) as := fun x _ _ ↦ rfl
      have hnext := lanesOf_loadRegister hapart (show s.ia + 8 + 8 ≤ as.length by omega)
      have hlane := List.mem_of_mem_take (hnext ▸ mem_lanesOf.2 ⟨i, hi, rfl⟩)
      exact lt_irrefl _ (htaken.below _ hmark _ hlane)

/-- A turn of the walk. -/
theorem Marking.turn (h : Marking as bs size i₀ j₀ sta stb s zs)
    (hin : MarkInput as bs size i₀ j₀ sta stb) (hgo : s.ended = false) :
    ∃ t ws, markTurn (.apart as) sta (.apart bs) stb s = some t ∧
      Marking as bs size i₀ j₀ sta stb t ws ∧ s.ia + s.ib < t.ia + t.ib := by
  obtain ⟨hroom, hroom'⟩ := h.room hgo
  have hfitsA := hin.left_fits
  have hfitsB := hin.right_fits
  have hlanesA := h.left (by omega)
  have hlanesB := h.right (by omega)
  have hmarks : ∀ i < 8, (s.found i || cmpistrm s.vb s.va i) = true ↔
      s.va i ∈ bs.take (s.ib + 8) := by
    intro i hi
    rw [Bool.or_eq_true, h.found (by omega) i hi,
      cmpistrm_iff (ne_zero_of_block hin.left_ne_zero h.left_start hlanesA)
      (ne_zero_of_block hin.right_ne_zero h.right_start hlanesB) hi, hlanesB, mem_take_add]
  have hx : as[s.ia + 7]? = some (as.getD (s.ia + 7) 0) := by
    rw [List.getD_eq_getElem _ _ (by omega)]
    exact List.getElem?_eq_getElem (by omega)
  have hy : bs[s.ib + 7]? = some (bs.getD (s.ib + 7) 0) := by
    rw [List.getD_eq_getElem _ _ (by omega)]
    exact List.getElem?_eq_getElem (by omega)
  have hamax : (Operand.apart as).read s.out (s.ia + 7) = as.getD (s.ia + 7) 0 := rfl
  have hbmax : (Operand.apart bs).read s.out (s.ib + 7) = bs.getD (s.ib + 7) 0 := rfl
  rw [markTurn]
  dsimp only
  rw [hamax, hbmax]
  generalize as.getD (s.ia + 7) 0 = x at hx
  generalize bs.getD (s.ib + 7) 0 = y at hy
  have hblockB : ∀ u ∈ (bs.drop s.ib).take 8, u ≤ y := by
    intro u hu
    have hmem : u ∈ bs.take (s.ib + 8) := mem_take_add.2 (.inr hu)
    exact le_of_mem_take hin.right_ascending hy hmem
  have hblockA : ∀ u ∈ (as.drop s.ia).take 8, u ≤ x := by
    intro u hu
    have hmem : u ∈ as.take (s.ia + 8) := mem_take_add.2 (.inr hu)
    exact le_of_mem_take hin.left_ascending hx hmem
  have hbeyondA : ∀ v ∈ as.drop (s.ia + 8), x < v :=
    fun v hv ↦ lt_of_mem_drop_succ hin.left_ascending hx hv
  by_cases hle : x ≤ y
  · have hall : ∀ i < 8, (s.found i || cmpistrm s.vb s.va i) = true ↔ s.va i ∈ bs := by
      intro i hi
      rw [hmarks i hi]
      refine ⟨List.mem_of_mem_take, fun hmem ↦ mem_take_of_le hin.right_ascending hy hmem ?_⟩
      exact (hblockA _ (hlanesA ▸ mem_lanesOf.2 ⟨i, hi, rfl⟩)).trans hle
    obtain ⟨t, ws, hleave, ht, hnarrow, hia, hib, hfresh⟩ := h.leave hin hgo hall
    rw [if_pos hle, hleave, Option.map_some]
    cases hended : t.ended with
    | true => exact ⟨t, ws, by rw [if_pos rfl], ht, by omega⟩
    | false =>
      rw [if_neg Bool.false_ne_true]
      by_cases hge : y ≤ x
      · have hpassed : Subtracted as bs 0 (s.ia + 8) (s.ib + 8) ws := by
          refine hnarrow.pass fun u hu v hv ↦ ?_
          exact ((hblockB u hu).trans hge).trans_lt (hbeyondA v hv)
        have hfew := (ht.room hended).1
        have hlanes := ht.left (by omega)
        have hnone : ∀ i < 8, t.found i = true ↔ t.va i ∈ bs.take (t.ib + 8) := by
          intro i hi
          refine iff_of_false (by rw [hfresh i hi hended]; exact Bool.false_ne_true) fun hmark ↦ ?_
          have hlane := List.mem_of_mem_take (hlanes ▸ mem_lanesOf.2 ⟨i, hi, rfl⟩)
          rw [hia] at hlane
          rw [hib] at hmark
          exact lt_irrefl _ (hpassed.below _ hmark _ hlane)
        rw [← hia, ← hib] at hpassed
        obtain ⟨u, hnext, hu, hia', hib'⟩ := ht.nextRight hin hended hnone (hpassed.widen 8)
        exact ⟨u, ws, by rw [if_pos hge, ← hnext], hu, by omega⟩
      · exact ⟨t, ws, by rw [if_neg hge], ht, by omega⟩
  · have hge : y ≤ x := (not_le.1 hle).le
    have hpassed : Subtracted as bs 8 s.ia (s.ib + 8) zs := by
      refine h.wide.pass fun u hu v hv ↦ ?_
      exact ((hblockB u hu).trans hge).trans_lt (hbeyondA v hv)
    obtain ⟨t, hnext, ht, hia, hib⟩ := h.nextRight hin hgo hmarks hpassed
    rw [if_neg hle, Option.map_some, if_pos hge, hnext, hgo, if_neg Bool.false_ne_true]
    exact ⟨t, zs, rfl, ht, by omega⟩

/-- What the loop leaves. -/
theorem Marking.run (h : Marking as bs size i₀ j₀ sta stb s zs)
    (hin : MarkInput as bs size i₀ j₀ sta stb) :
    ∃ t ws, loop (fun s ↦ !s.ended) (markTurn (.apart as) sta (.apart bs) stb) (sta + stb + 1) s =
      some t ∧
      Marking as bs size i₀ j₀ sta stb t ws ∧ t.ended = true := by
  obtain ⟨t, hrun, ⟨ws, ht⟩, hend⟩ :=
    loop_spec (fun s : MarkWalk ↦ !s.ended) (markTurn (.apart as) sta (.apart bs) stb)
    (fun t ↦ ∃ ws, Marking as bs size i₀ j₀ sta stb t ws) (fun t ↦ sta + stb - (t.ia + t.ib))
        (fun t ht hmore ↦ by
      obtain ⟨ws, ht⟩ := ht
      rw [Bool.not_eq_true'] at hmore
      obtain ⟨u, us, hturn, hu, hless⟩ := ht.turn hin hmore
      have hroom := ht.room hmore
      exact ⟨u, hturn, ⟨us, hu⟩, by omega⟩) (sta + stb + 1) ⟨zs, h⟩ (by omega)
  exact ⟨t, ws, hrun, ht, by rwa [Bool.not_eq_false'] at hend⟩

end Difference

/-! ## The scalar tail -/

/-- What lies in front of the cursors is decided, and stands in front of the buffer. -/
structure Subtracting (as bs : List Nat) (size : Nat) (s : MergeState) (zs : List Nat) : Prop where
  left_le : s.i ≤ as.length
  right_le : s.j ≤ bs.length
  decided : Subtracted as bs 0 s.i s.j zs
  written : s.k = zs.length
  front : s.out.take s.k = zs
  size : s.out.length = size

section Tail

variable {as bs zs : List Nat} {size : Nat} {s : MergeState}

/-- A step of the tail. -/
theorem Subtracting.step (h : Subtracting as bs size s zs) (ha : as.Pairwise (· < ·))
    (hb : bs.Pairwise (· < ·)) (hroom : as.length ≤ size)
    (hi : s.i < as.length) (hj : s.j < bs.length) :
    ∃ t ws, subtractStep (.apart as) (.apart bs) s = some t ∧ Subtracting as bs size t ws ∧
      s.i + s.j < t.i + t.j ∧
      (as.getD s.i 0 ≤ bs.getD s.j 0 → t.i = s.i + 1) ∧
        (bs.getD s.j 0 ≤ as.getD s.i 0 → t.j = s.j + 1) := by
  have hleastLeft : ∀ v ∈ as.drop s.i, as.getD s.i 0 ≤ v := fun v ↦ getD_le_of_mem_drop ha hi
  have hleastRight : ∀ v ∈ bs.drop s.j, bs.getD s.j 0 ≤ v := fun v ↦ getD_le_of_mem_drop hb hj
  have hleft : (Operand.apart as).read s.out s.i = as.getD s.i 0 := rfl
  have hright : (Operand.apart bs).read s.out s.j = bs.getD s.j 0 := rfl
  have hdropLeft := drop_eq_getD_cons hi
  have hdropRight := drop_eq_getD_cons hj
  have hfew := h.decided.length_le
  have hlater : ∀ v ∈ as.drop (s.i + 1), as.getD s.i 0 < v := by
    have hasc := ha.sublist (List.drop_sublist s.i as)
    rw [hdropLeft] at hasc
    exact fun v hv ↦ List.rel_of_pairwise_cons hasc hv
  rw [subtractStep, hleft, hright]
  generalize as.getD s.i 0 = x at *
  generalize bs.getD s.j 0 = y at *
  have hblock : (as.drop s.i).take 1 = [x] := by rw [hdropLeft, List.take_succ_cons, List.take_zero]
  have hblock' : (bs.drop s.j).take 1 = [y] := by rw [hdropRight, List.take_succ_cons,
    List.take_zero]
  have hmember : y ∈ bs := List.mem_of_mem_drop (hdropRight ▸ List.mem_cons_self)
  rcases Nat.lt_trichotomy x y with hlt | rfl | hgt
  · have hnot : x ∉ bs := by
      intro hmem
      rcases (mem_take_or_drop bs s.j).1 hmem with htake | hdrop
      · exact lt_irrefl _
          (h.decided.below x htake x (by rw [Nat.add_zero, hdropLeft]; exact List.mem_cons_self))
      · exact absurd (hleastRight x hdrop) (not_le.2 hlt)
    have hin : s.k < s.out.length := by
      rw [h.size, h.written]
      omega
    have hkept := take_set_kept hin true x
    rw [kept, if_pos rfl, List.length_singleton, h.front] at hkept
    rw [if_pos hlt, store, if_pos hin, Option.map_some]
    refine ⟨_, zs ++ [x], rfl,
      ⟨hi, h.right_le, (h.decided.widen 1).take ha (List.pairwise_singleton _ x) fun v ↦ ?_, ?_,
      hkept, ?_⟩,
      by dsimp only; omega, fun _ ↦ rfl, fun hge ↦ absurd hge (not_le.2 hlt)⟩
    · rw [hblock, List.mem_singleton]
      exact (and_iff_left_of_imp fun heq ↦ heq ▸ hnot).symm
    · rw [List.length_append, List.length_singleton, h.written]
    · rw [List.length_set, h.size]
  · rw [if_neg (lt_irrefl _), if_neg (lt_irrefl _)]
    have htaken : Subtracted as bs 0 (s.i + 1) s.j (zs ++ []) := by
      refine (h.decided.widen 1).take ha List.Pairwise.nil fun v ↦ ?_
      rw [hblock, List.mem_singleton]
      refine iff_of_false List.not_mem_nil fun hv ↦ hv.2 (hv.1 ▸ hmember)
    rw [List.append_nil] at htaken
    refine ⟨_, zs, rfl, ⟨hi, hj, htaken.pass fun u hu v hv ↦ ?_, h.written, h.front, h.size⟩, by
      dsimp only; omega, fun _ ↦ rfl,
      fun _ ↦ rfl⟩
    rw [hblock', List.mem_singleton] at hu
    exact hu ▸ hlater v hv
  · rw [if_neg (Nat.lt_asymm hgt), if_pos hgt]
    refine ⟨_, zs, rfl, ⟨h.left_le, hj, h.decided.pass fun u hu v hv ↦ ?_, h.written, h.front,
      h.size⟩, by dsimp only; omega,
      fun hle ↦ absurd hle (not_le.2 hgt), fun _ ↦ rfl⟩
    rw [hblock', List.mem_singleton] at hu
    exact hu ▸ hgt.trans_le (hleastLeft v hv)

/-- A zero in front of either array is settled by a step. -/
theorem settleZeros_eq (as bs out : List Nat) :
    settleZeros (.apart as) (.apart bs) out = if as.getD 0 0 = 0 ∨
      bs.getD 0 0 = 0 then subtractStep (.apart as) (.apart bs) ⟨0, 0, 0, out⟩
      else some ⟨0, 0, 0, out⟩ := by
  have hleft : (Operand.apart as).read out 0 = as.getD 0 0 := rfl
  have hright : (Operand.apart bs).read out 0 = bs.getD 0 0 := rfl
  rw [settleZeros, subtractStep]
  dsimp only
  rw [hleft, hright]
  generalize as.getD 0 0 = x
  generalize bs.getD 0 0 = y
  rcases Nat.eq_zero_or_pos x with rfl | hx
  · rcases Nat.eq_zero_or_pos y with rfl | hy
    · rw [if_pos (.inl rfl), if_pos ⟨rfl, rfl⟩, if_pos (.inl rfl), if_neg (lt_irrefl _),
        if_neg (lt_irrefl _)]
    · rw [if_pos (.inl rfl), if_neg fun h ↦ hy.ne' h.2, if_pos rfl, if_pos (.inl rfl), if_pos hy]
  · rcases Nat.eq_zero_or_pos y with rfl | hy
    · rw [if_pos (.inr rfl), if_neg fun h ↦ hx.ne' h.1, if_neg hx.ne', if_pos (.inr rfl),
        if_neg (Nat.not_lt_zero _), if_pos hx]
    · have hnot : ¬ (x = 0 ∨ y = 0) := fun h ↦ h.elim hx.ne' hy.ne'
      rw [if_neg hnot, if_neg hnot]

/-- Behind the zeros nothing is zero. -/
theorem settleZeros_spec {out : List Nat} (ha : as.Pairwise (· < ·)) (hb : bs.Pairwise (· < ·))
    (hleft : 0 < as.length) (hright : 0 < bs.length) (hroom : as.length ≤ out.length) :
    ∃ t ws, settleZeros (.apart as) (.apart bs) out = some t ∧ Subtracting as bs out.length t ws ∧
      (∀ v ∈ as.drop t.i, v ≠ 0) ∧
      ∀ v ∈ bs.drop t.j, v ≠ 0 := by
  have hstart : Subtracting as bs out.length ⟨0, 0, 0, out⟩ [] :=
    ⟨Nat.zero_le _, Nat.zero_le _, Subtracted.start as bs, rfl, List.take_zero, rfl⟩
  have hbeyond : ∀ {xs : List Nat}, xs.Pairwise (· < ·) → 0 < xs.length →
      ∀ i, (xs.getD 0 0 = 0 → i = 1) → ∀ v ∈ xs.drop i, v ≠ 0 := by
    intro xs hxs hlen i hi v hv hzero
    have hleast := getD_le_of_mem_drop hxs hlen (List.mem_of_mem_drop hv : v ∈ xs)
    have hone := hi (by omega)
    subst hone
    have hasc := hxs
    rw [← List.drop_zero (l := xs), drop_eq_getD_cons hlen] at hasc
    have hlater := List.rel_of_pairwise_cons hasc hv
    omega
  rw [settleZeros_eq]
  split
  · rename_i hzero
    obtain ⟨t, ws, hstep, ht, -, hi, hj⟩ := hstart.step ha hb hroom hleft hright
    exact ⟨t, ws, hstep, ht, hbeyond ha hleft t.i fun h ↦ hi (by dsimp only; omega),
      hbeyond hb hright t.j fun h ↦ hj (by dsimp only; omega)⟩
  · rename_i hnot
    rw [not_or] at hnot
    exact ⟨_, [], rfl, hstart, hbeyond ha hleft 0 fun h ↦ absurd h hnot.1,
      hbeyond hb hright 0 fun h ↦ absurd h hnot.2⟩

/-- The blocks behind the zeros. -/
theorem Subtracting.blocks (h : Subtracting as bs size s zs) (ha : as.Pairwise (· < ·))
    (hb : bs.Pairwise (· < ·)) (hlow : ∀ v ∈ as, v < lowDomainSize) (hroom : as.length ≤ size)
    (hleft : ∀ v ∈ as.drop s.i, v ≠ 0) (hright : ∀ v ∈ bs.drop s.j, v ≠ 0) :
    ∃ t ws, subtractBlocks (.apart as) as.length (.apart bs) bs.length s = some t ∧
      Subtracting as bs size t ws := by
  have hi := h.left_le
  have hj := h.right_le
  rw [subtractBlocks]
  split
  · rename_i hblocks
    have hin : MarkInput as bs size s.i s.j (s.i + (as.length - s.i) / 8 * 8)
        (s.j + (bs.length - s.j) / 8 * 8) :=
      ⟨ha, hb, hlow, hleft, hright, by omega, by omega, hroom⟩
    have hapart : ∀ xs : List Nat, ∀ i, (Operand.apart xs).Holds s.out i xs := fun xs i x _ _ ↦ rfl
    have hstart : Marking as bs size s.i s.j (s.i + (as.length - s.i) / 8 * 8)
        (s.j + (bs.length - s.j) / 8 * 8)
        ⟨s.i, s.j, loadRegister s.out (.apart as) s.i, loadRegister s.out (.apart bs) s.j,
          fun _ ↦ false, s.k, s.out, false⟩ zs := by
      refine ⟨le_rfl, Nat.le_add_right _ _, by dsimp only; omega, le_rfl, Nat.le_add_right _ _, by
        dsimp only; omega, ?_, fun hlt ↦ ?_,
        fun hlt ↦ ?_, fun hlt i hi' ↦ ?_, h.decided.widen 8, fun _ ↦ h.decided, h.written,
          h.front, h.size⟩
      · exact iff_of_false Bool.false_ne_true (by dsimp only; omega)
      · exact lanesOf_loadRegister (hapart as s.i) (by omega)
      · exact lanesOf_loadRegister (hapart bs s.j) (by omega)
      · refine iff_of_false Bool.false_ne_true fun hmark ↦ ?_
        have hlanes := lanesOf_loadRegister (hapart as s.i) (show s.i + 8 ≤ as.length by omega)
        have hlane := List.mem_of_mem_take (hlanes ▸ mem_lanesOf.2 ⟨i, hi', rfl⟩)
        exact lt_irrefl _ (h.decided.below _ hmark _ hlane)
    obtain ⟨t, ws, hrun, ht, hended⟩ := hstart.run hin
    have htleft := ht.left_le
    have htright := ht.right_le
    rw [hrun, Option.bind_some, finishBlock]
    split
    · rename_i hlt
      have hib : t.ib = s.j + (bs.length - s.j) / 8 * 8 := (ht.ended.1 hended).resolve_left hlt.ne
      have hblock := ht.left_block
      have hlanes := ht.left hlt
      have hfew := ht.wide.length_le
      have hmarks : ∀ i < 8,
          (t.found i || cmpestrm
          (fun i ↦ if i < bs.length - t.ib then (Operand.apart bs).read t.out (t.ib + i) else 0)
          (bs.length - t.ib) t.va 8 i) = true ↔ t.va i ∈ bs := by
        intro i hi'
        rw [Bool.or_eq_true, ht.found hlt i hi', cmpestrm, decide_eq_true hi', Bool.true_and,
          List.any_eq_true, mem_take_or_drop bs t.ib]
        refine or_congr_right ⟨?_, fun hmem ↦ ?_⟩
        · rintro ⟨x, hx, hsame⟩
          rw [List.mem_range'_1] at hx
          rw [beq_iff_eq, if_pos (by omega)] at hsame
          rw [← hsame]
          change bs.getD (t.ib + x) 0 ∈ bs.drop t.ib
          rw [List.getD_eq_getElem _ _ (by omega), List.mem_drop_iff_getElem]
          exact ⟨x, by omega, rfl⟩
        · obtain ⟨x, hx, hsame⟩ := List.mem_drop_iff_getElem.1 hmem
          refine ⟨x, List.mem_range'_1.2 (by omega), ?_⟩
          rw [beq_iff_eq, if_pos (by omega), ← hsame]
          exact List.getD_eq_getElem _ _ _
      obtain ⟨out', ms, hstore, hlength, hfront, hsub, hmem⟩ := storeUnmarked_spec t.count t.out
        (lane_lt hlow hlanes) hmarks (by rw [ht.size, ht.written]; omega)
      rw [ht.front] at hfront
      dsimp only
      rw [hstore, Option.map_some]
      refine ⟨_, ws ++ ms, rfl, by dsimp only; omega, by
        dsimp only; omega, ?_, ?_, hfront, hlength.trans ht.size⟩
      · refine ht.wide.take ha ?_ fun v ↦ by rw [hmem, hlanes]
        refine List.Pairwise.sublist hsub ?_
        rw [hlanes]
        exact (ha.sublist (List.drop_sublist _ _)).sublist (List.take_sublist _ _)
      · rw [List.length_append, ht.written]
    · rename_i hge
      have hia : t.ia = s.i + (as.length - s.i) / 8 * 8 := by omega
      exact ⟨_, ws, rfl, by dsimp only; omega, by
        dsimp only; omega, ht.narrow hia, ht.written, ht.front, ht.size⟩
  · exact ⟨s, zs, rfl, h⟩

/-- The difference as a merge. -/
theorem eq_difference (ha : as.Pairwise (· < ·)) (hb : bs.Pairwise (· < ·))
    (hzs : zs.Pairwise (· < ·))
    (hmem : ∀ v, v ∈ zs ↔ v ∈ as ∧ v ∉ bs) : zs = plainMerge ⟨true, false, false⟩ as bs := by
  refine List.Pairwise.eq_of_mem_iff (r := (· < ·)) hzs (plainMerge_ascending ha hb) fun v ↦ ?_
  rw [hmem, mem_plainMerge ha hb, MergeRule.Keeps]
  simp only [Bool.false_eq_true, and_false, and_true, or_false]

/-- The kernel leaves the difference, in no more slots than the first array has values. -/
theorem differenceArrayArraySse42_spec {out : List Nat} (ha : as.Pairwise (· < ·))
    (hb : bs.Pairwise (· < ·))
    (hlow : ∀ v ∈ as, v < lowDomainSize) (hroom : as.length ≤ out.length) :
    LeavesValues (differenceArrayArraySse42 (.apart as) as.length (.apart bs) bs.length out)
      out.length (plainMerge ⟨true, false, false⟩ as bs) := by
  have hapart : ∀ (buffer : List Nat) (i : Nat), (Operand.apart as).Holds buffer i as :=
    fun buffer i x _ _ ↦ rfl
  rw [LeavesValues, differenceArrayArraySse42]
  by_cases hleft : as.length = 0
  · have hnone : plainMerge ⟨true, false, false⟩ as bs = [] := by
      rw [List.eq_nil_of_length_eq_zero hleft, plainMerge_nil_left, kept, if_neg Bool.false_ne_true]
    rw [if_pos hleft, hnone]
    exact ⟨out, rfl, rfl, List.take_zero⟩
  · rw [if_neg hleft]
    by_cases hright : bs.length = 0
    · have hwhole : plainMerge ⟨true, false, false⟩ as bs = as := by
        rw [List.eq_nil_of_length_eq_zero hright, plainMerge_nil_right, kept, if_pos rfl]
      have hblock : (Operand.apart as).block out 0 as.length = as := by
        rw [(hapart out 0).block (Nat.zero_add _).le, List.drop_zero, List.take_length]
      obtain ⟨out', hmove, hlength, hfront, -⟩ :=
        memmoveInto_spec as (show 0 + as.length ≤ out.length by omega)
      rw [Nat.zero_add, List.take_zero, List.nil_append] at hfront
      rw [if_pos hright, hblock, hmove, Option.map_some, hwhole]
      exact ⟨out', rfl, hlength, hfront⟩
    · rw [if_neg hright]
      obtain ⟨s, zs, hsettle, hs, hnzA, hnzB⟩ :=
        settleZeros_spec ha hb (Nat.pos_of_ne_zero hleft) (Nat.pos_of_ne_zero hright) hroom
      obtain ⟨t, ws, hblocks, ht⟩ := hs.blocks ha hb hlow hroom hnzA hnzB
      obtain ⟨u, htail, ⟨us, hu⟩, hend⟩ :=
        loop_spec (fun s ↦ decide (s.i < as.length ∧ s.j < bs.length))
        (subtractStep (.apart as) (.apart bs)) (fun s ↦ ∃ zs, Subtracting as bs out.length s zs)
        (fun s ↦ as.length + bs.length - (s.i + s.j)) (fun s hs hagain ↦ by
          obtain ⟨zs, hs⟩ := hs
          obtain ⟨hi, hj⟩ := of_decide_eq_true hagain
          obtain ⟨t, ws, hstep, ht, hmore, -, -⟩ := hs.step ha hb hroom hi hj
          exact ⟨t, hstep, ⟨ws, ht⟩, by omega⟩) (as.length + bs.length + 1) ⟨ws, ht⟩ (by omega)
      have hdone := of_decide_eq_false hend
      have hi := hu.left_le
      have hfew := hu.decided.length_le
      obtain ⟨hasc, hmem⟩ := hu.decided.rest ha (by omega)
      have hall := eq_difference ha hb hasc hmem
      have hdrop : (as.drop u.i).length = as.length - u.i := List.length_drop ..
      rw [hsettle, Option.bind_some, hblocks, Option.bind_some, htail, Option.bind_some, ← hall,
        List.length_append, hdrop]
      split
      · rename_i hlt
        have hblock : (Operand.apart as).block u.out u.i (as.length - u.i) = as.drop u.i := by
          rw [(hapart u.out u.i).block (by omega), List.take_of_length_le hdrop.le]
        obtain ⟨out', hmove, hlength, hfront, -⟩ := memmoveInto_spec (as.drop u.i)
          (show u.k + (as.drop u.i).length ≤ u.out.length by rw [hdrop, hu.size, hu.written]; omega)
        rw [hdrop, hu.front, hu.written] at hfront
        rw [hblock, hmove, Option.map_some, hu.written]
        exact ⟨out', rfl, hlength.trans hu.size, hfront⟩
      · rename_i hge
        have hlast : as.length - u.i = 0 := by omega
        have hfront := hu.front
        rw [hlast, Nat.add_zero, List.eq_nil_of_length_eq_zero (hdrop.trans hlast), List.append_nil,
          hu.written]
        rw [hu.written] at hfront
        exact ⟨u.out, rfl, hu.size, hfront⟩

/-- The difference kernel keeps exactly what the second array lacks, ascending.  Its stores stay
inside the slots of the first array's values: the extra block of the buffer is never touched. -/
theorem differenceArrayArraySse42_subtracts {out : List Nat} (ha : as.Pairwise (· < ·))
    (hb : bs.Pairwise (· < ·))
    (hlow : ∀ v ∈ as, v < lowDomainSize) (hroom : as.length ≤ out.length) :
    ∃ (n : Nat) (out' : List Nat), differenceArrayArraySse42 (.apart as) as.length (.apart bs)
      bs.length out = some (n, out') ∧
      (out'.take n).Pairwise (· < ·) ∧ (∀ v, v ∈ out'.take n ↔ v ∈ as ∧ v ∉ bs) ∧ n ≤ as.length ∧
        out'.length = out.length := by
  obtain ⟨out', hrun, hlength, hfront⟩ := differenceArrayArraySse42_spec ha hb hlow hroom
  have hasc : (plainMerge ⟨true, false, false⟩ as bs).Pairwise (· < ·) := plainMerge_ascending ha hb
  have hmem : ∀ v, v ∈ plainMerge ⟨true, false, false⟩ as bs ↔ v ∈ as ∧ v ∉ bs := by
    intro v
    rw [mem_plainMerge ha hb, MergeRule.Keeps]
    simp only [Bool.false_eq_true, and_false, and_true, or_false]
  refine ⟨_, out', hrun, ?_, ?_, ?_, hlength⟩
  · rwa [hfront]
  · rwa [hfront]
  · have hnodup : (plainMerge ⟨true, false, false⟩ as bs).Nodup := hasc.imp ne_of_lt
    exact hnodup.length_le_of_subset fun v hv ↦ ((hmem v).1 hv).1

end Tail

/-- Two blocks and a remainder, with zero on the right side, in slots for the left side alone. -/
theorem differenceArrayArraySse42_subtracts_blocks :
    let as := List.range' 0 19
    let bs := 0 :: List.range' 5 20
    let room := List.replicate 19 7
    ∃ (n : Nat) (out' : List Nat),
      differenceArrayArraySse42 (.apart as) as.length (.apart bs) bs.length room =
        some (n, out') ∧
      (out'.take n).Pairwise (· < ·) ∧ (∀ v, v ∈ out'.take n ↔ v ∈ as ∧ v ∉ bs) ∧
      n ≤ as.length ∧ out'.length = room.length :=
  differenceArrayArraySse42_subtracts (by decide) (by decide) (by decide) (by decide)

end Roaring
