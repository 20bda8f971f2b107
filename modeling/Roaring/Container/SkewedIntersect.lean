import Mathlib
import Roaring.Lib.Search
import Roaring.Container.VectorIntersect

/-!
# The skewed intersection of sorted arrays

Where one array is much longer than the other, every value of the shorter one is searched
in what is left of the longer one: four at a time by halvings without branches that run in
step, and the last ones by a lower bound.

The values found are written in front of the result, which may be the payload of either
array: the place that is written is never behind the place of the value that was found.
-/

namespace Roaring

open Lib

/-! ## Four searches in step -/

/-- `r0`, `r1`, `r2`, `r3`, or the four keys. -/
structure Quad where
  q0 : Nat
  q1 : Nat
  q2 : Nat
  q3 : Nat

/-- The halving of the four bases. -/
def halveBases (array : Nat → Nat) (k : Quad) (n : Nat) (base : Quad) : Quad :=
  if 1 < n then
    halveBases array k (n - n / 2)
      ⟨if array (base.q0 + n / 2) < k.q0 then base.q0 + n / 2 else base.q0,
        if array (base.q1 + n / 2) < k.q1 then base.q1 + n / 2 else base.q1,
        if array (base.q2 + n / 2) < k.q2 then base.q2 + n / 2 else base.q2,
        if array (base.q3 + n / 2) < k.q3 then base.q3 + n / 2 else base.q3⟩
  else base
termination_by n

/-- `binary_search_4way`. -/
def binarySearch4way (array : Nat → Nat) (size : Nat) (k : Quad) : Quad :=
  if size = 0 then ⟨0, 0, 0, 0⟩
  else
    let base := halveBases array k size ⟨0, 0, 0, 0⟩
    ⟨base.q0 + (if array base.q0 < k.q0 then 1 else 0),
      base.q1 + (if array base.q1 < k.q1 then 1 else 0),
      base.q2 + (if array base.q2 < k.q2 then 1 else 0),
      base.q3 + (if array base.q3 < k.q3 then 1 else 0)⟩

/-! ## The walk -/

/-- The cursors into the smaller and the larger array, the values written, and the buffer. -/
structure ProbeState where
  idxS : Nat
  idxL : Nat
  written : Nat
  out : List Nat

/-- A key that stands at the place found for it in the window is written. -/
def emitMatch (large : Operand) (sizeLarge idxL r k : Nat) (w : Nat × List Nat) :
    Option (Nat × List Nat) :=
  if r < sizeLarge - idxL ∧ large.read w.2 (idxL + r) = k then
    (store w.2 w.1 k).map fun out ↦ (w.1 + 1, out)
  else some w

/-- Four keys, which are read before anything is written. -/
def probeFours (small large : Operand) (sizeLarge : Nat) (s : ProbeState) : Option ProbeState :=
  let k : Quad :=
    ⟨small.read s.out s.idxS, small.read s.out (s.idxS + 1), small.read s.out (s.idxS + 2),
    small.read s.out (s.idxS + 3)⟩
  let r := binarySearch4way (fun x ↦ large.read s.out (s.idxL + x)) (sizeLarge - s.idxL) k
  ((((emitMatch large sizeLarge s.idxL r.q0 k.q0 (s.written, s.out)).bind
    (emitMatch large sizeLarge s.idxL r.q1 k.q1)).bind
    (emitMatch large sizeLarge s.idxL r.q2 k.q2)).bind
        (emitMatch large sizeLarge s.idxL r.q3 k.q3)).map fun w ↦
      ⟨s.idxS + 4,
        s.idxL + (r.q3 + if r.q3 < sizeLarge - s.idxL ∧ large.read w.2 (s.idxL + r.q3) = k.q3 then 1
          else 0), w.1, w.2⟩

/-- One of the last keys. -/
def probeOne (small large : Operand) (sizeLarge : Nat) (s : ProbeState) : Option ProbeState :=
  let value := small.read s.out s.idxS
  let it := partitionPointIn (fun x ↦ decide (large.read s.out x < value)) s.idxL sizeLarge
  if it ≠ sizeLarge ∧ large.read s.out it = value then
    (store s.out s.written value).map fun out ↦ ⟨s.idxS + 1, it + 1, s.written + 1, out⟩
  else some ⟨s.idxS + 1, it, s.written, s.out⟩

/-- `intersect_array_array_skewed_into`, into a buffer that has a slot for every value of the
smaller array. -/
def intersectArrayArraySkewedInto (small : Operand) (sizeSmall : Nat) (large : Operand)
    (sizeLarge : Nat) (out : List Nat) : Option (Nat × List Nat) :=
  (loop (fun s ↦ decide (s.idxS + 4 ≤ sizeSmall ∧ s.idxL < sizeLarge))
    (probeFours small large sizeLarge) (sizeSmall + 1) ⟨0, 0, 0, out⟩).bind fun s ↦
      (loop (fun s ↦ decide (s.idxS < sizeSmall ∧ s.idxL < sizeLarge))
          (probeOne small large sizeLarge) (sizeSmall + 1) s).map fun s ↦
        (s.written, s.out)

/-! ## The searches -/

section Searches

variable {array : Nat → Nat} {k base : Quad} {n p0 p1 p2 p3 : Nat}

/-- The four bases move as one would alone. -/
theorem halveBases_eq (array : Nat → Nat) (k : Quad) (n : Nat) (base : Quad) :
    halveBases array k n base = ⟨halvingBase (fun x ↦ decide (array x < k.q0)) n base.q0,
      halvingBase (fun x ↦ decide (array x < k.q1)) n base.q1,
        halvingBase (fun x ↦ decide (array x < k.q2)) n base.q2,
      halvingBase (fun x ↦ decide (array x < k.q3)) n base.q3⟩ := by
  induction n, base using halveBases.induct array k with
  | case1 n base hmore ih =>
    have hgo : ∀ (below : Nat → Bool) (b : Nat),
        halvingBase below n b = halvingBase below (n - n / 2)
          (if below (b + n / 2) then b + n / 2 else b) := by
      intro below b
      rw [halvingBase, if_pos hmore]
    simp only [dite_eq_ite] at ih
    rw [halveBases, if_pos hmore, ih, hgo, hgo, hgo, hgo]
    simp only [decide_eq_true_eq]
  | case2 n base hone =>
    have hstop : ∀ (below : Nat → Bool) (b : Nat), halvingBase below n b = b := by
      intro below b
      rw [halvingBase, if_neg hone]
    rw [halveBases, if_neg hone, hstop, hstop, hstop, hstop]

/-- Each of the four ends at the partition point of its key. -/
theorem binarySearch4way_eq (h0 : PartitionPoint (fun x ↦ array x < k.q0) n p0)
    (h1 : PartitionPoint (fun x ↦ array x < k.q1) n p1)
    (h2 : PartitionPoint (fun x ↦ array x < k.q2) n p2)
    (h3 : PartitionPoint (fun x ↦ array x < k.q3) n p3) :
    binarySearch4way array n k = ⟨p0, p1, p2, p3⟩ := by
  have hone : ∀ {key p : Nat}, PartitionPoint (fun x ↦ array x < key) n p → 0 < n →
      halvingBase (fun x ↦ decide (array x < key)) n 0 +
        (if array (halvingBase (fun x ↦ decide (array x < key)) n 0) < key then 1 else 0) = p := by
    intro key p hp hn
    have hend := @halvingBase_eq (fun x ↦ decide (array x < key)) p 0 n n 0
      (fun i _ hi ↦ decide_eq_true (hp.of_lt i hi))
        (fun i hi hlt ↦ decide_eq_false (hp.not_of_le i hi hlt)) le_rfl (.inl rfl)
      (show p ≤ 0 + n by rw [Nat.zero_add]; exact hp.le) hn (Nat.zero_add n).le (Nat.zero_le p)
    simpa only [decide_eq_true_eq] using hend
  rw [binarySearch4way]
  rcases Nat.eq_zero_or_pos n with rfl | hn
  · have hzero : ∀ {key p : Nat}, PartitionPoint (fun x ↦ array x < key) 0 p → 0 = p :=
      fun hp ↦ (Nat.eq_zero_of_le_zero hp.le).symm
    rw [if_pos rfl]
    exact congr (congr (congr (congrArg Quad.mk (hzero h0)) (hzero h1)) (hzero h2)) (hzero h3)
  · rw [if_neg hn.ne', halveBases_eq]
    exact congr (congr (congr (congrArg Quad.mk (hone h0 hn)) (hone h1 hn)) (hone h2 hn))
      (hone h3 hn)

end Searches

/-! ## What has been probed -/

/-- The keys in front of `i` are decided, and what the larger array has in front of `j` is below
those that are left. -/
structure Probed (small large : Operand) (as bs : List Nat) (size i j written : Nat)
    (out : List Nat) : Prop where
  left_le : i ≤ as.length
  right_le : j ≤ bs.length
  small : small.Holds out i as
  large : large.Holds out j bs
  below : ∀ x < j, ∀ y, i ≤ y → y < as.length → bs.getD x 0 < as.getD y 0
  count : written = ((as.take i).filter fun v ↦ decide (v ∈ bs)).length
  front : out.take written = (as.take i).filter fun v ↦ decide (v ∈ bs)
  room : written ≤ j
  size : out.length = size

section Probing

variable {small large : Operand} {as bs out : List Nat} {size i j p written : Nat}

theorem Probed.le_left (h : Probed small large as bs size i j written out) : written ≤ i := by
  rw [h.count]
  exact (List.length_filter_le _ _).trans (List.length_take_le _ _)

/-- A value of the larger array stands at its partition point. -/
theorem mem_iff_at_point (hb : bs.Pairwise (· < ·)) {k : Nat}
    (hp : PartitionPoint (fun x ↦ bs.getD x 0 < k) bs.length p) :
    k ∈ bs ↔ p < bs.length ∧ bs.getD p 0 = k := by
  constructor
  · intro hmem
    obtain ⟨x, hx, hat⟩ := List.getElem_of_mem hmem
    rw [← List.getD_eq_getElem _ 0 hx] at hat
    have hpx : p ≤ x := by
      by_contra hlt
      exact hat.not_lt (hp.of_lt x (not_le.1 hlt))
    have hlt := hpx.trans_lt hx
    exact ⟨hlt, le_antisymm (hat ▸ getD_mono hb hpx hx) (not_lt.1 (hp.not_of_le p le_rfl hlt))⟩
  · rintro ⟨hlt, rfl⟩
    rw [List.getD_eq_getElem _ _ hlt]
    exact List.getElem_mem hlt

theorem Probed.le_point (h : Probed small large as bs size i j written out) {y : Nat} (hy : i ≤ y)
    (hlen : y < as.length)
    (hp : PartitionPoint (fun x ↦ bs.getD x 0 < as.getD y 0) bs.length p) : j ≤ p := by
  by_contra hlt
  have hin := not_le.1 hlt
  exact hp.not_of_le p le_rfl (hin.trans_le h.right_le) (h.below p hin y hy hlen)

/-- A key is decided at its partition point. -/
theorem Probed.emit (h : Probed small large as bs size i j written out) (ha : as.Pairwise (· < ·))
    (hb : bs.Pairwise (· < ·)) (hi : i < as.length) (hroom : as.length ≤ size)
    (hp : PartitionPoint (fun x ↦ bs.getD x 0 < as.getD i 0) bs.length p) {start : Nat}
    (hstart : start ≤ j) :
    ∃ written' out', emitMatch large bs.length start (p - start) (as.getD i 0) (written, out) =
      some (written', out') ∧
      large.Holds out' p bs ∧
      Probed small large as bs size (i + 1)
        (p + if p < bs.length ∧ bs.getD p 0 = as.getD i 0 then 1 else 0) written' out' := by
  have hjp := h.le_point le_rfl hi hp
  have hplace : start + (p - start) = p := Nat.add_sub_cancel' (hstart.trans hjp)
  have hfew := h.le_left
  have hcount := h.room
  have hlater : ∀ y, i + 1 ≤ y → y < as.length → as.getD i 0 < as.getD y 0 := by
    intro y hy hlen
    rw [List.getD_eq_getElem _ _ hi, List.getD_eq_getElem _ _ hlen]
    exact List.pairwise_iff_getElem.1 ha i y hi hlen hy
  have hsplit : as.take (i + 1) = as.take i ++ [as.getD i 0] := by
    rw [List.take_succ_eq_append_getElem hi, List.getD_eq_getElem _ _ hi]
  have hwindow : (p - start < bs.length - start ∧ large.read out p = as.getD i 0) ↔ p < bs.length ∧
      bs.getD p 0 = as.getD i 0 := by
    have hinside : p - start < bs.length - start ↔ p < bs.length := by omega
    rw [hinside]
    exact and_congr_right fun hlt ↦ by rw [h.large p hjp hlt]
  rw [emitMatch]
  dsimp only
  rw [hplace, if_congr hwindow rfl rfl]
  by_cases hmatch : p < bs.length ∧ bs.getD p 0 = as.getD i 0
  · have hin : written < out.length := by
      rw [h.size]
      omega
    have hnext : (as.take (i + 1)).filter (fun v ↦ decide (v ∈ bs)) = (as.take i).filter
        (fun v ↦ decide (v ∈ bs)) ++ [as.getD i 0] := by
      rw [hsplit, List.filter_append, List.filter_cons_of_pos (p := fun v ↦ decide (v ∈ bs))
        (decide_eq_true ((mem_iff_at_point hb hp).2 hmatch)), List.filter_nil]
    have hlarge : large.Holds (out.set written (as.getD i 0)) p bs := by
      refine (h.large.mono hjp).store fun offset _ ↦ ?_
      rcases Nat.lt_or_ge written (offset + p) with hfront | hat
      · exact .inl hfront
      · exact .inr ⟨by omega, hmatch.2.symm⟩
    have hsmall : small.Holds (out.set written (as.getD i 0)) (i + 1) as :=
      (h.small.mono (Nat.le_succ i)).store fun offset _ ↦ .inl (by omega)
    have htaken := take_set_kept hin true (as.getD i 0)
    rw [kept, if_pos rfl, List.length_singleton, h.front, ← hnext] at htaken
    rw [if_pos hmatch, if_pos hmatch, store, if_pos hin]
    refine ⟨written + 1, out.set written (as.getD i 0), rfl, hlarge, hi, hmatch.1, hsmall,
      hlarge.mono (Nat.le_succ p),
      fun x hx y hy hlen ↦ ?_, ?_, htaken, by omega, (List.length_set ..).trans h.size⟩
    · rcases Nat.lt_succ_iff_lt_or_eq.1 hx with hbefore | rfl
      · exact (hp.of_lt x hbefore).trans (hlater y hy hlen)
      · exact hmatch.2 ▸ hlater y hy hlen
    · rw [hnext, List.length_append, List.length_singleton, ← h.count]
  · have hnot : ¬ decide (as.getD i 0 ∈ bs) = true :=
      fun hfound ↦ hmatch ((mem_iff_at_point hb hp).1 (of_decide_eq_true hfound))
    have hnext : (as.take (i + 1)).filter (fun v ↦ decide (v ∈ bs)) = (as.take i).filter
        (fun v ↦ decide (v ∈ bs)) := by
      rw [hsplit, List.filter_append, List.filter_cons_of_neg (p := fun v ↦ decide (v ∈ bs)) hnot,
        List.filter_nil, List.append_nil]
    rw [if_neg hmatch, if_neg hmatch]
    refine ⟨written, out, rfl, h.large.mono hjp, hi, hp.le, h.small.mono (Nat.le_succ i),
      h.large.mono hjp, fun x hx y hy hlen ↦ ?_,
      by rw [hnext]; exact h.count, by rw [hnext]; exact h.front, by omega, h.size⟩
    exact (hp.of_lt x hx).trans (hlater y hy hlen)

/-- The partition point of a key, seen from the window in front of which everything is below. -/
theorem Probed.window (h : Probed small large as bs size i j written out) {y : Nat} (hy : i ≤ y)
    (hlen : y < as.length) (hp : PartitionPoint (fun x ↦ bs.getD x 0 < as.getD y 0) bs.length p) :
    PartitionPoint (fun x ↦ large.read out (j + x) < as.getD y 0) (bs.length - j) (p - j) := by
  have hjp := h.le_point hy hlen hp
  have hp' := hp.le
  refine ⟨by omega, fun x hx ↦ ?_, fun x hx hin ↦ ?_⟩
  · rw [h.large (j + x) (Nat.le_add_right _ _) (by omega)]
    exact hp.of_lt (j + x) (by omega)
  · rw [h.large (j + x) (Nat.le_add_right _ _) (by omega)]
    exact hp.not_of_le (j + x) (by omega) (by omega)

/-- The invariant of the loops. -/
def Probing (small large : Operand) (as bs : List Nat) (size : Nat) (s : ProbeState) : Prop :=
  Probed small large as bs size s.idxS s.idxL s.written s.out

theorem exists_point (hb : bs.Pairwise (· < ·)) (k : Nat) :
    ∃ p, PartitionPoint (fun x ↦ bs.getD x 0 < k) bs.length p :=
  PartitionPoint.exists_of_antitone fun _ _ hij hj hlt ↦ (getD_mono hb hij hj).trans_lt hlt

variable {s : ProbeState}

/-- A turn by four. -/
theorem Probing.fours (h : Probing small large as bs size s) (ha : as.Pairwise (· < ·))
    (hb : bs.Pairwise (· < ·)) (hroom : as.length ≤ size) (hi : s.idxS + 4 ≤ as.length) :
    ∃ t, probeFours small large bs.length s = some t ∧ Probing small large as bs size t ∧
      t.idxS = s.idxS + 4 := by
  have h' : Probed small large as bs size s.idxS s.idxL s.written s.out := h
  obtain ⟨p0, hp0⟩ := exists_point hb (as.getD s.idxS 0)
  obtain ⟨p1, hp1⟩ := exists_point hb (as.getD (s.idxS + 1) 0)
  obtain ⟨p2, hp2⟩ := exists_point hb (as.getD (s.idxS + 2) 0)
  obtain ⟨p3, hp3⟩ := exists_point hb (as.getD (s.idxS + 3) 0)
  have hle0 := h'.le_point le_rfl (by omega) hp0
  have hsearch :=
    binarySearch4way_eq (k :=
    ⟨as.getD s.idxS 0, as.getD (s.idxS + 1) 0, as.getD (s.idxS + 2) 0, as.getD (s.idxS + 3) 0⟩)
    (h'.window le_rfl (by omega) hp0) (h'.window (by omega) (by omega) hp1)
      (h'.window (by omega) (by omega) hp2)
    (h'.window (by omega) (by omega) hp3)
  obtain ⟨w0, out0, hemit0, -, h0⟩ := h'.emit ha hb (by omega) hroom hp0 le_rfl
  have hle1 := h0.le_point le_rfl (by omega) hp1
  obtain ⟨w1, out1, hemit1, -, h1⟩ :=
    h0.emit ha hb (by omega) hroom hp1 (hle0.trans (Nat.le_add_right _ _))
  have hle2 := h1.le_point le_rfl (by omega) hp2
  obtain ⟨w2, out2, hemit2, -, h2⟩ :=
    h1.emit ha hb (by omega) hroom hp2 ((show s.idxL ≤ p1 by omega).trans (Nat.le_add_right _ _))
  have hle3 := h2.le_point le_rfl (by omega) hp3
  obtain ⟨w3, out3, hemit3, hlarge, h3⟩ :=
    h2.emit ha hb (by omega) hroom hp3 ((show s.idxL ≤ p2 by omega).trans (Nat.le_add_right _ _))
  have hplace : s.idxL + (p3 - s.idxL) = p3 := by omega
  have hmatch : (p3 - s.idxL < bs.length - s.idxL ∧ large.read out3 p3 = as.getD (s.idxS + 3) 0) ↔
      p3 < bs.length ∧ bs.getD p3 0 = as.getD (s.idxS + 3) 0 := by
    have hinside : p3 - s.idxL < bs.length - s.idxL ↔ p3 < bs.length := by omega
    rw [hinside]
    exact and_congr_right fun hlt ↦ by rw [hlarge p3 le_rfl hlt]
  refine ⟨⟨s.idxS + 4, p3 + (if p3 < bs.length ∧ bs.getD p3 0 = as.getD (s.idxS + 3) 0 then 1
    else 0), w3, out3⟩, ?_, h3, rfl⟩
  rw [probeFours, h'.small s.idxS le_rfl (by omega), h'.small (s.idxS + 1) (by omega) (by omega),
    h'.small (s.idxS + 2) (by omega) (by omega), h'.small (s.idxS + 3) (by omega) (by omega)]
  dsimp only
  rw [hsearch]
  dsimp only
  rw [hemit0, Option.bind_some, hemit1, Option.bind_some, hemit2, Option.bind_some, hemit3,
    Option.map_some, ← Nat.add_assoc, hplace,
    if_congr hmatch rfl rfl]

/-- One of the last keys. -/
theorem Probing.one (h : Probing small large as bs size s) (ha : as.Pairwise (· < ·))
    (hb : bs.Pairwise (· < ·)) (hroom : as.length ≤ size) (hi : s.idxS < as.length) :
    ∃ t, probeOne small large bs.length s = some t ∧ Probing small large as bs size t ∧
      t.idxS = s.idxS + 1 := by
  have h' : Probed small large as bs size s.idxS s.idxL s.written s.out := h
  obtain ⟨p, hp⟩ := exists_point hb (as.getD s.idxS 0)
  have hle := h'.le_point le_rfl hi hp
  obtain ⟨w, out', hemit, -, hnext⟩ := h'.emit ha hb hi hroom hp le_rfl
  have hplace : s.idxL + (p - s.idxL) = p := by omega
  have hpoint : partitionPointIn (fun x ↦ decide (large.read s.out x < as.getD s.idxS 0)) s.idxL
      bs.length = p := by
    refine partitionPointIn_eq hle hp.le (fun x hx hlt ↦ ?_) fun x hx hlt ↦ ?_
    · rw [h'.large x hx (hlt.trans_le hp.le)]
      exact decide_eq_true (hp.of_lt x hlt)
    · rw [h'.large x (hle.trans hx) hlt]
      exact decide_eq_false (hp.not_of_le x hx hlt)
  have hmatch : (p ≠ bs.length ∧ large.read s.out p = as.getD s.idxS 0) ↔ p < bs.length ∧
      bs.getD p 0 = as.getD s.idxS 0 := by
    rw [hp.le.lt_iff_ne]
    exact and_congr_right fun hne ↦ by rw [h'.large p hle (hp.le.lt_of_ne hne)]
  have hmatch' : (p - s.idxL < bs.length - s.idxL ∧ large.read s.out p = as.getD s.idxS 0) ↔
      p < bs.length ∧ bs.getD p 0 = as.getD s.idxS 0 := by
    have hinside : p - s.idxL < bs.length - s.idxL ↔ p < bs.length := by omega
    rw [hinside]
    exact and_congr_right fun hlt ↦ by rw [h'.large p hle hlt]
  rw [probeOne, h'.small s.idxS le_rfl hi]
  rw [hpoint, if_congr hmatch rfl rfl]
  rw [emitMatch] at hemit
  rw [hplace, if_congr hmatch' rfl rfl] at hemit
  refine ⟨⟨s.idxS + 1, p + (if p < bs.length ∧ bs.getD p 0 = as.getD s.idxS 0 then 1 else 0), w,
    out'⟩, ?_, hnext, rfl⟩
  split
  · rename_i hfound
    rw [if_pos hfound, Option.map_eq_some_iff] at hemit
    obtain ⟨stored, hstore, heq⟩ := hemit
    obtain ⟨rfl, rfl⟩ := Prod.mk.inj heq
    rw [hstore, Option.map_some]
  · rename_i hmissed
    rw [if_neg hmissed, Option.some.injEq] at hemit
    obtain ⟨rfl, rfl⟩ := Prod.mk.inj hemit
    rfl

/-- The skewed intersection, wherever the arrays lie. -/
theorem intersectArrayArraySkewedInto_spec (ha : as.Pairwise (· < ·)) (hb : bs.Pairwise (· < ·))
    (hsmall : small.Holds out 0 as)
    (hlarge : large.Holds out 0 bs) (hroom : as.length ≤ out.length) :
    LeavesValues (intersectArrayArraySkewedInto small as.length large bs.length out)
      out.length (plainMerge ⟨false, false, true⟩ as bs) := by
  have hstart : Probing small large as bs out.length ⟨0, 0, 0, out⟩ :=
    ⟨Nat.zero_le _, Nat.zero_le _, hsmall, hlarge, fun x hx ↦ absurd hx (Nat.not_lt_zero x), rfl,
      List.take_zero, le_rfl, rfl⟩
  obtain ⟨s, hfours, hs, -⟩ :=
    loop_spec (fun s ↦ decide (s.idxS + 4 ≤ as.length ∧ s.idxL < bs.length))
    (probeFours small large bs.length) (Probing small large as bs out.length)
        (fun s ↦ as.length - s.idxS) (fun s hs hagain ↦ by
      obtain ⟨hi, -⟩ := of_decide_eq_true hagain
      obtain ⟨t, hturn, ht, hmore⟩ := hs.fours ha hb hroom hi
      exact ⟨t, hturn, ht, by omega⟩) (as.length + 1) hstart (by dsimp only; omega)
  obtain ⟨t, hones, ht, hend⟩ :=
    loop_spec (fun s ↦ decide (s.idxS < as.length ∧ s.idxL < bs.length))
    (probeOne small large bs.length) (Probing small large as bs out.length)
        (fun s ↦ as.length - s.idxS) (fun s hs hagain ↦ by
      obtain ⟨hi, -⟩ := of_decide_eq_true hagain
      obtain ⟨t, hturn, ht, hmore⟩ := hs.one ha hb hroom hi
      exact ⟨t, hturn, ht, by omega⟩) (as.length + 1) hs (by omega)
  have ht' : Probed small large as bs out.length t.idxS t.idxL t.written t.out := ht
  have hleft := ht'.left_le
  have hright := ht'.right_le
  -- of the keys that are left none is found: all of the larger array lies below them
  have hrest : (as.drop t.idxS).filter (fun v ↦ decide (v ∈ bs)) = [] := by
    refine List.filter_eq_nil_iff.2 fun v hv hfound ↦ ?_
    have hdone := of_decide_eq_false hend
    obtain ⟨y, hy, rfl⟩ := List.mem_drop_iff_getElem.1 hv
    obtain ⟨x, hx, hat⟩ := List.getElem_of_mem (of_decide_eq_true hfound)
    have hlt := ht'.below x (by omega) (t.idxS + y) (Nat.le_add_right _ _) (by omega)
    rw [List.getD_eq_getElem _ _ hx, List.getD_eq_getElem _ _ (by omega), hat] at hlt
    exact lt_irrefl _ hlt
  have hall : (as.take t.idxS).filter (fun v ↦ decide (v ∈ bs)) = plainMerge ⟨false, false, true⟩ as
      bs := by
    have hwhole : (as.take t.idxS).filter (fun v ↦ decide (v ∈ bs)) =
        as.filter (fun v ↦ decide (v ∈ bs)) := by
      conv_rhs => rw [← List.take_append_drop t.idxS as, List.filter_append, hrest, List.append_nil]
    rw [hwhole]
    refine eq_intersection ha hb (ha.filter _) fun v ↦ ?_
    rw [List.mem_filter, decide_eq_true_eq]
  have hcount := ht'.count
  have hfront := ht'.front
  rw [hall] at hcount hfront
  rw [LeavesValues, intersectArrayArraySkewedInto, hfours, Option.bind_some, hones,
    Option.map_some, ← hcount]
  exact ⟨t.out, rfl, ht'.size, hfront⟩

end Probing

/-- Searching the values of the smaller array in the larger one finds the common values, ascending,
also where the result is written over the payload of the smaller array or of the larger one. -/
theorem intersectArrayArraySkewedInto_finds {as bs out : List Nat} (ha : as.Pairwise (· < ·))
    (hb : bs.Pairwise (· < ·)) (hroom : as.length ≤ out.length) (hskew : as.length ≤ bs.length) :
    ∃ values : List Nat, values.Pairwise (· < ·) ∧ (∀ v, v ∈ values ↔ v ∈ as ∧ v ∈ bs) ∧
      (∃ out', intersectArrayArraySkewedInto (.apart as) as.length (.apart bs) bs.length out =
        some (values.length, out') ∧
        out'.take values.length = values ∧ out'.length = out.length) ∧
      (∃ out', intersectArrayArraySkewedInto (.inOut 0) as.length (.apart bs) bs.length as =
        some (values.length, out') ∧
        out'.take values.length = values ∧ out'.length = as.length) ∧
      ∃ out', intersectArrayArraySkewedInto (.apart as) as.length (.inOut 0) bs.length bs =
        some (values.length, out') ∧
        out'.take values.length = values ∧ out'.length = bs.length := by
  obtain ⟨out₁, hrun₁, hlength₁, hfront₁⟩ :=
    intersectArrayArraySkewedInto_spec ha hb .apart .apart hroom
  obtain ⟨out₂, hrun₂, hlength₂, hfront₂⟩ :=
    intersectArrayArraySkewedInto_spec ha hb .own .apart le_rfl
  obtain ⟨out₃, hrun₃, hlength₃, hfront₃⟩ :=
    intersectArrayArraySkewedInto_spec ha hb .apart .own hskew
  refine ⟨plainMerge ⟨false, false, true⟩ as bs, plainMerge_ascending ha hb, fun v ↦ ?_,
    ⟨out₁, hrun₁, hfront₁, hlength₁⟩,
    ⟨out₂, hrun₂, hfront₂, hlength₂⟩, out₃, hrun₃, hfront₃, hlength₃⟩
  rw [mem_plainMerge ha hb, MergeRule.Keeps]
  simp only [Bool.false_eq_true, and_false, and_true, false_or]

/-- A group of four keys and one more, in ten times as many values. -/
theorem intersectArrayArraySkewedInto_finds_five :
    let as := [3, 10, 11, 44, 70]
    let bs := List.range' 7 50
    let room := List.replicate 5 7
    ∃ values : List Nat, values.Pairwise (· < ·) ∧ (∀ v, v ∈ values ↔ v ∈ as ∧ v ∈ bs) ∧
      (∃ out', intersectArrayArraySkewedInto (.apart as) as.length (.apart bs) bs.length room =
          some (values.length, out') ∧
        out'.take values.length = values ∧ out'.length = room.length) ∧
      (∃ out', intersectArrayArraySkewedInto (.inOut 0) as.length (.apart bs) bs.length as =
          some (values.length, out') ∧
        out'.take values.length = values ∧ out'.length = as.length) ∧
      ∃ out', intersectArrayArraySkewedInto (.apart as) as.length (.inOut 0) bs.length bs =
          some (values.length, out') ∧
        out'.take values.length = values ∧ out'.length = bs.length :=
  intersectArrayArraySkewedInto_finds (by decide) (List.pairwise_lt_range' 1) (by decide)
    (by decide)

end Roaring
