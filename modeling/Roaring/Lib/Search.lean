import Mathlib

/-!
# Searches in partitioned sequences

A search by halves, by quarters or by doubling looks for the one place where a
predicate that only ever turns from true to false does so.  `PartitionPoint`
names that place among the first `n` positions; a search keeps it between two
bounds, and `lt_iff` is what one probe says about it.
-/

namespace Lib

/-- The first `k` of `n` positions satisfy `below` and the others do not. -/
structure PartitionPoint (below : Nat → Prop) (n k : Nat) : Prop where
  le : k ≤ n
  of_lt : ∀ i < k, below i
  not_of_le : ∀ i, k ≤ i → i < n → ¬ below i

namespace PartitionPoint

variable {below : Nat → Prop} {n k l : Nat}

/-- A probe inside the sequence tells on which side of the point it is. -/
theorem lt_iff (h : PartitionPoint below n k) {i : Nat} (hi : i < n) : below i ↔ i < k := by
  constructor
  · intro hb
    by_contra hge
    exact h.not_of_le i (Nat.le_of_not_lt hge) hi hb
  · exact h.of_lt i

theorem unique (hk : PartitionPoint below n k) (hl : PartitionPoint below n l) : k = l := by
  rcases Nat.lt_trichotomy k l with hlt | rfl | hgt
  · exact absurd (hl.of_lt k hlt) (hk.not_of_le k le_rfl (hlt.trans_le hl.le))
  · rfl
  · exact absurd (hk.of_lt l hgt) (hl.not_of_le l le_rfl (hgt.trans_le hk.le))

/-- A predicate that never turns back to true has a partition point. -/
theorem exists_of_antitone (hanti : ∀ i j, i ≤ j → j < n → below j → below i) :
    ∃ k, PartitionPoint below n k := by
  induction n with
  | zero => exact ⟨0, le_rfl, nofun, nofun⟩
  | succ n ih =>
      obtain ⟨k, hk⟩ := ih fun i j hij hj ↦ hanti i j hij (Nat.lt_succ_of_lt hj)
      by_cases hn : below n
      · refine ⟨n + 1, le_rfl, fun i hi ↦ ?_, fun i hi hlt ↦ absurd hlt (Nat.not_lt_of_le hi)⟩
        exact hanti i n (Nat.le_of_lt_succ hi) (Nat.lt_succ_self n) hn
      · refine ⟨k, Nat.le_succ_of_le hk.le, hk.of_lt, fun i hki hi ↦ ?_⟩
        rcases Nat.lt_succ_iff_lt_or_eq.mp hi with hlt | rfl
        · exact hk.not_of_le i hki hlt
        · exact hn

end PartitionPoint

/-! ## Ascending lists -/

variable {values : List Nat}

/-- What an ascending list has in front of a position is below the value there. -/
theorem lt_of_mem_take (hasc : values.Pairwise (· < ·)) {i : Nat} (hi : i < values.length) {v : Nat}
    (hv : v ∈ values.take i) : v < values[i] := by
  rw [← List.take_append_drop i values, List.pairwise_append] at hasc
  exact hasc.2.2 v hv _ (by rw [List.drop_eq_getElem_cons hi]; exact List.mem_cons_self)

/-- What an ascending list has behind a position is above the value there. -/
theorem lt_of_mem_drop (hasc : values.Pairwise (· < ·)) {i : Nat} (hi : i < values.length) {v : Nat}
    (hv : v ∈ values.drop (i + 1)) : values[i] < v := by
  have hdrop := hasc.sublist (List.drop_sublist i values)
  rw [List.drop_eq_getElem_cons hi] at hdrop
  exact List.rel_of_pairwise_cons hdrop hv

/-- Positions and values of an ascending list are in the same order. -/
theorem getD_mono (hasc : values.Pairwise (· < ·)) {i j : Nat} (hij : i ≤ j)
    (hj : j < values.length) : values.getD i 0 ≤ values.getD j 0 := by
  have hi := hij.trans_lt hj
  rw [List.getD_eq_getElem _ _ hi, List.getD_eq_getElem _ _ hj]
  rcases Nat.lt_or_eq_of_le hij with hlt | rfl
  · exact (List.pairwise_iff_getElem.mp hasc i j hi hj hlt).le
  · rfl

/-- An ascending list climbs by at least one at every step. -/
theorem getElem_add_le (hasc : values.Pairwise (· < ·)) {i d : Nat} (h : i + d < values.length) :
    values[i] + d ≤ values[i + d] := by
  induction d with
  | zero => exact le_rfl
  | succ d ih =>
      have hstep := List.pairwise_iff_getElem.mp hasc (i + d) (i + (d + 1)) (by omega) h (by omega)
      have := ih (by omega)
      omega

theorem le_getLast_of_mem (hasc : values.Pairwise (· < ·)) {v : Nat} (hv : v ∈ values) :
    v ≤ values.getLastD 0 := by
  have hne := List.ne_nil_of_mem hv
  rw [List.getLastD_eq_getLast?, List.getLast?_eq_some_getLast hne, Option.getD_some]
  rw [← List.dropLast_append_getLast hne, List.pairwise_append] at hasc
  rw [← List.dropLast_append_getLast hne, List.mem_append, List.mem_singleton] at hv
  rcases hv with hv | hv
  · exact (hasc.2.2 v hv _ List.mem_cons_self).le
  · exact hv.le

theorem headD_le_of_mem (hasc : values.Pairwise (· < ·)) {v : Nat} (hv : v ∈ values) :
    values.headD 0 ≤ v := by
  cases values with
  | nil => cases hv
  | cons u us =>
      rcases List.mem_cons.mp hv with rfl | hv
      · exact le_rfl
      · exact (List.rel_of_pairwise_cons hasc hv).le

/-- A list without repeats is no longer than one that holds its members. -/
theorem length_le_of_ascending {ws : List Nat} (hasc : values.Pairwise (· < ·))
    (hsub : ∀ v ∈ values, v ∈ ws) : values.length ≤ ws.length := by
  have hnodup : values.Nodup := hasc.imp fun hlt ↦ Nat.ne_of_lt hlt
  exact (hnodup.subperm hsub).length_le

/-- As many numbers below `n` as there are make all of them. -/
theorem mem_of_length_eq {n v : Nat} (hasc : values.Pairwise (· < ·)) (hlt : ∀ v ∈ values, v < n)
    (hlen : values.length = n) (hv : v < n) : v ∈ values := by
  have hnodup : values.Nodup := hasc.imp Nat.ne_of_lt
  have hsub : values.toFinset ⊆ Finset.range n :=
    fun u hu ↦ Finset.mem_range.2 (hlt u (List.mem_toFinset.1 hu))
  have hall :=
    Finset.eq_of_subset_of_card_le hsub
    (by rw [Finset.card_range, List.toFinset_card_of_nodup hnodup, hlen])
  rw [← List.mem_toFinset, hall]
  exact Finset.mem_range.2 hv

/-! ## The front of a keyed list -/

/-- A list is cut where the predicate first fails. -/
theorem length_takeWhile_eq {α : Type} {p : α → Bool} {l : List α} {m : Nat} (hm : m ≤ l.length)
    (hfront : ∀ a ∈ l.take m, p a = true) (hback : ∀ a ∈ (l.drop m).head?, p a = false) :
    (l.takeWhile p).length = m := by
  have hdrop : (l.drop m).takeWhile p = [] := by
    cases hd : l.drop m with
    | nil => rfl
    | cons a as => exact List.takeWhile_cons_of_neg (by simp [hback a (by simp [hd])])
  rw [← List.take_append_drop m l, List.takeWhile_append_of_pos hfront, hdrop, List.append_nil,
    List.length_take, min_eq_left hm]

/-- The elements below a key are cut off an ascending list where they end. -/
theorem takeWhile_cuts {α : Type} {f : α → Nat} {l : List α} (hasc : (l.map f).Pairwise (· < ·))
    (key : Nat) :
    (∀ a ∈ l.take (l.takeWhile fun a ↦ decide (f a < key)).length, f a < key) ∧
      ∀ a ∈ l.drop (l.takeWhile fun a ↦ decide (f a < key)).length, key ≤ f a := by
  induction l with
  | nil => simp
  | cons b l ih =>
      rw [List.map_cons, List.pairwise_cons] at hasc
      by_cases hb : f b < key
      · obtain ⟨hfront, hback⟩ := ih hasc.2
        rw [List.takeWhile_cons_of_pos (by simpa using hb), List.length_cons, List.take_succ_cons,
          List.drop_succ_cons]
        exact ⟨List.forall_mem_cons.mpr ⟨hb, hfront⟩, hback⟩
      · rw [List.takeWhile_cons_of_neg (by simpa using hb)]
        refine ⟨nofun, fun a ha ↦ ?_⟩
        rcases List.mem_cons.mp ha with rfl | hmem
        · exact not_lt.mp hb
        · exact (not_lt.mp hb).trans (hasc.1 (f a) (List.mem_map_of_mem hmem)).le

/-! ## The partition point of a range of positions -/

/-- The first position in `[ first, last )` where the predicate fails. -/
def partitionPointIn (pred : Nat → Bool) (first last : Nat) : Nat :=
  first + ((List.range' first (last - first)).takeWhile pred).length

theorem partitionPointIn_eq {pred : Nat → Bool} {first last k : Nat} (hfirst : first ≤ k)
    (hk : k ≤ last) (hbelow : ∀ i, first ≤ i → i < k → pred i = true)
    (hnot : ∀ i, k ≤ i → i < last → pred i = false) : partitionPointIn pred first last = k := by
  rw [partitionPointIn, length_takeWhile_eq (m := k - first) (by rw [List.length_range']; omega)]
  · omega
  · intro i hi
    have hle : k - first ≤ last - first := by omega
    rw [List.take_range'_of_length_ge hle, List.mem_range'_1] at hi
    exact hbelow i hi.1 (by omega)
  · intro i hi
    rw [List.drop_range'] at hi
    have hmem := List.mem_of_mem_head? hi
    rw [List.mem_range'_1] at hmem
    exact hnot i (by omega) (by omega)

/-! ## A gallop -/

/-- The doubling probes behind `lo`, which is below: where they end, and the step they ended at. -/
def gallopSteps (below : Nat → Bool) (hi lo k : Nat) : Nat × Nat :=
  if lo + 2 ^ k < hi ∧ below (lo + 2 ^ k) = true then gallopSteps below hi (lo + 2 ^ k) (k + 1)
  else (lo, 2 ^ k)
termination_by hi - lo
decreasing_by
  have hstep := Nat.two_pow_pos k
  omega

/-- A search from the front: up to three steps of one, then steps that double, then halves. -/
def gallopForward (below : Nat → Bool) (lo hi : Nat) : Nat :=
  if lo = hi ∨ below lo = false then lo
  else if hi ≤ lo + 1 ∨ below (lo + 1) = false then lo + 1
  else if hi ≤ lo + 2 ∨ below (lo + 2) = false then lo + 2
  else if hi ≤ lo + 3 ∨ below (lo + 3) = false then lo + 3
  else
    let probe := gallopSteps below hi (lo + 3) 0
    partitionPointIn below (probe.1 + 1) (min (probe.1 + probe.2) hi)

section Gallop

variable {below : Nat → Bool} {lo hi k : Nat}

theorem gallopSteps_spec (hbelow : ∀ i, lo ≤ i → i < k → below i = true)
    (hnot : ∀ i, k ≤ i → i < hi → below i = false) (hk : k ≤ hi) (hlo : lo < k) (j : Nat) :
    lo ≤ (gallopSteps below hi lo j).1 ∧ (gallopSteps below hi lo j).1 < k ∧
      k ≤ min ((gallopSteps below hi lo j).1 + (gallopSteps below hi lo j).2) hi := by
  induction lo, j using gallopSteps.induct below hi with
  | case1 lo j h ih =>
    rw [gallopSteps, if_pos h]
    have hin : lo + 2 ^ j < k := by
      by_contra hge
      rw [hnot _ (not_lt.1 hge) h.1] at h
      exact Bool.false_ne_true h.2
    obtain ⟨hmono, hrest⟩ := ih (fun i hi ↦ hbelow i ((Nat.le_add_right _ _).trans hi)) hin
    exact ⟨(Nat.le_add_right _ _).trans hmono, hrest⟩
  | case2 lo j h =>
    rw [gallopSteps, if_neg h]
    refine ⟨le_rfl, hlo, le_min ?_ hk⟩
    by_contra hgt
    exact h ⟨(not_le.1 hgt).trans_le hk, hbelow _ (Nat.le_add_right _ _) (not_le.1 hgt)⟩

/-- A gallop ends at the partition point. -/
theorem gallopForward_eq (hlo : lo ≤ k) (hk : k ≤ hi)
    (hbelow : ∀ i, lo ≤ i → i < k → below i = true)
    (hnot : ∀ i, k ≤ i → i < hi → below i = false) : gallopForward below lo hi = k := by
  have hstop : ∀ i, lo ≤ i → i ≤ k → hi ≤ i ∨ below i = false → i = k := by
    intro i hli hik hor
    by_contra hne
    have hlt : i < k := Nat.lt_of_le_of_ne hik hne
    rcases hor with hend | hfalse
    · omega
    · rw [hbelow i hli hlt] at hfalse
      exact Bool.false_ne_true hfalse.symm
  have hgo : ∀ i, i ≤ k → ¬ (hi ≤ i ∨ below i = false) → i < k := by
    intro i hik hor
    by_contra hge
    obtain rfl : i = k := le_antisymm hik (not_lt.1 hge)
    rw [not_or] at hor
    exact hor.2 (hnot i le_rfl (not_le.1 hor.1))
  have hzero : lo = hi ∨ below lo = false ↔ hi ≤ lo ∨ below lo = false :=
    or_congr_left ⟨ge_of_eq, fun h ↦ by omega⟩
  rw [gallopForward, if_congr hzero rfl rfl]
  split
  · rename_i h
    exact hstop lo le_rfl hlo h
  · rename_i h
    have h1 := hgo lo hlo h
    split
    · rename_i h
      exact hstop _ (Nat.le_add_right _ _) h1 h
    · rename_i h
      have h2 := hgo _ h1 h
      split
      · rename_i h
        exact hstop _ (Nat.le_add_right _ _) h2 h
      · rename_i h
        have h3 := hgo _ h2 h
        split
        · rename_i h
          exact hstop _ (Nat.le_add_right _ _) h3 h
        · rename_i h
          have h4 := hgo _ h3 h
          obtain ⟨hmono, hbefore, hwithin⟩ := gallopSteps_spec
            (fun i hi hik ↦ hbelow i ((Nat.le_add_right lo 3).trans hi) hik) hnot hk h4 0
          apply partitionPointIn_eq hbefore hwithin
          · intro i hli hik
            exact hbelow i (by omega) hik
          · intro i hki hi'
            exact hnot i hki (lt_of_lt_of_le hi' (min_le_right _ _))

end Gallop

/-! ## Halves between two bounds -/

/-- The halving between a bound that is below and one that is not, which is its result. -/
def bisect (below : Nat → Bool) (low high : Nat) : Nat :=
  if low + 1 < high then
    if below (low + (high - low) / 2) = true then bisect below (low + (high - low) / 2) high
    else bisect below low (low + (high - low) / 2)
  else high
termination_by high - low

/-- A halving ends at the partition point between its bounds. -/
theorem bisect_eq {below : Nat → Bool} {k n low high : Nat}
    (hbelow : ∀ i, low ≤ i → i < k → below i = true)
    (hnot : ∀ i, k ≤ i → i < n → below i = false) (hlow : low < k) (hhigh : k ≤ high)
    (hn : high ≤ n) :
    bisect below low high = k := by
  induction low, high using bisect.induct below with
  | case1 low high hopen hmid ih =>
    rw [bisect, if_pos hopen, if_pos hmid]
    apply ih
    · intro i hi hik
      exact hbelow i (by omega) hik
    · by_contra hge
      rw [hnot _ (not_lt.1 hge) (by omega)] at hmid
      exact Bool.false_ne_true hmid
    · exact hhigh
    · exact hn
  | case2 low high hopen hmid ih =>
    rw [bisect, if_pos hopen, if_neg hmid]
    apply ih hbelow hlow
    · by_contra hgt
      exact hmid (hbelow _ (Nat.le_add_right _ _) (not_le.1 hgt))
    · omega
  | case3 low high hclosed =>
    rw [bisect, if_neg hclosed]
    omega

/-! ## Halves without branches -/

/-- The halving of `n` positions from `base` on whose steps move the base or leave it: where the
last base stands. -/
def halvingBase (below : Nat → Bool) (n base : Nat) : Nat :=
  if 1 < n then halvingBase below (n - n / 2) (if below (base + n / 2) then base + n / 2 else base)
  else base
termination_by n

/-- The point lies at the last base or right behind it. -/
theorem halvingBase_eq {below : Nat → Bool} {k lo hi n base : Nat}
    (hbelow : ∀ i, lo ≤ i → i < k → below i = true)
    (hnot : ∀ i, k ≤ i → i < hi → below i = false) (hlo : lo ≤ base)
    (hbase : base = lo ∨ base < k) (hk : k ≤ base + n)
    (hn : 0 < n) (hin : base + n ≤ hi) (hlok : lo ≤ k) :
    halvingBase below n base + (if below (halvingBase below n base) then 1 else 0) = k := by
  induction n, base using halvingBase.induct below with
  | case1 n base hmore ih =>
    rw [halvingBase, if_pos hmore]
    have hhalf : n / 2 < n := Nat.div_lt_self hn (by decide)
    cases hprobe : below (base + n / 2) with
    | true =>
      have hlt : base + n / 2 < k := by
        by_contra hge
        rw [hnot _ (not_lt.1 hge) (by omega)] at hprobe
        exact Bool.false_ne_true hprobe
      rw [hprobe, dif_pos rfl] at ih
      rw [if_pos rfl]
      exact ih (by omega) (.inr hlt) (by omega) (by omega) (by omega)
    | false =>
      have hge : k ≤ base + n / 2 := by
        by_contra hlt
        rw [hbelow _ (by omega) (not_le.1 hlt)] at hprobe
        exact Bool.false_ne_true hprobe.symm
      rw [hprobe, dif_neg Bool.false_ne_true] at ih
      rw [if_neg Bool.false_ne_true]
      exact ih hlo hbase (by omega) (by omega) (by omega)
  | case2 n base hone =>
    rw [halvingBase, if_neg hone]
    cases hprobe : below base with
    | true =>
      have hlt : base < k := by
        by_contra hge
        rw [hnot _ (not_lt.1 hge) (by omega)] at hprobe
        exact Bool.false_ne_true hprobe
      rw [if_pos rfl]
      omega
    | false =>
      have hge : k ≤ base := by
        by_contra hlt
        rw [hbelow _ hlo (not_le.1 hlt)] at hprobe
        exact Bool.false_ne_true hprobe.symm
      rw [if_neg Bool.false_ne_true]
      omega

/-! ## Lists that do not descend -/

/-- Where a list does not descend, its front below a bound is all that is below it. -/
theorem takeWhile_lt_eq_filter {l : List Nat} (hasc : l.Pairwise (· ≤ ·)) (b : Nat) :
    l.takeWhile (fun v ↦ decide (v < b)) = l.filter (· < b) := by
  induction l with
  | nil => rfl
  | cons v l ih =>
      by_cases hv : v < b
      · rw [List.takeWhile_cons_of_pos (by simpa using hv),
          List.filter_cons_of_pos (by simpa using hv), ih hasc.of_cons]
      · rw [List.takeWhile_cons_of_neg (by simpa using hv), eq_comm, List.filter_eq_nil_iff]
        intro w hw
        rcases List.mem_cons.mp hw with rfl | hw
        · simpa using hv
        · have hle := List.rel_of_pairwise_cons hasc hw
          simpa using (not_lt.mp hv).trans hle

theorem dropWhile_lt_eq_filter {l : List Nat} (hasc : l.Pairwise (· ≤ ·)) (b : Nat) :
    l.dropWhile (fun v ↦ decide (v < b)) = l.filter (b ≤ ·) := by
  induction l with
  | nil => rfl
  | cons v l ih =>
      by_cases hv : v < b
      · rw [List.dropWhile_cons_of_pos (by simpa using hv),
          List.filter_cons_of_neg (by simpa using hv), ih hasc.of_cons]
      · rw [List.dropWhile_cons_of_neg (by simpa using hv), eq_comm, List.filter_eq_self]
        intro w hw
        rcases List.mem_cons.mp hw with rfl | hw
        · simpa using hv
        · have hle := List.rel_of_pairwise_cons hasc hw
          simpa using (not_lt.mp hv).trans hle

/-- What is dropped is as long as what is taken. -/
theorem drop_length_takeWhile {α : Type} (p : α → Bool) (l : List α) :
    l.drop (l.takeWhile p).length = l.dropWhile p := by
  conv_lhs => rw [← List.takeWhile_append_dropWhile (p := p) (l := l)]
  rw [List.takeWhile_append_dropWhile]
  nth_rewrite 2 [← List.takeWhile_append_dropWhile (p := p) (l := l)]
  exact List.drop_left

/-- The front below a bound ends at the partition point. -/
theorem partitionPoint_takeWhile {l : List Nat} (hasc : l.Pairwise (· ≤ ·)) (b : Nat) :
    PartitionPoint (fun i ↦ l.getD i 0 < b) l.length
      (l.takeWhile fun v ↦ decide (v < b)).length := by
  induction l with
  | nil => exact ⟨le_rfl, nofun, fun i _ hi ↦ absurd hi (Nat.not_lt_zero i)⟩
  | cons v l ih =>
      by_cases hv : v < b
      · obtain ⟨hle, hbelow, hnot⟩ := ih hasc.of_cons
        rw [List.takeWhile_cons_of_pos (by simpa using hv)]
        refine ⟨Nat.succ_le_succ hle, fun i hi ↦ ?_, fun i hki hi ↦ ?_⟩
        · cases i with
          | zero => exact hv
          | succ i => exact hbelow i (Nat.lt_of_succ_lt_succ hi)
        · cases i with
          | zero => exact absurd hki (Nat.not_succ_le_zero _)
          | succ i => exact hnot i (Nat.le_of_succ_le_succ hki) (Nat.lt_of_succ_lt_succ hi)
      · rw [List.takeWhile_cons_of_neg (by simpa using hv)]
        refine ⟨Nat.zero_le _, nofun, fun i _ hi ↦ ?_⟩
        rw [List.getD_eq_getElem _ _ hi, not_lt]
        rcases List.mem_cons.mp (List.getElem_mem hi) with heq | hmem
        · exact (not_lt.mp hv).trans heq.ge
        · exact (not_lt.mp hv).trans (List.rel_of_pairwise_cons hasc hmem)

/-- Predicates that agree on a list cut it in the same place. -/
theorem cut_congr {α : Type} {p q : α → Bool} {l : List α} (h : ∀ a ∈ l, p a = q a) :
    l.takeWhile p = l.takeWhile q ∧ l.dropWhile p = l.dropWhile q := by
  induction l with
  | nil => exact ⟨rfl, rfl⟩
  | cons a l ih =>
      obtain ⟨htake, hdrop⟩ := ih fun b hb ↦ h b (List.mem_cons_of_mem a hb)
      rw [List.takeWhile_cons, List.takeWhile_cons, List.dropWhile_cons, List.dropWhile_cons,
        h a List.mem_cons_self, htake, hdrop]
      exact ⟨rfl, rfl⟩

end Lib
