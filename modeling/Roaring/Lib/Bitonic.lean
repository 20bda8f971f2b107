import Mathlib

/-!
# Bitonic merges

A layer of a bitonic merge compares the lanes that stand a distance apart, in blocks of
twice the distance; the lower lane keeps the smaller value.  Lanes are bitonic when for
every bound those that reach it form a window, or those that do not: a layer makes two
such halves of them, of which one is uniform for each bound, so that the lower half is
not above the upper one.  Lanes that ascend and then descend are bitonic, so two
ascending blocks are merged by turning one of them round.
-/

namespace Lib

/-! ## Windows -/

/-- The places below `m` at which `p` holds form a window, or those at which it fails. -/
def IsWindow (m : Nat) (p : Nat → Prop) : Prop :=
  ∃ l h, (∀ i < m, p i ↔ l ≤ i ∧ i < h) ∨ ∀ i < m, p i ↔ ¬ (l ≤ i ∧ i < h)

section Windows

variable {m : Nat} {p q : Nat → Prop}

theorem IsWindow.congr (h : IsWindow m p) (heq : ∀ i < m, q i ↔ p i) : IsWindow m q := by
  obtain ⟨l, u, hin | hout⟩ := h
  · exact ⟨l, u, .inl fun i hi ↦ (heq i hi).trans (hin i hi)⟩
  · exact ⟨l, u, .inr fun i hi ↦ (heq i hi).trans (hout i hi)⟩

theorem IsWindow.not (h : IsWindow m p) : IsWindow m fun i ↦ ¬ p i := by
  obtain ⟨l, u, hin | hout⟩ := h
  · exact ⟨l, u, .inr fun i hi ↦ not_congr (hin i hi)⟩
  · exact ⟨l, u, .inl fun i hi ↦ (not_congr (hout i hi)).trans not_not⟩

/-- The halves of a window: where both hold, where one of them does, and that not both of these are
mixed. -/
theorem halves_of_window {l h : Nat} (hp : ∀ i < m + m, p i ↔ l ≤ i ∧ i < h) :
    IsWindow m (fun i ↦ p i ∧ p (m + i)) ∧ IsWindow m (fun i ↦ p i ∨ p (m + i)) ∧
      ((∀ i < m, ¬ (p i ∧ p (m + i))) ∨ ∀ i < m, p i ∨ p (m + i)) := by
  have hlow : ∀ i < m, p i ↔ l ≤ i ∧ i < h := fun i hi ↦ hp i (by omega)
  have hhigh : ∀ i < m, p (m + i) ↔ l ≤ m + i ∧ m + i < h := fun i hi ↦ hp (m + i) (by omega)
  refine ⟨⟨l, h - m, .inl fun i hi ↦ ?_⟩, ?_, ?_⟩
  · dsimp only
    rw [hlow i hi, hhigh i hi]
    omega
  · rcases Nat.lt_or_ge m h with hacross | hleft
    · rcases Nat.lt_or_ge l m with hfrom | hright
      · refine ⟨h - m, l, .inr fun i hi ↦ ?_⟩
        dsimp only
        rw [hlow i hi, hhigh i hi]
        omega
      · refine ⟨l - m, h - m, .inl fun i hi ↦ ?_⟩
        dsimp only
        rw [hlow i hi, hhigh i hi]
        omega
    · refine ⟨l, h, .inl fun i hi ↦ ?_⟩
      dsimp only
      rw [hlow i hi, hhigh i hi]
      omega
  · by_cases hboth : ∃ i < m, p i ∧ p (m + i)
    · obtain ⟨i, hi, hboth⟩ := hboth
      rw [hlow i hi, hhigh i hi] at hboth
      right
      intro j hj
      rw [hlow j hj, hhigh j hj]
      omega
    · left
      intro i hi hp
      exact hboth ⟨i, hi, hp⟩

/-- One half-cleaning layer on what reaches a bound. -/
theorem IsWindow.halves (h : IsWindow (m + m) p) :
    IsWindow m (fun i ↦ p i ∧ p (m + i)) ∧ IsWindow m (fun i ↦ p i ∨ p (m + i)) ∧
      ((∀ i < m, ¬ (p i ∧ p (m + i))) ∨ ∀ i < m, p i ∨ p (m + i)) := by
  obtain ⟨l, u, hin | hout⟩ := h
  · exact halves_of_window hin
  · -- the complement is a window, and the layer exchanges the halves of the two
    obtain ⟨hall, hsome, huniform⟩ := halves_of_window (p := fun i ↦ ¬ p i) (l := l) (h := u)
      fun i hi ↦ (not_congr (hout i hi)).trans not_not
    refine ⟨hsome.not.congr fun i _ ↦ ?_, hall.not.congr fun i _ ↦ ?_, ?_⟩
    · tauto
    · tauto
    · rcases huniform with hnone | hevery
      · right
        intro i hi
        have := hnone i hi
        tauto
      · left
        intro i hi
        have := hevery i hi
        tauto

end Windows

/-! ## Layers -/

section Layers

/-- The lanes of a block in two halves. -/
theorem range'_map_halves {α : Type} (base d : Nat) (v : Nat → α) :
    (List.range' base (d + d)).map v = ((List.range' 0 d).map fun i ↦ v (base + i)) ++
      (List.range' 0 d).map fun i ↦ v (base + d + i) := by
  have hshift : ∀ s, (List.range' s d).map v = (List.range' 0 d).map fun i ↦ v (s + i) := by
    intro s
    have hrange : List.range' s d = (List.range' 0 d).map (s + ·) := by
      rw [List.map_add_range', Nat.add_zero]
    rw [hrange, List.map_map]
    rfl
  rw [← List.range'_append_1, List.map_append, hshift, hshift]

theorem turned_perm {α : Type} (m : Nat) (b : Nat → α) :
    ((List.range' 0 m).map fun i ↦ b (m - 1 - i)).Perm ((List.range' 0 m).map b) := by
  have hturn : ((List.range' 0 m).map fun i ↦ b (m - 1 - i)) =
      ((List.range' 0 m).map b).reverse := by
    rw [← List.map_reverse, List.reverse_range', ← List.range_eq_range', List.map_map, Nat.zero_add]
    rfl
  rw [hturn]
  exact List.reverse_perm _

variable {α : Type} [LinearOrder α]

/-- One layer, at a distance. -/
def compareExchange (d : Nat) (v : Nat → α) (i : Nat) : α :=
  if i / d % 2 = 0 then min (v i) (v (i + d)) else max (v (i - d)) (v i)

/-- The layers at the distances `2 ^ (k - 1)` down to one. -/
def bitonicMerge : (k : Nat) → (Nat → α) → Nat → α
  | 0, v => v
  | k + 1, v => bitonicMerge k (compareExchange (2 ^ k) v)

/-- For every bound, the lanes of the block that reach it form a window, or those that do not. -/
def Bitonic (base m : Nat) (v : Nat → α) : Prop := ∀ x, IsWindow m fun i ↦ x ≤ v (base + i)

variable {base d k m p q i : Nat} {u v : Nat → α}

theorem compareExchange_low (hi : i < d) :
    compareExchange d v (q * (d + d) + i) = min (v (q * (d + d) + i))
    (v (q * (d + d) + d + i)) := by
  have hd : 0 < d := Nat.zero_lt_of_lt hi
  have hblock : q * (d + d) + i = d * (2 * q) + i := by ring
  have hparity : (q * (d + d) + i) / d % 2 = 0 := by
    rw [hblock, Nat.mul_add_div hd, Nat.div_eq_of_lt hi, Nat.add_zero, Nat.mul_mod_right]
  rw [compareExchange, if_pos hparity, Nat.add_right_comm]

theorem compareExchange_high (hi : i < d) :
    compareExchange d v (q * (d + d) + d + i) = max (v (q * (d + d) + i))
    (v (q * (d + d) + d + i)) := by
  have hd : 0 < d := Nat.zero_lt_of_lt hi
  have hblock : q * (d + d) + d + i = d * (2 * q + 1) + i := by ring
  have hparity : (q * (d + d) + d + i) / d % 2 = 1 := by
    rw [hblock, Nat.mul_add_div hd, Nat.div_eq_of_lt hi, Nat.add_zero]
    omega
  have hback : q * (d + d) + d + i - d = q * (d + d) + i := by omega
  rw [compareExchange, if_neg (by rw [hparity]; decide), hback]

/-- A layer changes no values, it only exchanges some. -/
theorem min_max_perm (f g : Nat → α) (is : List Nat) :
    ((is.map fun i ↦ min (f i) (g i)) ++ is.map fun i ↦ max (f i) (g i)).Perm
      (is.map f ++ is.map g) := by
  induction is with
  | nil => exact List.Perm.refl _
  | cons i is ih =>
    have hmove : ∀ (x y : α) (xs ys : List α), (x :: xs ++ y :: ys).Perm (x :: y :: (xs ++ ys)) :=
        fun x y xs ys ↦
      (List.perm_middle (a := y)).cons x
    rw [List.map_cons, List.map_cons, List.map_cons, List.map_cons]
    refine (hmove _ _ _ _).trans (((ih.cons _).cons _).trans ?_)
    refine List.Perm.trans ?_ (hmove _ _ _ _).symm
    rcases le_total (f i) (g i) with hle | hge
    · rw [min_eq_left hle, max_eq_right hle]
    · rw [min_eq_right hge, max_eq_left hge]
      exact List.Perm.swap _ _ _

/-- What one layer does to a bitonic block: two bitonic halves, the lower one not above the upper,
of the same values. -/
theorem Bitonic.layer (h : Bitonic (q * (d + d)) (d + d) v) :
    Bitonic (q * (d + d)) d (compareExchange d v) ∧
      Bitonic (q * (d + d) + d) d (compareExchange d v) ∧
      (∀ i < d, ∀ j < d, compareExchange d v (q * (d + d) + i) ≤ compareExchange d v
        (q * (d + d) + d + j)) ∧
      ((List.range' (q * (d + d)) (d + d)).map (compareExchange d v)).Perm
        ((List.range' (q * (d + d)) (d + d)).map v) := by
  have hhalves := fun x ↦ (h x).halves
  simp only [← Nat.add_assoc] at hhalves
  refine ⟨fun x ↦ ?_, fun x ↦ ?_, fun i hi j hj ↦ ?_, ?_⟩
  · refine (hhalves x).1.congr fun i hi ↦ ?_
    rw [compareExchange_low hi, le_min_iff]
  · refine (hhalves x).2.1.congr fun i hi ↦ ?_
    rw [compareExchange_high hi, le_max_iff]
  · rw [compareExchange_low hi, compareExchange_high hj, le_max_iff]
    rcases (hhalves (min (v (q * (d + d) + i)) (v (q * (d + d) + d + i)))).2.2 with hnone | hevery
    · exact absurd ⟨min_le_left _ _, min_le_right _ _⟩ (hnone i hi)
    · exact hevery j hj
  · rw [range'_map_halves, range'_map_halves]
    have hlow : ((List.range' 0 d).map fun i ↦ compareExchange d v (q * (d + d) + i)) =
        (List.range' 0 d).map fun i ↦ min (v (q * (d + d) + i)) (v (q * (d + d) + d + i)) := by
      refine List.map_congr_left fun i hi ↦ compareExchange_low ?_
      rw [List.mem_range'_1] at hi
      omega
    have hhigh : ((List.range' 0 d).map fun i ↦ compareExchange d v (q * (d + d) + d + i)) =
        (List.range' 0 d).map fun i ↦ max (v (q * (d + d) + i)) (v (q * (d + d) + d + i)) := by
      refine List.map_congr_left fun i hi ↦ compareExchange_high ?_
      rw [List.mem_range'_1] at hi
      omega
    rw [hlow, hhigh]
    exact min_max_perm _ _ _

/-- A bitonic merge sorts a bitonic block. -/
theorem bitonicMerge_spec (h : Bitonic (q * 2 ^ k) (2 ^ k) v) :
    ((List.range' (q * 2 ^ k) (2 ^ k)).map (bitonicMerge k v)).Pairwise (· ≤ ·) ∧
      ((List.range' (q * 2 ^ k) (2 ^ k)).map (bitonicMerge k v)).Perm
        ((List.range' (q * 2 ^ k) (2 ^ k)).map v) := by
  induction k generalizing q v with
  | zero =>
    refine ⟨?_, List.Perm.refl _⟩
    rw [pow_zero]
    exact List.pairwise_singleton _ _
  | succ k ih =>
    have hdouble : 2 ^ (k + 1) = 2 ^ k + 2 ^ k := by rw [pow_succ, Nat.mul_two]
    have hlowBase : q * (2 ^ k + 2 ^ k) = 2 * q * 2 ^ k := by ring
    have hhighBase : q * (2 ^ k + 2 ^ k) + 2 ^ k = (2 * q + 1) * 2 ^ k := by ring
    rw [hdouble] at h ⊢
    obtain ⟨hlow, hhigh, hle, hperm⟩ := h.layer
    rw [hlowBase] at hlow
    rw [hhighBase] at hhigh
    obtain ⟨hlowSorted, hlowPerm⟩ := ih hlow
    obtain ⟨hhighSorted, hhighPerm⟩ := ih hhigh
    rw [← hlowBase] at hlowSorted hlowPerm
    rw [← hhighBase] at hhighSorted hhighPerm
    rw [bitonicMerge, ← List.range'_append_1, List.map_append]
    constructor
    · refine List.pairwise_append.2 ⟨hlowSorted, hhighSorted, fun x hx y hy ↦ ?_⟩
      obtain ⟨i, hi, rfl⟩ := List.mem_map.1 (hlowPerm.mem_iff.1 hx)
      obtain ⟨j, hj, rfl⟩ := List.mem_map.1 (hhighPerm.mem_iff.1 hy)
      rw [List.mem_range'_1] at hi hj
      obtain ⟨i, rfl⟩ := Nat.exists_eq_add_of_le hi.1
      obtain ⟨j, rfl⟩ := Nat.exists_eq_add_of_le hj.1
      exact hle i (by omega) j (by omega)
    · refine (hlowPerm.append hhighPerm).trans ?_
      rw [← List.map_append, List.range'_append_1]
      exact hperm

/-- A merge sees the lanes of its block only, wherever the block stands. -/
theorem bitonicMerge_congr (h : ∀ i < 2 ^ k, u (p * 2 ^ k + i) = v (q * 2 ^ k + i))
    (hi : i < 2 ^ k) :
    bitonicMerge k u (p * 2 ^ k + i) = bitonicMerge k v (q * 2 ^ k + i) := by
  induction k generalizing p q u v i with
  | zero => exact h i hi
  | succ k ih =>
    have hdouble : 2 ^ (k + 1) = 2 ^ k + 2 ^ k := by rw [pow_succ, Nat.mul_two]
    have hlowBase : ∀ q, q * (2 ^ k + 2 ^ k) = 2 * q * 2 ^ k := fun q ↦ by ring
    have hhighBase : ∀ q, q * (2 ^ k + 2 ^ k) + 2 ^ k = (2 * q + 1) * 2 ^ k := fun q ↦ by ring
    rw [hdouble] at h hi ⊢
    have hsame : ∀ j < 2 ^ k, u (p * (2 ^ k + 2 ^ k) + 2 ^ k + j) =
        v (q * (2 ^ k + 2 ^ k) + 2 ^ k + j) := fun j hj ↦ by
      rw [Nat.add_assoc, Nat.add_assoc]
      exact h _ (by omega)
    rw [bitonicMerge, bitonicMerge]
    rcases Nat.lt_or_ge i (2 ^ k) with hlow | hhigh
    · rw [hlowBase, hlowBase]
      refine ih (fun j hj ↦ ?_) hlow
      rw [← hlowBase, ← hlowBase, compareExchange_low hj, compareExchange_low hj, h j (by omega),
        hsame j hj]
    · obtain ⟨j, rfl⟩ := Nat.exists_eq_add_of_le hhigh
      rw [← Nat.add_assoc, ← Nat.add_assoc, hhighBase, hhighBase]
      refine ih (fun j hj ↦ ?_) (by omega)
      rw [← hhighBase, ← hhighBase, compareExchange_high hj, compareExchange_high hj,
        h j (by omega), hsame j hj]

/-! ## Merging two blocks -/

/-- The result of merging two blocks: `lo` and `hi` hold their values in ascending order, and each
value of `lo` is below some value of either block. -/
structure MergedBlocks (as bs lo hi : List α) : Prop where
  perm : (lo ++ hi).Perm (as ++ bs)
  ascending : (lo ++ hi).Pairwise (· ≤ ·)
  below_left : ∀ x ∈ lo, ∃ y ∈ as, x ≤ y
  below_right : ∀ x ∈ lo, ∃ y ∈ bs, x ≤ y

/-- Ascending lanes reach a bound from one place on. -/
theorem exists_reaches {a : Nat → α} (hasc : ∀ i j, i ≤ j → j < m → a i ≤ a j) (x : α) : ∃ p ≤ m,
    ∀ i < m, x ≤ a i ↔ p ≤ i := by
  classical
  by_cases hsome : ∃ p < m, x ≤ a p
  · refine ⟨Nat.find hsome, (Nat.find_spec hsome).1.le,
      fun i hi ↦ ⟨fun hx ↦ Nat.find_min' hsome ⟨hi, hx⟩, fun hle ↦ ?_⟩⟩
    exact (Nat.find_spec hsome).2.trans (hasc _ _ hle hi)
  · exact ⟨m, le_rfl, fun i hi ↦
      ⟨fun hx ↦ absurd ⟨i, hi, hx⟩ hsome, fun hle ↦ absurd hi (not_lt.2 hle)⟩⟩

/-- Lanes that ascend and then descend. -/
theorem bitonic_of_ascending {a b : Nat → α} (ha : ∀ i j, i ≤ j → j < m → a i ≤ a j)
    (hb : ∀ i j, i ≤ j → j < m → b i ≤ b j)
    (hv : ∀ i < m, v i = a i) (hv' : ∀ i < m, v (m + i) = b (m - 1 - i)) : Bitonic 0 (m + m) v := by
  intro x
  obtain ⟨p, hp, hfrom⟩ := exists_reaches ha x
  obtain ⟨r, hr, hto⟩ := exists_reaches hb x
  refine ⟨p, m + m - r, .inl fun i hi ↦ ?_⟩
  dsimp only
  rw [Nat.zero_add]
  rcases Nat.lt_or_ge i m with hlow | hhigh
  · rw [hv i hlow, hfrom i hlow]
    omega
  · obtain ⟨j, rfl⟩ := Nat.exists_eq_add_of_le hhigh
    rw [hv' j (by omega), hto _ (by omega)]
    omega

/-- Two ascending blocks, one of them turned round, are merged by the layers of twice their
length. -/
theorem bitonicMerge_blocks {a b : Nat → α} (ha : ∀ i j, i ≤ j → j < 2 ^ k → a i ≤ a j)
    (hb : ∀ i j, i ≤ j → j < 2 ^ k → b i ≤ b j)
    (hv : ∀ i < 2 ^ k, v i = a i) (hv' : ∀ i < 2 ^ k, v (2 ^ k + i) = b (2 ^ k - 1 - i)) :
    MergedBlocks ((List.range' 0 (2 ^ k)).map a) ((List.range' 0 (2 ^ k)).map b)
      ((List.range' 0 (2 ^ k)).map (bitonicMerge (k + 1) v))
      ((List.range' (2 ^ k) (2 ^ k)).map (bitonicMerge (k + 1) v)) := by
  have hbitonic : Bitonic (0 * (2 ^ k + 2 ^ k)) (2 ^ k + 2 ^ k) v := by
    rw [Nat.zero_mul]
    exact bitonic_of_ascending ha hb hv hv'
  have hdouble : 2 ^ (k + 1) = 2 ^ k + 2 ^ k := by rw [pow_succ, Nat.mul_two]
  obtain ⟨hsorted, hperm⟩ := bitonicMerge_spec (q := 0) (k := k + 1) (v := v) (by rwa [hdouble])
  rw [Nat.zero_mul, hdouble] at hsorted hperm
  have hparts : (List.range' 0 (2 ^ k + 2 ^ k)).map (bitonicMerge (k + 1) v) =
      (List.range' 0 (2 ^ k)).map (bitonicMerge (k + 1) v) ++ (List.range' (2 ^ k) (2 ^ k)).map
        (bitonicMerge (k + 1) v) := by
    rw [← List.range'_append_1, List.map_append, Nat.zero_add]
  have hinput : (List.range' 0 (2 ^ k + 2 ^ k)).map v =
      (List.range' 0 (2 ^ k)).map a ++ (List.range' 0 (2 ^ k)).map fun i ↦ b (2 ^ k - 1 - i) := by
    rw [range'_map_halves]
    congr 1
    · refine List.map_congr_left fun i hi ↦ ?_
      rw [List.mem_range'_1] at hi
      rw [Nat.zero_add, hv i (by omega)]
    · refine List.map_congr_left fun i hi ↦ ?_
      rw [List.mem_range'_1] at hi
      rw [Nat.zero_add, hv' i (by omega)]
  -- the lower lanes hold the minima of the first layer
  have hlow : ∀ x ∈ (List.range' 0 (2 ^ k)).map (bitonicMerge (k + 1) v), ∃ i < 2 ^ k,
      x = min (a i) (b (2 ^ k - 1 - i)) := by
    intro x hx
    have hfirst := hbitonic.layer.1
    rw [show 0 * (2 ^ k + 2 ^ k) = 0 * 2 ^ k by rw [Nat.zero_mul, Nat.zero_mul]] at hfirst
    obtain ⟨-, hminima⟩ := bitonicMerge_spec hfirst
    rw [Nat.zero_mul] at hminima
    obtain ⟨i, hi, rfl⟩ := List.mem_map.1 (hminima.mem_iff.1 hx)
    rw [List.mem_range'_1] at hi
    have hlt : i < 2 ^ k := by omega
    have hmin := compareExchange_low (q := 0) (v := v) hlt
    rw [Nat.zero_mul, Nat.zero_add, Nat.zero_add, hv i hlt, hv' i hlt] at hmin
    exact ⟨i, hlt, hmin⟩
  rw [hparts] at hsorted hperm
  rw [hinput] at hperm
  refine ⟨hperm.trans ((List.Perm.refl _).append (turned_perm _ b)), hsorted, fun x hx ↦ ?_,
    fun x hx ↦ ?_⟩
  · obtain ⟨i, hi, rfl⟩ := hlow x hx
    exact ⟨a i, List.mem_map_of_mem (List.mem_range'_1.2 (by omega)), min_le_left _ _⟩
  · obtain ⟨i, hi, rfl⟩ := hlow x hx
    exact ⟨_, List.mem_map_of_mem (List.mem_range'_1.2 (by omega)), min_le_right _ _⟩

end Layers

end Lib
