import Mathlib

/-!
# Merging two ascending lists

The two-pointer merge that a kernel is compared with: of two strictly ascending lists it
keeps the values that are in the first one only, in the second one only, or in both, as a
rule says.  Blocks of values that lie below the other list, and equal blocks, are merged
at once.

The loops of such kernels run on a state that may fail; `loop_spec` is their rule, with
an invariant and a measure.
-/

namespace Lib

/-! ## Loops -/

section Loops

variable {σ : Type}

/-- `while (again s) s = body s`, with at most `fuel` turns. -/
def loop (again : σ → Bool) (body : σ → Option σ) : (fuel : Nat) → σ → Option σ
  | 0, _ => none
  | fuel + 1, s => if again s then (body s).bind (loop again body fuel) else some s

/-- A body that keeps an invariant and makes a measure smaller ends the loop in a state of the
invariant. -/
theorem loop_spec (again : σ → Bool) (body : σ → Option σ) (Inv : σ → Prop) (μ : σ → Nat)
    (hbody : ∀ s, Inv s → again s = true → ∃ s', body s = some s' ∧ Inv s' ∧
      μ s' < μ s) (fuel : Nat) {s : σ} (hs : Inv s)
    (hfuel : μ s < fuel) : ∃ s', loop again body fuel s = some s' ∧ Inv s' ∧ again s' = false := by
  induction fuel generalizing s with
  | zero => exact absurd hfuel (Nat.not_lt_zero _)
  | succ fuel ih =>
    rw [loop]
    cases hagain : again s with
    | true =>
      obtain ⟨mid, hmid, hinv, hless⟩ := hbody s hs hagain
      obtain ⟨s', hrun, hs'⟩ := ih hinv (by omega)
      exact ⟨s', by rw [if_pos rfl, hmid, Option.bind_some, hrun], hs'⟩
    | false => exact ⟨s, if_neg Bool.false_ne_true, hs, hagain⟩

end Loops

/-! ## The plain merge -/

/-- Which values a merge keeps. -/
structure MergeRule where
  onlyLeft : Bool
  onlyRight : Bool
  both : Bool

/-- The values of a block, if they are kept. -/
def kept (keeps : Bool) (values : List Nat) : List Nat := if keeps then values else []

@[simp] theorem mem_kept {keeps : Bool} {values : List Nat} {v : Nat} : v ∈ kept keeps values ↔
    keeps = true ∧ v ∈ values := by
  rw [kept]
  split_ifs with hkeeps <;> simp [hkeeps]

@[simp] theorem kept_nil (keeps : Bool) : kept keeps [] = [] := by
  rw [kept, ite_self]

theorem kept_append (keeps : Bool) (xs ys : List Nat) :
    kept keeps (xs ++ ys) = kept keeps xs ++ kept keeps ys := by
  simp only [kept]
  split_ifs <;> rfl

/-- The two-pointer merge. -/
def plainMerge (rule : MergeRule) : List Nat → List Nat → List Nat
  | [], bs => kept rule.onlyRight bs
  | as, [] => kept rule.onlyLeft as
  | x :: as, y :: bs =>
    if x < y then kept rule.onlyLeft [x] ++ plainMerge rule as (y :: bs)
    else if y < x then kept rule.onlyRight [y] ++ plainMerge rule (x :: as) bs
    else kept rule.both [x] ++ plainMerge rule as bs
termination_by as bs => as.length + bs.length

/-- Whether a rule keeps a value of the first list, or of the second one. -/
def MergeRule.Keeps (rule : MergeRule) (left right : Prop) : Prop :=
  (left ∧ ¬ right ∧ rule.onlyLeft = true) ∨ (¬ left ∧ right ∧ rule.onlyRight = true) ∨
    (left ∧ right ∧ rule.both = true)

section PlainMerge

variable {rule : MergeRule} {as bs xs zs : List Nat} {x y v : Nat}

theorem plainMerge_nil_left (rule : MergeRule) (bs : List Nat) :
    plainMerge rule [] bs = kept rule.onlyRight bs := by
  rw [plainMerge]

theorem plainMerge_nil_right (rule : MergeRule) (as : List Nat) :
    plainMerge rule as [] = kept rule.onlyLeft as := by
  cases as with
  | nil => rw [plainMerge, kept_nil, kept_nil]
  | cons x as => rw [plainMerge]; exact List.cons_ne_nil x as

/-- The first value, below those of the other list. -/
theorem plainMerge_left (h : ∀ y ∈ bs, x < y) :
    plainMerge rule (x :: as) bs = kept rule.onlyLeft [x] ++ plainMerge rule as bs := by
  cases bs with
  | nil => rw [plainMerge_nil_right, plainMerge_nil_right, ← kept_append, List.singleton_append]
  | cons y bs => rw [plainMerge, if_pos (h y List.mem_cons_self)]

theorem plainMerge_right (h : ∀ x ∈ as, y < x) : plainMerge rule as (y :: bs) = kept rule.onlyRight
    [y] ++ plainMerge rule as bs := by
  cases as with
  | nil => rw [plainMerge_nil_left, plainMerge_nil_left, ← kept_append, List.singleton_append]
  | cons x as =>
    have hlt := h x List.mem_cons_self
    rw [plainMerge, if_neg (Nat.lt_asymm hlt), if_pos hlt]

theorem plainMerge_both (x : Nat) (as bs : List Nat) :
    plainMerge rule (x :: as) (x :: bs) = kept rule.both [x] ++ plainMerge rule as bs := by
  rw [plainMerge, if_neg (lt_irrefl x), if_neg (lt_irrefl x)]

/-- A block below the other list. -/
theorem plainMerge_block_left (h : ∀ x ∈ xs, ∀ y ∈ bs, x < y) :
    plainMerge rule (xs ++ as) bs = kept rule.onlyLeft xs ++ plainMerge rule as bs := by
  induction xs with
  | nil => rw [List.nil_append, kept_nil, List.nil_append]
  | cons x xs ih =>
    rw [List.cons_append, plainMerge_left (h x List.mem_cons_self),
      ih fun z hz ↦ h z (List.mem_cons_of_mem _ hz),
      ← List.append_assoc, ← kept_append, List.singleton_append]

theorem plainMerge_block_right (h : ∀ y ∈ xs, ∀ x ∈ as, y < x) :
    plainMerge rule as (xs ++ bs) = kept rule.onlyRight xs ++ plainMerge rule as bs := by
  induction xs with
  | nil => rw [List.nil_append, kept_nil, List.nil_append]
  | cons y xs ih =>
    rw [List.cons_append, plainMerge_right (h y List.mem_cons_self),
      ih fun z hz ↦ h z (List.mem_cons_of_mem _ hz),
      ← List.append_assoc, ← kept_append, List.singleton_append]

/-- Equal blocks. -/
theorem plainMerge_block_both (zs as bs : List Nat) :
    plainMerge rule (zs ++ as) (zs ++ bs) = kept rule.both zs ++ plainMerge rule as bs := by
  induction zs with
  | nil => rw [List.nil_append, List.nil_append, kept_nil, List.nil_append]
  | cons z zs ih =>
    rw [List.cons_append, List.cons_append, plainMerge_both, ih, ← List.append_assoc, ← kept_append,
      List.singleton_append]

theorem not_mem_of_lt_head (hb : (y :: bs).Pairwise (· < ·)) (hlt : x < y) : x ∉ y :: bs := by
  intro hmem
  rcases List.mem_cons.1 hmem with rfl | hmem
  · exact lt_irrefl _ hlt
  · exact Nat.lt_asymm hlt (List.rel_of_pairwise_cons hb hmem)

theorem mem_plainMerge (ha : as.Pairwise (· < ·)) (hb : bs.Pairwise (· < ·)) :
    v ∈ plainMerge rule as bs ↔ rule.Keeps (v ∈ as) (v ∈ bs) := by
  induction as, bs using plainMerge.induct with
  | case1 bs =>
    rw [plainMerge_nil_left, mem_kept, MergeRule.Keeps]
    simp [and_comm]
  | case2 as hne =>
    rw [plainMerge_nil_right, mem_kept, MergeRule.Keeps]
    simp [and_comm]
  | case3 x as y bs hlt ih =>
    have hnot := not_mem_of_lt_head hb hlt
    have hnew : x ∉ as := fun hmem ↦ lt_irrefl _ (List.rel_of_pairwise_cons ha hmem)
    rw [plainMerge, if_pos hlt, List.mem_append, mem_kept, List.mem_singleton, ih ha.of_cons hb,
      MergeRule.Keeps, MergeRule.Keeps,
      List.mem_cons (b := x)]
    by_cases hv : v = x
    · subst hv
      simp [hnot, hnew]
    · simp only [hv, and_false, false_or]
  | case4 x as y bs hle hlt ih =>
    have hnot := not_mem_of_lt_head ha hlt
    have hnew : y ∉ bs := fun hmem ↦ lt_irrefl _ (List.rel_of_pairwise_cons hb hmem)
    rw [plainMerge, if_neg hle, if_pos hlt, List.mem_append, mem_kept, List.mem_singleton,
      ih ha hb.of_cons, MergeRule.Keeps,
      MergeRule.Keeps, List.mem_cons (b := y)]
    by_cases hv : v = y
    · subst hv
      simp [hnot, hnew]
    · simp only [hv, and_false, false_or]
  | case5 x as y bs hle hge ih =>
    obtain rfl : x = y := by omega
    have hnew : x ∉ as := fun hmem ↦ lt_irrefl _ (List.rel_of_pairwise_cons ha hmem)
    have hnew' : x ∉ bs := fun hmem ↦ lt_irrefl _ (List.rel_of_pairwise_cons hb hmem)
    rw [plainMerge_both, List.mem_append, mem_kept, List.mem_singleton, ih ha.of_cons hb.of_cons,
      MergeRule.Keeps, MergeRule.Keeps,
      List.mem_cons, List.mem_cons]
    by_cases hv : v = x
    · subst hv
      simp [hnew, hnew']
    · simp only [hv, and_false, false_or]

theorem MergeRule.Keeps.mem {left right : Prop} (h : rule.Keeps left right) : left ∨ right := by
  rcases h with h | h | h
  · exact .inl h.1
  · exact .inr h.2.1
  · exact .inl h.1

theorem kept_singleton_append_ascending {keeps : Bool} (h : zs.Pairwise (· < ·))
    (hlt : ∀ z ∈ zs, v < z) :
    (kept keeps [v] ++ zs).Pairwise (· < ·) := by
  rw [kept]
  split_ifs
  · exact List.pairwise_cons.2 ⟨hlt, h⟩
  · exact h

/-- Merging ascending lists gives an ascending list. -/
theorem plainMerge_ascending (ha : as.Pairwise (· < ·)) (hb : bs.Pairwise (· < ·)) :
    (plainMerge rule as bs).Pairwise (· < ·) := by
  induction as, bs using plainMerge.induct with
  | case1 bs =>
    rw [plainMerge_nil_left, kept]
    split_ifs
    · exact hb
    · exact List.Pairwise.nil
  | case2 as hne =>
    rw [plainMerge_nil_right, kept]
    split_ifs
    · exact ha
    · exact List.Pairwise.nil
  | case3 x as y bs hlt ih =>
    rw [plainMerge, if_pos hlt]
    refine kept_singleton_append_ascending (ih ha.of_cons hb) fun z hz ↦ ?_
    rcases ((mem_plainMerge ha.of_cons hb).1 hz).mem with hz | hz
    · exact List.rel_of_pairwise_cons ha hz
    · rcases List.mem_cons.1 hz with rfl | hz
      · exact hlt
      · exact hlt.trans (List.rel_of_pairwise_cons hb hz)
  | case4 x as y bs hle hlt ih =>
    rw [plainMerge, if_neg hle, if_pos hlt]
    refine kept_singleton_append_ascending (ih ha hb.of_cons) fun z hz ↦ ?_
    rcases ((mem_plainMerge ha hb.of_cons).1 hz).mem with hz | hz
    · rcases List.mem_cons.1 hz with rfl | hz
      · exact hlt
      · exact hlt.trans (List.rel_of_pairwise_cons ha hz)
    · exact List.rel_of_pairwise_cons hb hz
  | case5 x as y bs hle hge ih =>
    obtain rfl : x = y := by omega
    rw [plainMerge_both]
    refine kept_singleton_append_ascending (ih ha.of_cons hb.of_cons) fun z hz ↦ ?_
    rcases ((mem_plainMerge ha.of_cons hb.of_cons).1 hz).mem with hz | hz
    · exact List.rel_of_pairwise_cons ha hz
    · exact List.rel_of_pairwise_cons hb hz

theorem length_plainMerge_le (rule : MergeRule) (as bs : List Nat) :
    (plainMerge rule as bs).length ≤ as.length + bs.length := by
  have hkept : ∀ (keeps : Bool) (xs : List Nat), (kept keeps xs).length ≤ xs.length := by
    intro keeps xs
    rw [kept]
    split_ifs
    · exact le_rfl
    · exact Nat.zero_le _
  induction as, bs using plainMerge.induct with
  | case1 bs =>
    rw [plainMerge_nil_left]
    exact (hkept _ _).trans (Nat.le_add_left _ _)
  | case2 as hne =>
    rw [plainMerge_nil_right]
    exact (hkept _ _).trans (Nat.le_add_right _ _)
  | case3 x as y bs hlt ih =>
    have hone := hkept rule.onlyLeft [x]
    rw [plainMerge, if_pos hlt, List.length_append]
    simp only [List.length_cons, List.length_nil] at hone ih ⊢
    omega
  | case4 x as y bs hle hlt ih =>
    have hone := hkept rule.onlyRight [y]
    rw [plainMerge, if_neg hle, if_pos hlt, List.length_append]
    simp only [List.length_cons, List.length_nil] at hone ih ⊢
    omega
  | case5 x as y bs hle hge ih =>
    have hone := hkept rule.both [x]
    rw [plainMerge, if_neg hle, if_neg hge, List.length_append]
    simp only [List.length_cons, List.length_nil] at hone ih ⊢
    omega

end PlainMerge

end Lib
