import Mathlib

/-!
# Stable passes of a radix sort

A pass puts the elements of a list into buckets by a digit and lists the buckets in
order; inside a bucket the elements keep their order.  The pass is carried out by
scattering: each bucket has a cursor into the output, which begins at the number of
elements in the buckets before it.
-/

namespace Lib

variable {α : Type} {f : α → Nat} {n : Nat} {l done rest : List α}

/-! ## Buckets -/

/-- The elements with digit `c`, in their order. -/
def bucketOf (f : α → Nat) (l : List α) (c : Nat) : List α := l.filter fun a ↦ f a = c

/-- The elements with digits below `n`, by digit. -/
def bucketed (f : α → Nat) (n : Nat) (l : List α) : List α := (List.range n).flatMap (bucketOf f l)

theorem bucketed_succ (f : α → Nat) (n : Nat) (l : List α) :
    bucketed f (n + 1) l = bucketed f n l ++ bucketOf f l n := by
  rw [bucketed, List.range_succ, List.flatMap_append, List.flatMap_singleton]
  rfl

theorem mem_bucketOf {a : α} {c : Nat} : a ∈ bucketOf f l c ↔ a ∈ l ∧ f a = c := by
  rw [bucketOf, List.mem_filter, decide_eq_true_iff]

theorem bucketOf_append (f : α → Nat) (l r : List α) (c : Nat) :
    bucketOf f (l ++ r) c = bucketOf f l c ++ bucketOf f r c :=
  List.filter_append _ _

theorem bucketOf_singleton (f : α → Nat) (a : α) (c : Nat) : bucketOf f [a] c = if f a = c then [a]
    else [] := by
  rw [bucketOf, List.filter_singleton]
  by_cases hc : f a = c <;> simp [hc]

theorem length_bucketOf_perm {l' : List α} (h : l.Perm l') (c : Nat) :
    (bucketOf f l c).length = (bucketOf f l' c).length :=
  (h.filter _).length_eq

theorem bucketed_perm_filter (f : α → Nat) (n : Nat) (l : List α) :
    (bucketed f n l).Perm (l.filter fun a ↦ f a < n) := by
  induction n with
  | zero =>
    rw [List.filter_eq_nil_iff.2 fun a _ ↦ by simp]
    exact List.Perm.refl []
  | succ n ih =>
    have hsplit := List.filter_append_perm (fun a ↦ decide (f a < n)) (l.filter fun a ↦ f a < n + 1)
    have hlow : (l.filter fun a ↦ f a < n + 1).filter (fun a ↦ decide (f a < n)) = l.filter fun a ↦
        f a < n := by
      rw [List.filter_filter]
      refine List.filter_congr fun a _ ↦ ?_
      rw [← Bool.decide_and]
      exact decide_eq_decide.2 (by omega)
    have hhigh : (l.filter fun a ↦ f a < n + 1).filter (fun a ↦ !decide (f a < n)) =
        bucketOf f l n := by
      rw [List.filter_filter, bucketOf]
      refine List.filter_congr fun a _ ↦ ?_
      rw [← decide_not, ← Bool.decide_and]
      exact decide_eq_decide.2 (by omega)
    rw [hlow, hhigh] at hsplit
    rw [bucketed_succ]
    exact (ih.append_right _).trans hsplit

/-- A pass rearranges the list. -/
theorem bucketed_perm (h : ∀ a ∈ l, f a < n) : (bucketed f n l).Perm l := by
  have hperm := bucketed_perm_filter f n l
  rwa [List.filter_eq_self.2 fun a ha ↦ decide_eq_true (h a ha)] at hperm

/-- What holds in order inside a bucket and between buckets holds in order behind the pass. -/
theorem bucketed_pairwise {R S : α → α → Prop} (hl : l.Pairwise R)
    (hsame : ∀ a ∈ l, ∀ b ∈ l, f a = f b → R a b → S a b)
    (hless : ∀ a ∈ l, ∀ b ∈ l, f a < f b → S a b) : (bucketed f n l).Pairwise S := by
  induction n with
  | zero => exact .nil
  | succ n ih =>
    rw [bucketed_succ]
    refine List.pairwise_append.2 ⟨ih, ?_, fun a ha b hb ↦ ?_⟩
    · refine (hl.filter _).imp_of_mem fun {a b} ha hb hab ↦ ?_
      obtain ⟨hal, haf⟩ := mem_bucketOf.1 ha
      obtain ⟨hbl, hbf⟩ := mem_bucketOf.1 hb
      exact hsame a hal b hbl (haf.trans hbf.symm) hab
    · obtain ⟨hal, haf⟩ := List.mem_filter.1 ((bucketed_perm_filter f n l).mem_iff.1 ha)
      obtain ⟨hbl, hbf⟩ := mem_bucketOf.1 hb
      exact hless a hal b hbl ((of_decide_eq_true haf).trans_eq hbf.symm)

/-! ## Scattering -/

/-- Where the bucket of digit `c` begins. -/
def bucketStart (f : α → Nat) (l : List α) (c : Nat) : Nat := (bucketed f c l).length

theorem bucketStart_succ (f : α → Nat) (l : List α) (c : Nat) :
    bucketStart f l (c + 1) = bucketStart f l c + (bucketOf f l c).length := by
  rw [bucketStart, bucketed_succ, List.length_append, bucketStart]

theorem bucketStart_mono (f : α → Nat) (l : List α) {c d : Nat} (h : c ≤ d) :
    bucketStart f l c ≤ bucketStart f l d := by
  induction d, h using Nat.le_induction with
  | base => exact le_rfl
  | succ d _ ih => exact ih.trans (by rw [bucketStart_succ]; exact Nat.le_add_right _ _)

theorem bucketStart_le (f : α → Nat) (l : List α) (c : Nat) : bucketStart f l c ≤ l.length := by
  rw [bucketStart, (bucketed_perm_filter f c l).length_eq]
  exact List.length_filter_le _ _

/-- One element goes to the cursor of its bucket. -/
def scatterOne (f : α → Nat) (state : List Nat × List α) (a : α) : List Nat × List α :=
  let (bucket, out) := state
  (bucket.set (f a) (bucket.getD (f a) 0 + 1), out.set (bucket.getD (f a) 0) a)

/-- The elements `done` of the list are scattered. -/
structure Scattered (f : α → Nat) (n : Nat) (l done : List α) (state : List Nat × List α) :
    Prop where
  buckets : state.1.length = n
  cursor : ∀ c, c < n → state.1.getD c 0 = bucketStart f l c + (bucketOf f done c).length
  length : state.2.length = l.length
  placed : ∀ c, c < n → ∀ j, j < (bucketOf f done c).length →
    state.2[bucketStart f l c + j]? = (bucketOf f done c)[j]?

/-- A bucket never grows past the beginning of the next one. -/
theorem Scattered.grown {a : α} (hl : l = done ++ a :: rest) (c : Nat) :
    (bucketOf f done c).length + (if c = f a then 1 else 0) ≤ (bucketOf f l c).length := by
  rw [hl, bucketOf, bucketOf, List.filter_append, List.length_append, List.filter_cons]
  by_cases hc : f a = c
  · simp [hc]
  · simp [hc, Ne.symm hc]

/-- The next element has its place in the output. -/
theorem Scattered.cursor_lt {state : List Nat × List α} {a : α} (hl : l = done ++ a :: rest)
    (ha : f a < n) (h : Scattered f n l done state) : state.1.getD (f a) 0 < l.length := by
  have hnext := bucketStart_le f l (f a + 1)
  have hroom := Scattered.grown (f := f) hl (f a)
  rw [bucketStart_succ] at hnext
  rw [if_pos rfl] at hroom
  rw [h.cursor _ ha]
  omega

theorem Scattered.step {state : List Nat × List α} {a : α} (hl : l = done ++ a :: rest)
    (ha : f a < n)
    (h : Scattered f n l done state) : Scattered f n l (done ++ [a]) (scatterOne f state a) := by
  have hplace := h.cursor_lt hl ha
  have hgrown := Scattered.grown (f := f) hl
  rw [h.cursor _ ha] at hplace
  obtain ⟨bucket, out⟩ := state
  obtain ⟨hbuckets, hcursor, hlength, hplaced⟩ := h
  dsimp only at hbuckets hcursor hlength hplaced
  have hsame : bucketOf f (done ++ [a]) (f a) = bucketOf f done (f a) ++ [a] := by simp [bucketOf]
  have hother : ∀ c, c ≠ f a → bucketOf f (done ++ [a]) c = bucketOf f done c := by
    intro c hc
    simp [bucketOf, hc.symm]
  refine ⟨?_, fun c hc ↦ ?_, ?_, fun c hc j hj ↦ ?_⟩
  · rw [scatterOne, List.length_set]
    exact hbuckets
  · rw [scatterOne, List.getD_eq_getElem?_getD, List.getElem?_set]
    by_cases hcase : f a = c
    · rw [if_pos hcase, if_pos (by rw [hbuckets]; exact ha), ← hcase, hsame, List.length_append,
        hcursor _ ha]
      rfl
    · rw [if_neg hcase, ← List.getD_eq_getElem?_getD, hcursor c hc, hother c (Ne.symm hcase)]
  · rw [scatterOne, List.length_set]
    exact hlength
  · rw [scatterOne, hcursor _ ha, List.getElem?_set]
    by_cases hcase : c = f a
    · subst hcase
      rw [hsame, List.length_append, List.length_singleton] at hj
      rw [hsame]
      rcases Nat.eq_or_lt_of_le (Nat.le_of_lt_succ hj) with rfl | hlt
      · rw [if_pos rfl, if_pos (by rw [hlength]; exact hplace), List.getElem?_concat_length]
      · rw [if_neg (by omega), hplaced _ hc j hlt, List.getElem?_append_left hlt]
    · rw [hother c hcase] at hj
      have hroom := hgrown c
      have hroom' := hgrown (f a)
      have hapart : bucketStart f l (f a) + (bucketOf f done (f a)).length ≠ bucketStart f l
          c + j := by
        rcases Nat.lt_or_gt_of_ne hcase with hlt | hgt
        · have hmono := bucketStart_mono f l (Nat.succ_le_of_lt hlt)
          rw [bucketStart_succ] at hmono
          omega
        · have hmono := bucketStart_mono f l (Nat.succ_le_of_lt hgt)
          rw [bucketStart_succ] at hmono
          rw [if_pos rfl] at hroom'
          omega
      rw [if_neg hapart, hplaced c hc j hj, hother c hcase]

/-- When all are scattered, the output lists the buckets. -/
theorem Scattered.output {state : List Nat × List α} (h : Scattered f n l l state)
    (hl : ∀ a ∈ l, f a < n) :
    state.2 = bucketed f n l := by
  have hprefix : ∀ c, c ≤ n → state.2.take (bucketStart f l c) = bucketed f c l := by
    intro c hc
    induction c with
    | zero => rfl
    | succ c ih =>
      have hslice : (state.2.drop (bucketStart f l c)).take (bucketOf f l c).length =
          bucketOf f l c := by
        refine List.ext_getElem? fun j ↦ ?_
        rw [List.getElem?_take]
        split
        · rename_i hj
          rw [List.getElem?_drop, h.placed c hc j hj]
        · rename_i hj
          rw [List.getElem?_eq_none (not_lt.1 hj)]
      rw [bucketStart_succ, List.take_add, ih (Nat.le_of_succ_le hc), hslice, bucketed_succ]
  have hall : bucketStart f l n = state.2.length := by
    rw [bucketStart, (bucketed_perm hl).length_eq, h.length]
  rw [← hprefix n le_rfl, hall, List.take_length]

/-- Scattering from the beginnings of the buckets lists the buckets; a step need only be right where
it is taken. -/
theorem scatter_eq {step : List Nat × List α → α → List Nat × List α} {bucket : List Nat}
    {out : List α} (hl : ∀ a ∈ l, f a < n)
    (hstep : ∀ state, ∀ a ∈ l, state.1.getD (f a) 0 < l.length →
      step state a = scatterOne f state a)
    (hbuckets : bucket.length = n) (hcursor : ∀ c, c < n → bucket.getD c 0 = bucketStart f l c)
    (hlength : out.length = l.length) : (l.foldl step (bucket, out)).2 = bucketed f n l := by
  have hrun : ∀ {rest done state}, l = done ++ rest → Scattered f n l done state →
      Scattered f n l (done ++ rest) (rest.foldl step state) := by
    intro rest
    induction rest with
    | nil =>
      intro done state _ h
      rwa [List.append_nil]
    | cons a rest ih =>
      intro done state hsplit h
      have hmem : a ∈ l := by
        rw [hsplit]
        simp
      have hassoc : done ++ a :: rest = (done ++ [a]) ++ rest := by simp
      rw [hassoc, List.foldl_cons, hstep state a hmem (h.cursor_lt hsplit (hl a hmem))]
      exact ih (hsplit.trans hassoc) (h.step hsplit (hl a hmem))
  have hstart : Scattered f n l [] (bucket, out) :=
    ⟨hbuckets, fun c hc ↦ hcursor c hc, hlength, fun c _ j hj ↦ absurd hj (Nat.not_lt_zero j)⟩
  have hend := hrun (List.nil_append l).symm hstart
  exact Scattered.output hend hl

end Lib
