import Mathlib

/-!
# Finite maps held as ascending lists

A list of entries in ascending key order stands for the map that has exactly
these entries.  Adding and removing an entry at its place updates the map at its
key, and a cut of the list at a probe finds the least entry from the probe on.
-/

namespace Lib

variable {K V : Type} [LinearOrder K]

/-- A list of entries holds a map, in ascending key order. -/
structure Represents (es : List (K × V)) (m : K → Option V) : Prop where
  sorted : es.Pairwise fun a b ↦ a.1 < b.1
  holds : ∀ k v, (k, v) ∈ es ↔ m k = some v

/-- The entry of the least key of a map that is not below a probe. -/
def LeastFrom (m : K → Option V) (probe : K) : Option (K × V) → Prop
  | none => ∀ k, m k ≠ none → k < probe
  | some e => m e.1 = some e.2 ∧ probe ≤ e.1 ∧ ∀ k, m k ≠ none → probe ≤ k → e.1 ≤ k

namespace Represents

variable {es before behind : List (K × V)} {m : K → Option V} {e : K × V} {key : K} {v : V}

theorem nil : Represents ([] : List (K × V)) fun _ ↦ none where
  sorted := List.Pairwise.nil
  holds k v := by simp

theorem mem_iff (h : Represents es m) {k : K} : m k ≠ none ↔ ∃ e ∈ es, e.1 = k := by
  rw [Option.ne_none_iff_exists']
  constructor
  · rintro ⟨v, hv⟩
    exact ⟨(k, v), (h.holds k v).mpr hv, rfl⟩
  · rintro ⟨⟨k, v⟩, he, rfl⟩
    exact ⟨v, (h.holds k v).mp he⟩

theorem forall_key (h : Represents es m) {p : K → Prop} :
    (∀ k, m k ≠ none → p k) ↔ ∀ e ∈ es, p e.1 := by
  constructor
  · intro hall e he
    exact hall e.1 (h.mem_iff.mpr ⟨e, he, rfl⟩)
  · intro hall k hk
    obtain ⟨e, he, rfl⟩ := h.mem_iff.mp hk
    exact hall e he

theorem eq_none_iff (h : Represents es m) : m key = none ↔ ∀ e ∈ es, e.1 ≠ key := by
  rw [← not_iff_not, ← ne_eq, h.mem_iff]
  simp

/-- An entry between those below its key and those above it. -/
theorem insert (h : Represents (before ++ behind) m) (hbefore : ∀ e ∈ before, e.1 < key)
    (hbehind : ∀ e ∈ behind, key < e.1) (v : V) :
    Represents (before ++ (key, v) :: behind) (Function.update m key (some v)) := by
  have hsorted := h.sorted
  rw [List.pairwise_append] at hsorted
  constructor
  · rw [List.pairwise_append, List.pairwise_cons]
    refine ⟨hsorted.1, ⟨hbehind, hsorted.2.1⟩, fun a ha ↦ ?_⟩
    exact List.forall_mem_cons.mpr ⟨hbefore a ha, hsorted.2.2 a ha⟩
  · intro k w
    have hmem : (k, w) ∈ before ++ (key, v) :: behind ↔ (k, w) = (key, v) ∨
        (k, w) ∈ before ++ behind := by
      rw [List.mem_append, List.mem_cons, List.mem_append]
      exact or_left_comm
    rw [hmem]
    by_cases hk : k = key
    · subst hk
      rw [Function.update_self, Option.some.injEq]
      constructor
      · rintro (heq | hin)
        · exact (congrArg Prod.snd heq).symm
        · rcases List.mem_append.mp hin with hin | hin
          · exact absurd (hbefore _ hin) (lt_irrefl _)
          · exact absurd (hbehind _ hin) (lt_irrefl _)
      · intro hw
        rw [hw]
        exact Or.inl rfl
    · rw [Function.update_of_ne hk, ← h.holds]
      constructor
      · rintro (heq | hin)
        · exact absurd (congrArg Prod.fst heq) hk
        · exact hin
      · exact Or.inr

theorem erase (h : Represents (before ++ e :: behind) m) :
    Represents (before ++ behind) (Function.update m e.1 none) := by
  have hsorted := h.sorted
  have hsub : (before ++ behind).Sublist (before ++ e :: behind) :=
    (List.Sublist.refl before).append (List.sublist_cons_self e behind)
  rw [List.pairwise_append, List.pairwise_cons] at hsorted
  refine ⟨h.sorted.sublist hsub, fun k w ↦ ?_⟩
  by_cases hk : k = e.1
  · subst hk
    rw [Function.update_self]
    constructor
    · intro hin
      rcases List.mem_append.mp hin with hin | hin
      · exact absurd (hsorted.2.2 _ hin e List.mem_cons_self) (lt_irrefl _)
      · exact absurd (hsorted.2.1.1 _ hin) (lt_irrefl _)
    · exact fun hnone ↦ absurd hnone.symm (Option.some_ne_none w)
  · rw [Function.update_of_ne hk, ← h.holds]
    constructor
    · exact fun hin ↦ hsub.subset hin
    · intro hin
      rw [List.mem_append, List.mem_cons] at hin
      rw [List.mem_append]
      rcases hin with hin | heq | hin
      · exact Or.inl hin
      · exact absurd (congrArg Prod.fst heq) hk
      · exact Or.inr hin

/-- A cut at a probe: the least entry from the probe on heads what is behind it. -/
theorem leastFrom (h : Represents (before ++ behind) m) {probe : K}
    (hbefore : ∀ e ∈ before, e.1 < probe) (hbehind : ∀ e ∈ behind, probe ≤ e.1) :
    LeastFrom m probe behind.head? := by
  cases behind with
  | nil =>
    rw [List.append_nil] at h
    exact h.forall_key.mpr hbefore
  | cons e behind =>
    refine ⟨(h.holds _ _).mp (List.mem_append_right before List.mem_cons_self),
      hbehind e List.mem_cons_self, fun k hk hle ↦ ?_⟩
    obtain ⟨a, ha, rfl⟩ := h.mem_iff.mp hk
    have hsorted := h.sorted
    rw [List.pairwise_append, List.pairwise_cons] at hsorted
    rcases List.mem_append.mp ha with ha | ha
    · exact absurd hle (not_le_of_gt (hbefore a ha))
    · rcases List.mem_cons.mp ha with rfl | ha
      · exact le_rfl
      · exact (hsorted.2.1.1 a ha).le

end Represents

end Lib
