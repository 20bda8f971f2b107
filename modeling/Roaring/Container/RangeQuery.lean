import Mathlib
import Roaring.Lib.Search
import Roaring.Lib.WordRanges
import Roaring.Container.Handle

/-!
# Queries of a range of a container

Whether a container has a value in a closed range, how many it has there and whether it
has all of them: by two searches in an array, by a search and a walk over the runs, and
by masked words in a bitset.
-/

namespace Roaring

open Lib

/-! ## The queries -/

namespace ContainerHandle

/-- `std::lower_bound` among values. -/
def valuesFrom (values : List Nat) (first : Nat) : List Nat := values.dropWhile fun v ↦ v < first

/-- `std::lower_bound` among runs, by their ends. -/
def runsReaching (runs : List Run) (first : Nat) : List Run := runs.dropWhile fun r ↦ r.last < first

def anyInRange (h : ContainerHandle) (first last : Nat) : Bool :=
  match h.payload with
  | .array values => (valuesFrom values first).head?.any (· ≤ last)
  | .run runs => (runsReaching runs first).head?.any (·.first ≤ last)
  | .bitset words => words.anyRange first last

/-- The loop over the runs that begin in the range. -/
def countRuns (first last : Nat) : List Run → Nat
  | [] => 0
  | r :: rs =>
      if r.first ≤ last then
        Nat.min r.last last - Nat.max r.first first + 1 + countRuns first last rs
      else 0

def countInRange (h : ContainerHandle) (first last : Nat) : Nat :=
  match h.payload with
  | .array values =>
    -- a bound at the end of the low domain needs no search
    let start := if first = 0 then 0 else (values.takeWhile fun v ↦ v < first).length
    let stop := if last = lowDomainSize - 1 then values.length
      else (values.takeWhile fun v ↦ v ≤ last).length
    stop - start
  | .run runs => countRuns first last (runsReaching runs first)
  | .bitset words => words.countRange first last

def coversRange (h : ContainerHandle) (first last : Nat) : Bool :=
  let length := last - first + 1
  if h.cardinality < length then false
  else match h.payload with
    | .array values =>
      let start := (values.takeWhile fun v ↦ v < first).length
      decide (start + length ≤ values.length) && decide (values[start]? = some first) &&
        decide (values[start + length - 1]? = some last)
    | .run runs => (runsReaching runs first).head?.any fun r ↦ r.first ≤ first && last ≤ r.last
    | .bitset words => words.allRange first last

end ContainerHandle

/-! ## Arrays -/

variable {values : List Nat} {runs : List Run} {first last v : Nat}

theorem mem_valuesFrom (hasc : values.Pairwise (· < ·)) :
    v ∈ ContainerHandle.valuesFrom values first ↔ v ∈ values ∧ first ≤ v := by
  rw [ContainerHandle.valuesFrom, dropWhile_lt_eq_filter (hasc.imp Nat.le_of_lt), List.mem_filter,
    decide_eq_true_eq]

/-- The least value from a bound on decides whether any is in a range. -/
theorem any_valuesFrom_iff (hasc : values.Pairwise (· < ·)) :
    (ContainerHandle.valuesFrom values first).head?.any (· ≤ last) = true ↔
      ∃ v ∈ values, first ≤ v ∧ v ≤ last := by
  have hmem : ∀ v, v ∈ ContainerHandle.valuesFrom values first ↔ v ∈ values ∧ first ≤ v :=
    fun v ↦ mem_valuesFrom hasc
  have hsorted : (ContainerHandle.valuesFrom values first).Pairwise (· < ·) :=
    hasc.sublist (List.dropWhile_sublist _)
  cases h : ContainerHandle.valuesFrom values first with
  | nil =>
    rw [h] at hmem
    constructor
    · exact nofun
    · rintro ⟨v, hv, hfirst, -⟩
      exact absurd ((hmem v).2 ⟨hv, hfirst⟩) List.not_mem_nil
  | cons u us =>
    rw [h] at hmem hsorted
    rw [List.head?_cons, Option.any_some, decide_eq_true_eq]
    constructor
    · intro hle
      obtain ⟨hu, hfirst⟩ := (hmem u).1 List.mem_cons_self
      exact ⟨u, hu, hfirst, hle⟩
    · rintro ⟨v, hv, hfirst, hlast⟩
      exact (headD_le_of_mem hsorted ((hmem v).2 ⟨hv, hfirst⟩)).trans hlast

/-- What an ascending list has in a range lies between its two partition points. -/
theorem length_filter_range (hasc : values.Pairwise (· < ·)) (hle : first ≤ last) :
    (values.filter fun v ↦ decide (first ≤ v ∧ v ≤ last)).length =
      (values.filter (· < last + 1)).length -
        (values.filter fun v ↦ decide (v < first)).length := by
  have hsplit : values.filter (· < last + 1) =
      (values.filter fun v ↦ decide (v < first)) ++ values.filter fun v ↦ decide
        (first ≤ v ∧ v ≤ last) := by
    refine List.Pairwise.eq_of_mem_iff (r := (· < ·)) (hasc.filter _) ?_ ?_
    · refine List.pairwise_append.mpr ⟨hasc.filter _, hasc.filter _, fun u hu v hv ↦ ?_⟩
      have hu := of_decide_eq_true (List.mem_filter.mp hu).2
      have hv := of_decide_eq_true (List.mem_filter.mp hv).2
      exact hu.trans_le hv.1
    · intro v
      simp only [List.mem_append, List.mem_filter, decide_eq_true_eq]
      constructor
      · rintro ⟨hv, hlt⟩
        rcases Nat.lt_or_ge v first with hbelow | hge
        · exact .inl ⟨hv, hbelow⟩
        · exact .inr ⟨hv, hge, Nat.le_of_lt_succ hlt⟩
      · rintro (⟨hv, hlt⟩ | ⟨hv, -, hlt⟩)
        · exact ⟨hv, by omega⟩
        · exact ⟨hv, Nat.lt_succ_of_le hlt⟩
  rw [hsplit, List.length_append, Nat.add_sub_cancel_left]

theorem countInRange_array_eq (hasc : values.Pairwise (· < ·))
    (hlt : ∀ v ∈ values, v < lowDomainSize) (hle : first ≤ last) :
    (if last = lowDomainSize - 1 then values.length
        else (values.takeWhile fun v ↦ decide (v ≤ last)).length) -
        (if first = 0 then 0 else (values.takeWhile fun v ↦ decide (v < first)).length) =
      (values.filter fun v ↦ decide (first ≤ v ∧ v ≤ last)).length := by
  have hstart : (if first = 0 then 0 else (values.takeWhile fun v ↦ decide (v < first)).length) =
      (values.filter fun v ↦ decide (v < first)).length := by
    split
    · rename_i hzero
      rw [hzero, List.filter_eq_nil_iff.mpr (by simp), List.length_nil]
    · rw [takeWhile_lt_eq_filter (hasc.imp Nat.le_of_lt)]
  have hstop : (if last = lowDomainSize - 1 then values.length else
      (values.takeWhile fun v ↦ decide (v ≤ last)).length) =
        (values.filter (· < last + 1)).length := by
    split
    · rename_i hmax
      rw [List.filter_eq_self.mpr]
      intro v hv
      have := hlt v hv
      rw [decide_eq_true_eq]
      omega
    · have hsucc : (fun v ↦ decide (v ≤ last)) = fun v ↦ decide (v < last + 1) :=
        funext fun v ↦ decide_eq_decide.2 Nat.lt_succ_iff.symm
      rw [hsucc, takeWhile_lt_eq_filter (hasc.imp Nat.le_of_lt)]
  rw [hstart, hstop]
  exact (length_filter_range hasc hle).symm

/-- A range is in an ascending list where its last value stands as far behind its first as in the
range. -/
theorem covers_array_iff (hasc : values.Pairwise (· < ·)) (hle : first ≤ last) :
    ((values.takeWhile fun v ↦ decide (v < first)).length + (last - first + 1) ≤ values.length ∧
        values[(values.takeWhile fun v ↦ decide (v < first)).length]? = some first) ∧
        values[(values.takeWhile fun v ↦ decide (v < first)).length + (last - first + 1) - 1]? =
          some last ↔
      ∀ v, first ≤ v → v ≤ last → v ∈ values := by
  set front := values.takeWhile fun v ↦ decide (v < first) with hfront
  set back := ContainerHandle.valuesFrom values first with hback
  have hvalues : values = front ++ back := (List.takeWhile_append_dropWhile).symm
  have hmem : ∀ v, v ∈ back ↔ v ∈ values ∧ first ≤ v := fun v ↦ mem_valuesFrom hasc
  have hsorted : back.Pairwise (· < ·) := hasc.sublist (List.dropWhile_sublist _)
  have hget : ∀ i, values[front.length + i]? = back[i]? := by
    intro i
    rw [hvalues, List.getElem?_append_right (Nat.le_add_right _ _), Nat.add_sub_cancel_left]
  have hfirst := hget 0
  have hlast := hget (last - first)
  rw [Nat.add_zero] at hfirst
  have hindex : front.length + (last - first + 1) - 1 = front.length + (last - first) := by omega
  rw [hfirst, hindex, hlast, hvalues, List.length_append, Nat.add_le_add_iff_left, ← hvalues]
  constructor
  · rintro ⟨⟨hlen, h0⟩, hd⟩ v hfv hvl
    -- the values climb by at least one a step, and by no more than one between the two
    have hlt : v - first < back.length := by omega
    obtain ⟨hpos, h0⟩ := List.getElem?_eq_some_iff.1 h0
    obtain ⟨hd', hd⟩ := List.getElem?_eq_some_iff.1 hd
    have hlow := getElem_add_le hsorted (i := 0) (d := v - first) (by omega)
    have hhigh := getElem_add_le hsorted (i := v - first) (d := last - v) (by omega)
    have hsum : v - first + (last - v) = last - first := by omega
    simp only [Nat.zero_add] at hlow
    simp only [hsum] at hhigh
    have heq : back[v - first] = v := by omega
    exact ((hmem v).1 (heq ▸ List.getElem_mem hlt)).1
  · intro hall
    have hfront : back.takeWhile (fun v ↦ decide (v < last + 1)) = List.range' first
        (last - first + 1) := by
      rw [takeWhile_lt_eq_filter (hsorted.imp Nat.le_of_lt)]
      refine List.Pairwise.eq_of_mem_iff (r := (· < ·)) (hsorted.filter _) List.pairwise_lt_range'
        fun v ↦ ?_
      rw [List.mem_filter, hmem, List.mem_range'_1, decide_eq_true_eq]
      constructor
      · rintro ⟨⟨-, hfv⟩, hvl⟩
        exact ⟨hfv, by omega⟩
      · rintro ⟨hfv, hvl⟩
        exact ⟨⟨hall v hfv (by omega), hfv⟩, by omega⟩
    have hsplit := List.takeWhile_append_dropWhile (p := fun v ↦ decide (v < last + 1)) (l := back)
    rw [hfront] at hsplit
    have hlen : last - first + 1 ≤ back.length := by
      rw [← hsplit, List.length_append, List.length_range']
      exact Nat.le_add_right _ _
    have hat : ∀ i ≤ last - first, back[i]? = some (first + i) := by
      intro i hi
      rw [← hsplit, List.getElem?_append_left (by rw [List.length_range']; omega),
        List.getElem?_range' (by omega), Nat.one_mul]
    refine ⟨⟨hlen, ?_⟩, ?_⟩
    · rw [hat 0 (Nat.zero_le _), Nat.add_zero]
    · rw [hat _ le_rfl, Nat.add_sub_cancel' hle]

/-! ## Runs -/

theorem mem_runsReaching (h : Canonical runs) {r : Run} :
    r ∈ ContainerHandle.runsReaching runs first ↔ r ∈ runs ∧ first ≤ r.last := by
  induction runs with
  | nil => simp [ContainerHandle.runsReaching]
  | cons s rs ih =>
    rw [ContainerHandle.runsReaching]
    by_cases hs : s.last < first
    · rw [List.dropWhile_cons_of_pos (by simpa using hs), ← ContainerHandle.runsReaching, ih h.tail,
        List.mem_cons]
      constructor
      · rintro ⟨hr, hle⟩
        exact ⟨.inr hr, hle⟩
      · rintro ⟨rfl | hr, hle⟩
        · exact absurd hle (not_le.2 hs)
        · exact ⟨hr, hle⟩
    · rw [List.dropWhile_cons_of_neg (by simpa using hs)]
      refine ⟨fun hr ↦ ⟨hr, ?_⟩, And.left⟩
      rcases List.mem_cons.1 hr with rfl | hr'
      · exact not_lt.1 hs
      · have hapart := h.head_apart hr'
        have hle := h.tail.forward r hr'
        omega

theorem runsReaching_canonical (h : Canonical runs) :
    Canonical (ContainerHandle.runsReaching runs first) := by
  have hsub : (ContainerHandle.runsReaching runs first).Sublist runs := List.dropWhile_sublist _
  exact ⟨fun r hr ↦ h.forward r (hsub.subset hr), h.apart.sublist hsub,
    fun r hr ↦ h.bounded r (hsub.subset hr)⟩

/-- The first run that reaches a range decides whether any run meets it. -/
theorem any_runsReaching_iff (h : Canonical runs) (hle : first ≤ last) :
    (ContainerHandle.runsReaching runs first).head?.any (·.first ≤ last) = true ↔
      ∃ v ∈ runValues runs, first ≤ v ∧ v ≤ last := by
  have hmem : ∀ r, r ∈ ContainerHandle.runsReaching runs first ↔ r ∈ runs ∧ first ≤ r.last :=
    fun r ↦ mem_runsReaching h
  have hcanonical : Canonical (ContainerHandle.runsReaching runs first) := runsReaching_canonical h
  cases hr : ContainerHandle.runsReaching runs first with
  | nil =>
    rw [hr] at hmem
    constructor
    · exact nofun
    · rintro ⟨v, hv, hfirst, -⟩
      obtain ⟨r, hrun, -, hlast⟩ := mem_runValues.1 hv
      exact absurd ((hmem r).2 ⟨hrun, hfirst.trans hlast⟩) List.not_mem_nil
  | cons s rs =>
    rw [hr] at hmem hcanonical
    rw [List.head?_cons, Option.any_some, decide_eq_true_eq]
    constructor
    · intro hs
      obtain ⟨hrun, hreach⟩ := (hmem s).1 List.mem_cons_self
      refine ⟨max s.first first, mem_runValues.2 ⟨s, hrun, le_max_left _ _, ?_⟩, le_max_right _ _,
        max_le hs hle⟩
      exact max_le (h.forward s hrun) hreach
    · rintro ⟨v, hv, hfirst, hlast⟩
      obtain ⟨r, hrun, hbegin, hend⟩ := mem_runValues.1 hv
      rcases List.mem_cons.1 ((hmem r).2 ⟨hrun, hfirst.trans hend⟩) with rfl | hlater
      · exact hbegin.trans hlast
      · have hapart := hcanonical.head_apart hlater
        have hforward := hcanonical.head_le
        omega

/-- A run that begins behind the range ends the loop, and so do all behind it. -/
theorem countRuns_eq (h : Canonical runs) (hreach : ∀ r ∈ runs, first ≤ r.last)
    (hle : first ≤ last) :
    ContainerHandle.countRuns first last runs =
      ((runValues runs).filter fun v ↦ decide (first ≤ v ∧ v ≤ last)).length := by
  induction runs with
  | nil => rfl
  | cons r rs ih =>
    have hends := hreach r List.mem_cons_self
    rw [ContainerHandle.countRuns]
    split
    · rename_i hin
      have hpart : r.values.filter (fun v ↦ decide (first ≤ v ∧ v ≤ last)) =
          List.range' (max r.first first) (min r.last last - max r.first first + 1) := by
        refine List.Pairwise.eq_of_mem_iff (r := (· < ·)) (r.values_ascending.filter _)
          List.pairwise_lt_range'
          fun v ↦ ?_
        have hne : max r.first first ≤ min r.last last :=
          le_min (max_le h.head_le hends) (max_le hin hle)
        rw [List.mem_filter, Run.mem_values, List.mem_range'_1, decide_eq_true_eq, ← Nat.add_assoc,
          Nat.add_sub_cancel' hne, Nat.lt_succ_iff, max_le_iff, le_min_iff]
        constructor
        · rintro ⟨⟨h1, h2⟩, h3, h4⟩
          exact ⟨⟨h1, h3⟩, h2, h4⟩
        · rintro ⟨⟨h1, h3⟩, h2, h4⟩
          exact ⟨⟨h1, h2⟩, h3, h4⟩
      rw [runValues_cons, List.filter_append, List.length_append, hpart, List.length_range',
        ih h.tail fun s hs ↦ hreach s (List.mem_cons_of_mem r hs)]
    · rename_i hout
      have hnone : (runValues (r :: rs)).filter (fun v ↦ decide (first ≤ v ∧ v ≤ last)) = [] := by
        rw [List.filter_eq_nil_iff]
        intro v hv
        obtain ⟨s, hs, hbegin, -⟩ := mem_runValues.1 hv
        rw [decide_eq_true_eq]
        rintro ⟨-, hlast⟩
        rcases List.mem_cons.1 hs with rfl | hs
        · exact hout (hbegin.trans hlast)
        · have hapart := h.head_apart hs
          have hforward := h.head_le
          omega
      rw [hnone, List.length_nil]

/-- A search that skips the runs in front of a range counts what all of them have there. -/
theorem filter_runsReaching (h : Canonical runs) :
    (runValues (ContainerHandle.runsReaching runs first)).filter
      (fun v ↦ decide (first ≤ v ∧ v ≤ last)) =
      (runValues runs).filter fun v ↦ decide (first ≤ v ∧ v ≤ last) := by
  refine List.Pairwise.eq_of_mem_iff (r :=
    (· < ·)) ((runsReaching_canonical h).values_ascending.filter _)
    (h.values_ascending.filter _) fun v ↦ ?_
  simp only [List.mem_filter, decide_eq_true_eq, mem_runValues, mem_runsReaching h]
  constructor
  · rintro ⟨⟨r, ⟨hr, -⟩, hv⟩, hrange⟩
    exact ⟨⟨r, hr, hv⟩, hrange⟩
  · rintro ⟨⟨r, hr, hv⟩, hrange⟩
    exact ⟨⟨r, ⟨hr, hrange.1.trans hv.2⟩, hv⟩, hrange⟩

/-- Runs that are not adjacent hold a range only where one of them does. -/
theorem covers_runs_iff (h : Canonical runs) (hle : first ≤ last) :
    (ContainerHandle.runsReaching runs first).head?.any (fun r ↦ r.first ≤ first && last ≤ r.last) =
      true ↔
      ∀ v, first ≤ v → v ≤ last → v ∈ runValues runs := by
  have hmem : ∀ r, r ∈ ContainerHandle.runsReaching runs first ↔ r ∈ runs ∧ first ≤ r.last :=
    fun r ↦ mem_runsReaching h
  have hcanonical : Canonical (ContainerHandle.runsReaching runs first) := runsReaching_canonical h
  cases hr : ContainerHandle.runsReaching runs first with
  | nil =>
    rw [hr] at hmem
    constructor
    · exact nofun
    · intro hall
      obtain ⟨r, hrun, -, hlast⟩ := mem_runValues.1 (hall first le_rfl hle)
      exact absurd ((hmem r).2 ⟨hrun, hlast⟩) List.not_mem_nil
  | cons s rs =>
    rw [hr] at hmem hcanonical
    obtain ⟨hrun, hreach⟩ := (hmem s).1 List.mem_cons_self
    rw [List.head?_cons, Option.any_some, Bool.and_eq_true, decide_eq_true_eq, decide_eq_true_eq]
    constructor
    · rintro ⟨hbegin, hend⟩ v hfv hvl
      exact mem_runValues.2 ⟨s, hrun, hbegin.trans hfv, hvl.trans hend⟩
    · intro hall
      have hin : ∀ v, first ≤ v → v ≤ last → s.first ≤ v ∧ v ≤ s.last ∨ s.last + 1 < v := by
        intro v hfv hvl
        obtain ⟨r, hmemr, hbegin, hlast⟩ := mem_runValues.1 (hall v hfv hvl)
        rcases List.mem_cons.1 ((hmem r).2 ⟨hmemr, hfv.trans hlast⟩) with rfl | hlater
        · exact .inl ⟨hbegin, hlast⟩
        · exact .inr ((hcanonical.head_apart hlater).trans_le hbegin)
      have hfirst := hin first le_rfl hle
      refine ⟨by omega, ?_⟩
      by_contra hlt
      -- the value behind the run's end would be in the gap that follows the run
      have hgap := hin (s.last + 1) (by omega) (by omega)
      omega

/-! ## All kinds -/

namespace ContainerHandle.Valid

variable {h : ContainerHandle}

/-- A container is asked whether it has a value in a range. -/
theorem anyInRange_iff (hv : h.Valid) (hle : first ≤ last) :
    h.anyInRange first last = true ↔ ∃ v ∈ h.values, first ≤ v ∧ v ≤ last := by
  have hwf := hv.payload
  rw [anyInRange, ContainerHandle.values]
  cases hp : h.payload with
  | array values =>
    rw [hp] at hwf
    cases hwf with
    | array hasc _ => exact any_valuesFrom_iff hasc
  | run runs =>
    rw [hp] at hwf
    cases hwf with
    | run hcanonical => exact any_runsReaching_iff hcanonical hle
  | bitset words =>
    rw [words.anyRange_iff hle]
    exact exists_congr fun v ↦ and_congr_left fun _ ↦ Words.mem_values.symm

theorem countInRange_eq (hv : h.Valid) (hle : first ≤ last) :
    h.countInRange first last = (h.values.filter fun v ↦ decide (first ≤ v ∧ v ≤ last)).length := by
  have hwf := hv.payload
  rw [countInRange, ContainerHandle.values]
  cases hp : h.payload with
  | array values =>
    rw [hp] at hwf
    cases hwf with
    | array hasc hlt => exact countInRange_array_eq hasc hlt hle
  | run runs =>
    rw [hp] at hwf
    cases hwf with
    | run hcanonical =>
      have hreach : ∀ r ∈ runsReaching runs first, first ≤ r.last :=
        fun r hr ↦ ((mem_runsReaching hcanonical).1 hr).2
      change countRuns first last (runsReaching runs first) = _
      rw [countRuns_eq (runsReaching_canonical hcanonical) hreach hle,
        filter_runsReaching hcanonical]
      rfl
  | bitset words => exact words.countRange_eq hle

/-- The container's count settles what it is too small to cover. -/
theorem coversRange_iff (hv : h.Valid) (hle : first ≤ last) :
    h.coversRange first last = true ↔ ∀ v, first ≤ v → v ≤ last → v ∈ h.values := by
  have hwf := hv.payload
  rw [coversRange]
  dsimp only
  split
  · rename_i hfew
    refine ⟨nofun, fun hall ↦ ?_⟩
    have hsub : ∀ v ∈ List.range' first (last - first + 1), v ∈ h.values := by
      intro v hmem
      rw [List.mem_range'_1] at hmem
      exact hall v hmem.1 (by omega)
    have hlen := length_le_of_ascending List.pairwise_lt_range' hsub
    rw [List.length_range', ← hv.cardinality] at hlen
    exact absurd hlen (not_le.2 hfew)
  · rw [ContainerHandle.values]
    cases hp : h.payload with
    | array values =>
      rw [hp] at hwf
      cases hwf with
      | array hasc _ =>
        dsimp only
        rw [Bool.and_eq_true, Bool.and_eq_true, decide_eq_true_eq, decide_eq_true_eq,
          decide_eq_true_eq]
        exact covers_array_iff hasc hle
    | run runs =>
      rw [hp] at hwf
      cases hwf with
      | run hcanonical => exact covers_runs_iff hcanonical hle
    | bitset words =>
      dsimp only
      rw [words.allRange_iff hle]
      exact forall_congr' fun v ↦ forall₂_congr fun _ _ ↦ Words.mem_values.symm

end ContainerHandle.Valid

end Roaring
