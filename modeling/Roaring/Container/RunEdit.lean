import Mathlib
import Roaring.Container.RunUpdate

/-!
# Ranges and values cut out of runs

A closed range is cut out of the runs it meets; a sorted group of values is cut out in
one walk.  Each builds a new list, which stays canonical.
-/

namespace Roaring

open Lib

/-! ## `run_ref::remove_closed_range` -/

/-- What `remove_closed_range` leaves of a run. -/
def removeRange (first last : Nat) (r : Run) : List Run :=
  if r.last < first ∨ last < r.first then [r]
  else (if r.first < first then [⟨r.first, first - 1⟩] else []) ++
    if last < r.last ∧ last ≠ lowTypeMax then [⟨last + 1, r.last⟩] else []

/-- `remove_closed_range`. -/
def runRemoveClosedRange (runs : List Run) (first last : Nat) : List Run :=
  if last < first ∨ runs = [] then runs else runs.flatMap (removeRange first last)

/-! ## `difference_run_values` -/

/-- The rest of a run, where there is one. -/
def runTail (current last : Nat) : List Run := if current ≤ last then [⟨current, last⟩] else []

/-- The scan of the values in one run: what is left of it, and the values that were not scanned. -/
def cutRun (last : Nat) : (current : Nat) → List Nat → List Run × List Nat
  | current, [] => (runTail current last, [])
  | current, v :: vs =>
      if v ≤ last then
        let piece := if current < v then [(⟨current, v - 1⟩ : Run)] else []
        if v = lowTypeMax then (piece, v :: vs)
        else
          let cut := cutRun last (v + 1) vs
          (piece ++ cut.1, cut.2)
      else (runTail current last, v :: vs)

/-- The runs that `difference_run_values` writes. -/
def differenceRunValues : List Run → List Nat → List Run
  | [], _ => []
  | r :: rs, values =>
      let cut := cutRun r.last r.first (values.dropWhile fun v ↦ decide (v < r.first))
      cut.1 ++ differenceRunValues rs cut.2

variable {first last current : Nat} {runs rs : List Run} {new r : Run} {vs : List Nat}

/-! ## A range is cut out of what it meets -/

theorem removeRange_spec (hr : r.first ≤ r.last) (hlt : r.last < lowDomainSize)
    (hle : first ≤ last) :
    Canonical (removeRange first last r) ∧
      (∀ v, v ∈ runValues (removeRange first last r) ↔ (r.first ≤ v ∧ v ≤ r.last) ∧
        ¬ (first ≤ v ∧ v ≤ last)) ∧
      ∀ p ∈ removeRange first last r, r.first ≤ p.first ∧ p.last ≤ r.last := by
  have hmax : last < r.last → last ≠ lowTypeMax := by
    unfold lowDomainSize lowTypeMax at *
    omega
  have hguard : (last < r.last ∧ last ≠ lowTypeMax) ↔ last < r.last :=
    ⟨And.left, fun h ↦ ⟨h, hmax h⟩⟩
  rw [removeRange]
  simp only [hguard]
  split
  · refine ⟨Canonical.cons_iff.2 ⟨hr, hlt, nofun, .nil⟩, ?_, ?_⟩
    · intro v
      rw [mem_runValues]
      simp only [List.mem_singleton, exists_eq_left]
      omega
    · intro p hp
      rw [List.mem_singleton.1 hp]
      exact ⟨le_rfl, le_rfl⟩
  · split <;> split
    · refine
        ⟨Canonical.cons_iff.2 ⟨?_, ?_, ?_, Canonical.cons_iff.2 ⟨?_, hlt, nofun, .nil⟩⟩, ?_, ?_⟩
      · show r.first ≤ first - 1
        omega
      · show first - 1 < lowDomainSize
        omega
      · intro p hp
        rw [List.mem_singleton.1 hp]
        show first - 1 + 1 < last + 1
        omega
      · show last + 1 ≤ r.last
        omega
      · intro v
        rw [mem_runValues]
        simp only [List.cons_append, List.nil_append, List.mem_cons, List.not_mem_nil, or_false,
          exists_eq_or_imp,
          exists_eq_left]
        omega
      · intro p hp
        rcases List.mem_cons.1 hp with rfl | hp
        · simp only
          omega
        · rw [List.mem_singleton.1 hp]
          simp only
          omega
    · refine ⟨Canonical.cons_iff.2 ⟨?_, ?_, nofun, .nil⟩, ?_, ?_⟩
      · show r.first ≤ first - 1
        omega
      · show first - 1 < lowDomainSize
        omega
      · intro v
        rw [mem_runValues]
        simp only [List.append_nil, List.mem_singleton, exists_eq_left]
        omega
      · intro p hp
        rw [List.append_nil, List.mem_singleton] at hp
        rw [hp]
        simp only
        omega
    · refine ⟨Canonical.cons_iff.2 ⟨?_, hlt, nofun, .nil⟩, ?_, ?_⟩
      · show last + 1 ≤ r.last
        omega
      · intro v
        rw [mem_runValues]
        simp only [List.nil_append, List.mem_singleton, exists_eq_left]
        omega
      · intro p hp
        rw [List.nil_append, List.mem_singleton] at hp
        rw [hp]
        simp only
        omega
    · refine ⟨.nil, ?_, nofun⟩
      intro v
      rw [List.append_nil, runValues_nil]
      simp only [List.not_mem_nil, false_iff]
      omega

/-- Pieces of canonical runs that stay inside their runs are canonical together. -/
theorem Canonical.append_inside {ps : List Run} (hps : Canonical ps)
    (hin : ∀ p ∈ ps, r.first ≤ p.first ∧ p.last ≤ r.last) (h : Canonical (r :: rs)) {qs : List Run}
    (hqs : Canonical qs)
    (hqin : ∀ q ∈ qs, ∃ r' ∈ rs, r'.first ≤ q.first ∧ q.last ≤ r'.last) : Canonical (ps ++ qs) := by
  refine ⟨?_, List.pairwise_append.2 ⟨hps.apart, hqs.apart, ?_⟩, ?_⟩
  · intro p hp
    rcases List.mem_append.1 hp with hp | hp
    · exact hps.forward p hp
    · exact hqs.forward p hp
  · intro p hp q hq
    obtain ⟨r', hr', hfirst, -⟩ := hqin q hq
    have hlast := (hin p hp).2
    have happart := h.head_apart hr'
    omega
  · intro p hp
    rcases List.mem_append.1 hp with hp | hp
    · exact hps.bounded p hp
    · exact hqs.bounded p hp

theorem flatMap_removeRange_spec (h : Canonical runs) (hle : first ≤ last) :
    Canonical (runs.flatMap (removeRange first last)) ∧
      (∀ v, v ∈ runValues (runs.flatMap (removeRange first last)) ↔ v ∈ runValues runs ∧
        ¬ (first ≤ v ∧ v ≤ last)) ∧
      ∀ p ∈ runs.flatMap (removeRange first last), ∃ r ∈ runs, r.first ≤ p.first ∧
        p.last ≤ r.last := by
  induction runs with
  | nil => exact ⟨.nil, by simp, nofun⟩
  | cons r rs ih =>
    obtain ⟨hc, hmem, hin⟩ := ih h.tail
    obtain ⟨hrc, hrmem, hrin⟩ := removeRange_spec h.head_le (h.bounded r List.mem_cons_self) hle
    rw [List.flatMap_cons]
    refine ⟨Canonical.append_inside hrc hrin h hc hin, ?_, ?_⟩
    · intro v
      rw [runValues_append, List.mem_append, hrmem v, hmem v, runValues_cons, List.mem_append,
        Run.mem_values,
        ← or_and_right]
    · intro p hp
      rcases List.mem_append.1 hp with hp | hp
      · exact ⟨r, List.mem_cons_self, hrin p hp⟩
      · obtain ⟨r', hr', hin'⟩ := hin p hp
        exact ⟨r', List.mem_cons_of_mem r hr', hin'⟩

theorem runRemoveClosedRange_spec (h : Canonical runs) :
    Canonical (runRemoveClosedRange runs first last) ∧
      ∀ v, v ∈ runValues (runRemoveClosedRange runs first last) ↔ v ∈ runValues runs ∧
        ¬ (first ≤ v ∧ v ≤ last) := by
  rw [runRemoveClosedRange]
  split
  · rename_i hnone
    refine ⟨h, ?_⟩
    intro v
    constructor
    · intro hv
      refine ⟨hv, ?_⟩
      rcases hnone with hlt | rfl
      · omega
      · cases hv
    · exact And.left
  · rename_i hsome
    obtain ⟨hc, hmem, -⟩ := flatMap_removeRange_spec h (not_lt.1 fun hlt ↦ hsome (.inl hlt))
    exact ⟨hc, hmem⟩

/-! ## A group of values is cut out -/

theorem runTail_spec (current : Nat) (hlt : last < lowDomainSize) :
    Canonical (runTail current last) ∧
      (∀ v, v ∈ runValues (runTail current last) ↔ current ≤ v ∧ v ≤ last) ∧
      ∀ p ∈ runTail current last, current ≤ p.first ∧ p.last ≤ last := by
  rw [runTail]
  split
  · rename_i hle
    refine ⟨Canonical.cons_iff.2 ⟨hle, hlt, nofun, .nil⟩, ?_, ?_⟩
    · intro v
      rw [mem_runValues]
      simp
    · intro p hp
      rw [List.mem_singleton.1 hp]
      exact ⟨le_rfl, le_rfl⟩
  · refine ⟨.nil, ?_, nofun⟩
    intro v
    rw [runValues_nil]
    simp only [List.not_mem_nil, false_iff]
    omega

/-- The piece of a run in front of a value that goes. -/
theorem runHead_spec {w : Nat} (current : Nat) (hlt : w < lowDomainSize) :
    Canonical (if current < w then [(⟨current, w - 1⟩ : Run)] else []) ∧
      (∀ v, v ∈ runValues (if current < w then [(⟨current, w - 1⟩ : Run)] else []) ↔
        current ≤ v ∧ v < w) ∧
      ∀ p ∈ (if current < w then [(⟨current, w - 1⟩ : Run)] else []), current ≤ p.first ∧
        p.last < w := by
  by_cases hcw : current < w
  · obtain ⟨hc, hmem, hin⟩ := runTail_spec current (show w - 1 < lowDomainSize by omega)
    rw [runTail, if_pos (by omega)] at hc hmem hin
    rw [if_pos hcw]
    refine ⟨hc, ?_, ?_⟩
    · intro v
      rw [hmem v]
      omega
    · intro p hp
      have := hin p hp
      omega
  · rw [if_neg hcw]
    refine ⟨.nil, ?_, nofun⟩
    intro v
    rw [runValues_nil]
    simp only [List.not_mem_nil, false_iff]
    omega

/-- Runs on either side of a value. -/
theorem Canonical.append_around {ps qs : List Run} {w : Nat} (hps : Canonical ps)
    (hqs : Canonical qs)
    (hbelow : ∀ p ∈ ps, p.last < w) (habove : ∀ q ∈ qs, w < q.first) : Canonical (ps ++ qs) := by
  refine ⟨?_, List.pairwise_append.2 ⟨hps.apart, hqs.apart, ?_⟩, ?_⟩
  · intro p hp
    rcases List.mem_append.1 hp with hp | hp
    · exact hps.forward p hp
    · exact hqs.forward p hp
  · intro p hp q hq
    have hpl := hbelow p hp
    have hqf := habove q hq
    omega
  · intro p hp
    rcases List.mem_append.1 hp with hp | hp
    · exact hps.bounded p hp
    · exact hqs.bounded p hp

theorem not_mem_cons_of_lt {w : Nat} (hasc : (w :: vs).Pairwise (· < ·)) {v : Nat} (hv : v < w) :
    v ∉ w :: vs := by
  rw [List.mem_cons]
  rintro (rfl | hmem)
  · omega
  · have := List.rel_of_pairwise_cons hasc hmem
    omega

/-- The scan leaves the part of the run from `current` on that is not among the values, and drops no
value above the run. -/
theorem cutRun_spec (hlt : last < lowDomainSize) (hasc : vs.Pairwise (· < ·))
    (hge : ∀ v ∈ vs, current ≤ v) :
    Canonical (cutRun last current vs).1 ∧
      (∀ v, v ∈ runValues (cutRun last current vs).1 ↔ (current ≤ v ∧ v ≤ last) ∧ v ∉ vs) ∧
      (∀ p ∈ (cutRun last current vs).1, current ≤ p.first ∧ p.last ≤ last) ∧
      (cutRun last current vs).2.Sublist vs ∧ ∀ v ∈ vs, last < v →
        v ∈ (cutRun last current vs).2 := by
  induction vs generalizing current with
  | nil =>
    obtain ⟨hc, hmem, hin⟩ := runTail_spec current hlt
    refine ⟨hc, ?_, hin, List.Sublist.refl _, nofun⟩
    intro v
    rw [cutRun, hmem v]
    simp
  | cons w vs ih =>
    have hw := hge w List.mem_cons_self
    rw [cutRun]
    by_cases hin : w ≤ last
    swap
    · -- the values are all behind the run
      rw [if_neg hin]
      obtain ⟨hc, hmem, hcin⟩ := runTail_spec current hlt
      refine ⟨hc, ?_, hcin, List.Sublist.refl _, fun v hv _ ↦ hv⟩
      intro v
      rw [hmem v]
      exact ⟨fun hv ↦ ⟨hv, not_mem_cons_of_lt hasc (by omega)⟩, And.left⟩
    rw [if_pos hin]
    obtain ⟨hpc, hpmem, hpin⟩ := runHead_spec current (show w < lowDomainSize by omega)
    by_cases hmax : w = lowTypeMax
    · -- nothing follows the largest value
      simp only [hmax, if_true]
      rw [← hmax]
      refine ⟨hpc, ?_, ?_, List.Sublist.refl _, fun v hv _ ↦ hv⟩
      · intro v
        rw [hpmem v]
        constructor
        · intro hv
          exact ⟨⟨hv.1, by omega⟩, not_mem_cons_of_lt hasc hv.2⟩
        · rintro ⟨hv, hnot⟩
          refine ⟨hv.1, lt_of_le_of_ne ?_ fun heq ↦ hnot (heq ▸ List.mem_cons_self)⟩
          unfold lowDomainSize lowTypeMax at *
          omega
      · intro p hp
        have := hpin p hp
        omega
    · simp only [hmax, if_false]
      obtain ⟨hc, hmem, hcin, hsub, hleft⟩ :=
        ih hasc.of_cons (fun v hv ↦ Nat.succ_le_of_lt (List.rel_of_pairwise_cons hasc hv))
      refine ⟨hpc.append_around hc (fun p hp ↦ (hpin p hp).2)
        (fun q hq ↦ (hcin q hq).1), ?_, ?_, hsub.trans (List.sublist_cons_self _ _), ?_⟩
      · intro v
        rw [runValues_append, List.mem_append, hpmem v, hmem v]
        constructor
        · rintro (hv | ⟨hv, hnot⟩)
          · exact ⟨⟨hv.1, by omega⟩, not_mem_cons_of_lt hasc hv.2⟩
          · refine ⟨⟨by omega, hv.2⟩, ?_⟩
            rw [List.mem_cons]
            rintro (rfl | hmem)
            · omega
            · exact hnot hmem
        · rintro ⟨hv, hnot⟩
          rw [List.mem_cons, not_or] at hnot
          rcases Nat.lt_or_gt_of_ne hnot.1 with hvw | hvw
          · exact .inl ⟨hv.1, hvw⟩
          · exact .inr ⟨⟨hvw, hv.2⟩, hnot.2⟩
      · intro p hp
        rcases List.mem_append.1 hp with hp | hp
        · have := hpin p hp
          omega
        · have := hcin p hp
          omega
      · intro v hv hlv
        rcases List.mem_cons.1 hv with rfl | hv
        · omega
        · exact hleft v hv hlv

/-- `difference_run_values` leaves canonical runs of what is not among the values. -/
theorem differenceRunValues_spec (h : Canonical runs) (hasc : vs.Pairwise (· < ·)) :
    Canonical (differenceRunValues runs vs) ∧
      (∀ v, v ∈ runValues (differenceRunValues runs vs) ↔ v ∈ runValues runs ∧ v ∉ vs) ∧
      ∀ p ∈ differenceRunValues runs vs, ∃ r ∈ runs, r.first ≤ p.first ∧ p.last ≤ r.last := by
  induction runs generalizing vs with
  | nil => exact ⟨.nil, by simp [differenceRunValues], nofun⟩
  | cons r rs ih =>
    set ws := vs.dropWhile fun v ↦ decide (v < r.first) with hws
    have hsub : ws.Sublist vs := List.dropWhile_sublist _
    have hdropped : ∀ v ∈ vs, r.first ≤ v → v ∈ ws := by
      intro v hv hle
      rw [← List.takeWhile_append_dropWhile (p := fun v ↦ decide (v < r.first)) (l := vs)] at hv
      rcases List.mem_append.1 hv with hv | hv
      · have := List.mem_takeWhile_imp hv
        rw [decide_eq_true_iff] at this
        omega
      · exact hv
    have hge : ∀ v ∈ ws, r.first ≤ v := by
      intro v hv
      by_contra hlt
      have hhead : ∀ w ∈ ws.head?, ¬ w < r.first := by
        intro w hw
        have := List.head?_dropWhile_not (fun v ↦ decide (v < r.first)) vs
        rw [← hws, hw] at this
        simpa using this
      cases hws' : ws with
      | nil =>
        rw [hws'] at hv
        cases hv
      | cons w ws' =>
        have hw := hhead w (by rw [hws']; rfl)
        have hasc' := hasc.sublist hsub
        rw [hws'] at hv hasc'
        rcases List.mem_cons.1 hv with rfl | hv
        · exact hw (not_le.1 hlt)
        · have := List.rel_of_pairwise_cons hasc' hv
          omega
    obtain ⟨hc, hmem, hin, hleftsub, hleft⟩ :=
      cutRun_spec (h.bounded r List.mem_cons_self) (hasc.sublist hsub) hge
    obtain ⟨hrc, hrmem, hrin⟩ := ih h.tail ((hasc.sublist hsub).sublist hleftsub)
    rw [differenceRunValues]
    refine ⟨Canonical.append_inside hc hin h hrc hrin, ?_, ?_⟩
    · intro v
      rw [runValues_append, List.mem_append, hmem v, hrmem v, runValues_cons, List.mem_append,
        Run.mem_values,
        or_and_right]
      refine or_congr (and_congr_right fun hv ↦ not_congr ?_)
        (and_congr_right fun hv ↦ not_congr ?_)
      · exact ⟨fun hw ↦ hsub.subset hw, fun hw ↦ hdropped v hw hv.1⟩
      · obtain ⟨r', hr', hfirst, -⟩ := mem_runValues.1 hv
        have happart := h.head_apart hr'
        have hforward := h.head_le
        exact ⟨fun hw ↦ hsub.subset (hleftsub.subset hw),
          fun hw ↦ hleft v (hdropped v hw (by omega)) (by omega)⟩
    · intro p hp
      rcases List.mem_append.1 hp with hp | hp
      · exact ⟨r, List.mem_cons_self, hin p hp⟩
      · obtain ⟨r', hr', hin'⟩ := hrin p hp
        exact ⟨r', List.mem_cons_of_mem r hr', hin'⟩

end Roaring
