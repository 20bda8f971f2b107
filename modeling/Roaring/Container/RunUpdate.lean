import Mathlib
import Roaring.Lib.Blocks
import Roaring.Lib.Search
import Roaring.Container.Build

/-!
# Group updates of runs

A sorted group of values is merged into a run list one maximal consecutive group at
a time: the runs in front of it move as one block, and it joins every run it
touches.  The merge writes at `write` and reads the old runs from `read` on.  Where
it works in the payload itself, the runs behind the first that is touched are moved
up first, by the number of runs the batch can open, and the merge writes into the gap.

What is written and what is not yet read are canonical together at every step.
-/

namespace Roaring

open Lib

/-! ## Searches -/

/-- `gallop_partition_point`, whose steps double. -/
def gallopPartitionPoint (pred : Nat → Bool) (first last step : Nat) : Nat :=
  if _h : first < last ∧ pred first = true then
    if last - (first + 1) ≤ step then partitionPointIn pred (first + 1) last
    else if pred (first + step) = false then partitionPointIn pred (first + 1) (first + step)
    else gallopPartitionPoint pred (first + 1 + step) last (step * 2)
  else first
termination_by last - first

/-- The run at a position. -/
def runAt (runs : List Run) (i : Nat) : Run := runs.getD i ⟨0, 0⟩

/-! ## Groups of a batch -/

def extendGroup (first last : Nat) : List Nat → List Run
  | [] => [⟨first, last⟩]
  | v :: vs => if v = last + 1 then extendGroup first v vs else ⟨first, last⟩ :: extendGroup v v vs

/-- The maximal consecutive groups of a batch. -/
def batchGroups : List Nat → List Run
  | [] => []
  | v :: vs => extendGroup v v vs

/-- The values that do not follow the one before. -/
def countGroupStarts (previous : Nat) : List Nat → Nat
  | [] => 0
  | v :: vs => (if v ≠ previous + 1 then 1 else 0) + countGroupStarts v vs

/-- How many groups a batch has, counted without looking at the runs. -/
def groupCount : List Nat → Nat
  | [] => 1
  | v :: vs => 1 + countGroupStarts v vs

/-- The pass that counts the groups which lie in no run, and stops once they are more than
`stopAfter`. -/
def countOpened (runs : List Run) (stopAfter : Nat) : (groups : List Run) →
    (cursor opened : Nat) → Nat
  | [], _, opened => opened
  | g :: groups, cursor, opened =>
      if opened ≤ stopAfter then
        let found := gallopPartitionPoint (fun i ↦ (runAt runs i).last < g.first) cursor
          runs.length 1
        let inside := found ≠ runs.length ∧ (runAt runs found).first ≤ g.first ∧
          g.last ≤ (runAt runs found).last
        countOpened runs stopAfter groups found (opened + if inside then 0 else 1)
      else opened

/-! ## `run_ref::add_sorted` -/

/-- How many values a group and a run share. -/
def overlap (g r : Run) : Nat := min g.last r.last + 1 - max g.first r.first

/-- The interval that covers both. -/
def Run.join (m r : Run) : Run := ⟨min m.first r.first, max m.last r.last⟩

/-- What a group has joined so far, how many of its values were there already, and how many runs it
took in. -/
structure Absorbed where
  merged : Run
  present : Nat
  taken : Nat

/-- The loop over the runs that the merged interval touches. -/
def absorbRuns (g : Run) (s : Absorbed) : List Run → Absorbed
  | [] => s
  | r :: rs =>
      if r.first ≤ s.merged.last + 1 then
        absorbRuns g ⟨s.merged.join r, s.present + overlap g r, s.taken + 1⟩ rs
      else s

structure RunMerge where
  data : List Run
  read : Nat
  write : Nat
  added : Nat

/-- Where the old runs are read from: the moved up suffix, or the list as it was. -/
def mergeSource (inPlace : Bool) (opened : Nat) (runs data : List Run) : List Run :=
  if inPlace then data.drop opened else runs

/-- `memmove( data + write, source + read, count )`, with both positions behind it. -/
def RunMerge.moveRuns (inPlace : Bool) (opened : Nat) (runs : List Run) (count : Nat)
    (s : RunMerge) : RunMerge :=
  ⟨overwrite s.data s.write (((mergeSource inPlace opened runs s.data).drop s.read).take count),
    s.read + count, s.write + count, s.added⟩

/-- The run written last is taken in when the group touches it. -/
def absorbWritten (g : Run) (s : RunMerge) : Absorbed × Nat :=
  if s.write ≠ 0 ∧ g.first ≤ (runAt s.data (s.write - 1)).last + 1 then
    (⟨g.join (runAt s.data (s.write - 1)), overlap g (runAt s.data (s.write - 1)), 0⟩, s.write - 1)
  else (⟨g, 0, 0⟩, s.write)

/-- One group: the runs in front of it move, then it is written with all it touches. -/
def mergeGroup (inPlace : Bool) (opened : Nat) (runs : List Run) (s : RunMerge) (g : Run) :
    RunMerge :=
  let source := mergeSource inPlace opened runs s.data
  let blockEnd := gallopPartitionPoint (fun i ↦ (runAt source i).last + 1 < g.first) s.read
    runs.length 1
  let s := s.moveRuns inPlace opened runs (blockEnd - s.read)
  let written := absorbWritten g s
  let source := mergeSource inPlace opened runs s.data
  let absorbed := absorbRuns g written.1 ((source.take runs.length).drop s.read)
  ⟨overwrite s.data written.2 [absorbed.merged], s.read + absorbed.taken, written.2 + 1,
    s.added + (g.length - absorbed.present)⟩

/-- The first run that is not strictly separated from the batch's first value. -/
def firstTouched (runs : List Run) (batchFront : Nat) : Nat :=
  partitionPointIn (fun i ↦ (runAt runs i).last + 1 < batchFront) 0 runs.length

/-- Where the count of opened runs settles how the result is stored. -/
def stopAfter (runs : List Run) (capacity : Nat) (sortedValues : List Nat) : Nat :=
  if runs.length + groupCount sortedValues ≤ capacity * 2 then capacity - runs.length
  else 2 ^ 32 - 1

/-- The block the result is written to: the payload itself, one like it, or a grown one. -/
def mergeWidth (runs : List Run) (capacity opened : Nat) (sortedValues : List Nat) : Nat :=
  if runs.length + opened ≤ capacity then capacity
  else max (runs.length +
    if stopAfter runs capacity sortedValues < opened then groupCount sortedValues else opened)
      (capacity * 2)

/-- The merge's start: the runs below the batch stay, and in the payload itself the others are moved
up. -/
def mergeStart (inPlace : Bool) (width opened touched : Nat) (runs : List Run) : RunMerge :=
  if inPlace then
    ⟨memmove (padTo width ⟨0, 0⟩ runs) (touched + opened) touched (runs.length - touched), touched,
      touched, 0⟩
  else ⟨padTo width ⟨0, 0⟩ (runs.take touched), touched, touched, 0⟩

/-- `add_sorted` of runs in a payload of the given capacity, shared or not: the runs, and how many
values were added. -/
def runAddSorted (runs : List Run) (capacity : Nat) (unshared : Bool) (sortedValues : List Nat) :
    List Run × Nat :=
  if sortedValues = [] then
    (runs, 0)
  else
    let touched := firstTouched runs (sortedValues.headD 0)
    if touched ≠ runs.length ∧ (runAt runs touched).first ≤ sortedValues.headD 0 ∧
        sortedValues.getLastD 0 ≤ (runAt runs touched).last then
      (runs, 0)
    else
      let groups := batchGroups sortedValues
      let opened := countOpened runs (stopAfter runs capacity sortedValues) groups touched 0
      if opened = 0 then
        (runs, 0)
      else
        let inPlace := decide (runs.length + opened ≤ capacity) && unshared
        let s := groups.foldl (mergeGroup inPlace opened runs)
          (mergeStart inPlace (mergeWidth runs capacity opened sortedValues) opened touched runs)
        let s := s.moveRuns inPlace opened runs (runs.length - s.read)
        (s.data.take s.write, s.added)

/-! ## The searches find the place -/

variable {pred : Nat → Bool} {first last step k : Nat} {runs rs : List Run} {g m r : Run}
  {vs : List Nat}

theorem gallopPartitionPoint_eq (hstep : 0 < step) (hfirst : first ≤ k) (hk : k ≤ last)
    (hbelow : ∀ i, first ≤ i → i < k → pred i = true)
    (hnot : ∀ i, k ≤ i → i < last → pred i = false) :
    gallopPartitionPoint pred first last step = k := by
  induction first, step using gallopPartitionPoint.induct pred last with
  | case1 first step h hnear =>
    rw [gallopPartitionPoint, dif_pos h, if_pos hnear]
    have hlt : first < k := by
      by_contra hge
      have := hnot first (by omega) h.1
      rw [h.2] at this
      cases this
    exact partitionPointIn_eq hlt hk (fun i hi ↦ hbelow i (by omega)) hnot
  | case2 first step h hfar hprobe =>
    rw [gallopPartitionPoint, dif_pos h, if_neg hfar, if_pos hprobe]
    have hlt : first < k := by
      by_contra hge
      have := hnot first (by omega) h.1
      rw [h.2] at this
      cases this
    have hle : k ≤ first + step := by
      by_contra hgt
      have := hbelow (first + step) (by omega) (by omega)
      rw [hprobe] at this
      cases this
    exact partitionPointIn_eq hlt hle (fun i hi ↦ hbelow i (by omega)) fun i hki hi ↦
      hnot i hki (by omega)
  | case3 first step h hfar hprobe ih =>
    rw [gallopPartitionPoint, dif_pos h, if_neg hfar, if_neg hprobe]
    have hlt : first + step < k := by
      by_contra hge
      exact hprobe (hnot (first + step) (by omega) (by omega))
    exact ih (by omega) (by omega) fun i hi ↦ hbelow i (by omega)
  | case4 first step h =>
    rw [gallopPartitionPoint, dif_neg h]
    by_contra hne
    exact h ⟨by omega, hbelow first le_rfl (by omega)⟩

/-! ## One group joins what it touches -/

/-- An interval and a run that meet or touch: what they cover, and how long they are. -/
theorem join_spec (hlast : m.last = g.last) (hm : m.first ≤ g.first) (hg : g.first ≤ g.last)
    (hr : r.first ≤ r.last) (htouch : r.first ≤ m.last + 1) (hback : g.first ≤ r.last + 1)
    (hfirst : m.first = g.first ∨ g.first < r.first) :
    (∀ v, (m.join r).first ≤ v ∧ v ≤ (m.join r).last ↔
      (m.first ≤ v ∧ v ≤ m.last) ∨ (r.first ≤ v ∧ v ≤ r.last)) ∧
      (m.join r).length + overlap g r = m.length + r.length := by
  simp only [Run.join, Run.length, overlap]
  constructor
  · intro v
    omega
  · omega

/-- The loop takes in the runs of the front, all of them that it touches. -/
structure Absorbed.Takes (s s' : Absorbed) (front back : List Run) : Prop where
  taken : s'.taken = s.taken + front.length
  covers : ∀ v, s'.merged.first ≤ v ∧ v ≤ s'.merged.last ↔
    (s.merged.first ≤ v ∧ v ≤ s.merged.last) ∨ v ∈ runValues front
  length : s'.merged.length + s'.present = s.merged.length + s.present + runCardinality front
  apart : ∀ r ∈ back, s'.merged.last + 1 < r.first
  first_le : s'.merged.first ≤ s.merged.first
  le_last : s.merged.last ≤ s'.merged.last

theorem absorbRuns_takes {s : Absorbed} (hrs : Canonical rs) (hg : g.first ≤ g.last)
    (hm : s.merged.first ≤ g.first) (hlast : g.last ≤ s.merged.last)
    (hend : s.merged.last = g.last ∨ ∀ r ∈ rs, s.merged.last + 1 < r.first)
    (hfirst : s.merged.first = g.first ∨ ∀ r ∈ rs, g.first < r.first)
    (htouch : ∀ r ∈ rs, g.first ≤ r.last + 1) :
    ∃ front back, rs = front ++ back ∧ s.Takes (absorbRuns g s rs) front back := by
  induction rs generalizing s with
  | nil =>
    refine ⟨[], [], rfl, rfl, ?_, rfl, nofun, le_rfl, le_rfl⟩
    intro v
    rw [runValues_nil, absorbRuns]
    simp
  | cons r rs ih =>
    rw [absorbRuns]
    by_cases hjoin : r.first ≤ s.merged.last + 1
    · rw [if_pos hjoin]
      have heq : s.merged.last = g.last := by
        rcases hend with heq | hall
        · exact heq
        · have := hall r List.mem_cons_self
          omega
      have hr := hrs.head_le
      have hback := htouch r List.mem_cons_self
      obtain ⟨hcovers, hlength⟩ := join_spec heq hm hg hr hjoin hback
        (hfirst.imp_right fun hall ↦ hall r List.mem_cons_self)
      obtain ⟨front, back, rfl, htakes⟩ := ih
        (s := ⟨s.merged.join r, s.present + overlap g r, s.taken + 1⟩) hrs.tail
        ((min_le_left _ _).trans hm) (hlast.trans (le_max_left _ _))
        (by
          simp only [Run.join, heq]
          rcases le_total r.last g.last with hle | hle
          · exact .inl (max_eq_left hle)
          · rw [max_eq_right hle]
            exact .inr fun r' hr' ↦ hrs.head_apart hr')
        (.inr fun r' hr' ↦ hback.trans_lt (hrs.head_apart hr'))
        fun r' hr' ↦ htouch r' (List.mem_cons_of_mem r hr')
      refine ⟨r :: front, back, rfl, ?_, ?_, ?_, htakes.apart, ?_, ?_⟩
      · rw [htakes.taken, List.length_cons]
        show s.taken + 1 + front.length = _
        omega
      · intro v
        rw [htakes.covers v, hcovers v, runValues_cons, List.mem_append, Run.mem_values, or_assoc]
      · have hsum := htakes.length
        rw [runCardinality_cons]
        simp only at hsum
        omega
      · exact htakes.first_le.trans (min_le_left _ _)
      · exact (le_max_left _ _).trans htakes.le_last
    · rw [if_neg hjoin]
      refine ⟨[], r :: rs, rfl, rfl, ?_, rfl, ?_, le_rfl, le_rfl⟩
      · intro v
        rw [runValues_nil]
        simp
      · intro r' hr'
        rcases List.mem_cons.1 hr' with rfl | hr'
        · omega
        · have happart := hrs.head_apart hr'
          have hr := hrs.head_le
          omega

/-- What a group starts from: itself, or with it the run in front of it that it touches. -/
inductive Starts (g : Run) : (touching : List Run) → Absorbed → Prop
  | alone : Starts g [] ⟨g, 0, 0⟩
  | joined {t : Run} (first : t.first < g.first) (touch : g.first ≤ t.last + 1) :
      Starts g [t] ⟨g.join t, overlap g t, 0⟩

theorem Canonical.sublist {runs rs : List Run} (h : Canonical runs) (hsub : rs.Sublist runs) :
    Canonical rs := by
  refine ⟨?_, h.apart.sublist hsub, ?_⟩
  · intro r hr
    exact h.forward r (hsub.subset hr)
  · intro r hr
    exact h.bounded r (hsub.subset hr)

theorem Starts.covers {ts : List Run} {s : Absorbed} (hs : Starts g ts s) (hg : g.first ≤ g.last)
    (hts : ∀ t ∈ ts, t.first ≤ t.last) :
    (∀ v, s.merged.first ≤ v ∧ v ≤ s.merged.last ↔ (g.first ≤ v ∧ v ≤ g.last) ∨ v ∈ runValues ts) ∧
      s.merged.length + s.present = g.length + runCardinality ts ∧ s.taken = 0 ∧
      s.merged.first ≤ g.first ∧ g.last ≤ s.merged.last := by
  cases hs with
  | alone =>
    refine ⟨?_, rfl, rfl, le_rfl, le_rfl⟩
    intro v
    rw [runValues_nil]
    simp
  | @joined t hfirst htouch =>
    have ht := hts t List.mem_cons_self
    refine ⟨?_, ?_, rfl, min_le_left _ _, le_max_left _ _⟩
    · intro v
      rw [mem_runValues]
      simp only [Run.join, List.mem_singleton, exists_eq_left]
      omega
    · simp only [Run.join, Run.length, overlap, runCardinality_cons, runCardinality_nil]
      omega

variable {fs ts rest : List Run} {start : Absorbed}

/-- A group between the runs strictly in front of it and the others: the runs stay canonical, hold
the group as well, and one run at least goes when the group lies in one. -/
structure Joins (g : Run) (fs ts rest : List Run) (a : Absorbed) : Prop where
  taken_le : a.taken ≤ rest.length
  canonical : Canonical (fs ++ a.merged :: rest.drop a.taken)
  mem : ∀ v, v ∈ runValues (fs ++ a.merged :: rest.drop a.taken) ↔
    v ∈ runValues (fs ++ (ts ++ rest)) ∨ (g.first ≤ v ∧ v ≤ g.last)
  cardinality : runCardinality (fs ++ a.merged :: rest.drop a.taken) =
    runCardinality (fs ++ (ts ++ rest)) + (g.length - a.present)
  first_le : a.merged.first ≤ g.first
  joined : (∃ r ∈ fs ++ (ts ++ rest), r.first ≤ g.first ∧ g.last ≤ r.last) → 1 ≤ ts.length + a.taken

/-- The loop over the runs behind what a group starts from. -/
theorem Starts.takes (hstart : Starts g ts start) (htr : Canonical (ts ++ rest))
    (hg : g.first ≤ g.last) (hrest : ∀ r ∈ rest, g.first ≤ r.last + 1) :
    ∃ front back, rest = front ++ back ∧ start.Takes (absorbRuns g start rest) front back := by
  obtain ⟨-, -, -, hfirst, hlast⟩ :=
    hstart.covers hg fun t ht ↦ htr.forward t (List.mem_append_left _ ht)
  refine absorbRuns_takes (htr.sublist (List.sublist_append_right _ _)) hg hfirst hlast ?_ ?_ hrest
  · cases hstart with
    | alone => exact .inl rfl
    | @joined t ht htouch =>
      simp only [Run.join]
      rcases le_total t.last g.last with hle | hle
      · exact .inl (max_eq_left hle)
      · rw [max_eq_right hle]
        exact .inr fun r hr ↦ List.rel_of_pairwise_cons htr.apart hr
  · cases hstart with
    | alone => exact .inl rfl
    | joined ht htouch =>
      exact .inr fun r hr ↦ htouch.trans_lt (List.rel_of_pairwise_cons htr.apart hr)

/-- A group and the runs it takes in are the merged interval, and the values that were there already
are a part of the group. -/
theorem present_le {a : Absorbed} {rs : List Run} (hrs : Canonical rs)
    (hm : a.merged.first ≤ a.merged.last)
    (hall : ∀ v, a.merged.first ≤ v ∧ v ≤ a.merged.last ↔
      (g.first ≤ v ∧ v ≤ g.last) ∨ v ∈ runValues rs)
    (hsum : a.merged.length + a.present = g.length + runCardinality rs) : a.present ≤ g.length := by
  have hsub : runCardinality rs ≤ a.merged.length := by
    rw [← hrs.length_values, ← Run.length_values hm]
    refine length_le_of_ascending hrs.values_ascending ?_
    intro v hv
    rw [Run.mem_values]
    exact (hall v).2 (.inr hv)
  omega

/-- A run stands in the place of others. -/
theorem Canonical.replace {back : List Run} (h : Canonical (fs ++ (ts ++ back)))
    (hm : m.first ≤ m.last) (hlt : m.last < lowDomainSize) (hfront : ∀ r ∈ fs, r.last + 1 < m.first)
    (hback : ∀ r ∈ back, m.last + 1 < r.first) : Canonical (fs ++ m :: back) := by
  have hfs : Canonical fs := h.sublist (List.sublist_append_left _ _)
  have hbs : Canonical back :=
    h.sublist ((List.sublist_append_right _ _).trans (List.sublist_append_right _ _))
  refine ⟨?_, List.pairwise_append.2 ⟨hfs.apart, List.pairwise_cons.2 ⟨hback, hbs.apart⟩, ?_⟩, ?_⟩
  · intro r hr
    rcases List.mem_append.1 hr with hr | hr
    · exact hfs.forward r hr
    · rcases List.mem_cons.1 hr with rfl | hr
      · exact hm
      · exact hbs.forward r hr
  · intro r hr r' hr'
    rcases List.mem_cons.1 hr' with rfl | hr'
    · exact hfront r hr
    · exact (List.pairwise_append.1 h.apart).2.2 r hr r' (List.mem_append_right _ hr')
  · intro r hr
    rcases List.mem_append.1 hr with hr | hr
    · exact hfs.bounded r hr
    · rcases List.mem_cons.1 hr with rfl | hr
      · exact hlt
      · exact hbs.bounded r hr

theorem absorbRuns_joins (h : Canonical (fs ++ (ts ++ rest))) (hg : g.first ≤ g.last)
    (hlt : g.last < lowDomainSize) (hfs : ∀ r ∈ fs, r.last + 1 < g.first)
    (hstart : Starts g ts start)
    (hrest : ∀ r ∈ rest, g.first ≤ r.last + 1) : Joins g fs ts rest (absorbRuns g start rest) := by
  have htr : Canonical (ts ++ rest) := h.sublist (List.sublist_append_right _ _)
  obtain ⟨hcovers, hlength, htaken, hfirst, hlast⟩ :=
    hstart.covers hg fun t ht ↦ htr.forward t (List.mem_append_left _ ht)
  obtain ⟨front, back, rfl, htakes⟩ := hstart.takes htr hg hrest
  set a := absorbRuns g start (front ++ back) with ha
  have hcount : a.taken = front.length := by rw [htakes.taken, htaken, Nat.zero_add]
  have hdrop : (front ++ back).drop a.taken = back := by rw [hcount, List.drop_left]
  have hall : ∀ v, a.merged.first ≤ v ∧ v ≤ a.merged.last ↔
      (g.first ≤ v ∧ v ≤ g.last) ∨ v ∈ runValues (ts ++ front) := by
    intro v
    rw [htakes.covers v, hcovers v, runValues_append, List.mem_append, or_assoc]
  have hsum : a.merged.length + a.present = g.length + runCardinality (ts ++ front) := by
    rw [htakes.length, hlength, runCardinality_append, Nat.add_assoc]
  have hmerged : a.merged.first ≤ a.merged.last :=
    (htakes.first_le.trans hfirst).trans (hg.trans (hlast.trans htakes.le_last))
  rw [← List.append_assoc ts] at h htr
  have htf : Canonical (ts ++ front) := htr.sublist (List.sublist_append_left _ _)
  have hpresent := present_le htf hmerged hall hsum
  have hfm : ∀ r ∈ fs, r.last + 1 < a.merged.first := by
    intro r hr
    rcases (hall a.merged.first).1 ⟨le_rfl, hmerged⟩ with hin | hin
    · exact (hfs r hr).trans_le hin.1
    · obtain ⟨t, ht, hle, -⟩ := mem_runValues.1 hin
      exact ((List.pairwise_append.1 h.apart).2.2 r hr t (List.mem_append_left _ ht)).trans_le hle
  have hmlt : a.merged.last < lowDomainSize := by
    rcases (hall a.merged.last).1 ⟨hmerged, le_rfl⟩ with hin | hin
    · exact hin.2.trans_lt hlt
    · exact htf.values_lt _ hin
  constructor
  · rw [hcount, List.length_append]
    exact Nat.le_add_right _ _
  · rw [hdrop]
    exact h.replace hmerged hmlt hfm htakes.apart
  · intro v
    rw [hdrop, ← List.append_assoc ts]
    simp only [runValues_append fs, runValues_append (ts ++ front), runValues_cons, List.mem_append,
      Run.mem_values, hall v]
    tauto
  · rw [hdrop, ← List.append_assoc ts]
    simp only [runCardinality_append fs, runCardinality_append (ts ++ front), runCardinality_cons]
    omega
  · exact htakes.first_le.trans hfirst
  · rintro ⟨r, hr, hin⟩
    rw [hcount]
    have hforward := h.forward r (by simpa only [List.append_assoc] using hr)
    rcases List.mem_append.1 hr with hr | hr
    · have happart := hfs r hr
      omega
    · rcases List.mem_append.1 hr with hr | hr
      · have hpos := List.length_pos_of_mem hr
        omega
      · rcases List.mem_append.1 hr with hr | hr
        · have hpos := List.length_pos_of_mem hr
          omega
        · have happart := htakes.apart r hr
          have hle := htakes.le_last
          omega

/-! ## The merge in a block -/

/-- A group lies in one of the runs. -/
def Inside (runs : List Run) (g : Run) : Prop := ∃ r ∈ runs, r.first ≤ g.first ∧ g.last ≤ r.last

instance (runs : List Run) (g : Run) : Decidable (Inside runs g) :=
  inferInstanceAs (Decidable (∃ r ∈ runs, r.first ≤ g.first ∧ g.last ≤ r.last))

/-- How many of the groups lie in no run. -/
def openedBy (runs groups : List Run) : Nat := groups.countP fun g ↦ ¬ Inside runs g

theorem openedBy_le_length (runs groups : List Run) : openedBy runs groups ≤ groups.length :=
  List.countP_le_length

/-- Canonical runs that hold an interval hold it in one run. -/
theorem Canonical.inside (h : Canonical rs) (hg : g.first ≤ g.last)
    (hin : ∀ v, g.first ≤ v → v ≤ g.last → v ∈ runValues rs) : Inside rs g := by
  obtain ⟨r, hr, hfirst, hle⟩ := mem_runValues.1 (hin g.first le_rfl hg)
  refine ⟨r, hr, hfirst, ?_⟩
  by_contra hlast
  -- the value behind the run would have to lie in another one, which the gap between runs forbids
  obtain ⟨t, ht, htf, htl⟩ := mem_runValues.1 (hin (r.last + 1) (by omega) (by omega))
  obtain ⟨i, hi, rfl⟩ := List.mem_iff_getElem.1 hr
  obtain ⟨j, hj, rfl⟩ := List.mem_iff_getElem.1 ht
  rcases Nat.lt_trichotomy i j with hij | rfl | hij
  · have happart := List.pairwise_iff_getElem.1 h.apart i j hi hj hij
    omega
  · omega
  · have happart := List.pairwise_iff_getElem.1 h.apart j i hj hi hij
    omega

variable {inPlace : Bool} {opened width count : Nat} {H done pending : List Run} {s : RunMerge}

/-- What the merge keeps: the runs not yet read are those of the list as it was; with what is
written they are canonical and hold the groups that are done as well; and there are no more of them
than those groups can have opened. -/
structure RunMerge.Keeps (inPlace : Bool) (opened width : Nat) (H done : List Run) (s : RunMerge) :
    Prop where
  length : s.data.length = width
  read_le : s.read ≤ H.length
  unread : ((mergeSource inPlace opened H s.data).take H.length).drop s.read = H.drop s.read
  canonical : Canonical (s.data.take s.write ++ H.drop s.read)
  mem : ∀ v, v ∈ runValues (s.data.take s.write ++ H.drop s.read) ↔ v ∈ runValues H ∨
    v ∈ runValues done
  cardinality : runCardinality (s.data.take s.write ++ H.drop s.read) = runCardinality H + s.added
  room : s.write + (H.length - s.read) ≤ H.length + openedBy H done

/-- The block has room for all that the groups can open, and in the payload itself the gap is as
large. -/
structure MergeRoom (inPlace : Bool) (opened width : Nat) (H groups : List Run) : Prop where
  fits : H.length + openedBy H groups ≤ width
  gap : inPlace = true → openedBy H groups ≤ opened

/-- A write that ends in front of what is not yet read leaves it as it is. -/
theorem mergeSource_overwrite {data xs : List Run} {at' j : Nat} (hat : at' ≤ data.length)
    (hfront : inPlace = true → at' + xs.length ≤ j + opened) :
    ((mergeSource inPlace opened H (overwrite data at' xs)).take H.length).drop j =
      ((mergeSource inPlace opened H data).take H.length).drop j := by
  cases inPlace with
  | false => rfl
  | true =>
    have hle : at' + xs.length ≤ opened + j := by
      rw [Nat.add_comm opened]
      exact hfront rfl
    simp only [mergeSource, if_true]
    rw [List.drop_take, List.drop_take, List.drop_drop, List.drop_drop,
      drop_overwrite_of_le hat hle]

theorem take_drop_eq {l : List Run} {n i : Nat} (hi : i + count ≤ n) :
    (l.drop i).take count = ((l.take n).drop i).take count := by
  rw [List.drop_take, List.take_take, min_eq_left (by omega)]

theorem RunMerge.Keeps.moveRuns (hs : s.Keeps inPlace opened width H done)
    (hroom : MergeRoom inPlace opened width H (done ++ pending)) (count : Nat)
    (hcount : count ≤ H.length - s.read) :
    (s.moveRuns inPlace opened H count).Keeps inPlace opened width H done ∧
      (s.moveRuns inPlace opened H count).data.take (s.write + count) =
        s.data.take s.write ++ (H.drop s.read).take count := by
  have hread := hs.read_le
  have hwrite := hs.room
  have hfits := hroom.fits
  have hlen := hs.length
  have hopened : openedBy H done ≤ openedBy H (done ++ pending) := by
    rw [openedBy, openedBy, List.countP_append]
    exact Nat.le_add_right _ _
  have hblock : ((mergeSource inPlace opened H s.data).drop s.read).take count =
      (H.drop s.read).take count := by
    rw [take_drop_eq (n := H.length) (by omega), hs.unread]
  have hblocklen : ((H.drop s.read).take count).length = count := by
    rw [List.length_take, List.length_drop]
    omega
  have hmove : s.moveRuns inPlace opened H count =
      ⟨overwrite s.data s.write ((H.drop s.read).take count), s.read + count, s.write + count,
        s.added⟩ := by
    rw [RunMerge.moveRuns, hblock]
  have htake : (overwrite s.data s.write ((H.drop s.read).take count)).take (s.write + count) =
      s.data.take s.write ++ (H.drop s.read).take count := by
    have hcut : (overwrite s.data s.write ((H.drop s.read).take count)).take
        (s.write + ((H.drop s.read).take count).length) = s.data.take s.write ++
          (H.drop s.read).take count :=
      take_add_overwrite (by omega)
    rwa [hblocklen] at hcut
  have hlist : s.data.take s.write ++ (H.drop s.read).take count ++ H.drop (s.read + count) =
      s.data.take s.write ++ H.drop s.read := by
    rw [List.append_assoc, ← List.drop_drop, List.take_append_drop]
  rw [hmove]
  refine ⟨⟨?_, ?_, ?_, ?_, ?_, ?_, ?_⟩, htake⟩
  · show (overwrite s.data s.write _).length = width
    rw [length_overwrite (by omega), hlen]
  · show s.read + count ≤ H.length
    omega
  · show ((mergeSource inPlace opened H (overwrite s.data s.write _)).take H.length).drop
      (s.read + count) = _
    rw [mergeSource_overwrite (by omega), ← List.drop_drop, hs.unread, List.drop_drop]
    intro hin
    have hgap := hroom.gap hin
    omega
  · simp only [htake, hlist]
    exact hs.canonical
  · simp only [htake, hlist]
    exact hs.mem
  · simp only [htake, hlist]
    exact hs.cardinality
  · show s.write + count + (H.length - (s.read + count)) ≤ _
    omega

/-- The group starts from what it touches among the runs written. -/
theorem absorbWritten_starts (hwrite : s.write ≤ s.data.length)
    (hc : Canonical (s.data.take s.write))
    (hbehind : ∀ r ∈ s.data.take s.write, r.first < g.first) :
    ∃ ts, s.data.take s.write = s.data.take (absorbWritten g s).2 ++ ts ∧
      (absorbWritten g s).2 + ts.length = s.write ∧ Starts g ts (absorbWritten g s).1 ∧
      ∀ r ∈ s.data.take (absorbWritten g s).2, r.last + 1 < g.first := by
  obtain ⟨data, read, write, added⟩ := s
  simp only at hwrite hc hbehind
  rw [absorbWritten]
  rcases Nat.eq_zero_or_pos write with rfl | hpos
  · rw [if_neg (by simp)]
    exact ⟨[], by simp, rfl, .alone, by simp⟩
  have hlt : write - 1 < data.length := by omega
  have hat : runAt data (write - 1) = data[write - 1] := List.getD_eq_getElem _ _ hlt
  have hsplit : data.take write = data.take (write - 1) ++ [data[write - 1]] := by
    rw [← List.take_succ_eq_append_getElem hlt, Nat.sub_add_cancel hpos]
  rw [hsplit] at hc hbehind
  obtain ⟨-, hle, -, happart⟩ := Canonical.append_singleton_iff.1 hc
  have hfirst := hbehind data[write - 1] (List.mem_append_right _ List.mem_cons_self)
  simp only [hat]
  split
  · rename_i htouch
    refine ⟨[data[write - 1]], hsplit, Nat.sub_add_cancel hpos, .joined hfirst htouch.2, ?_⟩
    intro r hr
    have := happart r hr
    omega
  · rename_i hapart
    refine ⟨[], by rw [List.append_nil], rfl, .alone, ?_⟩
    intro r hr
    rw [hsplit] at hr
    have hlast : data[write - 1].last + 1 < g.first := by
      by_contra hge
      exact hapart ⟨by omega, by omega⟩
    rcases List.mem_append.1 hr with hr | hr
    · have := happart r hr
      omega
    · rw [List.mem_singleton.1 hr]
      exact hlast

theorem runAt_of_lt {i : Nat} (hi : i < rs.length) : runAt rs i = rs[i] :=
  List.getD_eq_getElem _ _ hi

theorem runAt_last_mono (hH : Canonical H) {i j : Nat} (hij : i ≤ j) (hj : j < H.length) :
    (runAt H i).last ≤ (runAt H j).last := by
  rw [runAt_of_lt hj, runAt_of_lt (by omega)]
  rcases Nat.eq_or_lt_of_le hij with rfl | hij
  · exact le_rfl
  · have happart := List.pairwise_iff_getElem.1 hH.apart i j (by omega) hj hij
    have hforward := hH.forward H[j] (List.getElem_mem hj)
    omega

/-- The first old run that is not strictly in front of the group, from `read` on. -/
theorem exists_blockEnd (hH : Canonical H) (read : Nat) (hread : read ≤ H.length) (g : Run) :
    ∃ k, read ≤ k ∧ k ≤ H.length ∧ (∀ i, read ≤ i → i < k → (runAt H i).last + 1 < g.first) ∧
      ∀ i, k ≤ i → i < H.length → ¬ (runAt H i).last + 1 < g.first := by
  obtain ⟨k, hk⟩ : ∃ k, PartitionPoint (fun i ↦ (runAt H i).last + 1 < g.first) H.length k := by
    apply PartitionPoint.exists_of_antitone
    intro i j hij hj hlt
    have hmono := runAt_last_mono hH hij hj
    omega
  refine ⟨max read k, le_max_left _ _, max_le hread hk.le, ?_, ?_⟩
  · intro i hi hik
    exact hk.of_lt i (by omega)
  · intro i hi
    exact hk.not_of_le i ((le_max_right _ _).trans hi)

/-- Where a block and the old runs agree from `read` on, they have the same runs there. -/
theorem runAt_source {source : List Run} {read i : Nat}
    (h : (source.take H.length).drop read = H.drop read)
    (hi : read ≤ i) (hn : i < H.length) : runAt source i = runAt H i := by
  have hget := congrArg (fun l : List Run ↦ l[i - read]?) h
  simp only [List.getElem?_drop, Nat.add_sub_cancel' hi, List.getElem?_take_of_lt hn] at hget
  rw [runAt, runAt, List.getD_eq_getElem?_getD, List.getD_eq_getElem?_getD, hget]

theorem openedBy_snoc (H done : List Run) (g : Run) :
    openedBy H (done ++ [g]) = openedBy H done + if Inside H g then 0 else 1 := by
  rw [openedBy, List.countP_append, List.countP_singleton]
  by_cases hin : Inside H g
  · simp [hin, openedBy]
  · simp [hin, openedBy]

/-- The search over the runs not yet read ends where the block in front of a group does. -/
theorem RunMerge.Keeps.block (hH : Canonical H) (hs : s.Keeps inPlace opened width H done)
    (g : Run) :
    ∃ k, s.read ≤ k ∧ k ≤ H.length ∧
      gallopPartitionPoint
        (fun i ↦ (runAt (mergeSource inPlace opened H s.data) i).last + 1 < g.first)
        s.read H.length 1 = k ∧
      (∀ r ∈ (H.drop s.read).take (k - s.read), r.last + 1 < g.first) ∧
      ∀ r ∈ H.drop k, g.first ≤ r.last + 1 := by
  obtain ⟨k, hrk, hkn, hblock, hnot⟩ := exists_blockEnd hH s.read hs.read_le g
  refine ⟨k, hrk, hkn, ?_, ?_, ?_⟩
  · apply gallopPartitionPoint_eq Nat.one_pos hrk hkn
    · intro i hi hik
      rw [runAt_source hs.unread hi (by omega)]
      exact decide_eq_true (hblock i hi hik)
    · intro i hik hi
      rw [runAt_source hs.unread (by omega) hi]
      exact decide_eq_false (hnot i hik hi)
  · intro r hr
    obtain ⟨i, hi, rfl⟩ := List.mem_iff_getElem.1 hr
    rw [List.length_take, List.length_drop] at hi
    rw [List.getElem_take, List.getElem_drop]
    have hlast := hblock (s.read + i) (by omega) (by omega)
    rwa [runAt_of_lt (by omega)] at hlast
  · intro r hr
    obtain ⟨i, hi, rfl⟩ := List.mem_iff_getElem.1 hr
    rw [List.length_drop] at hi
    rw [List.getElem_drop]
    have hge := hnot (k + i) (by omega) (by omega)
    rw [runAt_of_lt (by omega)] at hge
    omega

/-- The merged run is written over the runs it takes in. -/
theorem RunMerge.Keeps.writeMerged (hs : s.Keeps inPlace opened width H done)
    (hroom : MergeRoom inPlace opened width H (done ++ g :: pending)) (hg : g.first ≤ g.last)
    {at' : Nat} {a : Absorbed} (hsplit : s.data.take s.write = s.data.take at' ++ ts)
    (hcount : at' + ts.length = s.write)
    (hjoins : Joins g (s.data.take at') ts (H.drop s.read) a) :
    (overwrite s.data at' [a.merged]).take (at' + 1) = s.data.take at' ++ [a.merged] ∧
      (⟨overwrite s.data at' [a.merged], s.read + a.taken, at' + 1,
        s.added + (g.length - a.present)⟩ : RunMerge).Keeps inPlace opened width H
          (done ++ [g]) := by
  have hfits := hroom.fits
  have hopened : openedBy H (done ++ [g]) ≤ openedBy H (done ++ g :: pending) := by
    rw [List.append_cons done g pending]
    exact (List.sublist_append_left _ _).countP_le
  have hspace := hs.room
  have hread := hs.read_le
  have hlen := hs.length
  have hdone := openedBy_snoc H done g
  have htaken := hjoins.taken_le
  rw [List.length_drop] at htaken
  have hcanonical := hs.canonical
  have hlist := hs.mem
  have hcard := hs.cardinality
  rw [hsplit, List.append_assoc] at hcanonical hlist hcard
  -- a group inside one of the old runs takes in at least the run it lies in
  have hjoined : Inside H g → 1 ≤ ts.length + a.taken := by
    rintro ⟨r, hr, hfirst, hlast⟩
    apply hjoins.joined
    apply hcanonical.inside hg
    intro v hv hvl
    exact (hlist v).2 (.inl (mem_runValues.2 ⟨r, hr, hfirst.trans hv, hvl.trans hlast⟩))
  have hwidth : at' + 1 + (H.length - (s.read + a.taken)) ≤ H.length + openedBy H
      (done ++ [g]) := by
    rw [hdone]
    split
    · rename_i hin
      have := hjoined hin
      omega
    · omega
  have htake : (overwrite s.data at' [a.merged]).take (at' + [a.merged].length) =
      s.data.take at' ++ [a.merged] := take_add_overwrite (by omega)
  rw [List.length_singleton] at htake
  have hnew : (overwrite s.data at' [a.merged]).take (at' + 1) ++ H.drop (s.read + a.taken) =
      s.data.take at' ++ a.merged :: (H.drop s.read).drop a.taken := by
    rw [htake, List.append_assoc, List.drop_drop]
    rfl
  refine ⟨htake, ?_, ?_, ?_, ?_, ?_, ?_, hwidth⟩
  · show (overwrite s.data at' [a.merged]).length = width
    rw [length_overwrite, hlen]
    rw [List.length_singleton]
    omega
  · show s.read + a.taken ≤ H.length
    omega
  · show ((mergeSource inPlace opened H (overwrite s.data at' [a.merged])).take H.length).drop
      (s.read + a.taken) = _
    rw [mergeSource_overwrite (by omega), ← List.drop_drop, hs.unread, List.drop_drop]
    intro hin
    have hgap := hroom.gap hin
    rw [List.length_singleton]
    omega
  · simp only [hnew]
    exact hjoins.canonical
  · simp only [hnew]
    intro v
    rw [hjoins.mem v, hlist v, runValues_append, List.mem_append, runValues_cons, runValues_nil,
      List.append_nil, Run.mem_values, or_assoc]
  · simp only [hnew]
    rw [hjoins.cardinality, hcard, Nat.add_assoc]

theorem mergeGroup_keeps (hH : Canonical H) (hs : s.Keeps inPlace opened width H done)
    (hroom : MergeRoom inPlace opened width H (done ++ g :: pending)) (hg : g.first ≤ g.last)
    (hlt : g.last < lowDomainSize) (hbehind : ∀ r ∈ s.data.take s.write, r.first < g.first) :
    (mergeGroup inPlace opened H s g).Keeps inPlace opened width H (done ++ [g]) ∧
      ∀ r ∈ (mergeGroup inPlace opened H s g).data.take (mergeGroup inPlace opened H s g).write,
        r.first ≤ g.first := by
  obtain ⟨k, hrk, hkn, hfound, hblock, hbehind'⟩ := hs.block hH g
  obtain ⟨hmoved, htake⟩ := hs.moveRuns hroom (k - s.read) (by omega)
  have hmread : (s.moveRuns inPlace opened H (k - s.read)).read = k := Nat.add_sub_cancel' hrk
  have hmwrite : (s.moveRuns inPlace opened H (k - s.read)).write = s.write + (k - s.read) := rfl
  rw [← hmwrite] at htake
  simp only [mergeGroup, hfound]
  generalize s.moveRuns inPlace opened H (k - s.read) = s₁ at hmoved htake hmread hmwrite
  have hfront : ∀ r ∈ s₁.data.take s₁.write, r.first < g.first := by
    intro r hr
    rw [htake] at hr
    rcases List.mem_append.1 hr with hr | hr
    · exact hbehind r hr
    · have hlast := hblock r hr
      have hforward := hH.forward r (List.mem_of_mem_drop (List.mem_of_mem_take hr))
      omega
  have hcanonical := hmoved.canonical
  obtain ⟨ts, hsplit, hcount, hstart, hfs⟩ := absorbWritten_starts
    (by
      have hspace := hmoved.room
      have hopened : openedBy H done ≤ openedBy H (done ++ g :: pending) :=
        (List.sublist_append_left _ _).countP_le
      have hfits := hroom.fits
      have hread := hmoved.read_le
      have hlen := hmoved.length
      omega)
    (hcanonical.sublist (List.sublist_append_left _ _)) hfront
  rw [hsplit, List.append_assoc] at hcanonical
  have hjoins := absorbRuns_joins hcanonical hg hlt hfs hstart (by rwa [hmread])
  rw [hmoved.unread]
  generalize absorbWritten g s₁ = written at hsplit hcount hstart hfs hcanonical hjoins ⊢
  generalize absorbRuns g written.1 (H.drop s₁.read) = a at hjoins ⊢
  obtain ⟨htake', hkeeps⟩ := hmoved.writeMerged hroom hg hsplit hcount hjoins
  refine ⟨hkeeps, ?_⟩
  intro r hr
  rw [htake'] at hr
  rcases List.mem_append.1 hr with hr | hr
  · have hforward := hcanonical.forward r (List.mem_append_left _ hr)
    have happart := hfs r hr
    omega
  · rw [List.mem_singleton.1 hr]
    exact hjoins.first_le

theorem foldl_mergeGroup_keeps (hH : Canonical H) (hs : s.Keeps inPlace opened width H done)
    (hroom : MergeRoom inPlace opened width H (done ++ pending)) (hpending : Canonical pending)
    (hbehind : ∀ g ∈ pending, ∀ r ∈ s.data.take s.write, r.first < g.first) :
    (pending.foldl (mergeGroup inPlace opened H) s).Keeps inPlace opened width H
      (done ++ pending) := by
  induction pending generalizing s done with
  | nil =>
    rw [List.append_nil]
    exact hs
  | cons g pending ih =>
    have hg := hpending.head_le
    obtain ⟨hkeeps, hfirst⟩ :=
      mergeGroup_keeps hH hs hroom hg (hpending.bounded g List.mem_cons_self)
      (hbehind g List.mem_cons_self)
    rw [List.append_cons] at hroom ⊢
    refine ih hkeeps hroom hpending.tail ?_
    intro g' hg' r hr
    have happart := hpending.head_apart hg'
    have hle := hfirst r hr
    omega

/-! ## Groups of the batch and the runs they open -/

theorem extendGroup_eq (hasc : (last :: vs).Pairwise (· < ·)) (hlt : ∀ v ∈ vs, v < lowDomainSize) :
    extendGroup first last vs = extendRuns first last vs := by
  induction vs generalizing first last with
  | nil => rfl
  | cons v vs ih =>
    have hv := hlt v List.mem_cons_self
    have hlv : last < v := List.rel_of_pairwise_cons hasc List.mem_cons_self
    have hrest : ∀ w ∈ vs, w < lowDomainSize := fun w hw ↦ hlt w (List.mem_cons_of_mem v hw)
    rw [extendGroup, extendRuns, ih hasc.of_cons hrest, ih hasc.of_cons hrest]
    simp only [extends_iff hv hlv]

theorem batchGroups_eq (hasc : vs.Pairwise (· < ·)) (hlt : ∀ v ∈ vs, v < lowDomainSize) :
    batchGroups vs = runsFromSortedValues vs := by
  cases vs with
  | nil => rfl
  | cons v vs => exact extendGroup_eq hasc fun w hw ↦ hlt w (List.mem_cons_of_mem v hw)

theorem length_extendGroup : (extendGroup first last vs).length = 1 + countGroupStarts last vs := by
  induction vs generalizing first last with
  | nil => rfl
  | cons v vs ih =>
    rw [extendGroup, countGroupStarts]
    split
    · rename_i hnext
      rw [ih, if_neg (not_not.2 hnext), Nat.zero_add]
    · rename_i hnext
      rw [List.length_cons, ih, Nat.add_comm]

theorem length_batchGroups (hne : vs ≠ []) : (batchGroups vs).length = groupCount vs := by
  cases vs with
  | nil => exact absurd rfl hne
  | cons v vs => exact length_extendGroup

/-- The run found first from a group's beginning on is the one the group lies in, if there is
one. -/
theorem inside_iff (hH : Canonical H) (hg : g.first ≤ g.last) (hk : k ≤ H.length)
    (hbelow : ∀ i < k, (runAt H i).last < g.first)
    (hnot : ∀ i, k ≤ i → i < H.length → g.first ≤ (runAt H i).last) :
    (k ≠ H.length ∧ (runAt H k).first ≤ g.first ∧ g.last ≤ (runAt H k).last) ↔ Inside H g := by
  constructor
  · rintro ⟨hne, hfirst, hlast⟩
    have hlt : k < H.length := lt_of_le_of_ne hk hne
    rw [runAt_of_lt hlt] at hfirst hlast
    exact ⟨H[k], List.getElem_mem hlt, hfirst, hlast⟩
  · rintro ⟨r, hr, hfirst, hlast⟩
    obtain ⟨i, hi, rfl⟩ := List.mem_iff_getElem.1 hr
    have hki : k ≤ i := by
      by_contra hlt
      have hbefore := hbelow i (by omega)
      rw [runAt_of_lt hi] at hbefore
      omega
    rcases Nat.eq_or_lt_of_le hki with rfl | hki
    · rw [runAt_of_lt hi]
      exact ⟨hi.ne, hfirst, hlast⟩
    · have happart := List.pairwise_iff_getElem.1 hH.apart k i (by omega) hi hki
      have hreach := hnot k le_rfl (by omega)
      rw [runAt_of_lt (by omega)] at hreach
      omega

/-- The pass counts the groups that lie in no run, or stops when they are more than it was to
count. -/
theorem countOpened_spec {cursor : Nat} {groups : List Run} (stop opened : Nat) (hH : Canonical H)
    (hgroups : Canonical groups) (hcursor : cursor ≤ H.length)
    (hbelow : ∀ g ∈ groups, ∀ i < cursor, (runAt H i).last < g.first) :
    countOpened H stop groups cursor opened = opened + openedBy H groups ∨
      (stop < countOpened H stop groups cursor opened ∧
        countOpened H stop groups cursor opened ≤ opened + openedBy H groups) := by
  induction groups generalizing cursor opened with
  | nil => exact .inl rfl
  | cons g groups ih =>
    rw [countOpened]
    split
    · obtain ⟨k, hk⟩ : ∃ k, PartitionPoint (fun i ↦ (runAt H i).last < g.first) H.length k := by
        apply PartitionPoint.exists_of_antitone
        intro i j hij hj hlt
        exact (runAt_last_mono hH hij hj).trans_lt hlt
      have hck : cursor ≤ k := by
        by_contra hlt
        exact hk.not_of_le k le_rfl (by omega) (hbelow g List.mem_cons_self k (by omega))
      have hfound : gallopPartitionPoint (fun i ↦ (runAt H i).last < g.first) cursor H.length
          1 = k := by
        apply gallopPartitionPoint_eq Nat.one_pos hck hk.le
        · intro i _ hik
          exact decide_eq_true (hk.of_lt i hik)
        · intro i hik hi
          exact decide_eq_false (hk.not_of_le i hik hi)
      have hinside := inside_iff hH hgroups.head_le hk.le hk.of_lt fun i hik hi ↦
        not_lt.1 (hk.not_of_le i hik hi)
      have hnext : ∀ g' ∈ groups, ∀ i < k, (runAt H i).last < g'.first := by
        intro g' hg' i hi
        have happart := hgroups.head_apart hg'
        have hlast := hk.of_lt i hi
        have hle := hgroups.head_le
        omega
      have hsum : ∀ o, o + (if Inside H g then 0 else 1) + openedBy H groups =
          o + openedBy H (g :: groups) := by
        intro o
        rw [openedBy, openedBy, List.countP_cons]
        by_cases hin : Inside H g
        · simp [hin]
        · simp only [hin, if_false, not_false_eq_true, decide_true, if_true]
          omega
      simp only [hfound, hinside]
      rw [← hsum]
      exact ih _ hgroups.tail hk.le hnext
    · rename_i hstop
      exact .inr ⟨not_le.1 hstop, Nat.le_add_right _ _⟩

/-! ## `add_sorted` -/

theorem firstTouched_spec (hH : Canonical H) (batchFront : Nat) :
    firstTouched H batchFront ≤ H.length ∧
      (∀ i < firstTouched H batchFront, (runAt H i).last + 1 < batchFront) ∧
      ∀ i, firstTouched H batchFront ≤ i → i < H.length → ¬ (runAt H i).last + 1 < batchFront := by
  obtain ⟨k, -, hk, hbelow, hnot⟩ := exists_blockEnd hH 0 (Nat.zero_le _) ⟨batchFront, batchFront⟩
  have hfound : firstTouched H batchFront = k := by
    apply partitionPointIn_eq (Nat.zero_le _) hk
    · intro i hi hik
      exact decide_eq_true (hbelow i hi hik)
    · intro i hik hi
      exact decide_eq_false (hnot i hik hi)
  rw [hfound]
  exact ⟨hk, fun i hi ↦ hbelow i (Nat.zero_le _) hi, hnot⟩

theorem mergeStart_keeps {touched : Nat} (inPlace : Bool) (hH : Canonical H)
    (htouched : touched ≤ H.length) (hfits : H.length + opened ≤ width) :
    (mergeStart inPlace width opened touched H).Keeps inPlace opened width H [] ∧
      (mergeStart inPlace width opened touched H).data.take
        (mergeStart inPlace width opened touched H).write =
        H.take touched := by
  have hread : (mergeStart inPlace width opened touched H).read = touched := by
    rw [mergeStart]
    split <;> rfl
  have hwrite : (mergeStart inPlace width opened touched H).write = touched := by
    rw [mergeStart]
    split <;> rfl
  have hadded : (mergeStart inPlace width opened touched H).added = 0 := by
    rw [mergeStart]
    split <;> rfl
  have hblock : ((padTo width ⟨0, 0⟩ H).drop touched).take (H.length - touched) =
      H.drop touched := by
    rw [drop_padTo htouched (by omega), padTo, List.take_left' (by rw [List.length_drop])]
  have hlen : (padTo width ⟨0, 0⟩ H).length = width := length_padTo (by omega)
  have hdata : (mergeStart inPlace width opened touched H).data.length = width ∧
      (mergeStart inPlace width opened touched H).data.take touched = H.take touched ∧
      ((mergeSource inPlace opened H (mergeStart inPlace width opened touched H).data).take
        H.length).drop
        touched = H.drop touched := by
    cases inPlace with
    | true =>
      simp only [mergeStart, mergeSource, if_true, memmove, hblock]
      refine ⟨?_, ?_, ?_⟩
      · rw [length_overwrite, hlen]
        rw [List.length_drop, hlen]
        omega
      · rw [take_overwrite (by omega) (by omega), take_padTo htouched]
      · rw [List.drop_take, List.drop_drop, Nat.add_comm opened, drop_overwrite (by omega)]
        exact List.take_left' (by rw [List.length_drop])
    | false =>
      simp only [mergeStart, mergeSource, Bool.false_eq_true, if_false]
      have hcut : (H.take touched).length = touched := by
        rw [List.length_take, min_eq_left htouched]
      refine ⟨length_padTo (by omega), ?_, by rw [List.take_length]⟩
      rw [take_padTo hcut.ge, List.take_of_length_le hcut.le]
  rw [hwrite]
  refine ⟨⟨hdata.1, ?_, ?_, ?_, ?_, ?_, ?_⟩, hdata.2.1⟩
  · rw [hread]
    exact htouched
  · rw [hread]
    exact hdata.2.2
  · rw [hwrite, hread, hdata.2.1, List.take_append_drop]
    exact hH
  · intro v
    rw [hwrite, hread, hdata.2.1, List.take_append_drop, runValues_nil]
    simp
  · rw [hwrite, hread, hdata.2.1, hadded, List.take_append_drop, Nat.add_zero]
  · rw [hwrite, hread]
    omega

/-- The block that was chosen holds what the groups can open. -/
theorem mergeRoom {capacity : Nat} (unshared : Bool) {groups : List Run}
    (hgroups : groups.length = groupCount vs)
    (hsmall : groups.length < 2 ^ 32) (hcapacity : H.length ≤ capacity)
    (hopened : opened = openedBy H groups ∨
      (stopAfter H capacity vs < opened ∧ opened ≤ openedBy H groups)) :
    MergeRoom (decide (H.length + opened ≤ capacity) && unshared) opened
      (mergeWidth H capacity opened vs) H groups ∧
      H.length + opened ≤ mergeWidth H capacity opened vs := by
  have hle := openedBy_le_length H groups
  -- within the capacity the pass has not stopped early
  have hexact : H.length + opened ≤ capacity → opened = openedBy H groups := by
    intro hfits
    rcases hopened with heq | ⟨hstop, hbound⟩
    · exact heq
    · rw [stopAfter] at hstop
      split at hstop <;> omega
  have hwidth : H.length + openedBy H groups ≤ mergeWidth H capacity opened vs ∧
      H.length + opened ≤ mergeWidth H capacity opened vs := by
    rw [mergeWidth]
    split
    · rename_i hfits
      have heq := hexact hfits
      omega
    · split
      · rcases hopened with heq | ⟨-, hbound⟩ <;> omega
      · rename_i hnot
        have heq : opened = openedBy H groups := hopened.resolve_right fun h ↦ hnot h.1
        omega
  refine ⟨⟨hwidth.1, ?_⟩, hwidth.2⟩
  intro hin
  rw [Bool.and_eq_true, decide_eq_true_iff] at hin
  exact (hexact hin.1).ge

theorem length_lt_of_bounded (hasc : vs.Pairwise (· < ·)) (hlt : ∀ v ∈ vs, v < lowDomainSize) :
    vs.length ≤ lowDomainSize := by
  rw [← List.length_range (n := lowDomainSize)]
  exact length_le_of_ascending hasc fun v hv ↦ List.mem_range.2 (hlt v hv)

theorem length_le_runCardinality (rs : List Run) : rs.length ≤ runCardinality rs := by
  rw [runCardinality, ← List.length_map (f := Run.length)]
  apply List.length_le_sum_of_one_le
  intro n hn
  obtain ⟨r, -, rfl⟩ := List.mem_map.1 hn
  exact Nat.le_add_left _ _

variable {capacity : Nat} {unshared : Bool}

/-- How a batch that adds something is merged: in the payload itself or in another block, its width,
where the merge begins and how far the runs behind it are moved up. -/
structure MergePlan where
  inPlace : Bool
  opened : Nat
  touched : Nat
  width : Nat

/-- The part of `add_sorted` in front of the merge; a batch that is held has no plan. -/
def mergePlan (runs : List Run) (capacity : Nat) (unshared : Bool) (sortedValues : List Nat) :
    Option MergePlan :=
  if sortedValues = [] then
    none
  else
    let touched := firstTouched runs (sortedValues.headD 0)
    if touched ≠ runs.length ∧ (runAt runs touched).first ≤ sortedValues.headD 0 ∧
        sortedValues.getLastD 0 ≤ (runAt runs touched).last then
      none
    else
      let opened := countOpened runs (stopAfter runs capacity sortedValues)
        (batchGroups sortedValues) touched 0
      if opened = 0 then
        none
      else
        some ⟨decide (runs.length + opened ≤ capacity) && unshared, opened, touched,
          mergeWidth runs capacity opened sortedValues⟩

namespace MergePlan

def opening (plan : MergePlan) (runs : List Run) : RunMerge :=
  mergeStart plan.inPlace plan.width plan.opened plan.touched runs

/-- The state in which all groups are merged and the runs behind the last have followed. -/
def finish (plan : MergePlan) (runs : List Run) (s : RunMerge) : RunMerge :=
  s.moveRuns plan.inPlace plan.opened runs (runs.length - s.read)

def merged (plan : MergePlan) (runs : List Run) (sortedValues : List Nat) : RunMerge :=
  plan.finish runs ((batchGroups sortedValues).foldl (mergeGroup plan.inPlace plan.opened runs)
    (plan.opening runs))

end MergePlan

/-- `add_sorted` is the merge of its plan. -/
theorem runAddSorted_eq (H : List Run) (capacity : Nat) (unshared : Bool) (vs : List Nat) :
    runAddSorted H capacity unshared vs =
      ((mergePlan H capacity unshared vs).map fun plan ↦
        ((plan.merged H vs).data.take (plan.merged H vs).write, (plan.merged H vs).added)).getD
          (H, 0) := by
  rw [runAddSorted, mergePlan]
  split
  · rfl
  · simp only
    split
    · rfl
    · split <;> rfl

/-- A batch without a plan is held. -/
theorem mem_of_mergePlan_none (hH : Canonical H) (hasc : vs.Pairwise (· < ·))
    (hlt : ∀ v ∈ vs, v < lowDomainSize)
    (hplan : mergePlan H capacity unshared vs = none) : ∀ v ∈ vs, v ∈ runValues H := by
  intro v hv
  rw [mergePlan, if_neg (List.ne_nil_of_mem hv)] at hplan
  obtain ⟨htouched, hfront, -⟩ := firstTouched_spec hH (vs.headD 0)
  generalize firstTouched H (vs.headD 0) = k at htouched hfront hplan
  simp only at hplan
  split at hplan
  · rename_i hin
    have hlt' : k < H.length := lt_of_le_of_ne htouched hin.1
    rw [runAt_of_lt hlt'] at hin
    have hhead := headD_le_of_mem hasc hv
    have hlast := le_getLast_of_mem hasc hv
    exact mem_runValues.2 ⟨H[k], List.getElem_mem hlt', hin.2.1.trans hhead, hlast.trans hin.2.2⟩
  · obtain ⟨hgroups, hvalues⟩ := runsFromSortedValues_spec hasc hlt
    rw [← batchGroups_eq hasc hlt] at hgroups hvalues
    have hopened := countOpened_spec (stopAfter H capacity vs) 0 hH hgroups htouched
        fun g hg i hi ↦ by
      have hmem : g.first ∈ vs := by
        rw [← hvalues]
        exact mem_runValues.2 ⟨g, hg, le_rfl, hgroups.forward g hg⟩
      exact Nat.lt_of_succ_lt ((hfront i hi).trans_le (headD_le_of_mem hasc hmem))
    rw [Nat.zero_add] at hopened
    split at hplan
    · rename_i hzero
      have hnone : openedBy H (batchGroups vs) = 0 := by omega
      rw [← hvalues] at hv
      obtain ⟨g, hg, hfirst, hlast⟩ := mem_runValues.1 hv
      have hin : Inside H g := by
        have := List.countP_eq_zero.1 hnone g hg
        simpa using this
      obtain ⟨r, hr, hrf, hrl⟩ := hin
      exact mem_runValues.2 ⟨r, hr, hrf.trans hfirst, hlast.trans hrl⟩
    · exact absurd hplan nofun

/-- A plan's merge has room, and it begins as it is kept: with nothing merged, and only runs in
front of the batch written. -/
structure MergePlan.Sound (plan : MergePlan) (H : List Run) (vs : List Nat) : Prop where
  groups : Canonical (batchGroups vs)
  values : runValues (batchGroups vs) = vs
  nonempty : batchGroups vs ≠ []
  room : MergeRoom plan.inPlace plan.opened plan.width H (batchGroups vs)
  opening : (plan.opening H).Keeps plan.inPlace plan.opened plan.width H []
  behind : ∀ g ∈ batchGroups vs, ∀ r ∈ (plan.opening H).data.take (plan.opening H).write,
    r.first < g.first

theorem mergePlan_sound (hH : Canonical H) (hcapacity : H.length ≤ capacity)
    (hasc : vs.Pairwise (· < ·)) (hlt : ∀ v ∈ vs, v < lowDomainSize) {plan : MergePlan}
    (hplan : mergePlan H capacity unshared vs = some plan) :
    plan.Sound H vs ∧ (plan.inPlace = true → unshared = true ∧ plan.width = capacity) := by
  rw [mergePlan] at hplan
  split at hplan
  · exact absurd hplan nofun
  rename_i hne
  obtain ⟨hgroups, hvalues⟩ := runsFromSortedValues_spec hasc hlt
  rw [← batchGroups_eq hasc hlt] at hgroups hvalues
  obtain ⟨htouched, hfront, -⟩ := firstTouched_spec hH (vs.headD 0)
  generalize firstTouched H (vs.headD 0) = k at htouched hfront hplan
  simp only at hplan
  split at hplan
  · exact absurd hplan nofun
  have hbehind : ∀ g ∈ batchGroups vs, ∀ i < k, (runAt H i).last + 1 < g.first := by
    intro g hg i hi
    have hmem : g.first ∈ vs := by
      rw [← hvalues]
      exact mem_runValues.2 ⟨g, hg, le_rfl, hgroups.forward g hg⟩
    exact (hfront i hi).trans_le (headD_le_of_mem hasc hmem)
  have hopened := countOpened_spec (stopAfter H capacity vs) 0 hH hgroups htouched fun g hg i hi ↦
    Nat.lt_of_succ_lt (hbehind g hg i hi)
  rw [Nat.zero_add] at hopened
  generalize countOpened H (stopAfter H capacity vs) (batchGroups vs) k 0 = opened at hopened hplan
  split at hplan
  · exact absurd hplan nofun
  obtain rfl := Option.some.inj hplan
  have hlen := length_batchGroups hne
  have hsmall : (batchGroups vs).length < 2 ^ 32 := by
    have hle := hgroups.length_values
    have hcount := length_le_runCardinality (batchGroups vs)
    have hdomain := length_lt_of_bounded hasc hlt
    rw [hvalues] at hle
    have hbig : lowDomainSize < 2 ^ 32 := by decide
    omega
  obtain ⟨hroom, hwidth⟩ := mergeRoom unshared hlen hsmall hcapacity hopened
  obtain ⟨hstart, hwritten⟩ := mergeStart_keeps (decide (H.length + opened ≤ capacity) && unshared)
    hH htouched hwidth
  refine ⟨⟨hgroups, hvalues, ?_, hroom, hstart, ?_⟩, ?_⟩
  · intro hnil
    rw [hnil, runValues_nil] at hvalues
    exact hne hvalues.symm
  · intro g hg r hr
    rw [MergePlan.opening, hwritten] at hr
    obtain ⟨i, hi, rfl⟩ := List.mem_take_iff_getElem.1 hr
    have happart := hbehind g hg i (by omega)
    rw [runAt_of_lt (by omega)] at happart
    have hforward := hH.forward H[i] (List.getElem_mem _)
    omega
  · intro hin
    rw [Bool.and_eq_true, decide_eq_true_iff] at hin
    exact ⟨hin.2, if_pos hin.1⟩

/-- What the merge leaves when all is done. -/
theorem MergePlan.Sound.merged {plan : MergePlan} (hH : Canonical H) (h : plan.Sound H vs) :
    (plan.merged H vs).Keeps plan.inPlace plan.opened plan.width H (batchGroups vs) ∧
      H.drop (plan.merged H vs).read = [] := by
  have hfold :
      ((batchGroups vs).foldl (mergeGroup plan.inPlace plan.opened H) (plan.opening H)).Keeps
      plan.inPlace plan.opened plan.width H ([] ++ batchGroups vs) :=
    foldl_mergeGroup_keeps hH h.opening h.room h.groups h.behind
  rw [List.nil_append] at hfold
  rw [MergePlan.merged, MergePlan.finish]
  generalize (batchGroups vs).foldl (mergeGroup plan.inPlace plan.opened H) (plan.opening H) =
    s at hfold ⊢
  have hread := hfold.read_le
  have hroom : MergeRoom plan.inPlace plan.opened plan.width H (batchGroups vs ++ []) := by
    rw [List.append_nil]
    exact h.room
  obtain ⟨hend, -⟩ := hfold.moveRuns hroom (H.length - s.read) le_rfl
  refine ⟨hend, ?_⟩
  rw [List.drop_eq_nil_iff]
  show H.length ≤ s.read + (H.length - s.read)
  omega

/-- `add_sorted` of runs leaves canonical runs of the union, and counts what was not held, whatever
the capacity and whoever else holds the payload. -/
theorem runAddSorted_spec (unshared : Bool) (hH : Canonical H) (hcapacity : H.length ≤ capacity)
    (hasc : vs.Pairwise (· < ·)) (hlt : ∀ v ∈ vs, v < lowDomainSize) :
    Canonical (runAddSorted H capacity unshared vs).1 ∧
      (∀ v, v ∈ runValues (runAddSorted H capacity unshared vs).1 ↔ v ∈ runValues H ∨ v ∈ vs) ∧
      runCardinality (runAddSorted H capacity unshared vs).1 =
        runCardinality H + (runAddSorted H capacity unshared vs).2 := by
  rw [runAddSorted_eq]
  cases hplan : mergePlan H capacity unshared vs with
  | none =>
    have hheld := mem_of_mergePlan_none hH hasc hlt hplan
    refine ⟨hH, fun v ↦ ?_, rfl⟩
    constructor
    · exact .inl
    · rintro (hv | hv)
      · exact hv
      · exact hheld v hv
  | some plan =>
    obtain ⟨hsound, -⟩ := mergePlan_sound hH hcapacity hasc hlt hplan
    obtain ⟨hend, hall⟩ := hsound.merged hH
    have hc := hend.canonical
    have hm := hend.mem
    have hcard := hend.cardinality
    rw [hall, List.append_nil] at hc hm hcard
    rw [hsound.values] at hm
    exact ⟨hc, hm, hcard⟩

end Roaring
