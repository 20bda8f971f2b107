import Mathlib
import Roaring.Container.ArrayUpdate
import Roaring.Container.RunUpdate

/-!
# Sorted groups at a container

`add_sorted` and `remove_sorted` with the header and the payload they are called on.
Beside the values that come out, this is about the memory the merges work in: no
write ends behind the block, none reaches what is still to be read, and a payload
that someone else holds stays as it was.
-/

namespace Roaring

open Lib

/-! ## Counting what was absent -/

section Absent

variable {H U vs : List Nat}

/-- A union has as many values more as the group has absent ones. -/
theorem length_union_eq (hH : H.Pairwise (· < ·)) (hU : U.Pairwise (· < ·))
    (hvs : vs.Pairwise (· < ·))
    (hmem : ∀ v, v ∈ U ↔ v ∈ H ∨ v ∈ vs) : U.length = H.length + (vs.filter (· ∉ H)).length := by
  have hnodup : ∀ {l : List Nat}, l.Pairwise (· < ·) → l.Nodup := fun h ↦ h.imp Nat.ne_of_lt
  have hdisjoint : (H ++ vs.filter (· ∉ H)).Nodup := by
    refine (hnodup hH).append ((hnodup hvs).filter _) ?_
    intro v hv hv'
    have := (List.mem_filter.1 hv').2
    simp [hv] at this
  have hperm : U.Perm (H ++ vs.filter (· ∉ H)) := by
    rw [List.perm_ext_iff_of_nodup (hnodup hU) hdisjoint]
    intro v
    rw [hmem, List.mem_append, List.mem_filter]
    by_cases hv : v ∈ H
    · simp [hv]
    · simp [hv]
  rw [hperm.length_eq, List.length_append]

/-- What two ascending lists share is counted from either side. -/
theorem length_filter_mem_comm (hH : H.Pairwise (· < ·)) (hvs : vs.Pairwise (· < ·)) :
    (H.filter (· ∈ vs)).length = (vs.filter (· ∈ H)).length := by
  have hnodup : ∀ {l : List Nat}, l.Pairwise (· < ·) → l.Nodup := fun h ↦ h.imp Nat.ne_of_lt
  apply List.Perm.length_eq
  rw [List.perm_ext_iff_of_nodup ((hnodup hH).filter _) ((hnodup hvs).filter _)]
  intro v
  simp only [List.mem_filter, decide_eq_true_eq, and_comm]

/-- What a difference lacks is what the group shares. -/
theorem length_removed_eq (hH : H.Pairwise (· < ·)) (hvs : vs.Pairwise (· < ·)) {n : Nat}
    (hn : (H.filter (· ∉ vs)).length + n = H.length) : n = (vs.filter (· ∈ H)).length := by
  have hsplit := List.length_eq_length_filter_add (l := H) (fun v ↦ decide (v ∉ vs))
  have hshared : (H.filter fun v ↦ !decide (v ∉ vs)) = H.filter (· ∈ vs) := by
    apply List.filter_congr
    intro v _
    simp
  rw [hshared, length_filter_mem_comm hH hvs] at hsplit
  omega

end Absent

/-! ## Runs -/

/-- A run container: its runs, the slots of its payload, and whether the payload is its own
alone. -/
structure RunContainer where
  runs : List Run
  capacity : Nat
  unshared : Bool
  cardinality : Nat
  min : Nat
  max : Nat

namespace RunContainer

/-- The slots of the payload; the spare ones are never read. -/
def block (c : RunContainer) : List Run := padTo c.capacity ⟨0, 0⟩ c.runs

structure Valid (c : RunContainer) : Prop where
  canonical : Canonical c.runs
  fits : c.runs.length ≤ c.capacity
  cardinality : c.cardinality = runCardinality c.runs
  endpoints : c.runs ≠ [] → c.min = (runAt c.runs 0).first ∧
    c.max = (runAt c.runs (c.runs.length - 1)).last

/-- `run_ref::add_sorted`: the container, what the payload that it had holds afterwards, and how
many values were new. -/
def addSorted (c : RunContainer) (sortedValues : List Nat) : RunContainer × List Run × Nat :=
  match mergePlan c.runs c.capacity c.unshared sortedValues with
  | none => (c, c.block, 0)
  | some plan =>
      let s := plan.merged c.runs sortedValues
      ({ runs := s.data.take s.write
         capacity := plan.width
         unshared := true
         cardinality := c.cardinality + s.added
         min := (runAt s.data 0).first
         max := (runAt s.data (s.write - 1)).last },
        if plan.inPlace then s.data else c.block, s.added)

end RunContainer

namespace MergePlan

variable (plan : MergePlan) (runs : List Run)

/-- The block of runs that moves in front of a group. -/
def frontMoved (s : RunMerge) (g : Run) : RunMerge :=
  let source := mergeSource plan.inPlace plan.opened runs s.data
  let blockEnd := gallopPartitionPoint (fun i ↦ (runAt source i).last + 1 < g.first) s.read
    runs.length 1
  s.moveRuns plan.inPlace plan.opened runs (blockEnd - s.read)

/-- The states of the merge, one after each of its writes. -/
def states (s : RunMerge) : (groups : List Run) → List RunMerge
  | [] => [s, plan.finish runs s]
  | g :: groups =>
      s :: plan.frontMoved runs s g :: states (mergeGroup plan.inPlace plan.opened runs s g) groups

/-- After a write, which ended at `write`: the block is as wide as it was and holds the write, and
the runs that are still to be read stand where they are read, behind the write where the merge works
in the payload itself. -/
structure Safe (s : RunMerge) : Prop where
  width : s.data.length = plan.width
  write_le : s.write ≤ plan.width
  unread : ((mergeSource plan.inPlace plan.opened runs s.data).take runs.length).drop s.read =
    runs.drop s.read
  behind : plan.inPlace = true → s.write ≤ s.read + plan.opened

/-- The last state is that of the merge. -/
theorem getLast?_states (s : RunMerge) (groups : List Run) :
    (plan.states runs s groups).getLast? =
      some (plan.finish runs (groups.foldl (mergeGroup plan.inPlace plan.opened runs) s)) := by
  induction groups generalizing s with
  | nil => rfl
  | cons g groups ih =>
    rw [states, List.getLast?_cons, List.getLast?_cons, ih, List.foldl_cons]
    rfl

variable {plan} {H done pending vs : List Run}

theorem safe_of_keeps {s : RunMerge} (hs : s.Keeps plan.inPlace plan.opened plan.width H done)
    (hroom : MergeRoom plan.inPlace plan.opened plan.width H (done ++ pending)) :
    plan.Safe H s := by
  have hread := hs.read_le
  have hwrite := hs.room
  have hfits := hroom.fits
  have hopened : openedBy H done ≤ openedBy H (done ++ pending) := by
    rw [openedBy, openedBy, List.countP_append]
    exact Nat.le_add_right _ _
  refine ⟨hs.length, ?_, hs.unread, ?_⟩
  · omega
  · intro hin
    have hgap := hroom.gap hin
    omega

/-- Where the block in front of a group ends. -/
theorem frontMoved_keeps (hH : Canonical H) {s : RunMerge} {g : Run}
    (hs : s.Keeps plan.inPlace plan.opened plan.width H done)
    (hroom : MergeRoom plan.inPlace plan.opened plan.width H (done ++ pending)) :
    (plan.frontMoved H s g).Keeps plan.inPlace plan.opened plan.width H done := by
  obtain ⟨k, hrk, hkn, hfound, -⟩ := hs.block hH g
  rw [frontMoved]
  simp only [hfound]
  exact (hs.moveRuns hroom (k - s.read) (by omega)).1

theorem states_safe (hH : Canonical H) {s : RunMerge}
    (hs : s.Keeps plan.inPlace plan.opened plan.width H done)
    (hroom : MergeRoom plan.inPlace plan.opened plan.width H (done ++ pending))
    (hpending : Canonical pending)
    (hbehind : ∀ g ∈ pending, ∀ r ∈ s.data.take s.write, r.first < g.first) :
    ∀ t ∈ plan.states H s pending, plan.Safe H t := by
  induction pending generalizing s done with
  | nil =>
    intro t ht
    rcases List.mem_cons.1 ht with rfl | ht
    · exact safe_of_keeps hs hroom
    · rw [List.mem_singleton.1 ht]
      exact safe_of_keeps (hs.moveRuns hroom (H.length - s.read) le_rfl).1 hroom
  | cons g pending ih =>
    obtain ⟨hkeeps, hfirst⟩ := mergeGroup_keeps hH hs hroom hpending.head_le
      (hpending.bounded g List.mem_cons_self) (hbehind g List.mem_cons_self)
    intro t ht
    rcases List.mem_cons.1 ht with rfl | ht
    · exact safe_of_keeps hs hroom
    rcases List.mem_cons.1 ht with rfl | ht
    · exact safe_of_keeps (frontMoved_keeps hH hs hroom) hroom
    · rw [List.append_cons] at hroom
      refine ih hkeeps hroom hpending.tail ?_ t ht
      intro g' hg' r hr
      have happart := hpending.head_apart hg'
      have hforward := hpending.head_le
      have hle := hfirst r hr
      omega

end MergePlan

/-! ### What a call leaves -/

namespace RunContainer

variable {c : RunContainer} {vs : List Nat}

theorem runAt_take {data : List Run} {write i : Nat} (hi : i < write) :
    runAt (data.take write) i = runAt data i := by
  rw [runAt, runAt, List.getD_eq_getElem?_getD, List.getD_eq_getElem?_getD,
    List.getElem?_take_of_lt hi]

/-- The runs and the count are those of the merge. -/
theorem addSorted_eq (c : RunContainer) (vs : List Nat) :
    (c.addSorted vs).1.runs = (runAddSorted c.runs c.capacity c.unshared vs).1 ∧
      (c.addSorted vs).2.2 = (runAddSorted c.runs c.capacity c.unshared vs).2 := by
  rw [runAddSorted_eq, addSorted]
  cases mergePlan c.runs c.capacity c.unshared vs <;> exact ⟨rfl, rfl⟩

theorem addSorted_valid (hc : c.Valid) (hasc : vs.Pairwise (· < ·))
    (hlt : ∀ v ∈ vs, v < lowDomainSize) :
    (c.addSorted vs).1.Valid := by
  obtain ⟨hcanonical, -, hcard⟩ := runAddSorted_spec c.unshared hc.canonical hc.fits hasc hlt
  rw [runAddSorted_eq] at hcanonical hcard
  rw [addSorted]
  cases hplan : mergePlan c.runs c.capacity c.unshared vs with
  | none => exact hc
  | some plan =>
    rw [hplan] at hcanonical hcard
    obtain ⟨hsound, -⟩ := mergePlan_sound hc.canonical hc.fits hasc hlt hplan
    obtain ⟨hend, hall⟩ := hsound.merged hc.canonical
    have hroom : MergeRoom plan.inPlace plan.opened plan.width c.runs (batchGroups vs ++ []) := by
      rw [List.append_nil]
      exact hsound.room
    have hsafe := MergePlan.safe_of_keeps hend hroom
    have hwrite := hsafe.write_le
    have hwidth := hsafe.width
    have hlen : ((plan.merged c.runs vs).data.take (plan.merged c.runs vs).write).length =
        (plan.merged c.runs vs).write := by
      rw [List.length_take]
      omega
    refine ⟨hcanonical, ?_, ?_, ?_⟩
    · simp only [hlen]
      exact hwrite
    · simp only [hc.cardinality]
      exact hcard.symm
    · intro hne
      have hpos : 0 < (plan.merged c.runs vs).write := by
        rw [← hlen]
        exact List.length_pos_iff.2 hne
      simp only [hlen]
      rw [runAt_take hpos, runAt_take (by omega)]
      exact ⟨rfl, rfl⟩

/-- `run_ref::add_sorted`, for a payload of any capacity, shared or not. -/
theorem addSorted_spec (hc : c.Valid) (hasc : vs.Pairwise (· < ·))
    (hlt : ∀ v ∈ vs, v < lowDomainSize) :
    (c.addSorted vs).1.Valid ∧
      (∀ v, v ∈ runValues (c.addSorted vs).1.runs ↔ v ∈ runValues c.runs ∨ v ∈ vs) ∧
      (c.addSorted vs).2.2 = (vs.filter (· ∉ runValues c.runs)).length ∧
      (c.addSorted vs).1.cardinality = c.cardinality + (c.addSorted vs).2.2 ∧
      (c.unshared = false → (c.addSorted vs).2.1 = c.block) ∧
      ∀ plan, mergePlan c.runs c.capacity c.unshared vs = some plan →
        (plan.inPlace = true → plan.width = c.capacity) ∧
        (plan.states c.runs (plan.opening c.runs) (batchGroups vs)).getLast? =
          some (plan.merged c.runs vs) ∧
        ∀ s ∈ plan.states c.runs (plan.opening c.runs) (batchGroups vs), plan.Safe c.runs s := by
  have hvalid := addSorted_valid hc hasc hlt
  obtain ⟨hcanonical, hmem, hcard⟩ := runAddSorted_spec c.unshared hc.canonical hc.fits hasc hlt
  obtain ⟨hruns, hadded⟩ := addSorted_eq c vs
  rw [← hruns] at hcanonical hmem hcard
  rw [← hadded] at hcard
  refine ⟨hvalid, hmem, ?_, ?_, ?_, ?_⟩
  · have hunion := length_union_eq hc.canonical.values_ascending hcanonical.values_ascending
      hasc hmem
    rw [hcanonical.length_values, hc.canonical.length_values, hcard] at hunion
    exact Nat.add_left_cancel hunion
  · rw [hvalid.cardinality, hcard, hc.cardinality]
  · intro hshared
    rw [addSorted]
    cases hplan : mergePlan c.runs c.capacity c.unshared vs with
    | none => rfl
    | some plan =>
      obtain ⟨-, hinPlace⟩ := mergePlan_sound hc.canonical hc.fits hasc hlt hplan
      have hother : plan.inPlace = false := by
        rw [← Bool.not_eq_true]
        intro hin
        rw [hshared] at hinPlace
        exact absurd (hinPlace hin).1 nofun
      simp only [hother, Bool.false_eq_true, if_false]
  · intro plan hplan
    obtain ⟨hsound, hinPlace⟩ := mergePlan_sound hc.canonical hc.fits hasc hlt hplan
    refine ⟨fun hin ↦ (hinPlace hin).2, plan.getLast?_states c.runs _ _, ?_⟩
    have hroom : MergeRoom plan.inPlace plan.opened plan.width c.runs ([] ++ batchGroups vs) :=
      hsound.room
    exact MergePlan.states_safe hc.canonical hsound.opening hroom hsound.groups hsound.behind

/-- A batch that joins two runs in the payload they are in. -/
theorem addSorted_spec_joined :
    (∀ v, v ∈ runValues (addSorted ⟨[⟨3, 5⟩, ⟨8, 9⟩], 4, true, 5, 3, 9⟩ [1, 6, 7]).1.runs ↔
      v ∈ runValues [⟨3, 5⟩, ⟨8, 9⟩] ∨ v ∈ [1, 6, 7]) ∧
      (addSorted ⟨[⟨3, 5⟩, ⟨8, 9⟩], 4, true, 5, 3, 9⟩ [1, 6, 7]).2.2 = 3 := by
  have hvalid : Valid ⟨[⟨3, 5⟩, ⟨8, 9⟩], 4, true, 5, 3, 9⟩ := by
    refine ⟨⟨?_, ?_, ?_⟩, ?_, rfl, fun _ ↦ ⟨rfl, rfl⟩⟩ <;> decide
  obtain ⟨-, hmem, hadded, -⟩ := addSorted_spec hvalid (show [1, 6, 7].Pairwise (· < ·) by decide)
    (by decide)
  exact ⟨hmem, hadded⟩

end RunContainer

/-! ## Arrays -/

/-- The states of the loop over the values above one that comes in. -/
def moveAboveStates (value : Nat) (data : List Nat) : (held out : Nat) → List ArrayMerge
  | 0, out => [⟨data, 0, out⟩]
  | held + 1, out =>
      ⟨data, held + 1, out⟩ ::
        if value < data.getD held 0 then
          moveAboveStates value (data.set (out - 1) (data.getD held 0)) held (out - 1)
        else []

/-- The states of the merge, one after each move. -/
def arrayMergeStates (skewed : Bool) (s : ArrayMerge) : (incoming : List Nat) → List ArrayMerge
  | [] => [s]
  | value :: incoming =>
      (if skewed then [s, moveBlockAbove value s] else moveAboveStates value s.data s.held s.out) ++
        arrayMergeStates skewed (mergeValue skewed s value) incoming

/-- The last state is that of the merge. -/
theorem getLast?_arrayMergeStates (skewed : Bool) (s : ArrayMerge) (incoming : List Nat) :
    (arrayMergeStates skewed s incoming).getLast? =
      some (incoming.foldl (mergeValue skewed) s) := by
  induction incoming generalizing s with
  | nil => rfl
  | cons value incoming ih =>
    rw [arrayMergeStates, List.getLast?_append, ih, List.foldl_cons]
    rfl

/-- After a move: the values that are still held stand where they stood, and what is merged begins
behind them. -/
structure ArrayMerge.Safe (values : List Nat) (width : Nat) (s : ArrayMerge) : Prop where
  length : s.data.length = width
  held : s.data.take s.held = values.take s.held
  apart : s.held ≤ s.out
  out_le : s.out ≤ width

theorem ArrayMerge.Keeps.safe {H M : List Nat} {width rest : Nat} {s : ArrayMerge}
    (hs : s.Keeps H width rest M) : s.Safe H width :=
  ⟨hs.length, hs.front, (Nat.le_add_right _ _).trans hs.room, hs.out_le⟩

theorem moveAboveStates_safe {H M data : List Nat} {width rest value held out : Nat}
    (hs : ArrayMerge.Keeps H width rest M ⟨data, held, out⟩) :
    ∀ t ∈ moveAboveStates value data held out, t.Safe H width := by
  induction held generalizing data out M with
  | zero =>
    intro t ht
    rw [List.mem_singleton.1 ht]
    exact hs.safe
  | succ held ih =>
    intro t ht
    rcases List.mem_cons.1 ht with rfl | ht
    · exact hs.safe
    · split at ht
      · have hroom : held + 1 + rest ≤ out := hs.room
        have hpush := hs.push (show 0 < out by omega) (Nat.le_succ held) (data.getD held 0)
          (show held + rest ≤ out - 1 by omega)
        exact ih hpush t ht
      · exact absurd ht List.not_mem_nil

theorem arrayMergeStates_safe {H done pending M : List Nat} {width : Nat} {skewed : Bool}
    {s : ArrayMerge} (hasc : H.Pairwise (· < ·)) (hdesc : pending.Pairwise (· > ·))
    (hs : s.Merged H width done pending M) :
    ∀ t ∈ arrayMergeStates skewed s pending, t.Safe H width := by
  induction pending generalizing s done M with
  | nil =>
    intro t ht
    rw [List.mem_singleton.1 ht]
    exact hs.keeps.safe
  | cons value pending ih =>
    obtain ⟨M', hs'⟩ := mergeValue_merged skewed hasc hs fun p hp ↦ List.rel_of_pairwise_cons
      hdesc hp
    intro t ht
    rw [arrayMergeStates, List.mem_append] at ht
    rcases ht with ht | ht
    · cases skewed with
      | true =>
        have hheld := hs.keeps.held_le
        obtain ⟨k, hk⟩ := exists_partition (hasc.sublist (List.take_sublist s.held H)) hheld
          (value + 1)
        rcases List.mem_cons.1 ht with rfl | ht
        · exact hs.keeps.safe
        · rw [List.mem_singleton.1 ht]
          exact (moveBlockAbove_keeps hs.keeps hk).2.safe
      | false => exact moveAboveStates_safe hs.keeps t ht
    · exact ih hdesc.of_cons hs' t ht

/-! ### What a call leaves -/

namespace ContainerHandle

/-- `array_ref::add_sorted` on a handle whose payload is an array. -/
def arrayAddSorted (h : ContainerHandle) (values sortedValues : List Nat) : ContainerHandle × Nat :=
  if sortedValues = [] then (h, 0)
  else
    let r := Roaring.arrayAddSorted values sortedValues
    (syncHeader r.1, r.2)

/-- `array_ref::remove_sorted` on a handle whose payload is an array. -/
def arrayRemoveSorted (h : ContainerHandle) (values sortedValues : List Nat) :
    ContainerHandle × Nat :=
  let r := Roaring.arrayRemoveSorted values sortedValues
  if r.2 = 0 then (h, 0) else (syncHeader r.1, r.2)

variable {h : ContainerHandle} {values vs : List Nat}

/-- A valid handle that holds an array of these values. -/
structure HoldsArray (h : ContainerHandle) (values : List Nat) : Prop where
  valid : h.Valid
  payload : h.payload = .array values

theorem HoldsArray.values_eq (hh : h.HoldsArray values) : h.values = values := by
  rw [ContainerHandle.values, hh.payload]
  rfl

theorem HoldsArray.ascending (hh : h.HoldsArray values) : values.Pairwise (· < ·) := by
  have hasc := hh.valid.values_ascending
  rwa [hh.values_eq] at hasc

theorem HoldsArray.bounded (hh : h.HoldsArray values) : ∀ v ∈ values, v < lowDomainSize := by
  have hlt := hh.valid.values_lt
  rwa [hh.values_eq] at hlt

theorem syncHeader_holdsArray (hasc : values.Pairwise (· < ·))
    (hlt : ∀ v ∈ values, v < lowDomainSize) :
    (syncHeader values).HoldsArray values := ⟨syncHeader_valid hasc hlt, rfl⟩

theorem arrayAddSorted_holds (hh : h.HoldsArray values) (hasc : vs.Pairwise (· < ·))
    (hlt : ∀ v ∈ vs, v < lowDomainSize) :
    ∃ u, (h.arrayAddSorted values vs).1.HoldsArray u ∧ (∀ v, v ∈ u ↔ v ∈ values ∨ v ∈ vs) ∧
      (h.arrayAddSorted values vs).2 = (vs.filter (· ∉ values)).length := by
  rw [arrayAddSorted]
  split
  · rename_i hnil
    exact ⟨values, hh, by simp [hnil], by rw [hnil]; rfl⟩
  · obtain ⟨huasc, humem, hulen⟩ := arrayAddSorted_spec hh.ascending hasc
    refine ⟨(Roaring.arrayAddSorted values vs).1, syncHeader_holdsArray huasc ?_, humem, ?_⟩
    · intro v hv
      rcases (humem v).1 hv with hv | hv
      · exact hh.bounded v hv
      · exact hlt v hv
    · rw [length_union_eq hh.ascending huasc hasc humem] at hulen
      exact (Nat.add_left_cancel hulen).symm

theorem arrayRemoveSorted_holds (hh : h.HoldsArray values) (hasc : vs.Pairwise (· < ·)) :
    (h.arrayRemoveSorted values vs).1.HoldsArray (values.filter (· ∉ vs)) ∧
      (h.arrayRemoveSorted values vs).2 = (vs.filter (· ∈ values)).length := by
  obtain ⟨hleft, hlen⟩ := arrayRemoveSorted_spec hh.ascending hasc
  rw [hleft] at hlen
  have hremoved := length_removed_eq hh.ascending hasc hlen
  rw [arrayRemoveSorted]
  split
  · rename_i hnone
    have hsame : values.filter (· ∉ vs) = values := by
      apply List.filter_eq_self.2
      intro v hv
      by_contra hin
      have hmem : v ∈ vs.filter (· ∈ values) := by
        rw [List.mem_filter]
        exact ⟨by simpa using hin, by simpa using hv⟩
      rw [hremoved, List.length_eq_zero_iff] at hnone
      rw [hnone] at hmem
      cases hmem
    rw [hsame]
    exact ⟨hh, by rw [← hremoved, hnone]⟩
  · rw [hleft]
    refine ⟨syncHeader_holdsArray (hh.ascending.filter _) ?_, hremoved⟩
    intro v hv
    exact hh.bounded v (List.mem_of_mem_filter hv)

/-- `add_sorted` and `remove_sorted` of an array leave the union and the difference under a header
in step with them.  Whichever way the values move, the outcome is the same, and no value is
overwritten before it has moved. -/
theorem arraySortedGroups_spec (hh : h.HoldsArray values) (hasc : vs.Pairwise (· < ·))
    (hlt : ∀ v ∈ vs, v < lowDomainSize) :
    (∃ u, (h.arrayAddSorted values vs).1.HoldsArray u ∧ (∀ v, v ∈ u ↔ v ∈ values ∨ v ∈ vs) ∧
      (h.arrayAddSorted values vs).2 = (vs.filter (· ∉ values)).length ∧
      ∀ skewed, (arrayMergeSorted skewed values vs).1 = u ∧
        (arrayMergeSorted skewed values vs).2 = (h.arrayAddSorted values vs).2) ∧
    ((h.arrayRemoveSorted values vs).1.HoldsArray (values.filter (· ∉ vs)) ∧
      (h.arrayRemoveSorted values vs).2 = (vs.filter (· ∈ values)).length ∧
      ∀ skewed, (arrayCompactSorted skewed values vs).1 = values.filter (· ∉ vs) ∧
        (arrayCompactSorted skewed values vs).2 = (h.arrayRemoveSorted values vs).2) ∧
    ∀ skewed,
      let start : ArrayMerge := ⟨padTo (values.length + vs.length) 0 values, values.length,
        values.length + vs.length⟩
      (arrayMergeStates skewed start vs.reverse).getLast? =
          some (vs.reverse.foldl (mergeValue skewed) start) ∧
        ∀ s ∈ arrayMergeStates skewed start vs.reverse,
          s.Safe values (values.length + vs.length) := by
  refine ⟨?_, ?_, ?_⟩
  · obtain ⟨u, hu, humem, hadded⟩ := arrayAddSorted_holds hh hasc hlt
    refine ⟨u, hu, humem, hadded, fun skewed ↦ ?_⟩
    obtain ⟨hmasc, hmmem, hmlen⟩ := arrayMergeSorted_spec skewed hh.ascending hasc
    constructor
    · apply List.Pairwise.eq_of_mem_iff (r := (· < ·)) hmasc hu.ascending
      intro v
      rw [hmmem, humem]
    · rw [length_union_eq hh.ascending hmasc hasc hmmem] at hmlen
      rw [hadded]
      exact (Nat.add_left_cancel hmlen).symm
  · obtain ⟨hleft, hremoved⟩ := arrayRemoveSorted_holds hh hasc
    refine ⟨hleft, hremoved, fun skewed ↦ ?_⟩
    obtain ⟨hcleft, hclen⟩ := arrayCompactSorted_spec skewed hh.ascending hasc
    rw [hcleft] at hclen
    refine ⟨hcleft, ?_⟩
    rw [hremoved]
    exact length_removed_eq hh.ascending hasc hclen
  · intro skewed start
    exact ⟨getLast?_arrayMergeStates skewed start vs.reverse,
      arrayMergeStates_safe hh.ascending (descending_reverse hasc)
        (ArrayMerge.merged_start hh.ascending vs)⟩

/-- A group that overlaps an array, and one so much smaller than the array that blocks move. -/
theorem arraySortedGroups_spec_overlap :
    ((syncHeader [2, 4, 9]).arrayRemoveSorted [2, 4, 9] [4, 5]).2 =
        ([4, 5].filter (· ∈ [2, 4, 9])).length ∧
      (∃ u, ((syncHeader [2, 4, 9]).arrayAddSorted [2, 4, 9] [4, 5]).1.HoldsArray u ∧
        ∀ v, v ∈ u ↔ v ∈ [2, 4, 9] ∨ v ∈ [4, 5]) ∧
      let values := List.range' 3 70
      ((syncHeader values).arrayRemoveSorted values [40]).2 = 1 ∧
        (∃ u, ((syncHeader values).arrayAddSorted values [2]).1.HoldsArray u ∧
          (∀ v, v ∈ u ↔ v ∈ values ∨ v ∈ [2]) ∧ (arrayMergeSorted true values [2]).1 = u) ∧
        (arrayCompactSorted true values [40]).1 = values.filter (· ∉ [40]) := by
  have hsmall : (syncHeader [2, 4, 9]).HoldsArray [2, 4, 9] :=
    syncHeader_holdsArray (by decide) (by decide)
  obtain ⟨⟨u, hu, humem, -⟩, ⟨-, hremoved, -⟩, -⟩ := arraySortedGroups_spec hsmall
    (show [4, 5].Pairwise (· < ·) by decide) (by decide)
  refine ⟨hremoved, ⟨u, hu, humem⟩, ?_⟩
  intro values
  have hlarge : (syncHeader values).HoldsArray values :=
    syncHeader_holdsArray (List.pairwise_lt_range' 1) (by decide)
  obtain ⟨⟨w, hw, hwmem, -, hmerge⟩, -, -⟩ := arraySortedGroups_spec hlarge
    (List.pairwise_singleton _ 2) (by decide)
  obtain ⟨-, ⟨-, hone, hcompact⟩, -⟩ := arraySortedGroups_spec hlarge
    (List.pairwise_singleton _ 40) (by decide)
  refine ⟨hone.trans (by decide), ⟨w, hw, hwmem, (hmerge true).1⟩, (hcompact true).1⟩

end ContainerHandle

end Roaring
