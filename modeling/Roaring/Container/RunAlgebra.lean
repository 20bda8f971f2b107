import Mathlib
import Roaring.Lib.Search
import Roaring.Container.RunEdit

/-!
# The algebra of run lists

Two run lists are intersected, united, subtracted and exclusive-ored by merges.  The
merges for the intersection and the exclusive or write into a buffer of the caller, so
a write past its end fails here.  The intersection crosses what the other list lacks by
gallops, and where one list is much longer it copies the runs inside a run of the
other in one piece.
-/

namespace Roaring

open Lib

/-! ## The intersection -/

/-- The runs written so far, and the values they cover. -/
structure RunIntersection where
  runs : List Run := []
  cardinality : Nat := 0

namespace RunIntersection

/-- Runs written behind those of the result. -/
def write (capacity : Nat) (s : RunIntersection) (rs : List Run) : Option RunIntersection :=
  if s.runs.length + rs.length ≤ capacity then
    some ⟨s.runs ++ rs, s.cardinality + runCardinality rs⟩ else none

end RunIntersection

/-- `next_run_reaching`: what is left of a list behind its first run, from the run that reaches
`limit` on. -/
def nextRunReaching (rs : List Run) (limit : Nat) : List Run :=
  rs.drop (gallopForward (fun i ↦ (runAt rs i).last < limit) 0 rs.length)

/-- `copy_runs_inside`, where the first run of the list ends below `limit`: the runs that do so are
copied, and the others are left. -/
def copyRunsInside (capacity : Nat) (rs : List Run) (limit : Nat) (s : RunIntersection) :
    Option (List Run × RunIntersection) :=
  let stop := gallopForward (fun i ↦ (runAt rs i).last < limit) 1 rs.length
  (s.write capacity (rs.take stop)).map fun s ↦ (rs.drop stop, s)

/-- Behind a run of one list, in the merge of lists of very different lengths. -/
def skipInside (skewed : Bool) (capacity : Nat) (rs : List Run) (limit : Nat)
    (s : RunIntersection) : Option (List Run × RunIntersection) :=
  if skewed ∧ rs.head?.any (·.last < limit) then copyRunsInside capacity rs limit s
  else some (rs, s)

/-- `intersect_runs_merge`; an end is exclusive, one above the last value. Each round takes a run
off, so `fuel` above the number of runs is enough. -/
def intersectRunsMerge (skewed : Bool) (capacity : Nat) :
    Nat → List Run → List Run → RunIntersection → Option RunIntersection
  | _, [], _, s => some s
  | _, _ :: _, [], s => some s
  | 0, _ :: _, _ :: _, _ => none
  | fuel + 1, l :: ls, r :: rs, s =>
    if l.last + 1 ≤ r.first then
      intersectRunsMerge skewed capacity fuel (nextRunReaching ls r.first) (r :: rs) s
    else if r.last + 1 ≤ l.first then
      intersectRunsMerge skewed capacity fuel (l :: ls) (nextRunReaching rs l.first) s
    else
      let begin_ := max l.first r.first
      if l.last = r.last then
        (s.write capacity [⟨begin_, l.last⟩]).bind (intersectRunsMerge skewed capacity fuel ls rs)
      else if l.last < r.last then
        (s.write capacity [⟨begin_, l.last⟩]).bind fun s ↦
          (skipInside skewed capacity ls (r.last + 1) s).bind fun (ls, s) ↦
            intersectRunsMerge skewed capacity fuel ls (r :: rs) s
      else
        (s.write capacity [⟨begin_, r.last⟩]).bind fun s ↦
          (skipInside skewed capacity rs (l.last + 1) s).bind fun (rs, s) ↦
            intersectRunsMerge skewed capacity fuel (l :: ls) rs s

def skewedRunListsRatio : Nat := 16

/-- `intersect_runs`, into a buffer of `capacity` runs. -/
def intersectRuns (capacity : Nat) (ls rs : List Run) : Option RunIntersection :=
  let skewed := skewedRunListsRatio * rs.length ≤ ls.length ∨
    skewedRunListsRatio * ls.length ≤ rs.length
  intersectRunsMerge skewed capacity (ls.length + rs.length) ls rs {}

def runIsFull (rs : List Run) : Bool := rs = [⟨0, lowTypeMax⟩]

/-- `intersect_run_run`, whose buffer has room for the runs of both. -/
def intersectRunRun (ls rs : List Run) : Option RunIntersection :=
  if ls.isEmpty || rs.isEmpty then some {}
  else if runIsFull ls then some ⟨rs, runCardinality rs⟩
  else if runIsFull rs then some ⟨ls, runCardinality ls⟩
  else intersectRuns (ls.length + rs.length) ls rs

/-- `intersect_runs_cardinality`: both lists go on behind runs that end together. -/
def intersectRunsCardinality : Nat → List Run → List Run → Nat → Option Nat
  | _, [], _, cardinality => some cardinality
  | _, _ :: _, [], cardinality => some cardinality
  | 0, _ :: _, _ :: _, _ => none
  | fuel + 1, l :: ls, r :: rs, cardinality =>
    if l.last + 1 ≤ r.first then
      intersectRunsCardinality fuel (nextRunReaching ls r.first) (r :: rs) cardinality
    else if r.last + 1 ≤ l.first then
      intersectRunsCardinality fuel (l :: ls) (nextRunReaching rs l.first) cardinality
    else
      intersectRunsCardinality fuel (if l.last ≤ r.last then ls else l :: ls)
        (if r.last ≤ l.last then rs else r :: rs)
        (cardinality + (min (l.last + 1) (r.last + 1) - max l.first r.first))

/-! ## The union -/

/-- The loop that takes the runs of two lists by turns, and what is left of one list at its end. -/
def interleave {α : Type} (leftFirst : Run → Run → Bool) (append : α → Run → α) : List Run →
    List Run → α → α
  | [], rs, s => rs.foldl append s
  | l :: ls, [], s => (l :: ls).foldl append s
  | l :: ls, r :: rs, s =>
    if leftFirst l r then interleave leftFirst append ls (r :: rs) (append s l)
    else interleave leftFirst append (l :: ls) rs (append s r)
termination_by ls rs => ls.length + rs.length

/-- A run container as it is built. -/
structure RunUnion where
  runs : List Run := []
  cardinality : Nat := 0

/-- `append_run` of the union: a run that touches the last one extends it. -/
def appendUnion (s : RunUnion) (next : Run) : RunUnion :=
  match s.runs.getLast? with
  | none => ⟨[next], s.cardinality + (next.last - next.first + 1)⟩
  | some current =>
    if current.last + 1 < next.first then
      ⟨s.runs ++ [next], s.cardinality + (next.last - next.first + 1)⟩
    else if current.last < next.last then
      ⟨s.runs.dropLast ++ [⟨current.first, next.last⟩], s.cardinality + (next.last - current.last)⟩
    else s

def unionRunRun (ls rs : List Run) : RunUnion :=
  interleave (fun l r ↦ l.first < r.first) appendUnion ls rs {}

/-- The values of an array as runs of one. -/
def unitRuns (values : List Nat) : List Run := values.map fun v ↦ ⟨v, v⟩

def unionRunArray (runs : List Run) (values : List Nat) : RunUnion :=
  interleave (fun l r ↦ l.first ≤ r.first) appendUnion runs (unitRuns values) {}

/-! ## The difference -/

/-- What is left in front of a run that is cut out. -/
def runFront (current first : Nat) : List Run :=
  if current < first then [⟨current, first - 1⟩] else []

/-- The scan of the runs that meet one run from `current` on. -/
def cutScan (last : Nat) : (current : Nat) → List Run → List Run
  | current, [] => runTail current last
  | current, r :: rs =>
    if r.first ≤ last then
      runFront current r.first ++
        if r.last = lowTypeMax ∨ last ≤ r.last then [] else cutScan last (r.last + 1) rs
    else runTail current last

/-- The runs that `difference_run_run` writes. -/
def differenceRunRun : List Run → List Run → List Run
  | [], _ => []
  | l :: ls, rs =>
    let reaching := rs.dropWhile fun r ↦ r.last < l.first
    cutScan l.last l.first reaching ++ differenceRunRun ls reaching

/-! ## The exclusive or -/

/-- A run in place `n` of a buffer whose first `n` places are written. -/
def writeRun (capacity : Nat) (out : List Run) (r : Run) : Option (List Run) :=
  if out.length < capacity then some (out ++ [r]) else none

/-- `append_run_exclusive`, into a buffer of `capacity` runs. -/
def appendRunExclusive (capacity : Nat) (out : List Run) (next : Run) : Option (List Run) :=
  match out.getLast? with
  | none => writeRun capacity out next
  | some last =>
    let rest := out.dropLast
    if last.last + 1 < next.first then writeRun capacity out next
    else if last.last + 1 = next.first then some (rest ++ [⟨last.first, next.last⟩])
    else if next.first = last.first then
      -- the last run is wiped out
      if next.last < last.last then some (rest ++ [⟨next.last + 1, last.last⟩])
      else if last.last < next.last then some (rest ++ [⟨last.last + 1, next.last⟩])
      else some rest
    else
      let out := rest ++ [⟨last.first, next.first - 1⟩]
      if next.last < last.last then writeRun capacity out ⟨next.last + 1, last.last⟩
      else if last.last < next.last then writeRun capacity out ⟨last.last + 1, next.last⟩
      else some out

/-- `xor_runs`, into a buffer of `capacity` runs. -/
def xorRuns (capacity : Nat) (ls rs : List Run) : Option (List Run) :=
  interleave (fun l r ↦ l.first ≤ r.first)
    (fun out next ↦ out.bind fun out ↦ appendRunExclusive capacity out next)
    ls rs (some [])

/-! ## Gallops over runs -/

variable {ls rs new xs : List Run} {l r x : Run} {limit v : Nat}

/-- The runs that end below a bound are the front of a list. -/
theorem Canonical.cuts (h : Canonical rs) (limit : Nat) :
    (∀ r ∈ rs.take (rs.takeWhile fun r ↦ decide (r.last < limit)).length, r.last < limit) ∧
      ∀ r ∈ rs.drop (rs.takeWhile fun r ↦ decide (r.last < limit)).length, limit ≤ r.last := by
  have hasc : (rs.map Run.last).Pairwise (· < ·) := by
    refine List.pairwise_map.2 (h.apart.imp_of_mem fun {a b} _ hb hab ↦ ?_)
    have hle := h.forward b hb
    omega
  exact takeWhile_cuts hasc limit

theorem gallop_runs (h : Canonical rs) {lo : Nat}
    (hlo : lo ≤ (rs.takeWhile fun r ↦ decide (r.last < limit)).length) :
    gallopForward (fun i ↦ (runAt rs i).last < limit) lo rs.length =
      (rs.takeWhile fun r ↦ decide (r.last < limit)).length := by
  obtain ⟨hfront, hback⟩ := h.cuts limit
  have hlen : (rs.takeWhile fun r ↦ decide (r.last < limit)).length ≤ rs.length :=
    (List.takeWhile_sublist _).length_le
  apply gallopForward_eq hlo hlen
  · intro i _ hi
    have hin : i < rs.length := hi.trans_le hlen
    rw [decide_eq_true_eq, runAt_of_lt hin]
    exact hfront _ (List.mem_take_iff_getElem.2 ⟨i, lt_min hi hin, rfl⟩)
  · intro i hi hin
    rw [decide_eq_false_iff_not, not_lt, runAt_of_lt hin]
    have hmem : rs[i] ∈ rs.drop i := by
      rw [List.drop_eq_getElem_cons hin]
      exact List.mem_cons_self
    exact hback _ ((List.drop_sublist_drop_left rs hi).subset hmem)

theorem nextRunReaching_eq (h : Canonical rs) (limit : Nat) :
    nextRunReaching rs limit = rs.dropWhile fun r ↦ decide (r.last < limit) := by
  rw [nextRunReaching, gallop_runs h (Nat.zero_le _), drop_length_takeWhile]

theorem nextRunReaching_canonical (h : Canonical rs) (limit : Nat) :
    Canonical (nextRunReaching rs limit) :=
  h.sublist (List.drop_sublist _ _)

/-! ## What an intersection is -/

/-- The values that two run lists share, as a run list. -/
structure Meets (ls rs new : List Run) : Prop where
  canonical : Canonical new
  mem : ∀ v, v ∈ runValues new ↔ v ∈ runValues ls ∧ v ∈ runValues rs

/-- The runs behind a run are away from it. -/
theorem Canonical.apart_values (h : Canonical (xs ++ ls)) (hx : x ∈ xs) (hv : v ∈ runValues ls) :
    x.last + 1 < v := by
  obtain ⟨r, hr, hfirst, -⟩ := mem_runValues.1 hv
  exact ((List.pairwise_append.1 h.apart).2.2 x hx r hr).trans_le hfirst

theorem Canonical.behind (h : Canonical (l :: ls)) (hv : v ∈ runValues ls) : l.last + 1 < v := by
  obtain ⟨r, hr, hfirst, -⟩ := mem_runValues.1 hv
  exact (h.head_apart hr).trans_le hfirst

theorem Canonical.head_le_values (h : Canonical (l :: ls)) (hv : v ∈ runValues (l :: ls)) :
    l.first ≤ v := by
  rw [runValues_cons, List.mem_append, Run.mem_values] at hv
  rcases hv with hv | hv
  · exact hv.1
  · have hbehind := h.behind hv
    have hle := h.head_le
    omega

theorem Canonical.left (h : Canonical (xs ++ ls)) : Canonical xs :=
  h.sublist (List.sublist_append_left xs ls)

theorem Canonical.right (h : Canonical (xs ++ ls)) : Canonical ls :=
  h.sublist (List.sublist_append_right xs ls)

/-- Runs whose values are among those behind some runs go behind them. -/
theorem Canonical.append_values (h : Canonical xs) (hnew : Canonical new)
    (hapart : ∀ x ∈ xs, ∀ v ∈ runValues new, x.last + 1 < v) : Canonical (xs ++ new) := by
  refine ⟨fun r hr ↦ ?_, List.pairwise_append.2 ⟨h.apart, hnew.apart, fun x hx y hy ↦ ?_⟩,
    fun r hr ↦ ?_⟩
  · rcases List.mem_append.1 hr with hr | hr
    · exact h.forward r hr
    · exact hnew.forward r hr
  · exact hapart x hx y.first (mem_runValues.2 ⟨y, hy, le_rfl, hnew.forward y hy⟩)
  · rcases List.mem_append.1 hr with hr | hr
    · exact h.bounded r hr
    · exact hnew.bounded r hr

namespace Meets

theorem nil_left (rs : List Run) : Meets [] rs [] := ⟨.nil, fun v ↦ by simp⟩

theorem symm (h : Meets ls rs new) : Meets rs ls new :=
  ⟨h.canonical, fun v ↦ (h.mem v).trans and_comm⟩

/-- Runs below the other list have nothing to share. -/
theorem of_below (hbelow : ∀ x ∈ xs, ∀ v ∈ runValues rs, x.last < v) (h : Meets ls rs new) :
    Meets (xs ++ ls) rs new := by
  refine ⟨h.canonical, fun v ↦ ?_⟩
  rw [h.mem, runValues_append, List.mem_append, and_congr_left_iff]
  intro hv
  refine ⟨.inr, ?_⟩
  rintro (hx | hl)
  · obtain ⟨x, hx, -, hlast⟩ := mem_runValues.1 hx
    exact absurd (hbelow x hx v hv) (not_lt.2 hlast)
  · exact hl

/-- Runs inside a run of the other list are shared as they are. -/
theorem of_inside (hl : Canonical (xs ++ ls)) (hin : ∀ x ∈ xs, r.first ≤ x.first ∧ x.last ≤ r.last)
    (h : Meets ls (r :: rs) new) : Meets (xs ++ ls) (r :: rs) (xs ++ new) := by
  refine ⟨hl.left.append_values h.canonical fun x hx v hv ↦ hl.apart_values hx ((h.mem v).1 hv).1,
    fun v ↦ ?_⟩
  rw [runValues_append, runValues_append, List.mem_append, List.mem_append, h.mem, or_and_right,
    or_congr_left]
  refine ⟨fun hx ↦ ⟨hx, ?_⟩, And.left⟩
  obtain ⟨x, hmem, hfirst, hlast⟩ := mem_runValues.1 hx
  have hxin := hin x hmem
  rw [runValues_cons, List.mem_append, Run.mem_values]
  exact .inl ⟨hxin.1.trans hfirst, hlast.trans hxin.2⟩

/-- Of two runs that meet, one ends first; the part they share ends with it. -/
theorem of_cut (hl : Canonical (l :: ls)) (hr : Canonical (r :: rs)) (hmeet : r.first ≤ l.last)
    (hends : l.last < r.last) (h : Meets ls (r :: rs) new) :
    Meets (l :: ls) (r :: rs) (⟨max l.first r.first, l.last⟩ :: new) := by
  have hle : max l.first r.first ≤ l.last := max_le hl.head_le hmeet
  have hcut : Canonical [⟨max l.first r.first, l.last⟩] :=
    Canonical.cons_iff.2 ⟨hle, hl.bounded l List.mem_cons_self, nofun, .nil⟩
  refine ⟨hcut.append_values h.canonical fun x hx v hv ↦ ?_, fun v ↦ ?_⟩
  · have hbehind : l.last + 1 < v := hl.behind ((h.mem v).1 hv).1
    rw [List.mem_singleton.1 hx]
    exact hbehind
  · rw [runValues_cons, runValues_cons, List.mem_append, List.mem_append, h.mem, or_and_right,
      Run.mem_values,
      Run.mem_values, or_congr_left]
    rw [max_le_iff, runValues_cons, List.mem_append, Run.mem_values]
    constructor
    · rintro ⟨⟨h1, h2⟩, h3⟩
      exact ⟨⟨h1, h3⟩, .inl ⟨h2, h3.trans hends.le⟩⟩
    · rintro ⟨⟨h1, h3⟩, hv⟩
      rcases hv with hv | hv
      · exact ⟨⟨h1, hv.1⟩, h3⟩
      · have hapart := hr.behind hv
        omega

/-- Two runs that meet and end together. -/
theorem of_cut_both (hl : Canonical (l :: ls)) (hr : Canonical (r :: rs)) (hends : l.last = r.last)
    (h : Meets ls rs new) :
    Meets (l :: ls) (r :: rs) (⟨max l.first r.first, l.last⟩ :: new) := by
  have hle : max l.first r.first ≤ l.last := max_le hl.head_le (hends ▸ hr.head_le)
  have hcut : Canonical [⟨max l.first r.first, l.last⟩] :=
    Canonical.cons_iff.2 ⟨hle, hl.bounded l List.mem_cons_self, nofun, .nil⟩
  refine ⟨hcut.append_values h.canonical fun x hx v hv ↦ ?_, fun v ↦ ?_⟩
  · have hbehind : l.last + 1 < v := hl.behind ((h.mem v).1 hv).1
    rw [List.mem_singleton.1 hx]
    exact hbehind
  · rw [runValues_cons, runValues_cons, runValues_cons, List.mem_append, List.mem_append,
      List.mem_append, h.mem,
      Run.mem_values, Run.mem_values, Run.mem_values, max_le_iff]
    have hbehind : v ∈ runValues ls → l.last + 1 < v := hl.behind
    have hbehind' : v ∈ runValues rs → r.last + 1 < v := hr.behind
    constructor
    · rintro (⟨⟨h1, h2⟩, h3⟩ | ⟨h1, h2⟩)
      · exact ⟨.inl ⟨h1, h3⟩, .inl ⟨h2, hends ▸ h3⟩⟩
      · exact ⟨.inr h1, .inr h2⟩
    · rintro ⟨⟨h1, h2⟩ | h1, ⟨h3, h4⟩ | h3⟩
      · exact .inl ⟨⟨h1, h3⟩, h2⟩
      · have := hbehind' h3
        omega
      · have := hbehind h1
        omega
      · exact .inr ⟨h1, h3⟩

/-- What a run below the other list's first run is skipped with has nothing to share. -/
theorem of_skip (hl : Canonical (l :: ls)) (hr : Canonical (r :: rs)) (hlt : l.last + 1 ≤ r.first)
    (h : Meets (nextRunReaching ls r.first) (r :: rs) new) : Meets (l :: ls) (r :: rs) new := by
  rw [nextRunReaching_eq hl.tail] at h
  have hbelow : ∀ x ∈ l :: ls.takeWhile (fun q ↦ decide (q.last < r.first)),
      ∀ v ∈ runValues (r :: rs), x.last < v := by
    intro x hx v hv
    refine lt_of_lt_of_le ?_ (hr.head_le_values hv)
    rcases List.mem_cons.1 hx with rfl | hx
    · exact hlt
    · have hp := List.mem_takeWhile_imp hx
      exact of_decide_eq_true hp
  have hall := of_below hbelow h
  rwa [List.cons_append, List.takeWhile_append_dropWhile] at hall

end Meets

/-! ## The merges for the intersection -/

variable {capacity : Nat} {s : RunIntersection}

theorem RunIntersection.write_eq (h : s.runs.length + rs.length ≤ capacity) :
    s.write capacity rs = some ⟨s.runs ++ rs, s.cardinality + runCardinality rs⟩ := if_pos h

/-- What is skipped behind a run is copied, and lies inside the other list's run. -/
theorem skipInside_spec (skewed : Bool) (h : Canonical rs) (limit : Nat) (s : RunIntersection)
    (hcap : s.runs.length + rs.length ≤ capacity) :
    ∃ ys zs, rs = ys ++ zs ∧ (∀ y ∈ ys, y.last < limit) ∧
      skipInside skewed capacity rs limit s =
        some (zs, ⟨s.runs ++ ys, s.cardinality + runCardinality ys⟩) := by
  rw [skipInside]
  split
  · rename_i hskip
    obtain ⟨r, hr, hlt⟩ : ∃ r ∈ rs.head?, r.last < limit := by
      obtain ⟨r, hr, hlt⟩ := (Option.any_eq_true _ _).1 hskip.2
      exact ⟨r, hr, of_decide_eq_true hlt⟩
    have hpos : 1 ≤ (rs.takeWhile fun r ↦ decide (r.last < limit)).length := by
      cases rs with
      | nil => exact absurd hr nofun
      | cons a as =>
        obtain rfl := Option.some.inj hr
        rw [List.takeWhile_cons_of_pos (by simpa using hlt)]
        exact Nat.succ_le_succ (Nat.zero_le _)
    set stop := (rs.takeWhile fun r ↦ decide (r.last < limit)).length with hstop
    refine ⟨rs.take stop, rs.drop stop, (List.take_append_drop stop rs).symm, (h.cuts limit).1, ?_⟩
    have hfits : s.runs.length + (rs.take stop).length ≤ capacity :=
      (Nat.add_le_add_left (List.length_take_le' _ _) _).trans hcap
    rw [copyRunsInside, gallop_runs h hpos, ← hstop, RunIntersection.write_eq hfits,
      Option.map_some]
  · exact ⟨[], rs, rfl, nofun, by simp⟩

/-- A run is written and what is skipped behind it is copied. -/
theorem write_skipInside (skewed : Bool) (h : Canonical rs) (limit : Nat) (cut : Run)
    (hcap : s.runs.length + 1 + rs.length ≤ capacity)
    (next : List Run × RunIntersection → Option RunIntersection) :
    ∃ ys zs, rs = ys ++ zs ∧ (∀ y ∈ ys, y.last < limit) ∧
      ((s.write capacity [cut]).bind fun s ↦ (skipInside skewed capacity rs limit s).bind next) =
        next (zs, ⟨s.runs ++ cut :: ys, s.cardinality + runCardinality (cut :: ys)⟩) := by
  obtain ⟨ys, zs, rfl, hinside, hcopy⟩ := skipInside_spec skewed h limit
    ⟨s.runs ++ [cut], s.cardinality + runCardinality [cut]⟩
    (show (s.runs ++ [cut]).length + rs.length ≤ capacity by
      rw [List.length_append, List.length_singleton]; omega)
  refine ⟨ys, zs, rfl, hinside, ?_⟩
  rw [RunIntersection.write_eq (by rw [List.length_singleton]; omega), Option.bind_some, hcopy,
    Option.bind_some]
  simp [Nat.add_assoc]

/-- The merge writes what the lists share behind what is written, and counts it. -/
theorem intersectRunsMerge_spec (skewed : Bool) {fuel : Nat} (hl : Canonical ls) (hr : Canonical rs)
    (hfuel : ls.length + rs.length ≤ fuel)
    (hcap : s.runs.length + ls.length + rs.length ≤ capacity) :
    ∃ new, intersectRunsMerge skewed capacity fuel ls rs s = some
      ⟨s.runs ++ new, s.cardinality + runCardinality new⟩ ∧
      Meets ls rs new ∧ new.length ≤ ls.length + rs.length := by
  induction fuel generalizing ls rs s with
  | zero =>
    cases ls with
    | nil => exact ⟨[], by rw [intersectRunsMerge]; simp, .nil_left rs, Nat.zero_le _⟩
    | cons l ls => exact absurd hfuel (by simp)
  | succ fuel ih =>
    cases ls with
    | nil => exact ⟨[], by rw [intersectRunsMerge]; simp, .nil_left rs, Nat.zero_le _⟩
    | cons l ls =>
      cases rs with
      | nil => exact ⟨[], by rw [intersectRunsMerge]; simp, (Meets.nil_left _).symm, Nat.zero_le _⟩
      | cons r rs =>
        rw [List.length_cons, List.length_cons] at hfuel hcap
        rw [List.length_cons, List.length_cons]
        have hskip : ∀ (rs : List Run) (limit : Nat), (nextRunReaching rs limit).length ≤
            rs.length :=
          fun rs limit ↦ (List.drop_sublist _ _).length_le
        have hone : ∀ x : Run, s.runs.length + [x].length ≤ capacity := fun x ↦ by
          rw [List.length_singleton]
          omega
        rw [intersectRunsMerge]
        split
        · rename_i hbelow
          have hlen := hskip ls r.first
          obtain ⟨new, hnew, hmeets, hcount⟩ :=
            @ih _ (r :: rs) s (nextRunReaching_canonical hl.tail r.first) hr
            (by rw [List.length_cons]; omega) (by rw [List.length_cons]; omega)
          rw [List.length_cons] at hcount
          exact ⟨new, hnew, hmeets.of_skip hl hr hbelow, by omega⟩
        · rename_i hreach
          split
          · rename_i hbelow
            have hlen := hskip rs l.first
            obtain ⟨new, hnew, hmeets, hcount⟩ :=
              @ih (l :: ls) _ s hl (nextRunReaching_canonical hr.tail l.first)
              (by rw [List.length_cons]; omega) (by rw [List.length_cons]; omega)
            rw [List.length_cons] at hcount
            exact ⟨new, hnew, (hmeets.symm.of_skip hr hl hbelow).symm, by omega⟩
          · rename_i hreach'
            dsimp only
            split
            · rename_i hends
              have hwrite := RunIntersection.write_eq (hone ⟨max l.first r.first, l.last⟩)
              obtain ⟨new, hnew, hmeets, hcount⟩ := @ih ls rs
                ⟨s.runs ++ [⟨max l.first r.first, l.last⟩],
                  s.cardinality + runCardinality [⟨max l.first r.first, l.last⟩]⟩
                hl.tail hr.tail (by omega)
                  (by rw [List.length_append, List.length_singleton]; omega)
              refine ⟨⟨max l.first r.first, l.last⟩ :: new, ?_, hmeets.of_cut_both hl hr hends, by
                rw [List.length_cons]; omega⟩
              rw [hwrite, Option.bind_some, hnew]
              simp [Nat.add_assoc]
            · rename_i hends
              split
              · rename_i hlt
                set cut : Run := ⟨max l.first r.first, l.last⟩ with hcut
                obtain ⟨ys, zs, rfl, hinside, hcopy⟩ := write_skipInside skewed hl.tail
                  (r.last + 1) cut (show s.runs.length + 1 + ls.length ≤ capacity by omega)
                  fun x ↦ intersectRunsMerge skewed capacity fuel x.1 (r :: rs) x.2
                rw [List.length_append] at hfuel hcap
                obtain ⟨new, hnew, hmeets, hcount⟩ := @ih zs (r :: rs)
                  ⟨s.runs ++ cut :: ys, s.cardinality + runCardinality (cut :: ys)⟩ hl.tail.right hr
                  (by rw [List.length_cons]; omega) (by simp; omega)
                have hin : ∀ y ∈ ys, r.first ≤ y.first ∧ y.last ≤ r.last := fun y hy ↦ by
                  have hapart := hl.head_apart (List.mem_append_left zs hy)
                  have hend := hinside y hy
                  omega
                rw [List.length_cons] at hcount
                refine ⟨cut :: (ys ++ new), ?_, (hmeets.of_inside hl.tail hin).of_cut hl hr
                  (by omega) hlt, by simp; omega⟩
                refine hcopy.trans (hnew.trans ?_)
                simp [Nat.add_assoc]
              · rename_i hge
                set cut : Run := ⟨max l.first r.first, r.last⟩ with hcut
                obtain ⟨ys, zs, rfl, hinside, hcopy⟩ := write_skipInside skewed hr.tail
                  (l.last + 1) cut (show s.runs.length + 1 + rs.length ≤ capacity by omega)
                  fun x ↦ intersectRunsMerge skewed capacity fuel (l :: ls) x.1 x.2
                rw [List.length_append] at hfuel hcap
                obtain ⟨new, hnew, hmeets, hcount⟩ := @ih (l :: ls) zs
                  ⟨s.runs ++ cut :: ys, s.cardinality + runCardinality (cut :: ys)⟩ hl hr.tail.right
                  (by rw [List.length_cons]; omega) (by simp; omega)
                have hin : ∀ y ∈ ys, l.first ≤ y.first ∧ y.last ≤ l.last := fun y hy ↦ by
                  have hapart := hr.head_apart (List.mem_append_left zs hy)
                  have hend := hinside y hy
                  omega
                have hmirror := (hmeets.symm.of_inside hr.tail hin).of_cut hr hl (by omega)
                  (by omega)
                rw [max_comm, ← hcut] at hmirror
                rw [List.length_cons] at hcount
                refine ⟨cut :: (ys ++ new), ?_, hmirror.symm, by simp; omega⟩
                refine hcopy.trans (hnew.trans ?_)
                simp [Nat.add_assoc]

theorem intersectRuns_spec (hl : Canonical ls) (hr : Canonical rs)
    (hcap : ls.length + rs.length ≤ capacity) :
    ∃ new, intersectRuns capacity ls rs = some ⟨new, runCardinality new⟩ ∧ Meets ls rs new ∧
      new.length ≤ ls.length + rs.length := by
  have hroom : ({} : RunIntersection).runs.length + ls.length + rs.length ≤ capacity := by
    rw [List.length_nil, Nat.zero_add]
    exact hcap
  obtain ⟨new, hnew, hmeets⟩ := intersectRunsMerge_spec
    (skewedRunListsRatio * rs.length ≤ ls.length ∨ skewedRunListsRatio * ls.length ≤ rs.length) hl
      hr le_rfl hroom
  refine ⟨new, ?_, hmeets⟩
  rw [intersectRuns, hnew]
  simp

/-- Empty lists share nothing, and a full run shares all. -/
theorem intersectRunRun_spec (hl : Canonical ls) (hr : Canonical rs) :
    ∃ new, intersectRunRun ls rs = some ⟨new, runCardinality new⟩ ∧ Meets ls rs new := by
  have hfull : ∀ {xs ys : List Run}, runIsFull xs = true → Canonical ys → Meets xs ys ys := by
    intro xs ys hxs hys
    refine ⟨hys, fun v ↦ (and_iff_right_of_imp fun hv ↦ ?_).symm⟩
    obtain rfl : xs = [⟨0, lowTypeMax⟩] := of_decide_eq_true hxs
    refine mem_runValues.2 ⟨_, List.mem_cons_self, Nat.zero_le v, ?_⟩
    exact Nat.le_of_lt_succ (hys.values_lt v hv)
  rw [intersectRunRun]
  split
  · rename_i hempty
    refine ⟨[], rfl, .nil, fun v ↦ ?_⟩
    rw [Bool.or_eq_true, List.isEmpty_iff, List.isEmpty_iff] at hempty
    rcases hempty with rfl | rfl <;> simp
  · split
    · rename_i hleft
      exact ⟨rs, rfl, hfull hleft hr⟩
    · split
      · rename_i hright
        exact ⟨ls, rfl, (hfull hright hl).symm⟩
      · obtain ⟨new, hnew, hmeets, -⟩ := intersectRuns_spec hl hr le_rfl
        exact ⟨new, hnew, hmeets⟩

/-- The count follows the merge. -/
theorem intersectRunsCardinality_spec {fuel cardinality : Nat} (hl : Canonical ls)
    (hr : Canonical rs) (hfuel : ls.length + rs.length ≤ fuel) :
    ∃ new, intersectRunsCardinality fuel ls rs cardinality =
      some (cardinality + runCardinality new) ∧ Meets ls rs new := by
  induction fuel generalizing ls rs cardinality with
  | zero =>
    cases ls with
    | nil => exact ⟨[], by rw [intersectRunsCardinality]; simp, .nil_left rs⟩
    | cons l ls => exact absurd hfuel (by simp)
  | succ fuel ih =>
    cases ls with
    | nil => exact ⟨[], by rw [intersectRunsCardinality]; simp, .nil_left rs⟩
    | cons l ls =>
      cases rs with
      | nil => exact ⟨[], by rw [intersectRunsCardinality]; simp, (Meets.nil_left _).symm⟩
      | cons r rs =>
        rw [List.length_cons, List.length_cons] at hfuel
        have hskip : ∀ (rs : List Run) (limit : Nat), (nextRunReaching rs limit).length ≤
            rs.length :=
          fun rs limit ↦ (List.drop_sublist _ _).length_le
        rw [intersectRunsCardinality]
        split
        · rename_i hbelow
          have hlen := hskip ls r.first
          obtain ⟨new, hnew, hmeets⟩ :=
            @ih _ (r :: rs) cardinality (nextRunReaching_canonical hl.tail r.first) hr
            (by rw [List.length_cons]; omega)
          exact ⟨new, hnew, hmeets.of_skip hl hr hbelow⟩
        · rename_i hreach
          split
          · rename_i hbelow
            have hlen := hskip rs l.first
            obtain ⟨new, hnew, hmeets⟩ :=
              @ih (l :: ls) _ cardinality hl (nextRunReaching_canonical hr.tail l.first)
              (by rw [List.length_cons]; omega)
            exact ⟨new, hnew, (hmeets.symm.of_skip hr hl hbelow).symm⟩
          · rename_i hreach'
            have hpart : ∀ e, max l.first r.first ≤ e → min (l.last + 1) (r.last + 1) = e + 1 →
                ∀ new : List Run,
                cardinality + (min (l.last + 1) (r.last + 1) - max l.first r.first) +
                  runCardinality new =
                  cardinality + runCardinality (⟨max l.first r.first, e⟩ :: new) := by
              intro e hle heq new
              rw [heq, runCardinality_cons, Run.length, Nat.add_assoc, Nat.sub_add_comm hle]
            have hlf := hl.head_le
            have hrf := hr.head_le
            rcases Nat.lt_trichotomy l.last r.last with hlt | heq | hgt
            · rw [if_pos hlt.le, if_neg (not_le.2 hlt)]
              obtain ⟨new, hnew, hmeets⟩ :=
                @ih ls (r :: rs) _ hl.tail hr (by rw [List.length_cons]; omega)
              exact ⟨_, by rw [hnew, hpart l.last (by omega) (by omega)], hmeets.of_cut hl hr
                (by omega) hlt⟩
            · rw [if_pos heq.le, if_pos heq.ge]
              obtain ⟨new, hnew, hmeets⟩ := @ih ls rs _ hl.tail hr.tail (by omega)
              exact ⟨_, by
                rw [hnew, hpart l.last (by omega) (by omega)], hmeets.of_cut_both hl hr heq⟩
            · rw [if_neg (not_le.2 hgt), if_pos hgt.le]
              obtain ⟨new, hnew, hmeets⟩ :=
                @ih (l :: ls) rs _ hl hr.tail (by rw [List.length_cons]; omega)
              have hmirror := hmeets.symm.of_cut hr hl (by omega) hgt
              rw [max_comm] at hmirror
              exact ⟨_, by rw [hnew, hpart r.last (by omega) (by omega)], hmirror.symm⟩

/-! ## Runs by turns -/

/-- Runs that ascend and may be adjacent. -/
structure Ascending (rs : List Run) : Prop where
  forward : ∀ r ∈ rs, r.first ≤ r.last
  apart : rs.Pairwise fun r s ↦ r.last < s.first
  bounded : ∀ r ∈ rs, r.last < lowDomainSize

theorem Canonical.ascending (h : Canonical rs) : Ascending rs :=
  ⟨h.forward, h.apart.imp Nat.lt_of_succ_lt, h.bounded⟩

namespace Ascending

theorem tail (h : Ascending (l :: ls)) : Ascending ls :=
  ⟨fun r hr ↦ h.forward r (List.mem_cons_of_mem l hr), h.apart.of_cons,
    fun r hr ↦ h.bounded r (List.mem_cons_of_mem l hr)⟩

theorem head_le (h : Ascending (l :: ls)) : l.first ≤ l.last := h.forward l List.mem_cons_self

theorem head_lt (h : Ascending (l :: ls)) (hr : r ∈ ls) : l.last < r.first :=
  List.rel_of_pairwise_cons h.apart hr

theorem first_le (h : Ascending (l :: ls)) : ∀ r ∈ l :: ls, l.first ≤ r.first := by
  intro r hr
  rcases List.mem_cons.1 hr with rfl | hr
  · exact le_rfl
  · exact h.head_le.trans (h.head_lt hr).le

end Ascending

/-- The values of an array make ascending runs. -/
theorem unitRuns_ascending {values : List Nat} (hasc : values.Pairwise (· < ·))
    (hlt : ∀ v ∈ values, v < lowDomainSize) :
    Ascending (unitRuns values) := by
  refine ⟨fun r hr ↦ ?_, List.pairwise_map.2 hasc, fun r hr ↦ ?_⟩
  · obtain ⟨v, -, rfl⟩ := List.mem_map.1 hr
    exact le_rfl
  · obtain ⟨v, hv, rfl⟩ := List.mem_map.1 hr
    exact hlt v hv

@[simp] theorem mem_runValues_unitRuns {values : List Nat} : v ∈ runValues (unitRuns values) ↔
    v ∈ values := by
  rw [mem_runValues]
  constructor
  · rintro ⟨r, hr, h1, h2⟩
    obtain ⟨u, hu, rfl⟩ := List.mem_map.1 hr
    rwa [le_antisymm h2 h1]
  · intro hv
    exact ⟨⟨v, v⟩, List.mem_map_of_mem hv, le_rfl, le_rfl⟩

/-- The run that is taken begins no later than the other. -/
def InOrder (leftFirst : Run → Run → Bool) : Prop :=
  ∀ l r, (leftFirst l r = true → l.first ≤ r.first) ∧ (leftFirst l r = false → r.first ≤ l.first)

theorem inOrder_lt : InOrder fun l r ↦ l.first < r.first := by
  intro l r
  rw [decide_eq_true_eq, decide_eq_false_iff_not, not_lt]
  exact ⟨Nat.le_of_lt, id⟩

theorem inOrder_le : InOrder fun l r ↦ l.first ≤ r.first := by
  intro l r
  rw [decide_eq_true_eq, decide_eq_false_iff_not, not_le]
  exact ⟨id, Nat.le_of_lt⟩

/-- The rule of the loop that takes runs by turns: what each turn keeps. -/
theorem interleave_rule {α : Type} {leftFirst : Run → Run → Bool} {append : α → Run → α}
    (P : List Run → List Run → α → Prop) (horder : InOrder leftFirst)
    (hleft : ∀ l ls rs s, (∀ r ∈ rs, l.first ≤ r.first) → P (l :: ls) rs s → P ls rs (append s l))
    (hright : ∀ r ls rs s, (∀ l ∈ ls, r.first ≤ l.first) → P ls (r :: rs) s → P ls rs (append s r))
    (hl : Ascending ls) (hr : Ascending rs) {s : α} (hP : P ls rs s) :
    P [] [] (interleave leftFirst append ls rs s) := by
  have hrights : ∀ rs s, Ascending rs → P [] rs s → P [] [] (rs.foldl append s) := by
    intro rs
    induction rs with
    | nil => exact fun s _ hP ↦ hP
    | cons r rs ih => exact fun s hr hP ↦ ih _ hr.tail (hright r [] rs s nofun hP)
  have hlefts : ∀ ls s, Ascending ls → P ls [] s → P [] [] (ls.foldl append s) := by
    intro ls
    induction ls with
    | nil => exact fun s _ hP ↦ hP
    | cons l ls ih => exact fun s hl hP ↦ ih _ hl.tail (hleft l ls [] s nofun hP)
  induction ls, rs, s using interleave.induct leftFirst append with
  | case1 rs s =>
    rw [interleave]
    exact hrights rs s hr hP
  | case2 l ls s =>
    rw [interleave]
    exact hlefts (l :: ls) s hl hP
  | case3 l ls r rs s hturn ih =>
    rw [interleave, if_pos hturn]
    refine ih hl.tail hr (hleft l ls (r :: rs) s (fun q hq ↦ ?_) hP)
    exact ((horder l r).1 hturn).trans (hr.first_le q hq)
  | case4 l ls r rs s hturn ih =>
    rw [interleave, if_neg hturn]
    refine ih hl hr.tail (hright r (l :: ls) rs s (fun q hq ↦ ?_) hP)
    exact ((horder l r).2 (Bool.eq_false_iff.2 hturn)).trans (hl.first_le q hq)

/-! ## The union -/

/-- A union as far as it is built. -/
structure RunUnion.Sound (s : RunUnion) : Prop where
  canonical : Canonical s.runs
  cardinality : s.cardinality = runCardinality s.runs

theorem appendUnion_spec {s : RunUnion} {next : Run} (hs : s.Sound) (hnext : next.first ≤ next.last)
    (hlt : next.last < lowDomainSize) (horder : ∀ o ∈ s.runs, o.first ≤ next.first) :
    (appendUnion s next).Sound ∧ (appendUnion s next).runs.length ≤ s.runs.length + 1 ∧
      (∀ o ∈ (appendUnion s next).runs, o.first ≤ next.first) ∧
      ∀ v, v ∈ runValues (appendUnion s next).runs ↔ v ∈ runValues s.runs ∨
        (next.first ≤ v ∧ v ≤ next.last) := by
  have hsingle : ∀ v, v ∈ runValues [next] ↔ next.first ≤ v ∧ v ≤ next.last := fun v ↦ by
    rw [runValues_cons, runValues_nil, List.append_nil, Run.mem_values]
  rw [appendUnion]
  rcases List.eq_nil_or_concat' s.runs with hnil | ⟨rest, current, hconcat⟩
  · rw [hnil]
    refine ⟨⟨Canonical.cons_iff.2 ⟨hnext, hlt, nofun, .nil⟩, ?_⟩, le_rfl, ?_, fun v ↦ ?_⟩
    · simp [hs.cardinality, hnil, Run.length]
    · intro o ho
      rw [List.mem_singleton.1 ho]
    · rw [runValues_nil]
      simp
  · have hcanonical := hs.canonical
    have hcard := hs.cardinality
    rw [hconcat] at hcanonical hcard horder ⊢
    obtain ⟨hrest, hforward, hbounded, hapart⟩ := Canonical.append_singleton_iff.1 hcanonical
    have hfirst := horder current (by simp)
    rw [List.getLast?_concat]
    dsimp only
    split
    · rename_i hgap
      refine ⟨⟨Canonical.append_singleton_iff.2 ⟨hcanonical, hnext, hlt, fun o ho ↦ ?_⟩, ?_⟩, by
        simp, fun o ho ↦ ?_,
        fun v ↦ ?_⟩
      · rcases List.mem_append.1 ho with ho | ho
        · have := hapart o ho
          omega
        · rw [List.mem_singleton.1 ho]
          exact hgap
      · rw [runCardinality_append, ← hcard]
        simp [Run.length]
      · rcases List.mem_append.1 ho with ho | ho
        · exact horder o ho
        · rw [List.mem_singleton.1 ho]
      · rw [runValues_append, List.mem_append, hsingle]
    · rename_i htouch
      split
      · rename_i hextend
        rw [List.dropLast_concat]
        refine ⟨⟨Canonical.append_singleton_iff.2 ⟨hrest, ?_, hlt, hapart⟩, ?_⟩, by
          simp, fun o ho ↦ ?_, fun v ↦ ?_⟩
        · exact hfirst.trans hnext
        · rw [hcard, runCardinality_append, runCardinality_append]
          simp only [runCardinality_cons, runCardinality_nil, Run.length]
          omega
        · rcases List.mem_append.1 ho with ho | ho
          · exact horder o (List.mem_append_left _ ho)
          · rw [List.mem_singleton.1 ho]
            exact hfirst
        · simp only [runValues_append, runValues_cons, runValues_nil, List.append_nil,
            List.mem_append, Run.mem_values,
            or_assoc]
          refine or_congr_right ?_
          omega
      · rename_i hcovered
        refine ⟨⟨hconcat ▸ hs.canonical, hs.cardinality⟩, ?_, ?_, fun v ↦ ?_⟩
        · rw [hconcat]
          exact Nat.le_succ _
        · rw [hconcat]
          exact horder
        · rw [hconcat]
          simp only [runValues_append, runValues_cons, runValues_nil, List.append_nil,
            List.mem_append, Run.mem_values,
            or_assoc]
          refine or_congr_right ?_
          omega

/-- What holds while a union is built: the runs ahead begin where the last one does or behind it. -/
structure UnionSoFar (ls rs xs ys : List Run) (s : RunUnion) : Prop where
  sound : s.Sound
  left : Ascending xs
  right : Ascending ys
  length : s.runs.length + (xs.length + ys.length) ≤ ls.length + rs.length
  ahead : ∀ o ∈ s.runs, (∀ q ∈ xs, o.first ≤ q.first) ∧ ∀ q ∈ ys, o.first ≤ q.first
  mem : ∀ v, v ∈ runValues s.runs ∨ v ∈ runValues xs ∨ v ∈ runValues ys ↔ v ∈ runValues ls ∨
    v ∈ runValues rs

theorem UnionSoFar.takeLeft {xs ys : List Run} {s : RunUnion} (hfirst : ∀ q ∈ ys, x.first ≤ q.first)
    (h : UnionSoFar ls rs (x :: xs) ys s) : UnionSoFar ls rs xs ys (appendUnion s x) := by
  obtain ⟨hsound, hlength, horder, hmem⟩ :=
    appendUnion_spec h.sound h.left.head_le (h.left.bounded x List.mem_cons_self)
    fun o ho ↦ (h.ahead o ho).1 x List.mem_cons_self
  have hlen := h.length
  rw [List.length_cons] at hlen
  refine ⟨hsound, h.left.tail, h.right, by omega, fun o ho ↦
    ⟨fun q hq ↦ ?_, fun q hq ↦ ?_⟩, fun v ↦ ?_⟩
  · exact (horder o ho).trans (h.left.first_le q (List.mem_cons_of_mem x hq))
  · exact (horder o ho).trans (hfirst q hq)
  · rw [← h.mem, hmem, runValues_cons, List.mem_append, Run.mem_values, or_assoc, or_assoc]

theorem UnionSoFar.swap {xs ys : List Run} {s : RunUnion} (h : UnionSoFar ls rs xs ys s) :
    UnionSoFar rs ls ys xs s := by
  refine ⟨h.sound, h.right, h.left, ?_, fun o ho ↦ (h.ahead o ho).symm, fun v ↦ ?_⟩
  · have := h.length
    omega
  · rw [or_comm (a := v ∈ runValues ys), h.mem, or_comm]

/-- Runs taken by turns in the order of their begins unite. -/
theorem interleave_appendUnion {leftFirst : Run → Run → Bool}
    (horder : InOrder leftFirst)
    (hl : Ascending ls) (hr : Ascending rs) :
    (interleave leftFirst appendUnion ls rs {}).Sound ∧
      (interleave leftFirst appendUnion ls rs {}).runs.length ≤ ls.length + rs.length ∧
      ∀ v, v ∈ runValues (interleave leftFirst appendUnion ls rs {}).runs ↔ v ∈ runValues ls ∨
        v ∈ runValues rs := by
  have hstart : UnionSoFar ls rs ls rs {} := ⟨⟨.nil, rfl⟩, hl, hr, by simp, nofun, fun v ↦ by simp⟩
  have hend : UnionSoFar ls rs [] [] (interleave leftFirst appendUnion ls rs {}) :=
    interleave_rule (UnionSoFar ls rs) horder (fun l ls' rs' s hfirst h ↦ h.takeLeft hfirst)
      (fun r ls' rs' s hfirst h ↦ (h.swap.takeLeft hfirst).swap) hl hr hstart
  refine ⟨hend.sound, by simpa using hend.length, fun v ↦ ?_⟩
  rw [← hend.mem v]
  simp

/-! ## The difference -/

theorem runFront_spec (current : Nat) {first : Nat} (hlt : first < lowDomainSize) :
    Canonical (runFront current first) ∧
      (∀ v, v ∈ runValues (runFront current first) ↔ current ≤ v ∧ v < first) ∧
      (∀ p ∈ runFront current first, current ≤ p.first ∧ p.last + 1 = first) ∧
      (runFront current first).length = if current < first then 1 else 0 := by
  rw [runFront]
  split
  · rename_i hfront
    refine ⟨Canonical.cons_iff.2 ⟨by dsimp only; omega, by dsimp only; omega, nofun, .nil⟩,
      fun v ↦ ?_, fun p hp ↦ ?_, rfl⟩
    · rw [runValues_cons, runValues_nil, List.append_nil, Run.mem_values]
      dsimp only
      omega
    · rw [List.mem_singleton.1 hp]
      dsimp only
      omega
  · refine ⟨.nil, fun v ↦ ?_, nofun, rfl⟩
    rw [runValues_nil]
    simp only [List.not_mem_nil, false_iff]
    omega

/-- Runs are cut out of one run from `current` on. -/
theorem cutScan_spec {last current : Nat} (hlt : last < lowDomainSize) (hr : Canonical rs)
    (hreach : ∀ r ∈ rs, current ≤ r.last) :
    Canonical (cutScan last current rs) ∧
      (∀ v, v ∈ runValues (cutScan last current rs) ↔ (current ≤ v ∧ v ≤ last) ∧ v ∉ runValues rs) ∧
      (∀ p ∈ cutScan last current rs, current ≤ p.first ∧ p.last ≤ last) ∧
      (cutScan last current rs).length ≤ 1 + rs.countP fun r ↦ decide
        (current < r.first ∧ r.first ≤ last) := by
  induction rs generalizing current with
  | nil =>
    obtain ⟨hc, hmem, hin⟩ := runTail_spec current hlt
    refine ⟨hc, fun v ↦ by rw [cutScan, hmem]; simp, hin, ?_⟩
    rw [cutScan, runTail]
    split <;> simp
  | cons r rs ih =>
    rw [cutScan]
    split
    · rename_i hmeets
      have hr0 := hreach r List.mem_cons_self
      have hforward := hr.head_le
      have htop := hr.bounded r List.mem_cons_self
      have hapart : ∀ q ∈ rs, r.last + 1 < q.first := fun q hq ↦ hr.head_apart hq
      obtain ⟨hpc, hpmem, hplast, hplen⟩ := runFront_spec current (hforward.trans_lt htop)
      have hnotin : ∀ v, v ∉ runValues (r :: rs) ↔ ¬ (r.first ≤ v ∧ v ≤ r.last) ∧
          v ∉ runValues rs := fun v ↦ by
        rw [runValues_cons, List.mem_append, Run.mem_values, not_or]
      have hcount : (r :: rs).countP (fun r ↦ decide (current < r.first ∧ r.first ≤ last)) =
          (rs.countP fun r ↦ decide (current < r.first ∧ r.first ≤ last)) + if current < r.first
            then 1 else 0 := by
        rw [List.countP_cons]
        congr 1
        simp [hmeets]
      rw [hcount]
      split
      · rename_i hexhausted
        rw [List.append_nil]
        refine ⟨hpc, fun v ↦ ?_, fun p hp ↦ ?_, by omega⟩
        · rw [hpmem, hnotin]
          have hmax : r.last = lowTypeMax → last ≤ r.last := fun h ↦ by
            rw [h]
            exact Nat.le_of_lt_succ hlt
          have hend : last ≤ r.last := hexhausted.elim hmax id
          constructor
          · rintro ⟨h1, h2⟩
            refine ⟨⟨h1, by omega⟩, by omega, fun hv ↦ ?_⟩
            have := hr.behind hv
            omega
          · rintro ⟨⟨h1, h2⟩, h3, -⟩
            omega
        · have hin := hplast p hp
          omega
      · rename_i hmore
        rw [not_or, not_le] at hmore
        obtain ⟨hc, hmem, hin, hlen⟩ := @ih (r.last + 1) hr.tail fun q hq ↦ by
          have := hapart q hq
          have := hr.tail.forward q hq
          omega
        refine ⟨hpc.append_values hc fun x hx v hv ↦ ?_, fun v ↦ ?_, fun p hp ↦ ?_, ?_⟩
        · have := (hplast x hx).2
          have := ((hmem v).1 hv).1.1
          omega
        · rw [runValues_append, List.mem_append, hpmem, hmem, hnotin]
          have hfar : v ∈ runValues rs → r.last + 1 < v := hr.behind
          constructor
          · rintro (⟨h1, h2⟩ | ⟨⟨h1, h2⟩, h3⟩)
            · refine ⟨⟨h1, by omega⟩, by omega, fun hv ↦ ?_⟩
              have := hfar hv
              omega
            · exact ⟨⟨by omega, h2⟩, by omega, h3⟩
          · rintro ⟨⟨h1, h2⟩, h3, h4⟩
            by_cases hv : v < r.first
            · exact .inl ⟨h1, hv⟩
            · exact .inr ⟨⟨by omega, h2⟩, h4⟩
        · rcases List.mem_append.1 hp with hp | hp
          · have hin := hplast p hp
            omega
          · have hin := hin p hp
            omega
        · have hmono : (rs.countP fun q ↦ decide (r.last + 1 < q.first ∧ q.first ≤ last)) ≤
              rs.countP fun q ↦ decide (current < q.first ∧ q.first ≤ last) := by
            apply List.countP_mono_left
            intro q _ hq
            rw [decide_eq_true_eq] at hq ⊢
            omega
          rw [List.length_append]
          omega
    · rename_i hbehind
      obtain ⟨hc, hmem, hin⟩ := runTail_spec current hlt
      refine ⟨hc, fun v ↦ ?_, hin, ?_⟩
      · rw [hmem]
        refine (and_iff_left_of_imp ?_).symm
        rintro ⟨-, hle⟩ hv
        have := hr.head_le_values hv
        omega
      · rw [runTail]
        split <;> simp

/-- What one run leaves of another list stays inside the runs of its own. -/
theorem differenceRunRun_spec (hl : Canonical ls) (hr : Canonical rs) :
    Canonical (differenceRunRun ls rs) ∧
      (∀ v, v ∈ runValues (differenceRunRun ls rs) ↔ v ∈ runValues ls ∧ v ∉ runValues rs) ∧
      ∀ b, (∀ l ∈ ls, b ≤ l.first) →
        (differenceRunRun ls rs).length ≤ ls.length + rs.countP fun r ↦ decide (b < r.first) := by
  induction ls generalizing rs with
  | nil => exact ⟨.nil, fun v ↦ by simp [differenceRunRun], fun b _ ↦ Nat.zero_le _⟩
  | cons l ls ih =>
    rw [differenceRunRun]
    set reaching := rs.dropWhile fun r ↦ decide (r.last < l.first) with hreaching
    have hsub : reaching.Sublist rs := List.dropWhile_sublist _
    have hcanonical := hr.sublist hsub
    have hends : ∀ r ∈ reaching, l.first ≤ r.last := by
      intro r hmem
      rw [hreaching, ← drop_length_takeWhile] at hmem
      exact (hr.cuts l.first).2 r hmem
    -- the runs that are passed lie below all that is left
    have hpassed : ∀ v, l.first ≤ v → (v ∈ runValues rs ↔ v ∈ runValues reaching) := by
      intro v hv
      constructor
      · intro hmem
        rw [← List.takeWhile_append_dropWhile (p := fun r : Run ↦ decide (r.last < l.first)) (l :=
          rs), runValues_append,
          List.mem_append] at hmem
        rcases hmem with hmem | hmem
        · obtain ⟨r, hrun, -, hlast⟩ := mem_runValues.1 hmem
          have hp := List.mem_takeWhile_imp hrun
          rw [decide_eq_true_eq] at hp
          omega
        · exact hmem
      · intro hmem
        obtain ⟨r, hrun, hin⟩ := mem_runValues.1 hmem
        exact mem_runValues.2 ⟨r, hsub.subset hrun, hin⟩
    obtain ⟨hc, hmem, hin, hlen⟩ := cutScan_spec (hl.bounded l List.mem_cons_self) hcanonical hends
    obtain ⟨hc', hmem', hlen'⟩ := ih hl.tail hcanonical
    have hback : ∀ v ∈ runValues (differenceRunRun ls reaching), l.last + 1 < v :=
      fun v hv ↦ hl.behind ((hmem' v).1 hv).1
    refine ⟨hc.append_values hc' fun x hx v hv ↦ ?_, fun v ↦ ?_, fun b hb ↦ ?_⟩
    · have := hback v hv
      have := (hin x hx).2
      omega
    · rw [runValues_append, List.mem_append, hmem, hmem', runValues_cons, List.mem_append,
        Run.mem_values, or_and_right]
      have hlow : ∀ v, v ∈ runValues ls → l.first ≤ v := fun v hv ↦ by
        have := hl.behind hv
        have := hl.head_le
        omega
      refine or_congr (and_congr_right fun h ↦ not_congr (hpassed v h.1).symm)
        (and_congr_right fun h ↦ not_congr (hpassed v (hlow v h)).symm)
    · have hrest := hlen' l.last fun q hq ↦ by
        have := hl.head_apart hq
        omega
      have hb0 := hb l List.mem_cons_self
      have hsplit : (reaching.countP fun r ↦ decide (l.first < r.first ∧ r.first ≤ l.last)) +
          (reaching.countP fun r ↦ decide (l.last < r.first)) ≤ rs.countP fun r ↦
            decide (b < r.first) := by
        refine le_trans ?_ (hsub.countP_le)
        have hforward := hl.head_le
        clear_value reaching
        clear hlen hlen' hrest hmem hmem' hin hc hc' hpassed hends hcanonical hsub hback hreaching
        induction reaching with
        | nil => exact le_rfl
        | cons r reaching ihr =>
          simp only [List.countP_cons, decide_eq_true_eq]
          split <;> split <;> split <;> omega
      rw [List.length_append, List.length_cons]
      omega

/-! ## The exclusive or -/

/-- What an append of `next` makes of the runs so far: it toggles the values of `next`, and the new
last run begins no later than anything that comes behind `next`, or behind the end of the old last
run if `next` begins in it. -/
structure Toggles (out : List Run) (next : Run) (out' : List Run) : Prop where
  canonical : Canonical out'
  mem : ∀ v, v ∈ runValues out' ↔ Xor (v ∈ runValues out) (next.first ≤ v ∧ v ≤ next.last)
  length : out'.length ≤ out.length + 1
  first : ∀ o' ∈ out'.getLast?, o'.first ≤ next.last + 1 ∧
    ∀ x, next.first ≤ x → (∀ o ∈ out.getLast?, next.first ≤ o.last → o.last < x) → o'.first ≤ x
  last : ∀ o' ∈ out'.getLast?, o'.last ≤ next.last ∨ ∃ o ∈ out.getLast?, next.first ≤ o.last ∧
    o'.last = o.last

/-- Only the last run is changed, into the runs `qs` at its place. -/
theorem Toggles.of_tail {rest qs : List Run} {o next : Run} (hout : Canonical (rest ++ [o]))
    (hfirst : o.first ≤ next.first)
    (hnext : next.first ≤ next.last) (hqs : Canonical qs) (hbegin : ∀ q ∈ qs, o.first ≤ q.first)
    (hlength : qs.length ≤ 2)
    (hmem : ∀ v, v ∈ runValues qs ↔ Xor (o.first ≤ v ∧ v ≤ o.last) (next.first ≤ v ∧ v ≤ next.last))
    (hend : ∀ q ∈ qs.getLast?, q.first ≤ next.last + 1 ∧
      (∀ x, next.first ≤ x → (next.first ≤ o.last → o.last < x) → q.first ≤ x) ∧
      (q.last ≤ next.last ∨ (next.first ≤ o.last ∧ q.last = o.last))) : Toggles (rest ++ [o]) next
        (rest ++ qs) := by
  obtain ⟨hrest, hforward, -, hapart⟩ := Canonical.append_singleton_iff.1 hout
  have hlow : ∀ v ∈ runValues rest, v + 1 < o.first := fun v hv ↦ by
    obtain ⟨x, hx, -, hlast⟩ := mem_runValues.1 hv
    have := hapart x hx
    omega
  -- the last run of the result is one of `qs`, or a run in front of the last one
  have hcases : ∀ q ∈ (rest ++ qs).getLast?, q ∈ qs.getLast? ∨ q ∈ rest := by
    intro q hq
    rcases List.eq_nil_or_concat' qs with rfl | ⟨qs, p, rfl⟩
    · rw [List.append_nil] at hq
      exact .inr (List.mem_of_getLast? hq)
    · rw [← List.append_assoc, List.getLast?_concat] at hq
      rw [List.getLast?_concat]
      exact .inl hq
  constructor
  · refine hrest.append_values hqs fun x hx v hv ↦ ?_
    obtain ⟨q, hq, hqv, -⟩ := mem_runValues.1 hv
    have := hapart x hx
    have := hbegin q hq
    omega
  · intro v
    rw [runValues_append, runValues_append, List.mem_append, List.mem_append, hmem, runValues_cons,
      runValues_nil,
      List.append_nil, Run.mem_values]
    by_cases hv : v ∈ runValues rest
    · have := hlow v hv
      simp only [hv, true_or, true_iff]
      exact .inl ⟨trivial, by omega⟩
    · simp only [hv, false_or]
  · rw [List.length_append, List.length_append, List.length_singleton]
    omega
  · intro q hq
    rcases hcases q hq with hq | hq
    · obtain ⟨h1, h2, -⟩ := hend q hq
      refine ⟨h1, fun x hx hbehind ↦ h2 x hx fun hle ↦ hbehind o ?_ hle⟩
      exact List.getLast?_concat
    · have := hapart q hq
      have := hrest.forward q hq
      exact ⟨by omega, fun x hx _ ↦ by omega⟩
  · intro q hq
    rcases hcases q hq with hq | hq
    · refine (hend q hq).2.2.imp_right fun h ↦ ⟨o, ?_, h⟩
      exact List.getLast?_concat
    · have := hapart q hq
      exact .inl (by omega)

theorem canonical_singleton {q : Run} (hforward : q.first ≤ q.last)
    (hlt : q.last < lowDomainSize) : Canonical [q] :=
  Canonical.cons_iff.2 ⟨hforward, hlt, nofun, .nil⟩

theorem canonical_pair {p q : Run} (hp : p.first ≤ p.last) (hapart : p.last + 1 < q.first)
    (hq : q.first ≤ q.last) (hlt : q.last < lowDomainSize) : Canonical [p, q] := by
  refine Canonical.cons_iff.2 ⟨hp, by omega, fun x hx ↦ ?_, canonical_singleton hq hlt⟩
  rw [List.mem_singleton.1 hx]
  exact hapart

/-- One run takes the place of the last. -/
theorem Toggles.one {rest : List Run} {o next q : Run} (hout : Canonical (rest ++ [o]))
    (hfirst : o.first ≤ next.first) (hnext : next.first ≤ next.last) (hq : q.first ≤ q.last)
    (hlt : q.last < lowDomainSize) (hbegin : o.first ≤ q.first)
    (hmem : ∀ v, q.first ≤ v ∧ v ≤ q.last ↔
      Xor (o.first ≤ v ∧ v ≤ o.last) (next.first ≤ v ∧ v ≤ next.last))
    (hend : q.first ≤ next.last + 1 ∧
      (∀ x, next.first ≤ x → (next.first ≤ o.last → o.last < x) → q.first ≤ x) ∧
      (q.last ≤ next.last ∨ (next.first ≤ o.last ∧ q.last = o.last))) :
    Toggles (rest ++ [o]) next (rest ++ [q]) := by
  refine .of_tail hout hfirst hnext (canonical_singleton hq hlt) (by simpa using hbegin) (by simp)
    (fun v ↦ ?_) ?_
  · rw [runValues_cons, runValues_nil, List.append_nil, Run.mem_values]
    exact hmem v
  · rintro q' hq'
    obtain rfl := Option.some.inj hq'
    exact hend

/-- The front of the last run stays, and a run is written behind it. -/
theorem Toggles.two {rest : List Run} {o next p q : Run} (hout : Canonical (rest ++ [o]))
    (hfirst : o.first ≤ next.first) (hnext : next.first ≤ next.last) (hp : p.first ≤ p.last)
    (hapart : p.last + 1 < q.first) (hq : q.first ≤ q.last) (hlt : q.last < lowDomainSize)
    (hbegin : o.first = p.first)
    (hmem : ∀ v, (p.first ≤ v ∧ v ≤ p.last) ∨ (q.first ≤ v ∧ v ≤ q.last) ↔
      Xor (o.first ≤ v ∧ v ≤ o.last) (next.first ≤ v ∧ v ≤ next.last))
    (hend : q.first ≤ next.last + 1 ∧
      (∀ x, next.first ≤ x → (next.first ≤ o.last → o.last < x) → q.first ≤ x) ∧
      (q.last ≤ next.last ∨ (next.first ≤ o.last ∧ q.last = o.last))) :
    Toggles (rest ++ [o]) next (rest ++ [p, q]) := by
  refine .of_tail hout hfirst hnext (canonical_pair hp hapart hq hlt) (by simp; omega) le_rfl
    (fun v ↦ ?_) ?_
  · simp only [runValues_cons, runValues_nil, List.append_nil, List.mem_append, Run.mem_values]
    exact hmem v
  · rintro q' hq'
    obtain rfl := Option.some.inj hq'
    exact hend

/-- The next run begins where the last one does, which is wiped out. -/
theorem Toggles.wiped {rest : List Run} {o next : Run} (hout : Canonical (rest ++ [o]))
    (hnext : next.first ≤ next.last) (hlt : next.last < lowDomainSize)
    (hsame : next.first = o.first) :
    ∃ out', (if next.last < o.last then some (rest ++ [⟨next.last + 1, o.last⟩])
      else if o.last < next.last then some (rest ++ [⟨o.last + 1, next.last⟩])
      else some rest) = some out' ∧ Toggles (rest ++ [o]) next out' := by
  obtain ⟨-, hforward, hbounded, -⟩ := Canonical.append_singleton_iff.1 hout
  split
  · rename_i hshort
    refine ⟨_, rfl, .one hout hsame.ge hnext (by dsimp only; omega) hbounded
      (by dsimp only; omega) (fun v ↦ ?_) ?_⟩
    · simp only [Xor]
      omega
    · refine ⟨le_rfl, fun x hx hbehind ↦ ?_, .inr ⟨by omega, rfl⟩⟩
      have := hbehind (by omega)
      dsimp only
      omega
  · split
    · rename_i hlong
      refine ⟨_, rfl, .one hout hsame.ge hnext (by dsimp only; omega) hlt (by dsimp only; omega)
        (fun v ↦ ?_) ?_⟩
      · simp only [Xor]
        omega
      · exact ⟨by dsimp only; omega, fun x hx hbehind ↦ hbehind (by omega), .inl le_rfl⟩
    · rename_i hequal
      have hlast : next.last = o.last := by omega
      have hgone : Toggles (rest ++ [o]) next (rest ++ []) := by
        refine .of_tail hout hsame.ge hnext .nil (by simp) (by simp) (fun v ↦ ?_) (by simp)
        rw [hsame, hlast]
        simp [Xor]
      rw [List.append_nil] at hgone
      exact ⟨rest, rfl, hgone⟩

/-- The next run begins inside the last one, whose front stays. -/
theorem Toggles.inside {rest : List Run} {o next : Run} (hout : Canonical (rest ++ [o]))
    (hnext : next.first ≤ next.last) (hlt : next.last < lowDomainSize)
    (hfirst : o.first < next.first) (hmeet : next.first ≤ o.last)
    (hwrite : ∀ p q : Run, writeRun capacity (rest ++ [p]) q = some (rest ++ [p, q])) :
    let out := rest ++ [⟨o.first, next.first - 1⟩]
    ∃ out', (if next.last < o.last then writeRun capacity out ⟨next.last + 1, o.last⟩
      else if o.last < next.last then writeRun capacity out ⟨o.last + 1, next.last⟩
      else some out) = some out' ∧ Toggles (rest ++ [o]) next out' := by
  obtain ⟨-, hforward, hbounded, -⟩ := Canonical.append_singleton_iff.1 hout
  dsimp only
  split
  · rename_i hshort
    refine ⟨_, hwrite _ _, .two hout hfirst.le hnext (by dsimp only; omega) (by dsimp only; omega)
      (by dsimp only; omega) hbounded rfl (fun v ↦ ?_) ?_⟩
    · simp only [Xor]
      omega
    · refine ⟨le_rfl, fun x hx hbehind ↦ ?_, .inr ⟨hmeet, rfl⟩⟩
      have := hbehind hmeet
      dsimp only
      omega
  · split
    · rename_i hlong
      refine ⟨_, hwrite _ _, .two hout hfirst.le hnext (by dsimp only; omega)
        (by dsimp only; omega) (by dsimp only; omega) hlt rfl (fun v ↦ ?_) ?_⟩
      · simp only [Xor]
        omega
      · exact ⟨by dsimp only; omega, fun x hx hbehind ↦ hbehind hmeet, .inl le_rfl⟩
    · rename_i hequal
      refine ⟨_, rfl, .one hout hfirst.le hnext (by dsimp only; omega) (by dsimp only; omega) le_rfl
        (fun v ↦ ?_) ?_⟩
      · simp only [Xor]
        omega
      · exact ⟨by dsimp only; omega, fun x hx _ ↦ hfirst.le.trans hx, .inl (by dsimp only; omega)⟩

theorem appendRunExclusive_spec {out : List Run} {next : Run} (hout : Canonical out)
    (hnext : next.first ≤ next.last) (hlt : next.last < lowDomainSize)
    (horder : ∀ o ∈ out.getLast?, o.first ≤ next.first) (hroom : out.length < capacity) :
    ∃ out', appendRunExclusive capacity out next = some out' ∧ Toggles out next out' := by
  rw [appendRunExclusive]
  rcases List.eq_nil_or_concat' out with rfl | ⟨rest, o, rfl⟩
  · refine ⟨[next], if_pos hroom,
      ⟨canonical_singleton hnext hlt, fun v ↦ ?_, le_rfl, ?_, ?_⟩⟩
    · rw [runValues_cons, runValues_nil, List.append_nil, Run.mem_values]
      simp [Xor]
    · rintro o' ho'
      obtain rfl := Option.some.inj ho'
      exact ⟨Nat.le_succ_of_le hnext, fun x hx _ ↦ hx⟩
    · rintro o' ho'
      obtain rfl := Option.some.inj ho'
      exact .inl le_rfl
  obtain ⟨-, hforward, -, -⟩ := Canonical.append_singleton_iff.1 hout
  rw [List.getLast?_concat] at horder
  have hfirst : o.first ≤ next.first := horder o rfl
  have hwrite : ∀ p q : Run, writeRun capacity (rest ++ [p]) q = some (rest ++ [p, q]) := fun p q ↦ by
    rw [writeRun, if_pos (by simpa using hroom), List.append_assoc]
    rfl
  rw [List.getLast?_concat, List.dropLast_concat]
  dsimp only
  -- the ways in which `next` meets the last run
  split
  · rename_i hgap
    refine ⟨_, hwrite o next, .two hout hfirst hnext hforward hgap hnext hlt rfl (fun v ↦ ?_)
      ⟨Nat.le_succ_of_le hnext, fun x hx _ ↦ hx, .inl le_rfl⟩⟩
    simp only [Xor]
    omega
  · rename_i hreach
    split
    · rename_i hadjacent
      refine ⟨_, rfl, .one hout hfirst hnext (by dsimp only; omega) hlt le_rfl (fun v ↦ ?_) ?_⟩
      · simp only [Xor]
        omega
      · exact ⟨by dsimp only; omega, fun x hx _ ↦ hfirst.trans hx, .inl le_rfl⟩
    · rename_i hmeet
      split
      · rename_i hsame
        exact Toggles.wiped hout hnext hlt hsame
      · rename_i hinside
        exact Toggles.inside hout hnext hlt (by omega) (by omega) hwrite

/-- What holds while an exclusive or is built: the last run begins no later than anything ahead, and
ends in front of all that is ahead in one of the lists. -/
structure ExclusiveSoFar (ls rs xs ys out : List Run) : Prop where
  canonical : Canonical out
  left : Ascending xs
  right : Ascending ys
  length : out.length + (xs.length + ys.length) ≤ ls.length + rs.length
  ahead : ∀ o ∈ out.getLast?, (∀ q ∈ xs, o.first ≤ q.first) ∧ ∀ q ∈ ys, o.first ≤ q.first
  clear : ∀ o ∈ out.getLast?, (∀ q ∈ xs, o.last < q.first) ∨ ∀ q ∈ ys, o.last < q.first
  mem : ∀ v, Xor (v ∈ runValues out) (Xor (v ∈ runValues xs) (v ∈ runValues ys)) ↔
    Xor (v ∈ runValues ls) (v ∈ runValues rs)

theorem ExclusiveSoFar.swap {xs ys out : List Run} (h : ExclusiveSoFar ls rs xs ys out) :
    ExclusiveSoFar rs ls ys xs out := by
  refine ⟨h.canonical, h.right, h.left, ?_, fun o ho ↦ (h.ahead o ho).symm,
    fun o ho ↦ (h.clear o ho).symm, fun v ↦ ?_⟩
  · have := h.length
    omega
  · rw [xor_comm (v ∈ runValues ys), h.mem, xor_comm]

/-- A part of one list goes over to what is written. -/
theorem xor_take {a b p q : Prop} (hdisjoint : p → ¬ q) : Xor (Xor a p) (Xor q b) ↔
    Xor a (Xor (p ∨ q) b) := by
  by_cases hp : p
  · have hq := hdisjoint hp
    by_cases ha : a <;> by_cases hb : b <;> simp [Xor, hp, hq, ha, hb]
  · by_cases ha : a <;> by_cases hb : b <;> simp [Xor, hp, ha, hb]

/-- A run taken from one list is exclusive-ored with what is written. -/
theorem ExclusiveSoFar.takeLeft {xs ys out : List Run} (hcap : ls.length + rs.length ≤ capacity)
    (hfirst : ∀ q ∈ ys, x.first ≤ q.first) (h : ExclusiveSoFar ls rs (x :: xs) ys out) :
    ∃ out', appendRunExclusive capacity out x = some out' ∧ ExclusiveSoFar ls rs xs ys out' := by
  have hlen := h.length
  rw [List.length_cons] at hlen
  have htop := h.left.bounded x List.mem_cons_self
  have hfront : ∀ o ∈ out.getLast?, o.first ≤ x.first :=
    fun o ho ↦ (h.ahead o ho).1 x List.mem_cons_self
  obtain ⟨out', hrun, ht⟩ : ∃ out', appendRunExclusive capacity out x = some out' ∧
      Toggles out x out' :=
    appendRunExclusive_spec h.canonical h.left.head_le htop hfront (by omega)
  have hgrow := ht.length
  refine ⟨out', hrun, ht.canonical, h.left.tail, h.right, by omega, fun o' ho' ↦
    ⟨fun q hq ↦ ?_, fun q hq ↦ ?_⟩,
    fun o' ho' ↦ ?_, fun v ↦ ?_⟩
  · exact (ht.first o' ho').1.trans (h.left.head_lt hq)
  · refine (ht.first o' ho').2 q.first (hfirst q hq) fun o ho hreach ↦ ?_
    rcases h.clear o ho with hclear | hclear
    · exact absurd (hclear x List.mem_cons_self) (not_lt.2 hreach)
    · exact hclear q hq
  · rcases ht.last o' ho' with hlast | ⟨o, ho, hreach, hsame⟩
    · exact .inl fun q hq ↦ hlast.trans_lt (h.left.head_lt hq)
    · rcases h.clear o ho with hclear | hclear
      · exact absurd (hclear x List.mem_cons_self) (not_lt.2 hreach)
      · exact .inr fun q hq ↦ hsame ▸ hclear q hq
  · rw [← h.mem, ht.mem, runValues_cons, List.mem_append, Run.mem_values]
    have hdisjoint : x.first ≤ v ∧ v ≤ x.last → v ∉ runValues xs := by
      rintro ⟨-, hle⟩ hv
      obtain ⟨q, hq, hbegin, -⟩ := mem_runValues.1 hv
      have := h.left.head_lt hq
      omega
    exact xor_take hdisjoint

/-- Runs taken by turns in the order of their begins are exclusive-ored in a buffer for the runs of
both. -/
theorem interleave_appendRunExclusive {leftFirst : Run → Run → Bool}
    (horder : InOrder leftFirst)
    (hl : Ascending ls) (hr : Ascending rs) (hcap : ls.length + rs.length ≤ capacity) :
    ∃ out, interleave leftFirst
        (fun out next ↦ out.bind fun out ↦ appendRunExclusive capacity out next) ls rs (some []) =
        some out ∧
      Canonical out ∧ out.length ≤ ls.length + rs.length ∧
      ∀ v, v ∈ runValues out ↔ Xor (v ∈ runValues ls) (v ∈ runValues rs) := by
  have hstart : ExclusiveSoFar ls rs ls rs [] :=
    ⟨.nil, hl, hr, by simp, nofun, nofun, fun v ↦ by simp [Xor]⟩
  obtain ⟨out, hrun, hend⟩ : ∃ out, interleave leftFirst
      (fun out next ↦ out.bind fun out ↦ appendRunExclusive capacity out next) ls rs (some []) =
        some out ∧
        ExclusiveSoFar ls rs [] [] out := by
    refine interleave_rule (fun xs ys s ↦ ∃ out, s = some out ∧ ExclusiveSoFar ls rs xs ys out)
      horder ?_ ?_ hl hr
      ⟨[], rfl, hstart⟩
    · rintro l xs ys s hfirst ⟨out, rfl, hso⟩
      exact hso.takeLeft hcap hfirst
    · rintro r xs ys s hfirst ⟨out, rfl, hso⟩
      obtain ⟨out', hrun, hso'⟩ := hso.swap.takeLeft ((Nat.add_comm _ _).trans_le hcap) hfirst
      exact ⟨out', hrun, hso'.swap⟩
  refine ⟨out, hrun, hend.canonical, by simpa using hend.length, fun v ↦ ?_⟩
  rw [← hend.mem v]
  simp [Xor]

/-! ## The four operations -/

/-- The set that a run list stands for. -/
def runSet (rs : List Run) : Set Nat := {v | v ∈ runValues rs}

/-- A run list for a set, with the cardinality reported for it, in a buffer of `capacity` runs. -/
structure RunAnswer (capacity : Nat) (values : Set Nat) (runs : List Run) (cardinality : Nat) :
    Prop where
  canonical : Canonical runs
  denotes : runSet runs = values
  counted : cardinality = values.ncard
  fits : runs.length ≤ capacity

theorem Canonical.ncard_runSet (h : Canonical rs) : (runSet rs).ncard = runCardinality rs := by
  have hnodup : (runValues rs).Nodup := h.values_ascending.imp ne_of_lt
  have hset : runSet rs = ↑(runValues rs).toFinset := by
    ext v
    rw [runSet, Set.mem_ofPred_eq, List.coe_toFinset, Set.mem_ofPred_eq]
  rw [hset, Set.ncard_coe_finset, List.toFinset_card_of_nodup hnodup, h.length_values]

/-- The runs of a result are counted by their lengths. -/
theorem Canonical.answers {values : Set Nat} (h : Canonical rs)
    (hmem : ∀ v, v ∈ runValues rs ↔ v ∈ values)
    (hfits : rs.length ≤ capacity) : RunAnswer capacity values rs (runCardinality rs) := by
  have hdenotes : runSet rs = values := Set.ext hmem
  exact ⟨h, hdenotes, by rw [← hdenotes, h.ncard_runSet], hfits⟩

theorem Meets.ncard (h : Meets ls rs new) : runCardinality new = (runSet ls ∩ runSet rs).ncard := by
  have hset : runSet new = runSet ls ∩ runSet rs := Set.ext h.mem
  rw [← hset, h.canonical.ncard_runSet]

theorem RunUnion.Sound.answers {s : RunUnion} {values : Set Nat} (h : s.Sound)
    (hmem : ∀ v, v ∈ runValues s.runs ↔ v ∈ values)
    (hfits : s.runs.length ≤ capacity) : RunAnswer capacity values s.runs s.cardinality := by
  rw [h.cardinality]
  exact h.canonical.answers hmem hfits

theorem unionRunRun_answers (hl : Canonical ls) (hr : Canonical rs) :
    RunAnswer (ls.length + rs.length) (runSet ls ∪ runSet rs) (unionRunRun ls rs).runs
      (unionRunRun ls rs).cardinality := by
  obtain ⟨hsound, hfits, hmem⟩ := interleave_appendUnion inOrder_lt hl.ascending hr.ascending
  exact hsound.answers hmem hfits

theorem unionRunArray_answers {values : List Nat} (hr : Canonical rs)
    (hasc : values.Pairwise (· < ·)) (hlt : ∀ v ∈ values, v < lowDomainSize) :
    RunAnswer (rs.length + values.length) (runSet rs ∪ {v | v ∈ values})
    (unionRunArray rs values).runs
      (unionRunArray rs values).cardinality := by
  obtain ⟨hsound, hfits, hmem⟩ :=
    interleave_appendUnion inOrder_le hr.ascending (unitRuns_ascending hasc hlt)
  rw [unitRuns, List.length_map] at hfits
  refine hsound.answers (fun v ↦ (hmem v).trans ?_) hfits
  rw [mem_runValues_unitRuns]
  rfl

theorem differenceRunRun_answers (hl : Canonical ls) (hr : Canonical rs) :
    RunAnswer (ls.length + rs.length) (runSet ls \ runSet rs) (differenceRunRun ls rs)
      (runCardinality (differenceRunRun ls rs)) := by
  obtain ⟨hcanonical, hmem, hlength⟩ := differenceRunRun_spec hl hr
  refine hcanonical.answers hmem ((hlength 0 fun l _ ↦ Nat.zero_le _).trans ?_)
  exact Nat.add_le_add_left List.countP_le_length _

theorem xorRuns_answers (hl : Canonical ls) (hr : Canonical rs) :
    ∃ out, xorRuns (ls.length + rs.length) ls rs = some out ∧
      RunAnswer (ls.length + rs.length) (symmDiff (runSet ls) (runSet rs)) out
        (runCardinality out) := by
  obtain ⟨out, hrun, hcanonical, hfits, hmem⟩ :=
    interleave_appendRunExclusive inOrder_le hl.ascending hr.ascending le_rfl
  exact ⟨out, hrun, hcanonical.answers hmem hfits⟩

/-- Each operation on two run lists gives the canonical list of its set, counts it, and stays in a
buffer for the runs of both. -/
theorem runAlgebra_spec (hl : Canonical ls) (hr : Canonical rs) :
    (∀ skewed, ∃ a, intersectRunsMerge skewed (ls.length + rs.length) (ls.length + rs.length) ls rs
      {} = some a ∧
      RunAnswer (ls.length + rs.length) (runSet ls ∩ runSet rs) a.runs a.cardinality) ∧
    (∃ a, intersectRuns (ls.length + rs.length) ls rs = some a ∧
      RunAnswer (ls.length + rs.length) (runSet ls ∩ runSet rs) a.runs a.cardinality) ∧
    intersectRunsCardinality (ls.length + rs.length) ls rs 0 = some (runSet ls ∩ runSet rs).ncard ∧
    RunAnswer (ls.length + rs.length) (runSet ls ∪ runSet rs) (unionRunRun ls rs).runs
      (unionRunRun ls rs).cardinality ∧
    RunAnswer (ls.length + rs.length) (runSet ls \ runSet rs) (differenceRunRun ls rs)
      (runCardinality (differenceRunRun ls rs)) ∧
    ∃ out, xorRuns (ls.length + rs.length) ls rs = some out ∧
      RunAnswer (ls.length + rs.length) (symmDiff (runSet ls) (runSet rs)) out
        (runCardinality out) := by
  refine ⟨fun skewed ↦ ?_, ?_, ?_, unionRunRun_answers hl hr, differenceRunRun_answers hl hr,
    xorRuns_answers hl hr⟩
  · obtain ⟨new, hrun, hmeets, hfits⟩ :=
      @intersectRunsMerge_spec ls rs (ls.length + rs.length) {} skewed _ hl hr le_rfl (by simp)
    refine ⟨_, hrun, ?_⟩
    rw [List.nil_append, Nat.zero_add]
    exact hmeets.canonical.answers hmeets.mem hfits
  · obtain ⟨new, hrun, hmeets, hfits⟩ := intersectRuns_spec hl hr le_rfl
    exact ⟨_, hrun, hmeets.canonical.answers hmeets.mem hfits⟩
  · obtain ⟨new, hrun, hmeets⟩ := intersectRunsCardinality_spec hl hr le_rfl
    rw [hrun, hmeets.ncard, Nat.zero_add]

theorem runAlgebra_spec_domainMaximum :
    (⟨65535, 65535⟩ : Run) ∈ differenceRunRun [⟨0, lowTypeMax⟩] [⟨3, 65534⟩] ∧
      RunAnswer 2 (runSet [⟨0, lowTypeMax⟩] \ runSet [⟨3, 65534⟩]) [⟨0, 2⟩, ⟨65535, 65535⟩] 4 := by
  have hfull : Canonical [⟨0, lowTypeMax⟩] := canonical_singleton (by decide) (by decide)
  have hinner : Canonical [⟨3, 65534⟩] := canonical_singleton (by decide) (by decide)
  have hanswer := (runAlgebra_spec hfull hinner).2.2.2.2.1
  exact ⟨by decide, hanswer⟩

end Roaring
