import Mathlib
import Roaring.Container.Ownership

/-!
# Copies and moves of handles

Under value semantics every payload on the heap belongs to one handle.  The
constructors and assignments of a handle keep it so, but for one: a copy
assignment gives up its own payload, takes the fields of the source, the address
of the payload and its ownership among them, and only then allocates the clone.
When that allocation fails, two handles own one payload.
-/

namespace Roaring

open Lib

/-- `reset_to_empty`; the body is not read any more. -/
def HandleBytes.resetToEmpty (h : HandleBytes) : HandleBytes :=
  { h with
    cardinality := 0
    endpointsStale := false
    cardinalityStale := false
    owner := .unique
    body := .inlined (.array []) }

/-- The handles of a program under value semantics, and the heap. -/
structure Objects where
  handles : List HandleBytes
  heap : Heap

namespace Objects

/-- The handle with number `i`. -/
def handle (o : Objects) (i : Nat) : HandleBytes := o.handles.getD i default

/-- How many handles own the payload at an address. -/
def owners (o : Objects) (p : Nat) : Int := claims (HandleBytes.claim .valueSemantics) o.handles p

/-- Every spilled payload is owned by one handle, and by one only. -/
structure Owned (o : Objects) : Prop where
  placed : ∀ h ∈ o.handles, h.Placed .valueSemantics o.heap
  counted : ∀ p, o.heap.holders p = o.owners p
  once : ∀ p, o.owners p ≤ 1

/-- The constructors make one more handle, the assignments write one there is. -/
inductive Op where
  | copyConstruct (source : Nat)
  | moveConstruct (source : Nat)
  | copyAssign (target source : Nat)
  | moveAssign (target source : Nat)

namespace Op

def source : Op → Nat
  | copyConstruct source | moveConstruct source | copyAssign _ source | moveAssign _ source =>
    source

/-- Where the handle that is made or written stands. -/
def target (o : Objects) : Op → Nat
  | copyConstruct _ | moveConstruct _ => o.handles.length
  | copyAssign target _ | moveAssign target _ => target

/-- Whether the operation may write the handle with number `i`. -/
def Writes (i : Nat) : Op → Prop
  | copyConstruct _ => False
  | moveConstruct source => i = source
  | copyAssign target _ => i = target
  | moveAssign target source => i = target ∨ i = source

/-- The handles the operation names are there. -/
def Named (o : Objects) : Op → Prop
  | copyConstruct source | moveConstruct source => source < o.handles.length
  | copyAssign target source | moveAssign target source =>
    target < o.handles.length ∧ source < o.handles.length

end Op

/-- `container_handle( other )`: where it throws there is no new handle. -/
def copyConstruct (o : Objects) (source : Nat) : Objects × Bool :=
  let made := (o.handle source).cloneFrom .valueSemantics o.heap
  (⟨if made.completed then o.handles ++ [made.bytes] else o.handles, made.heap⟩, made.completed)

/-- `container_handle( std::move( other ) )`. -/
def moveConstruct (o : Objects) (source : Nat) : Objects × Bool :=
  (⟨o.handles.set source (o.handle source).resetToEmpty ++ [o.handle source], o.heap⟩, true)

/-- `*this = other`: the payload is released, and `clone_from` follows. -/
def copyAssign (o : Objects) (target source : Nat) : Objects × Bool :=
  if target = source then (o, true)
  else
    let made := (o.handle source).cloneFrom .valueSemantics
      ((o.handle target).releasePayload .valueSemantics o.heap)
    (⟨o.handles.set target made.bytes, made.heap⟩, made.completed)

/-- `*this = std::move( other )`. -/
def moveAssign (o : Objects) (target source : Nat) : Objects × Bool :=
  if target = source then (o, true)
  else
    (⟨(o.handles.set target (o.handle source)).set source (o.handle source).resetToEmpty,
      (o.handle target).releasePayload .valueSemantics o.heap⟩, true)

/-- The objects an operation leaves, and whether it has returned. -/
def perform (o : Objects) : Op → Objects × Bool
  | .copyConstruct source => o.copyConstruct source
  | .moveConstruct source => o.moveConstruct source
  | .copyAssign target source => o.copyAssign target source
  | .moveAssign target source => o.moveAssign target source

/-- What an operation promises, whether it returns or throws: every payload has
one owner, the handles it does not write are as they were with what they hold,
and where it has returned the target holds what the source did. -/
structure Survives (o : Objects) (op : Op) : Prop where
  owned : (o.perform op).1.Owned
  kept : ∀ i < o.handles.length, ¬ op.Writes i →
    (o.perform op).1.handle i = o.handle i ∧
      (o.handle i).elements (o.perform op).1.heap = (o.handle i).elements o.heap
  copied : (o.perform op).2 = true →
    CopyOf .valueSemantics o.heap (o.handle op.source) (o.perform op).1.heap
      ((o.perform op).1.handle (op.target o))

/-- A copy assignment whose source has a payload to clone, and no memory for it. -/
def Clobbers (o : Objects) : Op → Prop
  | .copyAssign target source =>
    target ≠ source ∧ (o.handle source).CloneFails .valueSemantics o.heap
  | _ => False

end Objects

/-! ## The owners of a list of handles -/

section Owners

variable {hs : List HandleBytes} {h c : HandleBytes} {i p : Nat}

/-- A handle that is written changes the owners by its own claim alone. -/
theorem claims_set {policy : CowPolicy} (hi : i < hs.length) :
    claims (HandleBytes.claim policy) (hs.set i c) p =
      claims (HandleBytes.claim policy) hs p -
        (if (hs.getD i default).claim policy = some p then 1 else 0) +
        (if c.claim policy = some p then 1 else 0) := by
  induction hs generalizing i with
  | nil => exact absurd hi (Nat.not_lt_zero i)
  | cons h hs ih =>
    cases i with
    | zero =>
      rw [List.set_cons_zero, claims_cons, claims_cons, List.getD_cons_zero]
      ring
    | succ i =>
      rw [List.set_cons_succ, claims_cons, claims_cons, List.getD_cons_succ,
        ih (Nat.lt_of_succ_lt_succ hi)]
      ring

theorem getD_mem (hi : i < hs.length) : hs.getD i default ∈ hs := by
  rw [List.getD_eq_getElem _ _ hi]
  exact List.getElem_mem hi

theorem getD_set_self (hi : i < hs.length) : (hs.set i c).getD i default = c := by
  rw [List.getD_eq_getElem _ _ (by rwa [List.length_set]), List.getElem_set_self]

theorem getD_set_ne {j : Nat} (hne : i ≠ j) : (hs.set i c).getD j default = hs.getD j default := by
  rw [List.getD_eq_getElem?_getD, List.getElem?_set_ne hne, ← List.getD_eq_getElem?_getD]

theorem claim_resetToEmpty {policy : CowPolicy} : h.resetToEmpty.claim policy = none := by
  cases policy <;> rfl

theorem placed_resetToEmpty {policy : CowPolicy} {w : Heap} : h.resetToEmpty.Placed policy w :=
  ⟨nofun, fun _ ↦ nofun⟩

end Owners

namespace Objects

variable {o : Objects} {op : Op} {target source : Nat}

theorem handle_mem {i : Nat} (hi : i < o.handles.length) : o.handle i ∈ o.handles := getD_mem hi

theorem Owned.placed_handle (ho : o.Owned) {i : Nat} (hi : i < o.handles.length) :
    (o.handle i).Placed .valueSemantics o.heap := ho.placed _ (handle_mem hi)

/-- Objects whose handles moved as the counts of the heap did. -/
theorem Owned.of_counted {o' : Objects}
    (hplaced : ∀ h ∈ o'.handles, h.Placed .valueSemantics o'.heap)
    (hcounted : ∀ p, o'.heap.holders p = o'.owners p) (htidy : o'.heap.Tidy .valueSemantics) :
    o'.Owned where
  placed := hplaced
  counted := hcounted
  once := fun p ↦ (hcounted p).symm.trans_le (htidy.once rfl p)

theorem Owned.accounted (ho : o.Owned) : Accounted .valueSemantics o.heap o.handles where
  placed := ho.placed
  counted := fun p ↦ (ho.counted p).ge
  tidy := by
    constructor
    · intro _ p
      rw [ho.counted]
      exact ho.once p
    · intro p hp
      rw [ho.counted, owners, claims, Int.natCast_eq_zero, List.countP_eq_zero]
      intro h hm
      rw [decide_eq_true_iff]
      intro hc
      exact absurd ((ho.placed h hm).data p (HandleBytes.claim_eq_data hc)) (not_lt.2 hp)

/-- Objects in a later heap whose counts moved as the owners did. -/
theorem Owned.moved {handles : List HandleBytes} {w : Heap} (ho : o.Owned)
    (hfresh : o.heap.fresh ≤ w.fresh)
    (hplaced : ∀ h ∈ handles, h ∈ o.handles ∨ h.Placed .valueSemantics w)
    (hcounted : ∀ p, w.holders p = claims (HandleBytes.claim .valueSemantics) handles p)
    (htidy : w.Tidy .valueSemantics) : Owned ⟨handles, w⟩ := by
  refine .of_counted (fun h hm ↦ ?_) hcounted htidy
  rcases hplaced h hm with hold | hnew
  · exact (ho.placed h hold).mono hfresh
  · exact hnew

theorem tidy_releasePayload {w : Heap} {h : HandleBytes} (hw : w.Tidy .valueSemantics)
    (hp : h.Placed .valueSemantics w) :
    (h.releasePayload .valueSemantics w).Tidy .valueSemantics := by
  constructor
  · intro hv p
    have hle := hw.once hv p
    rw [HandleBytes.releasePayload, Heap.holders_credit]
    split <;> omega
  · intro p hle
    have hne : h.claim .valueSemantics ≠ some p := by
      intro hc
      exact absurd (hp.data p (HandleBytes.claim_eq_data hc)) (not_lt.2 hle)
    rw [HandleBytes.releasePayload, Heap.holders_credit, if_neg hne, add_zero]
    exact hw.unborn p hle

/-! ## The constructors -/

theorem handle_append {handles : List HandleBytes} {w : Heap} (h : HandleBytes) {i : Nat}
    (hi : i < handles.length) :
    handle ⟨handles ++ [h], w⟩ i = handles.getD i default := List.getD_append _ _ _ _ hi

theorem handle_append_last {handles : List HandleBytes} {w : Heap} (h : HandleBytes) :
    handle ⟨handles ++ [h], w⟩ handles.length = h := by
  rw [handle, List.getD_append_right _ _ _ _ le_rfl, Nat.sub_self]
  rfl

theorem survives_copyConstruct (ho : o.Owned) (hs : source < o.handles.length) :
    o.Survives (.copyConstruct source) := by
  have hp := ho.placed_handle hs
  have hperform : o.perform (.copyConstruct source) = o.copyConstruct source := rfl
  cases cloneFrom_spec hp with
  | returned completed _ copied =>
    have hmade : o.copyConstruct source =
        (⟨o.handles ++ [((o.handle source).cloneFrom .valueSemantics o.heap).bytes],
          ((o.handle source).cloneFrom .valueSemantics o.heap).heap⟩, true) := by
      rw [copyConstruct, completed]
      rfl
    constructor
    · rw [hperform, hmade]
      refine ho.moved copied.built.fresh (fun h hm ↦ ?_) (fun p ↦ ?_)
        (copied.built.tidy ho.accounted.tidy)
      · rcases List.mem_append.1 hm with hold | hnew
        · exact Or.inl hold
        · rw [List.mem_singleton.1 hnew]
          exact Or.inr copied.copy.placed
      · rw [copied.built.holders, ho.counted, owners, claims_append]
    · intro i hi _
      rw [hperform, hmade]
      exact ⟨handle_append _ hi, HandleBytes.elements_built (ho.placed_handle hi) copied.built⟩
    · intro _
      rw [hperform, hmade]
      change CopyOf _ _ _ _ (handle _ o.handles.length)
      rw [handle_append_last]
      exact copied.copy
  | threw completed _ clobbered =>
    have hmade : o.copyConstruct source =
        (⟨o.handles, ((o.handle source).cloneFrom .valueSemantics o.heap).heap⟩, false) := by
      rw [copyConstruct, completed]
      rfl
    constructor
    · rw [hperform, hmade]
      refine ho.moved clobbered.built.fresh (fun h hm ↦ Or.inl hm) (fun p ↦ ?_)
        (clobbered.built.tidy ho.accounted.tidy)
      rw [clobbered.built.holders, ho.counted, owners, claims_nil, add_zero]
    · intro i hi _
      rw [hperform, hmade]
      exact ⟨rfl, HandleBytes.elements_built (ho.placed_handle hi) clobbered.built⟩
    · intro hc
      rw [hperform, hmade] at hc
      cases hc

/-- A handle is a copy of itself, in any heap that has its payload as it was. -/
theorem copyOf_self {w w' : Heap} {h : HandleBytes} (hp : h.Placed .valueSemantics w)
    (hfresh : w.fresh ≤ w'.fresh)
    (hcontents : w'.contents = w.contents) : CopyOf .valueSemantics w h w' h where
  header := rfl
  elements := HandleBytes.elements_eq_of_data fun p _ ↦ by rw [hcontents]
  placed := hp.mono hfresh

theorem survives_moveConstruct (ho : o.Owned) (hs : source < o.handles.length) :
    o.Survives (.moveConstruct source) := by
  have hlen : (o.handles.set source (o.handle source).resetToEmpty).length = o.handles.length :=
    List.length_set
  constructor
  · refine ho.moved le_rfl (fun h hm ↦ ?_) (fun p ↦ ?_) ho.accounted.tidy
    · rcases List.mem_append.1 hm with hold | hnew
      · rcases List.mem_or_eq_of_mem_set hold with hold | rfl
        · exact Or.inl hold
        · exact Or.inr placed_resetToEmpty
      · rw [List.mem_singleton.1 hnew]
        exact Or.inl (handle_mem hs)
    · rw [claims_append, claims_set hs, claims_cons, claims_nil, claim_resetToEmpty, ho.counted,
        owners, handle]
      simp
  · intro i hi hw
    refine ⟨?_, rfl⟩
    change handle ⟨_ ++ [_], _⟩ i = _
    rw [handle_append _ (by rwa [hlen]), getD_set_ne (Ne.symm hw)]
    rfl
  · intro _
    change CopyOf _ _ _ _ (handle ⟨_ ++ [_], _⟩ o.handles.length)
    rw [← hlen, handle_append_last]
    exact copyOf_self (ho.placed_handle hs) le_rfl rfl

/-! ## The assignments -/

/-- An assignment of a handle to itself does nothing. -/
theorem survives_self {i : Nat} (ho : o.Owned) (hi : i < o.handles.length)
    (hperform : o.perform op = (o, true))
    (hsource : op.source = i) (htarget : op.target o = i) : o.Survives op := by
  constructor
  · rwa [hperform]
  · intro j _ _
    rw [hperform]
    exact ⟨rfl, rfl⟩
  · intro _
    rw [hperform, hsource, htarget]
    exact copyOf_self (ho.placed_handle hi) le_rfl rfl

theorem survives_moveAssign (ho : o.Owned) (ht : target < o.handles.length)
    (hs : source < o.handles.length) :
    o.Survives (.moveAssign target source) := by
  by_cases heq : target = source
  · exact survives_self ho hs (if_pos heq) rfl heq
  have hset : source < (o.handles.set target (o.handle source)).length := by rwa [List.length_set]
  have hperform : o.perform (.moveAssign target source) =
      (⟨(o.handles.set target (o.handle source)).set source (o.handle source).resetToEmpty,
        (o.handle target).releasePayload .valueSemantics o.heap⟩, true) := if_neg heq
  constructor
  · rw [hperform]
    refine ho.moved le_rfl (fun h hm ↦ ?_) (fun p ↦ ?_)
      (tidy_releasePayload ho.accounted.tidy (ho.placed_handle ht))
    · rcases List.mem_or_eq_of_mem_set hm with hold | rfl
      · rcases List.mem_or_eq_of_mem_set hold with hold | rfl
        · exact Or.inl hold
        · exact Or.inl (handle_mem hs)
      · exact Or.inr placed_resetToEmpty
    · rw [claims_set hset, getD_set_ne heq, claims_set ht, claim_resetToEmpty,
        HandleBytes.releasePayload,
        Heap.holders_credit, ho.counted, owners, handle, handle]
      simp only [reduceCtorEq, if_false, add_zero]
      split <;> omega
  · intro i _ hw
    rw [hperform]
    rw [Op.Writes, not_or] at hw
    refine ⟨?_, rfl⟩
    rw [handle, getD_set_ne (Ne.symm hw.2), getD_set_ne (Ne.symm hw.1)]
    rfl
  · intro _
    rw [hperform]
    change CopyOf _ _ _ _ (List.getD _ target _)
    rw [getD_set_ne (Ne.symm heq), getD_set_self ht]
    exact copyOf_self (ho.placed_handle hs) le_rfl rfl

/-- A copy assignment that throws leaves one payload with two owners. -/
theorem not_once_of_clobbered {h : HandleBytes} (ht : target < o.handles.length)
    (hs : source < o.handles.length)
    (hne : target ≠ source) {p : Nat} (hh : h.claim .valueSemantics = some p)
    (hsource : (o.handle source).claim .valueSemantics = some p) :
    1 < claims (HandleBytes.claim .valueSemantics) (o.handles.set target h) p := by
  have hset : source < (o.handles.set target h).length := by rwa [List.length_set]
  have hemptied : claims (HandleBytes.claim .valueSemantics)
      ((o.handles.set target h).set source (o.handle source).resetToEmpty) p =
        claims (HandleBytes.claim .valueSemantics) (o.handles.set target h) p - 1 := by
    rw [claims_set hset, getD_set_ne hne, claim_resetToEmpty]
    change _ - (if (o.handle source).claim .valueSemantics = some p then 1 else 0) + _ = _
    rw [if_pos hsource, if_neg nofun, add_zero]
  have hmem : h ∈ (o.handles.set target h).set source (o.handle source).resetToEmpty := by
    rw [List.set_comm _ _ hne]
    exact List.mem_set (by rwa [List.length_set]) h
  have hpos : 0 < claims (HandleBytes.claim .valueSemantics)
      ((o.handles.set target h).set source (o.handle source).resetToEmpty) p := claims_pos hmem hh
  omega

/-- The owner of a payload that has to be cloned. -/
theorem claim_of_cloneFails {w : Heap} {h : HandleBytes} (hp : h.Placed .valueSemantics w)
    (hf : h.CloneFails .valueSemantics w) :
    ∃ p, h.claim .valueSemantics = some p ∧
      HandleBytes.claim .valueSemantics { h with owner := .unique } = some p := by
  obtain ⟨p, hdata⟩ := HandleBytes.exists_data hf.2.2.1
  refine ⟨p, ?_, hdata⟩
  unfold HandleBytes.claim
  cases howner : h.owner with
  | unique => exact hdata
  | shared => exact absurd howner (hp.owner rfl)
  | borrowed => exact absurd howner hf.2.1

theorem survives_copyAssign_iff (ho : o.Owned) (ht : target < o.handles.length)
    (hs : source < o.handles.length) :
    o.Survives (.copyAssign target source) ↔ ¬ o.Clobbers (.copyAssign target source) := by
  by_cases heq : target = source
  · exact iff_of_true (survives_self ho hs (if_pos heq) rfl heq) fun hc ↦ hc.1 heq
  have hperform : o.perform (.copyAssign target source) =
      (let made := (o.handle source).cloneFrom .valueSemantics
        ((o.handle target).releasePayload .valueSemantics o.heap)
       (⟨o.handles.set target made.bytes, made.heap⟩, made.completed)) := if_neg heq
  have hpt := ho.placed_handle ht
  have hps := ho.placed_handle hs
  have htidy := tidy_releasePayload ho.accounted.tidy hpt
  -- the release asks for no memory, so the clone's request is the one the heap had next
  have hp : (o.handle source).Placed .valueSemantics
      ((o.handle target).releasePayload .valueSemantics o.heap) :=
    hps.mono le_rfl
  cases cloneFrom_spec hp with
  | returned completed fits copied =>
    refine iff_of_true ?_ fun hc ↦ fits hc.2
    constructor
    · rw [hperform]
      refine ho.moved copied.built.fresh (fun h hm ↦ ?_) (fun p ↦ ?_) (copied.built.tidy htidy)
      · rcases List.mem_or_eq_of_mem_set hm with hold | rfl
        · exact Or.inl hold
        · exact Or.inr copied.copy.placed
      · rw [copied.built.holders, claims_set ht, HandleBytes.releasePayload, Heap.holders_credit,
          ho.counted,
          claims_cons, claims_nil, owners, handle]
        split <;> omega
    · intro i hi hw
      rw [hperform]
      refine ⟨getD_set_ne (Ne.symm hw), ?_⟩
      have hpi : (o.handle i).Placed .valueSemantics
          ((o.handle target).releasePayload .valueSemantics o.heap) :=
        (ho.placed_handle hi).mono le_rfl
      have helements := HandleBytes.elements_built hpi copied.built
      exact helements
    · intro _
      rw [hperform]
      change CopyOf _ _ _ _ (List.getD _ target _)
      rw [getD_set_self ht]
      exact ⟨copied.copy.header, copied.copy.elements, copied.copy.placed⟩
  | threw completed fails clobbered =>
    refine iff_of_false (fun hsurvives ↦ ?_) (not_not.2 ⟨heq, fails⟩)
    have howned := hsurvives.owned
    rw [hperform] at howned
    obtain ⟨p, hclaim, hbytes⟩ := claim_of_cloneFails hp fails
    rw [← clobbered.bytes] at hbytes
    exact absurd (howned.once p) (not_le.2 (not_once_of_clobbered ht hs heq hbytes hclaim))

/-! ## Runs -/

theorem survives_of_not_clobbers (ho : o.Owned) (hop : op.Named o) (hc : ¬ o.Clobbers op) :
    o.Survives op := by
  cases op with
  | copyConstruct source => exact survives_copyConstruct ho hop
  | moveConstruct source => exact survives_moveConstruct ho hop
  | copyAssign target source => exact (survives_copyAssign_iff ho hop.1 hop.2).2 hc
  | moveAssign target source => exact survives_moveAssign ho hop.1 hop.2

/-- One operation that is not a copy assignment without memory, whether it returns or throws. -/
def Step (o o' : Objects) : Prop := ∃ op : Op, op.Named o ∧ ¬ o.Clobbers op ∧ o' = (o.perform op).1

/-- For every pair of handles and every choice of the allocations that fail, an
operation keeps one owner for every payload, the other handles and what is
promised of the target, if and only if it is not a copy assignment from another
handle whose payload cannot be cloned. -/
theorem handle_survives_iff (ho : o.Owned) (hop : op.Named o) : o.Survives op ↔
    ¬ o.Clobbers op := by
  constructor
  · intro hsurvives
    cases op with
    | copyAssign target source => exact (survives_copyAssign_iff ho hop.1 hop.2).1 hsurvives
    | copyConstruct source | moveConstruct source | moveAssign target source => exact id
  · exact survives_of_not_clobbers ho hop

/-! ## A failing assignment -/

/-- Two handles with a payload each, and a heap that has no more memory. -/
def exhaustedPair : Objects where
  handles :=
    [{ cardinality := 10, min := 2, max := 23, body := .spilled 0 16 },
      { cardinality := 12, min := 1, max := 40, body := .spilled 1 16 }]
  heap :=
    { fails := fun _ ↦ true
      fresh := 2
      holders := fun p ↦ if p < 2 then 1 else 0 }

theorem exhaustedPair_owned : exhaustedPair.Owned := by
  have howners : ∀ p, exhaustedPair.owners p = if p < 2 then 1 else 0 := by
    intro p
    rcases p with _ | _ | p
    · rfl
    · rfl
    · simp [owners, exhaustedPair, HandleBytes.claim, HandleBytes.data]
  constructor
  · intro h hm
    simp only [exhaustedPair, List.mem_cons, List.not_mem_nil, or_false] at hm
    rcases hm with rfl | rfl
    · constructor
      · intro p hd
        cases hd
        exact Nat.two_pos
      · intro _ hd
        cases hd
    · constructor
      · intro p hd
        cases hd
        exact Nat.one_lt_two
      · intro _ hd
        cases hd
  · intro p
    rw [howners]
    rfl
  · intro p
    rw [howners]
    split <;> decide

/-- A copy assignment that finds no memory leaves the payload at address 1 with two owners. -/
theorem copyAssign_not_survived :
    ¬ ∀ (o : Objects) (op : Op), o.Owned → op.Named o → o.Survives op := by
  intro hall
  have hsurvives := hall exhaustedPair (.copyAssign 0 1) exhaustedPair_owned ⟨by decide, by decide⟩
  exact absurd (hsurvives.owned.once 1) (by decide)

theorem handle_survives_iff_exhaustedPair : exhaustedPair.Survives (.copyConstruct 1) :=
  (@handle_survives_iff exhaustedPair (.copyConstruct 1) exhaustedPair_owned
    (show 1 < 2 by decide)).2 id

end Objects

end Roaring
