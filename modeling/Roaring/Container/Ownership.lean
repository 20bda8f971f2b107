import Mathlib
import Roaring.Container.Handle
import Roaring.Lib.Ledger

/-!
# Handles and the payloads they own

A handle keeps its elements in its own body or in a payload on the heap.  Under
value semantics a payload belongs to one handle and a copy clones it; under a
refcounted policy it carries the count of the handles that hold it and a copy
takes one more.  A borrowed payload is neither counted nor freed.

Any allocation may fail.  Which ones do is an oracle of the heap, so that what
is shown holds for every choice of them.
-/

namespace Roaring

open Lib

/-! ## The heap -/

/-- `storage_ownership`. -/
inductive StorageOwnership where
  | unique
  | shared
  | borrowed
deriving DecidableEq, Repr

/-- `cow_value_semantics`, or one of the refcounted policies. -/
inductive CowPolicy where
  | valueSemantics
  | refcounted
deriving DecidableEq, Repr

/-- The payloads, each with the number of handles that hold it.  Of the
allocations, numbered in the order they are asked for, those that `fails` names
fail.  The payloads from address `fresh` on have not been given out. -/
structure Heap where
  fails : Nat → Bool
  requests : Nat := 0
  fresh : Nat := 0
  holders : Nat → Int := fun _ ↦ 0
  contents : Nat → Payload := fun _ ↦ .array []

namespace Heap

/-- An allocation that is about to be made fails. -/
def failsNext (w : Heap) : Bool := w.fails w.requests

/-- A request that the allocator does not meet. -/
def request (w : Heap) : Heap := { w with requests := w.requests + 1 }

/-- A request that it meets with the payload at `fresh`, filled with `elements`. -/
def give (w : Heap) (elements : Payload) : Heap where
  fails := w.fails
  requests := w.requests + 1
  fresh := w.fresh + 1
  holders := Lib.credit w.holders (some w.fresh) 1
  contents := Function.update w.contents w.fresh elements

/-- `allocate_block`: whether it returns. -/
def allocateBlock (w : Heap) : Bool × Heap := (!w.failsNext, w.request)

/-- `allocate_payload` and the copy of `elements` into it: the payload's address,
held by the one who asked. -/
def allocatePayload (w : Heap) (elements : Payload) : Option Nat × Heap :=
  if w.failsNext then (none, w.request) else (some w.fresh, w.give elements)

/-- `n` more claims on the payload at `account`. -/
def credit (w : Heap) (account : Option Nat) (n : Int) : Heap :=
  { w with holders := Lib.credit w.holders account n }

@[simp] theorem fresh_give {w : Heap} {elements : Payload} :
    (w.give elements).fresh = w.fresh + 1 := rfl

@[simp] theorem holders_give {w : Heap} {elements : Payload} {p : Nat} :
    (w.give elements).holders p = w.holders p + if some w.fresh = some p then 1 else 0 := rfl

@[simp] theorem fresh_credit {w : Heap} {account : Option Nat} {n : Int} :
    (w.credit account n).fresh = w.fresh := rfl

@[simp] theorem contents_credit {w : Heap} {account : Option Nat} {n : Int} :
    (w.credit account n).contents = w.contents := rfl

@[simp] theorem holders_credit {w : Heap} {account : Option Nat} {n : Int} {p : Nat} :
    (w.credit account n).holders p = w.holders p + if account = some p then n else 0 := rfl

end Heap

/-! ## Handles -/

/-- `body_union_t`. -/
inductive HandleBody where
  | inlined (elements : Payload)
  | spilled (data capacity : Nat)

/-- The bytes of a `container_handle`. -/
structure HandleBytes where
  cardinality : Nat := 0
  min : Nat := 0
  max : Nat := 0
  endpointsStale : Bool := false
  cardinalityStale : Bool := false
  owner : StorageOwnership := .unique
  body : HandleBody := .inlined (.array [])

instance : Inhabited HandleBytes := ⟨{}⟩

namespace HandleBytes

def spilled (h : HandleBytes) : Bool :=
  match h.body with
  | .inlined _ => false
  | .spilled _ _ => true

/-- The address of a spilled payload. -/
def data (h : HandleBytes) : Option Nat :=
  match h.body with
  | .inlined _ => none
  | .spilled data _ => some data

/-- The payload the handle gives up when it is destroyed: its own under either
policy, one it shares under a refcounted policy, never a borrowed one. -/
def claim (policy : CowPolicy) (h : HandleBytes) : Option Nat :=
  match h.owner, policy with
  | .unique, _ => h.data
  | .shared, .refcounted => h.data
  | .shared, .valueSemantics => none
  | .borrowed, _ => none

/-- What the handle holds. -/
def elements (h : HandleBytes) (w : Heap) : Payload :=
  match h.body with
  | .inlined elements => elements
  | .spilled data _ => w.contents data

/-- `release_payload`, which is what the destructor does. -/
def releasePayload (policy : CowPolicy) (h : HandleBytes) (w : Heap) : Heap :=
  w.credit (h.claim policy) (-1)

end HandleBytes

/-- The handles of `hs` destroyed one after the other. -/
def releaseAll (policy : CowPolicy) (hs : List HandleBytes) (w : Heap) : Heap :=
  hs.foldl (fun w h ↦ h.releasePayload policy w) w

/-- What a constructor leaves: the bytes of the object, and whether it returned. -/
structure Constructed where
  bytes : HandleBytes
  completed : Bool
  heap : Heap

/-- `clone_from` into fresh storage, which is the copy constructor: the fields are
copied first, and a spilled payload is cloned after that. -/
def HandleBytes.cloneFrom (policy : CowPolicy) (other : HandleBytes) (w : Heap) : Constructed :=
  if other.owner = .borrowed then
    ⟨other, true, w⟩
  else
    match policy with
    | .refcounted => ⟨other, true, w.credit other.data 1⟩
    | .valueSemantics =>
      match other.body with
      | .inlined _ => ⟨{ other with owner := .unique }, true, w⟩
      | .spilled data capacity =>
        match w.allocatePayload (w.contents data) with
        | (none, w) => ⟨{ other with owner := .unique }, false, w⟩
        | (some fresh, w) =>
          ⟨{ other with owner := .unique, body := .spilled fresh capacity }, true, w⟩

/-- What a table is given to put into a slot: a handle it copies, or one it moves
from, which is left empty. -/
inductive HandleSource where
  | copied (other : HandleBytes)
  | moved (other : HandleBytes)

namespace HandleSource

/-- `handle_type{ std::forward<H>( handle ) }`. -/
def construct (policy : CowPolicy) (source : HandleSource) (w : Heap) : Constructed :=
  match source with
  | .copied other => other.cloneFrom policy w
  | .moved other => ⟨other, true, w⟩

/-- The handles that are the table's to keep or to destroy once it is called. -/
def given : HandleSource → List HandleBytes
  | .copied _ => []
  | .moved other => [other]

/-- The handles that stay the caller's. -/
def lent : HandleSource → List HandleBytes
  | .copied other => [other]
  | .moved _ => []

end HandleSource

/-! ## What construction and destruction do to the heap -/

namespace HandleBytes

/-- Every address in the handle is one the heap has given out, and under value
semantics no handle is marked shared. -/
structure Placed (policy : CowPolicy) (w : Heap) (h : HandleBytes) : Prop where
  data : ∀ p, h.data = some p → p < w.fresh
  owner : policy = .valueSemantics → h.owner ≠ .shared

/-- The copy constructor fails: it has a payload to clone, and no memory for it. -/
def CloneFails (policy : CowPolicy) (h : HandleBytes) (w : Heap) : Prop :=
  policy = .valueSemantics ∧ h.owner ≠ .borrowed ∧ h.spilled = true ∧ w.failsNext = true

theorem exists_data {h : HandleBytes} (hs : h.spilled = true) : ∃ p, h.data = some p := by
  unfold spilled at hs
  unfold data
  split at hs
  · cases hs
  · exact ⟨_, rfl⟩

theorem claim_eq_data {policy : CowPolicy} {h : HandleBytes} {p : Nat}
    (hc : h.claim policy = some p) : h.data = some p := by
  unfold claim at hc
  split at hc <;> first | exact hc | cases hc

end HandleBytes

/-- `c`, in the heap `w'`, is a copy of the handle `h` in the heap `w`. -/
structure CopyOf (policy : CowPolicy) (w : Heap) (h : HandleBytes) (w' : Heap) (c : HandleBytes) :
    Prop where
  header : { c with owner := h.owner, body := h.body } = h
  elements : c.elements w' = h.elements w
  placed : c.Placed policy w'

/-- Under value semantics a payload is held once, and an address that has not been
given out is held by nobody. -/
structure Heap.Tidy (policy : CowPolicy) (w : Heap) : Prop where
  once : policy = .valueSemantics → ∀ p, w.holders p ≤ 1
  unborn : ∀ p, w.fresh ≤ p → w.holders p = 0

/-- From `w` to `w'` nothing happened to the payloads there were, but that the
handles `built` came to hold theirs. -/
structure Built (policy : CowPolicy) (w : Heap) (built : List HandleBytes) (w' : Heap) : Prop where
  fresh : w.fresh ≤ w'.fresh
  holders : ∀ p, w'.holders p = w.holders p + claims (HandleBytes.claim policy) built p
  contents : ∀ p < w.fresh, w'.contents p = w.contents p
  tidy : w.Tidy policy → w'.Tidy policy

/-- The payloads of `held` are counted, each at least as often as `held` holds it. -/
structure Accounted (policy : CowPolicy) (w : Heap) (held : List HandleBytes) : Prop where
  placed : ∀ h ∈ held, h.Placed policy w
  counted : ∀ p, claims (HandleBytes.claim policy) held p ≤ w.holders p
  tidy : w.Tidy policy

section Accounts

variable {policy : CowPolicy} {w w' w'' : Heap} {h c : HandleBytes}
  {fresh held hs ks : List HandleBytes}

@[simp] theorem releaseAll_nil : releaseAll policy [] w = w := rfl

@[simp] theorem releaseAll_cons :
    releaseAll policy (h :: hs) w = releaseAll policy hs (h.releasePayload policy w) := rfl

theorem holders_releaseAll (p : Nat) : (releaseAll policy hs w).holders p =
    w.holders p - claims (HandleBytes.claim policy) hs p := by
  induction hs generalizing w with
  | nil => simp
  | cons h hs ih =>
    rw [releaseAll_cons, ih, claims_cons, HandleBytes.releasePayload, Heap.holders_credit]
    split <;> ring

@[simp] theorem fresh_releaseAll : (releaseAll policy hs w).fresh = w.fresh := by
  induction hs generalizing w with
  | nil => rfl
  | cons h hs ih => exact ih

@[simp] theorem contents_releaseAll : (releaseAll policy hs w).contents = w.contents := by
  induction hs generalizing w with
  | nil => rfl
  | cons h hs ih => exact ih

namespace HandleBytes

theorem Placed.mono (hp : h.Placed policy w) (hle : w.fresh ≤ w'.fresh) : h.Placed policy w' :=
  ⟨fun p hd ↦ (hp.data p hd).trans_le hle, hp.owner⟩

theorem elements_eq_of_data (hsame : ∀ p, h.data = some p → w'.contents p = w.contents p) :
    h.elements w' = h.elements w := by
  unfold elements
  cases hb : h.body with
  | inlined elements => rfl
  | spilled data capacity => exact hsame data (by simp [HandleBytes.data, hb])

theorem elements_built (hp : h.Placed policy w) (hw : Built policy w fresh w') :
    h.elements w' = h.elements w :=
  elements_eq_of_data fun p hd ↦ hw.contents p (hp.data p hd)

end HandleBytes

theorem CopyOf.later (hc : CopyOf policy w h w' c) (hw : Built policy w' fresh w'') :
    CopyOf policy w h w'' c where
  header := hc.header
  elements := (HandleBytes.elements_built hc.placed hw).trans hc.elements
  placed := hc.placed.mono hw.fresh

theorem CopyOf.earlier (hc : CopyOf policy w' h w'' c) (hp : h.Placed policy w)
    (hw : Built policy w fresh w') : CopyOf policy w h w'' c where
  header := hc.header
  elements := hc.elements.trans (HandleBytes.elements_built hp hw)
  placed := hc.placed

/-- A handle that outlives the destruction of others is copied as it was. -/
theorem CopyOf.of_released (hc : CopyOf policy (releaseAll policy hs w) h w' c) :
    CopyOf policy w h w' c where
  header := hc.header
  elements :=
    hc.elements.trans (HandleBytes.elements_eq_of_data fun p _ ↦ by rw [contents_releaseAll])
  placed := hc.placed

namespace Built

theorem refl (w : Heap) : Built policy w [] w :=
  ⟨le_refl _, fun p ↦ by simp, fun p _ ↦ rfl, fun h ↦ h⟩

theorem trans (h₁ : Built policy w hs w') (h₂ : Built policy w' ks w'') :
    Built policy w (hs ++ ks) w'' where
  fresh := h₁.fresh.trans h₂.fresh
  holders := fun p ↦ by rw [h₂.holders, h₁.holders, claims_append, add_assoc]
  contents := fun p hp ↦ (h₂.contents p (hp.trans_le h₁.fresh)).trans (h₁.contents p hp)
  tidy := fun h ↦ h₂.tidy (h₁.tidy h)

theorem perm (hw : Built policy w hs w') (hk : hs.Perm ks) : Built policy w ks w' :=
  ⟨hw.fresh, fun p ↦ by rw [hw.holders, claims_perm hk], hw.contents, hw.tidy⟩

/-- What was built and is destroyed again leaves every count as it was. -/
theorem releaseAll (hw : Built policy w hs w') : Built policy w [] (releaseAll policy hs w') := by
  have hsame : ∀ p, (Roaring.releaseAll policy hs w').holders p = w.holders p := by
    intro p
    rw [holders_releaseAll, hw.holders]
    ring
  constructor
  · rw [fresh_releaseAll]
    exact hw.fresh
  · intro p
    rw [hsame, claims_nil, add_zero]
  · intro p hp
    rw [contents_releaseAll]
    exact hw.contents p hp
  · intro ht
    constructor
    · intro hv p
      rw [hsame]
      exact ht.once hv p
    · intro p hp
      rw [fresh_releaseAll] at hp
      rw [hsame]
      exact ht.unborn p (hw.fresh.trans hp)

/-- Handles destroyed later are as good as destroyed before. -/
theorem release_first (hw : Built policy w [] w') :
    Built policy (Roaring.releaseAll policy hs w) [] (Roaring.releaseAll policy hs w') := by
  have hsame : ∀ p, (Roaring.releaseAll policy hs w').holders p =
      (Roaring.releaseAll policy hs w).holders p := by
    intro p
    rw [holders_releaseAll, holders_releaseAll, hw.holders, claims_nil, add_zero]
  constructor
  · rw [fresh_releaseAll, fresh_releaseAll]
    exact hw.fresh
  · intro p
    rw [hsame, claims_nil, add_zero]
  · intro p hp
    rw [fresh_releaseAll] at hp
    rw [contents_releaseAll, contents_releaseAll]
    exact hw.contents p hp
  · intro ht
    constructor
    · intro hv p
      rw [hsame]
      exact ht.once hv p
    · intro p hp
      rw [fresh_releaseAll] at hp
      rw [hsame]
      exact ht.unborn p (by rw [fresh_releaseAll]; exact hw.fresh.trans hp)

end Built

namespace Accounted

theorem perm (ha : Accounted policy w hs) (hk : hs.Perm ks) : Accounted policy w ks where
  placed := fun h hm ↦ ha.placed h (hk.mem_iff.mpr hm)
  counted := fun p ↦ by
    rw [← claims_perm hk]
    exact ha.counted p
  tidy := ha.tidy

theorem of_append_left (ha : Accounted policy w (hs ++ ks)) : Accounted policy w hs where
  placed := fun h hm ↦ ha.placed h (List.mem_append_left ks hm)
  counted := fun p ↦ by
    have hle := ha.counted p
    have hnn : 0 ≤ claims (HandleBytes.claim policy) ks p := claims_nonneg
    rw [claims_append] at hle
    omega
  tidy := ha.tidy

theorem of_append_right (ha : Accounted policy w (hs ++ ks)) : Accounted policy w ks :=
  (ha.perm List.perm_append_comm).of_append_left

theorem built (ha : Accounted policy w held) (hw : Built policy w fresh w')
    (hp : ∀ h ∈ fresh, h.Placed policy w') : Accounted policy w' (fresh ++ held) where
  placed := by
    intro h hm
    rcases List.mem_append.mp hm with hb | hh
    · exact hp h hb
    · exact (ha.placed h hh).mono hw.fresh
  counted := fun p ↦ by
    have hle := ha.counted p
    rw [hw.holders, claims_append]
    omega
  tidy := hw.tidy ha.tidy

theorem releaseAll (ha : Accounted policy w (hs ++ held)) :
    Accounted policy (releaseAll policy hs w) held where
  placed := fun h hm ↦ (ha.of_append_right.placed h hm).mono (by rw [fresh_releaseAll])
  counted := fun p ↦ by
    have hle := ha.counted p
    rw [claims_append] at hle
    rw [holders_releaseAll]
    omega
  tidy := by
    have hhs : ∀ p, 0 ≤ claims (HandleBytes.claim policy) hs p := fun p ↦ claims_nonneg
    have hheld : ∀ p, 0 ≤ claims (HandleBytes.claim policy) held p := fun p ↦ claims_nonneg
    constructor
    · intro hv p
      rw [holders_releaseAll]
      have hle := ha.tidy.once hv p
      have hnn := hhs p
      omega
    · intro p hp
      rw [fresh_releaseAll] at hp
      have hle := ha.counted p
      have h₁ := hhs p
      have h₂ := hheld p
      rw [claims_append, ha.tidy.unborn p hp] at hle
      rw [holders_releaseAll, ha.tidy.unborn p hp]
      omega

/-- Under value semantics no two of the handles hold the same payload. -/
theorem not_both (ha : Accounted .valueSemantics w (hs ++ ks)) {p : Nat} {a b : HandleBytes}
    (hm : a ∈ hs) (hk : b ∈ ks) (hc : a.claim .valueSemantics = some p)
    (hd : b.claim .valueSemantics = some p) : False := by
  have hle := (ha.counted p).trans (ha.tidy.once rfl p)
  have h₁ : 0 < claims (HandleBytes.claim .valueSemantics) hs p := claims_pos hm hc
  have h₂ : 0 < claims (HandleBytes.claim .valueSemantics) ks p := claims_pos hk hd
  rw [claims_append] at hle
  omega

end Accounted

/-! ## The copy constructor -/

theorem built_request : Built policy w [] w.request :=
  ⟨le_refl _, fun p ↦ by simp [Heap.request], fun p _ ↦ rfl, fun h ↦ ⟨h.once, h.unborn⟩⟩

theorem built_cloneShared (hp : h.Placed .refcounted w) (ho : h.owner ≠ .borrowed) :
    Built .refcounted w [h] (w.credit h.data 1) := by
  have hclaim : h.claim .refcounted = h.data := by
    unfold HandleBytes.claim
    cases hw : h.owner with
    | unique => rfl
    | shared => rfl
    | borrowed => exact absurd hw ho
  constructor
  · exact le_refl _
  · intro p
    rw [Heap.holders_credit, claims_cons, claims_nil, hclaim, add_zero]
  · intro p _
    rfl
  · intro ht
    constructor
    · intro hv
      cases hv
    · intro p hle
      have hne : h.data ≠ some p := fun hd ↦ absurd (hp.data p hd) (not_lt.mpr hle)
      rw [Heap.holders_credit, ht.unborn p hle, if_neg hne, add_zero]

/-- A fresh payload is held by the handle that is given its address. -/
theorem built_give {elements : Payload} (hc : c.claim policy = some w.fresh) :
    Built policy w [c] (w.give elements) := by
  constructor
  · exact Nat.le_succ _
  · intro p
    rw [Heap.holders_give, claims_cons, claims_nil, hc, add_zero]
  · intro p hp
    exact Function.update_of_ne hp.ne _ _
  · intro ht
    constructor
    · intro hv p
      rw [Heap.holders_give]
      split
      · rename_i heq
        cases heq
        rw [ht.unborn w.fresh (le_refl _)]
        rfl
      · rw [add_zero]
        exact ht.once hv p
    · intro p hle
      have hlt : w.fresh < p := hle
      have hne : (some w.fresh : Option Nat) ≠ some p := fun heq ↦ hlt.ne (Option.some.inj heq)
      rw [Heap.holders_give, ht.unborn p hlt.le, if_neg hne, add_zero]

/-- What a constructor that returned leaves: a copy, which holds its payload. -/
structure Constructed.Copied (policy : CowPolicy) (w : Heap) (h : HandleBytes) (c : Constructed) :
    Prop where
  built : Built policy w [c.bytes] c.heap
  copy : CopyOf policy w h c.heap c.bytes

/-- What a constructor that threw leaves: the fields of the handle, its payload's
address among them. -/
structure Constructed.Clobbered (policy : CowPolicy) (w : Heap) (h : HandleBytes)
    (c : Constructed) : Prop where
  built : Built policy w [] c.heap
  bytes : c.bytes = { h with owner := .unique }

/-- A copy either returns, or fails to find the memory for a payload it has to clone. -/
inductive Constructed.Ends (policy : CowPolicy) (w : Heap) (h : HandleBytes) (c : Constructed) :
    Prop
  | returned (completed : c.completed = true) (fits : ¬ h.CloneFails policy w)
      (copied : c.Copied policy w h)
  | threw (completed : c.completed = false) (fails : h.CloneFails policy w)
      (clobbered : c.Clobbered policy w h)

theorem cloneFrom_borrowed (ho : h.owner = .borrowed) : h.cloneFrom policy w = ⟨h, true, w⟩ :=
  if_pos ho

theorem cloneFrom_refcounted (ho : h.owner ≠ .borrowed) :
    h.cloneFrom .refcounted w = ⟨h, true, w.credit h.data 1⟩ := if_neg ho

theorem cloneFrom_inlined {elements : Payload} (ho : h.owner ≠ .borrowed)
    (hb : h.body = .inlined elements) :
    h.cloneFrom .valueSemantics w = ⟨{ h with owner := .unique }, true, w⟩ := by
  simp only [HandleBytes.cloneFrom, if_neg ho, hb]

theorem cloneFrom_spilled {data capacity : Nat} (ho : h.owner ≠ .borrowed)
    (hb : h.body = .spilled data capacity) (hok : w.failsNext = false) :
    h.cloneFrom .valueSemantics w =
      ⟨{ h with owner := .unique, body := .spilled w.fresh capacity }, true,
        w.give (w.contents data)⟩ := by
  simp [HandleBytes.cloneFrom, if_neg ho, hb, Heap.allocatePayload, hok]

theorem cloneFrom_failing {data capacity : Nat} (ho : h.owner ≠ .borrowed)
    (hb : h.body = .spilled data capacity) (hf : w.failsNext = true) :
    h.cloneFrom .valueSemantics w = ⟨{ h with owner := .unique }, false, w.request⟩ := by
  simp [HandleBytes.cloneFrom, if_neg ho, hb, Heap.allocatePayload, hf]

theorem cloneFrom_spec (hp : h.Placed policy w) :
    (h.cloneFrom policy w).Ends policy w h := by
  by_cases ho : h.owner = .borrowed
  · rw [cloneFrom_borrowed ho]
    have hclaim : h.claim policy = none := by
      simp only [HandleBytes.claim, ho]
    refine .returned rfl (fun hf ↦ hf.2.1 ho) ⟨⟨le_refl _, ?_, fun _ _ ↦ rfl, id⟩, rfl, rfl, hp⟩
    intro p
    simp [hclaim]
  cases policy with
  | refcounted =>
    rw [cloneFrom_refcounted ho]
    refine .returned rfl (fun hf ↦ nomatch hf.1) ⟨built_cloneShared hp ho, rfl, ?_, ?_⟩
    · exact HandleBytes.elements_eq_of_data fun p _ ↦ rfl
    · exact hp.mono (le_refl _)
  | valueSemantics =>
    cases hb : h.body with
    | inlined elements =>
      rw [cloneFrom_inlined ho hb]
      refine .returned rfl ?_ ⟨⟨le_refl _, ?_, fun _ _ ↦ rfl, id⟩, rfl, ?_, ?_⟩
      · intro hf
        have hspilled := hf.2.2.1
        simp [HandleBytes.spilled, hb] at hspilled
      · intro p
        simp [HandleBytes.claim, HandleBytes.data, hb]
      · simp [HandleBytes.elements, hb]
      · exact ⟨fun p hd ↦ by simp [HandleBytes.data, hb] at hd, fun _ ↦ by simp⟩
    | spilled data capacity =>
      have hspilled : h.spilled = true := by simp [HandleBytes.spilled, hb]
      cases hf : w.failsNext with
      | true =>
        rw [cloneFrom_failing ho hb hf]
        exact .threw rfl ⟨rfl, ho, hspilled, hf⟩ ⟨built_request, rfl⟩
      | false =>
        rw [cloneFrom_spilled ho hb hf]
        refine .returned rfl (fun hc ↦ ?_) ⟨built_give rfl, rfl, ?_, ?_⟩
        · rw [hc.2.2.2] at hf
          cases hf
        · simp only [HandleBytes.elements, hb]
          exact Function.update_self ..
        · constructor
          · intro p hd
            cases hd
            exact Nat.lt_succ_self _
          · intro _ hs
            cases hs

/-- A value that was built, or moved in, and is destroyed again. -/
theorem construct_released {source : HandleSource} (hp : ∀ h ∈ source.lent, h.Placed policy w)
    (hc : (source.construct policy w).completed = true)
    (hw : Built policy (source.construct policy w).heap [] w') :
    Built policy (releaseAll policy source.given w) []
      ((source.construct policy w).bytes.releasePayload policy w') := by
  cases source with
  | moved other => exact hw.release_first
  | copied other =>
    cases cloneFrom_spec (hp other (List.mem_singleton_self other)) with
    | returned _ _ copied => exact (copied.built.trans hw).releaseAll
    | threw completed _ _ => exact absurd hc (Bool.eq_false_iff.mp completed)

theorem construct_threw {source : HandleSource} (hp : ∀ h ∈ source.lent, h.Placed policy w)
    (hc : (source.construct policy w).completed = false) :
    ∃ other, source = .copied other ∧ other.CloneFails policy w ∧
      Built policy w [] (source.construct policy w).heap ∧
        (source.construct policy w).bytes = { other with owner := .unique } := by
  cases source with
  | moved other => cases hc
  | copied other =>
    cases cloneFrom_spec (hp other (List.mem_singleton_self other)) with
    | returned completed _ _ =>
      rw [HandleSource.construct, completed] at hc
      cases hc
    | threw _ fails clobbered => exact ⟨other, rfl, fails, clobbered.built, clobbered.bytes⟩

end Accounts

end Roaring
