import Mathlib

/-!
# Cursors over sets of numbers

A cursor stands on a member of a set, or past them all.  `nextFrom C b` is the first
member from `b` on; a walk looks at the member it stands on, goes to the one behind
it, or seeks a number, where it stays if that number is not ahead.

A `Stepper` is a machine that claims to walk so.  `Stepper.run_walk` is the one
induction over its moves.
-/

namespace Lib

/-! ## The members from a number on -/

section NextFrom

variable {C : Set Nat} {b c : Nat}

open Classical in
/-- The first member from `b` on. -/
noncomputable def nextFrom (C : Set Nat) (b : Nat) : Option Nat :=
  if h : ∃ c, c ∈ C ∧ b ≤ c then some (Nat.find h) else none

theorem nextFrom_eq_some_iff : nextFrom C b = some c ↔ c ∈ C ∧ b ≤ c ∧ ∀ d ∈ C, b ≤ d → c ≤ d := by
  classical
  rw [nextFrom]
  constructor
  · intro h
    split at h
    · rename_i hex
      obtain rfl := Option.some.inj h
      exact ⟨(Nat.find_spec hex).1, (Nat.find_spec hex).2,
        fun d hd hle ↦ Nat.find_min' hex ⟨hd, hle⟩⟩
    · exact absurd h nofun
  · rintro ⟨hc, hle, hleast⟩
    have hex : ∃ c, c ∈ C ∧ b ≤ c := ⟨c, hc, hle⟩
    rw [dif_pos hex]
    congr 1
    apply Nat.le_antisymm (Nat.find_min' hex ⟨hc, hle⟩)
    exact hleast _ (Nat.find_spec hex).1 (Nat.find_spec hex).2

theorem nextFrom_eq_none_iff : nextFrom C b = none ↔ ∀ d ∈ C, d < b := by
  classical
  rw [nextFrom]
  constructor
  · intro h d hd
    split at h
    · exact absurd h nofun
    · rename_i hex
      exact lt_of_not_ge fun hle ↦ hex ⟨d, hd, hle⟩
  · intro h
    rw [dif_neg]
    rintro ⟨d, hd, hle⟩
    exact (h d hd).not_ge hle

theorem nextFrom_of_mem (hc : c ∈ C) : nextFrom C c = some c :=
  nextFrom_eq_some_iff.mpr ⟨hc, le_rfl, fun _ _ hle ↦ hle⟩

/-- Among neighbouring numbers the member from `b` on is `b` itself or past them all. -/
theorem nextFrom_interval {first last : Nat} (hb : first ≤ b) :
    nextFrom {c | first ≤ c ∧ c ≤ last} b = if b ≤ last then some b else none := by
  split
  · rename_i hle
    exact nextFrom_of_mem ⟨hb, hle⟩
  · rename_i hlt
    exact nextFrom_eq_none_iff.mpr fun d hd ↦ hd.2.trans_lt (not_le.mp hlt)

end NextFrom

/-! ## Walks -/

/-- What is asked of a cursor; numbers below `bound` are sought. -/
inductive Move (bound : Nat) where
  | look
  | advance
  | seek (key : Fin bound)
deriving DecidableEq

section Walk

variable {bound : Nat} {C : Set Nat} {c d : Nat}

noncomputable def walkStep (C : Set Nat) : Option Nat → Move bound → Option Nat
  | none, _ => none
  | some c, .look => some c
  | some c, .advance => nextFrom C (c + 1)
  | some c, .seek key => nextFrom C (max c key)

/-- Where a walk that begins at the first member stands. -/
noncomputable def walk (C : Set Nat) (moves : List (Move bound)) : Option Nat :=
  moves.foldl (walkStep C) (nextFrom C 0)

theorem walkStep_mem {m : Move bound} (hc : c ∈ C) (h : walkStep C (some c) m = some d) : d ∈ C ∧
    c ≤ d := by
  cases m with
  | look =>
    obtain rfl := Option.some.inj h
    exact ⟨hc, le_rfl⟩
  | advance =>
    obtain ⟨hd, hle, -⟩ := nextFrom_eq_some_iff.mp h
    exact ⟨hd, (Nat.le_succ c).trans hle⟩
  | seek key =>
    obtain ⟨hd, hle, -⟩ := nextFrom_eq_some_iff.mp h
    exact ⟨hd, (le_max_left c key).trans hle⟩

@[simp] theorem foldl_walkStep_none (moves : List (Move bound)) :
    moves.foldl (walkStep C) none = none := by
  induction moves with
  | nil => rfl
  | cons m moves ih => exact ih

/-- A walk stays among the members and never goes back. -/
theorem foldl_walkStep_mem (moves : List (Move bound)) (hc : c ∈ C)
    (h : moves.foldl (walkStep C) (some c) = some d) : d ∈ C ∧ c ≤ d := by
  induction moves generalizing c with
  | nil =>
    obtain rfl := Option.some.inj h
    exact ⟨hc, le_rfl⟩
  | cons m moves ih =>
    rw [List.foldl_cons] at h
    cases hm : walkStep C (some c) m with
    | none =>
      rw [hm, foldl_walkStep_none] at h
      exact absurd h nofun
    | some e =>
      rw [hm] at h
      obtain ⟨he, hce⟩ := walkStep_mem hc hm
      obtain ⟨hd, hed⟩ := ih he h
      exact ⟨hd, hce.trans hed⟩

theorem walk_append (front back : List (Move bound)) :
    walk C (front ++ back) = back.foldl (walkStep C) (walk C front) := by
  rw [walk, List.foldl_append, walk]

/-- After an advance, and whatever follows it, a walk stands on a greater member. -/
theorem walk_advance_lt {front back : List (Move bound)} (hc : walk C front = some c)
    (hd : walk C (front ++ .advance :: back) = some d) : c < d := by
  rw [walk_append, hc, List.foldl_cons] at hd
  cases hm : walkStep C (some c) (.advance : Move bound) with
  | none =>
    rw [hm, foldl_walkStep_none] at hd
    exact absurd hd nofun
  | some e =>
    rw [hm] at hd
    obtain ⟨he, hle, -⟩ := nextFrom_eq_some_iff.mp hm
    exact (Nat.lt_of_succ_le hle).trans_le (foldl_walkStep_mem back he hd).2

end Walk

/-! ## Machines that walk -/

/-- A machine with the interface of a cursor; looking at what it stands on may fail, and may
change what the machine holds. -/
structure Stepper (bound : Nat) (σ π : Type) where
  atEnd : σ → Bool
  key : σ → Nat
  piece : σ → Option (σ × π)
  advance : σ → σ
  seek : σ → Nat → σ

namespace Stepper

variable {bound : Nat} {σ π : Type} (ops : Stepper bound σ π) {C : Set Nat}

def position (s : σ) : Option Nat := if ops.atEnd s then none else some (ops.key s)

def step (s : σ) : Move bound → Option σ
  | .look => (ops.piece s).map Prod.fst
  | .advance => some (ops.advance s)
  | .seek key => some (ops.seek s key)

def run (s : σ) (moves : List (Move bound)) : Option σ := moves.foldlM ops.step s

/-- What each operation of a machine that walks over `C` does in the states of `Inv`. -/
structure Walks (C : Set Nat) (Inv : σ → Prop) : Prop where
  look : ∀ s, Inv s → ∃ t p, ops.piece s = some (t, p) ∧ Inv t ∧ ops.position t = ops.position s
  advance : ∀ s, Inv s → Inv (ops.advance s) ∧
    ops.position (ops.advance s) = walkStep C (ops.position s) (.advance : Move bound)
  seek : ∀ s, Inv s → ∀ key : Fin bound, Inv (ops.seek s key) ∧
    ops.position (ops.seek s key) = walkStep C (ops.position s) (.seek key)

variable {ops}

theorem Walks.step_walk {Inv : σ → Prop} (h : ops.Walks C Inv) {s : σ} (hs : Inv s)
    (m : Move bound) :
    ∃ t, ops.step s m = some t ∧ Inv t ∧ ops.position t = walkStep C (ops.position s) m := by
  cases m with
  | look =>
    obtain ⟨t, p, hp, ht, hpos⟩ := h.look s hs
    refine ⟨t, by rw [step, hp]; rfl, ht, ?_⟩
    rw [hpos]
    cases ops.position s <;> rfl
  | advance => exact ⟨_, rfl, h.advance s hs⟩
  | seek key => exact ⟨_, rfl, h.seek s hs key⟩

/-- No run fails, and the machine stands where the walk does. -/
theorem Walks.run_walk {Inv : σ → Prop} (h : ops.Walks C Inv) {s : σ} (hs : Inv s)
    (hstart : ops.position s = nextFrom C 0) (moves : List (Move bound)) :
    ∃ t, ops.run s moves = some t ∧ Inv t ∧ ops.position t = walk C moves := by
  rw [walk, ← hstart]
  clear hstart
  induction moves generalizing s with
  | nil => exact ⟨s, rfl, hs, rfl⟩
  | cons m moves ih =>
    obtain ⟨t, hstep, ht, hpos⟩ := h.step_walk hs m
    obtain ⟨u, hrun, hu, hwalk⟩ := ih ht
    refine ⟨u, ?_, hu, ?_⟩
    · rw [run, List.foldlM_cons, hstep]
      exact hrun
    · rw [hwalk, List.foldl_cons, hpos]

end Stepper

end Lib
