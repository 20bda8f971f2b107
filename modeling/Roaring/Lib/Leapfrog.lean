import Mathlib
import Roaring.Lib.Search
import Roaring.Lib.Cursor

/-!
# Joins of a keyed list with a cursor

A list of entries under ascending keys and a cursor over a set of keys are walked
together, each side jumping over what the other lacks.  Three joins are given: one that
visits the entries whose key the cursor has, one that asks whether the cursor has every
entry, and one that asks whether the list has every member of the cursor.
-/

namespace Lib

namespace Stepper

variable {bound : Nat} {σ π β α : Type} (ops : Stepper bound σ π) (key : β → Nat)

/-- The entries from a key on. -/
def entriesFrom (lo : Nat) (entries : List β) : List β := entries.dropWhile fun b ↦ key b < lo

/-- Visits the entries whose keys the cursor has, until a visit says to stop. -/
def leapfrog (visit : α → β → π → α × Bool) : Nat → List β → σ → α → Option α
  | 0, _, _, _ => none
  | _ + 1, [], _, acc => some acc
  | fuel + 1, b :: bs, s, acc =>
    if ops.atEnd s then some acc
    else if key b < ops.key s then leapfrog visit fuel (entriesFrom key (ops.key s) (b :: bs)) s acc
    else if ops.key s < key b then leapfrog visit fuel (b :: bs) (ops.seek s (key b)) acc
    else (ops.piece s).bind fun (t, p) ↦
      let (acc, goesOn) := visit acc b p
      if goesOn then leapfrog visit fuel bs (ops.advance t) acc else some acc

/-- Whether the cursor has every entry, each with a piece that passes a test. -/
def holdsEvery (skip : π → Bool) (test : β → π → Bool) : Nat → List β → σ → Option Bool
  | 0, _, _ => none
  | _ + 1, [], _ => some true
  | fuel + 1, b :: bs, s =>
    if ops.atEnd s then some false
    else if ops.key s < key b then holdsEvery skip test fuel (b :: bs) (ops.seek s (key b))
    else if key b < ops.key s then some false
    else (ops.piece s).bind fun (t, p) ↦
      if skip p then holdsEvery skip test fuel (b :: bs) (ops.advance t)
      else if test b p then holdsEvery skip test fuel bs (ops.advance t)
      else some false

/-- Whether the list has every member of the cursor but those to skip, each with a piece that passes
a test; `total` adds up their weights, and `finish` has the last word where the cursor ends. -/
def heldByAll (skip : π → Bool) (test : β → π → Bool) (weight : π → Nat) (finish : σ → Bool) :
    Nat → List β → σ → Nat → Option (Bool × Nat)
  | 0, _, _, _ => none
  | fuel + 1, entries, s, total =>
    if ops.atEnd s then some (finish s, total)
    else (ops.piece s).bind fun (t, p) ↦
      if skip p then heldByAll skip test weight finish fuel entries (ops.advance t) total
      else match entriesFrom key (ops.key s) entries with
        | [] => some (false, total)
        | b :: bs =>
          if key b ≠ ops.key s then some (false, total)
          else if test b p then
            heldByAll skip test weight finish fuel bs (ops.advance t) (total + weight p)
          else some (false, total)

/-! ## What the joins visit -/

variable {ops key} {C : Set Nat} {Inv : σ → Prop}

theorem position_eq_none {s : σ} (h : ops.atEnd s = true) : ops.position s = none := if_pos h

theorem position_eq_some {s : σ} (h : ¬ ops.atEnd s = true) : ops.position s = some (ops.key s) :=
  if_neg h

theorem mem_entriesFrom {entries : List β} (hasc : entries.Pairwise fun a b ↦ key a < key b)
    {lo : Nat} {b : β} :
    b ∈ entriesFrom key lo entries ↔ b ∈ entries ∧ lo ≤ key b := by
  induction entries with
  | nil => simp [entriesFrom]
  | cons a entries ih =>
    rw [entriesFrom]
    by_cases ha : key a < lo
    · rw [List.dropWhile_cons_of_pos (by simpa using ha), ← entriesFrom, ih hasc.of_cons,
        List.mem_cons]
      constructor
      · rintro ⟨hb, hle⟩
        exact ⟨.inr hb, hle⟩
      · rintro ⟨rfl | hb, hle⟩
        · exact absurd hle (not_le.2 ha)
        · exact ⟨hb, hle⟩
    · rw [List.dropWhile_cons_of_neg (by simpa using ha)]
      refine ⟨fun hb ↦ ⟨hb, ?_⟩, And.left⟩
      rcases List.mem_cons.1 hb with rfl | hb
      · exact not_lt.1 ha
      · exact (not_lt.1 ha).trans (List.rel_of_pairwise_cons hasc hb).le

/-- A jump over entries that the cursor lacks keeps what they cannot change. -/
theorem entriesFrom_induction {P : List β → Prop} {entries : List β} {lo : Nat}
    (hdrop : ∀ b bs, key b < lo → P (b :: bs) → P bs) (h : P entries) :
    P (entriesFrom key lo entries) := by
  induction entries with
  | nil => exact h
  | cons b bs ih =>
    rw [entriesFrom]
    by_cases hb : key b < lo
    · rw [List.dropWhile_cons_of_pos (by simpa using hb)]
      exact ih (hdrop b bs hb h)
    · rw [List.dropWhile_cons_of_neg (by simpa using hb)]
      exact h

theorem entriesFrom_sublist (lo : Nat) (entries : List β) :
    (entriesFrom key lo entries).Sublist entries :=
  List.dropWhile_sublist _

/-- The entry a jump ends at is the only one that can have the key jumped to. -/
theorem entriesFrom_eq_cons {entries bs : List β} {b : β} {lo : Nat}
    (hasc : entries.Pairwise fun a b ↦ key a < key b) (h : entriesFrom key lo entries = b :: bs) :
    (b ∈ entries ∧ lo ≤ key b) ∧ bs.Sublist entries ∧
      ∀ a ∈ entries, lo ≤ key a → a = b ∨ a ∈ bs ∧ key b < key a := by
  have hjump : ∀ a, a ∈ b :: bs ↔ a ∈ entries ∧ lo ≤ key a := fun a ↦ by
    rw [← h]
    exact mem_entriesFrom hasc
  have hsub : (b :: bs).Sublist entries := by
    rw [← h]
    exact entriesFrom_sublist _ _
  refine ⟨(hjump b).1 List.mem_cons_self, (List.sublist_cons_self b bs).trans hsub,
    fun a ha hle ↦ ?_⟩
  rcases List.mem_cons.1 ((hjump a).2 ⟨ha, hle⟩) with rfl | ha'
  · exact .inl rfl
  · exact .inr ⟨ha', List.rel_of_pairwise_cons (hasc.sublist hsub) ha'⟩

/-- A cursor that stands before a list: on the first member from a number that no entry is below. -/
structure Before (ops : Stepper bound σ π) (key : β → Nat) (C : Set Nat)
    (Inv : σ → Prop) (entries : List β) (s : σ) : Prop where
  inv : Inv s
  ascending : entries.Pairwise fun a b ↦ key a < key b
  inside : ∀ b ∈ entries, key b < bound
  position : ∃ lo, ops.position s = nextFrom C lo ∧ ∀ b ∈ entries, lo ≤ key b

namespace Before

variable {entries bs : List β} {b : β} {s t : σ}

theorem notMem_of_atEnd (h : Before ops key C Inv entries s) (hend : ops.atEnd s = true) :
    ∀ b ∈ entries, key b ∉ C := by
  obtain ⟨lo, hpos, hlo⟩ := h.position
  rw [position_eq_none hend] at hpos
  intro b hb hmem
  exact absurd (hlo b hb) (not_le.2 (nextFrom_eq_none_iff.1 hpos.symm _ hmem))

theorem key_mem (h : Before ops key C Inv entries s) (hlive : ¬ ops.atEnd s = true) :
    ops.key s ∈ C := by
  obtain ⟨lo, hpos, -⟩ := h.position
  rw [position_eq_some hlive] at hpos
  exact (nextFrom_eq_some_iff.1 hpos.symm).1

theorem notMem_of_lt (h : Before ops key C Inv entries s) (hlive : ¬ ops.atEnd s = true)
    (hb : b ∈ entries) (hlt : key b < ops.key s) : key b ∉ C := by
  obtain ⟨lo, hpos, hlo⟩ := h.position
  rw [position_eq_some hlive] at hpos
  intro hmem
  exact absurd ((nextFrom_eq_some_iff.1 hpos.symm).2.2 _ hmem (hlo b hb)) (not_le.2 hlt)

/-- What the cursor stands on is the first member from itself on. -/
theorem nextFrom_key (h : Before ops key C Inv entries s) (hlive : ¬ ops.atEnd s = true) :
    ops.position s = nextFrom C (ops.key s) := by
  rw [position_eq_some hlive, nextFrom_of_mem (h.key_mem hlive)]

theorem jump (h : Before ops key C Inv entries s) (hlive : ¬ ops.atEnd s = true) :
    Before ops key C Inv (entriesFrom key (ops.key s) entries) s := by
  refine ⟨h.inv, h.ascending.sublist (entriesFrom_sublist _ _),
    fun b hb ↦ h.inside b ((entriesFrom_sublist _ _).subset hb), ops.key s, h.nextFrom_key hlive,
      fun b hb ↦ ?_⟩
  exact ((mem_entriesFrom h.ascending).1 hb).2

/-- After a seek of the first entry's key the cursor is not below it. -/
theorem seek (hw : ops.Walks C Inv) (h : Before ops key C Inv (b :: bs) s)
    (hlive : ¬ ops.atEnd s = true)
    (hlt : ops.key s < key b) : Before ops key C Inv (b :: bs) (ops.seek s (key b)) ∧
      ∀ k ∈ ops.position (ops.seek s (key b)), key b ≤ k := by
  have hin := h.inside b List.mem_cons_self
  obtain ⟨hinv, hpos⟩ := hw.seek s h.inv ⟨key b, hin⟩
  change ops.position (ops.seek s (key b)) = _ at hpos
  rw [position_eq_some hlive, walkStep] at hpos
  have hmax : max (ops.key s) (key b) = key b := max_eq_right hlt.le
  simp only [hmax] at hpos
  refine ⟨⟨hinv, h.ascending, h.inside, key b, hpos, fun a ha ↦ ?_⟩, fun k hk ↦ ?_⟩
  · rcases List.mem_cons.1 ha with rfl | ha
    · exact le_rfl
    · exact (List.rel_of_pairwise_cons h.ascending ha).le
  · rw [Option.mem_def, hpos] at hk
    exact (nextFrom_eq_some_iff.1 hk).2.1

/-- Behind an entry whose key the cursor had, both sides go on. -/
theorem advance (hw : ops.Walks C Inv) (h : Before ops key C Inv (b :: bs) s)
    (hlive : ¬ ops.atEnd s = true)
    (hkey : ops.key s = key b) {p : π} (hpiece : ops.piece s = some (t, p)) :
    Before ops key C Inv bs (ops.advance t) ∧
      ops.position (ops.advance t) = nextFrom C (key b + 1) := by
  obtain ⟨t', p', hp, hinv, hpos⟩ := hw.look s h.inv
  obtain ⟨rfl, rfl⟩ := Prod.mk.inj (Option.some.inj (hpiece.symm.trans hp))
  obtain ⟨hinv, hadvance⟩ := hw.advance t hinv
  rw [hpos, position_eq_some hlive, hkey, walkStep] at hadvance
  refine ⟨⟨hinv, h.ascending.of_cons, fun a ha ↦ h.inside a (List.mem_cons_of_mem b ha), key b + 1,
    hadvance, ?_⟩,
    hadvance⟩
  exact fun a ha ↦ List.rel_of_pairwise_cons h.ascending ha

end Before

/-- A step that seeks is followed by one that takes an entry off. -/
def Enough (ops : Stepper bound σ π) (key : β → Nat) (fuel : Nat) (entries : List β) (s : σ) :
    Prop :=
  2 * entries.length + 1 < fuel ∨
    (2 * entries.length < fuel ∧ ∀ b ∈ entries.head?, ∀ k ∈ ops.position s, key b ≤ k)

/-- The rule of the join: what a skipped entry and a visit keep, and what the walk ends with. -/
theorem leapfrog_rule (P : List β → α → Prop) (Q : α → Prop) (hw : ops.Walks C Inv)
    {visit : α → β → π → α × Bool} (hdrop : ∀ b bs acc, key b ∉ C → P (b :: bs) acc → P bs acc)
    (hvisit : ∀ b bs acc s t p, Inv s → ops.position s = some (key b) → ops.piece s = some (t, p) →
      P (b :: bs) acc → if (visit acc b p).2 then P bs (visit acc b p).1 else Q (visit acc b p).1)
    (hend : ∀ acc, P [] acc → Q acc) {fuel : Nat} {entries : List β} {s : σ} {acc : α}
    (h : Before ops key C Inv entries s) (hfuel : Enough ops key fuel entries s)
    (hP : P entries acc) :
    ∃ r, ops.leapfrog key visit fuel entries s acc = some r ∧ Q r := by
  have hall : ∀ entries acc, (∀ b ∈ entries, key b ∉ C) → P entries acc → Q acc := by
    intro entries acc hnot hP
    induction entries with
    | nil => exact hend acc hP
    | cons b bs ih =>
      exact ih (fun a ha ↦ hnot a (List.mem_cons_of_mem b ha))
        (hdrop b bs acc (hnot b List.mem_cons_self) hP)
  induction fuel generalizing entries s acc with
  | zero => rcases hfuel with hfuel | ⟨hfuel, -⟩ <;> exact absurd hfuel (Nat.not_lt_zero _)
  | succ fuel ih =>
    cases entries with
    | nil => exact ⟨acc, rfl, hend acc hP⟩
    | cons b bs =>
      have hfew : 2 * (b :: bs).length < fuel + 1 := by
        rcases hfuel with hfuel | ⟨hfuel, -⟩
        · exact (Nat.lt_succ_self _).trans hfuel
        · exact hfuel
      rw [List.length_cons] at hfew
      rw [leapfrog]
      split
      · rename_i hdone
        exact ⟨acc, rfl, hall _ _ (h.notMem_of_atEnd hdone) hP⟩
      · rename_i hlive
        split
        · rename_i hlt
          apply ih (h.jump hlive)
          · have hshort : (entriesFrom key (ops.key s) (b :: bs)).length ≤ bs.length := by
              rw [entriesFrom, List.dropWhile_cons_of_pos (by simpa using hlt)]
              exact (List.dropWhile_sublist _).length_le
            exact .inl (by omega)
          · -- every entry that is jumped is one that the cursor lacks
            have hkeep : P (entriesFrom key (ops.key s) (b :: bs)) acc ∧
                ∀ a ∈ entriesFrom key (ops.key s) (b :: bs), a ∈ b :: bs := by
              refine entriesFrom_induction (P := fun l ↦ P l acc ∧ ∀ a ∈ l, a ∈ b :: bs) ?_
                ⟨hP, fun a ha ↦ ha⟩
              rintro a as ha ⟨hPa, hsub⟩
              refine ⟨hdrop a as acc (h.notMem_of_lt hlive (hsub a List.mem_cons_self) ha) hPa, ?_⟩
              exact fun c hc ↦ hsub c (List.mem_cons_of_mem a hc)
            exact hkeep.1
        · rename_i hge
          split
          · rename_i hseek
            obtain ⟨hbefore, hat⟩ := h.seek hw hlive hseek
            apply ih hbefore
            · refine .inr ⟨?_, fun a ha k hk ↦ ?_⟩
              · rcases hfuel with hfuel | ⟨-, hfuel⟩
                · rw [List.length_cons] at hfuel ⊢
                  omega
                · exact absurd (hfuel b rfl _ (position_eq_some hlive)) (not_le.2 hseek)
              · obtain rfl := Option.some.inj ha
                exact hat k hk
            · exact hP
          · rename_i hle
            have hkey : ops.key s = key b := le_antisymm (not_lt.1 hge) (not_lt.1 hle)
            obtain ⟨t, p, hpiece, -, -⟩ := hw.look s h.inv
            have hstep := hvisit b bs acc s t p h.inv (by rw [position_eq_some hlive, hkey])
              hpiece hP
            rw [hpiece, Option.bind_some]
            dsimp only
            split at hstep
            · rename_i hon
              rw [if_pos hon]
              exact ih (h.advance hw hlive hkey hpiece).1 (.inl (by omega)) hstep
            · rename_i hstop
              rw [if_neg hstop]
              exact ⟨_, rfl, hstep⟩

/-- The rule of the question whether the cursor has every entry. -/
theorem holdsEvery_rule (good : β → Prop) (hw : ops.Walks C Inv) {skip : π → Bool}
    {test : β → π → Bool} (hgood : ∀ b, good b → key b ∈ C) {fuel : Nat} {entries : List β} {s : σ}
    (hpiece : ∀ b ∈ entries, ∀ s t p, Inv s → ops.position s = some (key b) →
      ops.piece s = some (t, p) →
      if skip p then ¬ good b else (test b p = true ↔ good b))
    (h : Before ops key C Inv entries s) (hfuel : Enough ops key fuel entries s) :
    ∃ r, ops.holdsEvery key skip test fuel entries s = some r ∧
      (r = true ↔ ∀ b ∈ entries, good b) := by
  induction fuel generalizing entries s with
  | zero => rcases hfuel with hfuel | ⟨hfuel, -⟩ <;> exact absurd hfuel (Nat.not_lt_zero _)
  | succ fuel ih =>
    cases entries with
    | nil => exact ⟨true, rfl, by simp⟩
    | cons b bs =>
      have hfew : 2 * (b :: bs).length < fuel + 1 := by
        rcases hfuel with hfuel | ⟨hfuel, -⟩
        · exact (Nat.lt_succ_self _).trans hfuel
        · exact hfuel
      rw [List.length_cons] at hfew
      have hbad : ¬ good b → (false = true ↔ ∀ a ∈ b :: bs, good a) :=
        fun hnot ↦ ⟨nofun, fun hall ↦ absurd (hall b List.mem_cons_self) hnot⟩
      rw [holdsEvery]
      split
      · rename_i hdone
        exact ⟨false, rfl, hbad fun hg ↦ h.notMem_of_atEnd hdone b List.mem_cons_self (hgood b hg)⟩
      · rename_i hlive
        split
        · rename_i hseek
          obtain ⟨hbefore, hat⟩ := h.seek hw hlive hseek
          apply ih hpiece hbefore
          refine .inr ⟨?_, fun a ha k hk ↦ ?_⟩
          · rcases hfuel with hfuel | ⟨-, hfuel⟩
            · rw [List.length_cons] at hfuel ⊢
              omega
            · exact absurd (hfuel b rfl _ (position_eq_some hlive)) (not_le.2 hseek)
          · obtain rfl := Option.some.inj ha
            exact hat k hk
        · rename_i hge
          split
          · rename_i hlt
            exact ⟨false, rfl, hbad fun hg ↦ h.notMem_of_lt hlive List.mem_cons_self hlt
              (hgood b hg)⟩
          · rename_i hle
            have hkey : ops.key s = key b := le_antisymm (not_lt.1 hle) (not_lt.1 hge)
            obtain ⟨t, p, hp, -, -⟩ := hw.look s h.inv
            have hstep :=
              hpiece b List.mem_cons_self s t p h.inv (by rw [position_eq_some hlive, hkey]) hp
            obtain ⟨hnext, hpos⟩ := h.advance hw hlive hkey hp
            rw [hp, Option.bind_some]
            dsimp only
            split at hstep
            · rename_i hskip
              -- the cursor is past the entry now, and the next look at it ends the walk
              rw [if_pos hskip]
              refine ⟨false, ?_, hbad hstep⟩
              obtain ⟨fuel, rfl⟩ : ∃ m, fuel = m + 1 := ⟨fuel - 1, by omega⟩
              rw [holdsEvery]
              split
              · rfl
              · rename_i hlive'
                rw [position_eq_some hlive'] at hpos
                have hpast := (nextFrom_eq_some_iff.1 hpos.symm).2.1
                rw [if_neg (by omega), if_pos (by omega)]
            · rename_i hkeep
              rw [if_neg hkeep]
              split
              · rename_i htest
                obtain ⟨r, hr, hiff⟩ := ih (fun a ha ↦ hpiece a (List.mem_cons_of_mem b ha)) hnext
                  (.inl (by omega))
                refine ⟨r, hr, hiff.trans ?_⟩
                rw [List.forall_mem_cons]
                exact (and_iff_right (hstep.1 htest)).symm
              · rename_i hfail
                exact ⟨false, rfl, hbad fun hg ↦ hfail (hstep.2 hg)⟩

/-- Where an entry answers for the member under the cursor, those behind it answer for the rest. -/
theorem forall_needed_iff {need : Nat → Prop} {good : β → Prop} {entries bs : List β} {b : β}
    {lo k : Nat} (hle : lo ≤ k) (hcases : ∀ c ∈ C, lo ≤ c → c = k ∨ k + 1 ≤ c) (hb : b ∈ entries)
    (hkey : key b = k) (hg : good b) (hsub : bs.Sublist entries)
    (honly : ∀ a ∈ entries, k ≤ key a → a = b ∨ a ∈ bs ∧ key b < key a) :
    (∀ c ∈ C, k + 1 ≤ c → need c → ∃ a ∈ bs, key a = c ∧ good a) ↔
      ∀ c ∈ C, lo ≤ c → need c → ∃ a ∈ entries, key a = c ∧ good a := by
  refine ⟨fun hall c hc hlo hneed ↦ ?_, fun hall c hc hlo hneed ↦ ?_⟩
  · rcases hcases c hc hlo with rfl | hbehind
    · exact ⟨b, hb, hkey, hg⟩
    · obtain ⟨a, ha, hrest⟩ := hall c hc hbehind hneed
      exact ⟨a, hsub.subset ha, hrest⟩
  · obtain ⟨a, ha, hka, hga⟩ := hall c hc (by omega) hneed
    rcases honly a ha (by omega) with rfl | ⟨ha', -⟩
    · omega
    · exact ⟨a, ha', hka, hga⟩

/-- The rule of the question whether the list has every member of the cursor. -/
theorem heldByAll_rule (need : Nat → Prop) (good : β → Prop) (whole : Prop) (hw : ops.Walks C Inv)
    (hC : ∀ c ∈ C, c < bound) {skip : π → Bool} {test : β → π → Bool} {weight : π → Nat}
    {finish : σ → Bool} (hfinish : ∀ s, Inv s → ops.atEnd s = true → (finish s = true ↔ whole))
    {fuel lo total : Nat} {entries : List β} {s : σ}
    (hpiece : ∀ s t p c, Inv s → ops.position s = some c → ops.piece s = some (t, p) →
      (skip p = true ↔ ¬ need c) ∧
        (¬ skip p = true → ∀ b ∈ entries, key b = c → (test b p = true ↔ good b)))
    (hs : Inv s) (hpos : ops.position s = nextFrom C lo)
    (hasc : entries.Pairwise fun a b ↦ key a < key b) (hfuel : bound - lo < fuel) :
    ∃ r, ops.heldByAll key skip test weight finish fuel entries s total = some r ∧
      (r.1 = true ↔ (∀ c ∈ C, lo ≤ c → need c → ∃ b ∈ entries, key b = c ∧ good b) ∧ whole) := by
  induction fuel generalizing entries s lo total with
  | zero => exact absurd hfuel (Nat.not_lt_zero _)
  | succ fuel ih =>
    rw [heldByAll]
    split
    · rename_i hdone
      rw [position_eq_none hdone] at hpos
      refine ⟨(finish s, total), rfl,
        (hfinish s hs hdone).trans (and_iff_right fun c hc hle ↦ ?_).symm⟩
      exact absurd hle (not_le.2 (nextFrom_eq_none_iff.1 hpos.symm c hc))
    · rename_i hlive
      have hhere := hpos
      rw [position_eq_some hlive] at hhere
      obtain ⟨hmem, hle, hleast⟩ := nextFrom_eq_some_iff.1 hhere.symm
      have hin := hC _ hmem
      obtain ⟨t, p, hp, ht, htpos⟩ := hw.look s hs
      obtain ⟨hskips, htests⟩ := hpiece s t p _ hs (position_eq_some hlive) hp
      obtain ⟨hnext, hnextpos⟩ := hw.advance t ht
      rw [htpos, position_eq_some hlive, walkStep] at hnextpos
      have hfew : bound - (ops.key s + 1) < fuel := by omega
      -- the members from `lo` on are the one under the cursor and those behind it
      have hcases : ∀ c ∈ C, lo ≤ c → c = ops.key s ∨ ops.key s + 1 ≤ c := fun c hc hlo ↦ by
        have := hleast c hc hlo
        omega
      rw [hp, Option.bind_some]
      dsimp only
      split
      · rename_i hskip
        obtain ⟨r, hr, hiff⟩ := @ih (ops.key s + 1) total entries (ops.advance t) hpiece hnext
          hnextpos hasc hfew
        refine ⟨r, hr, hiff.trans (and_congr_left fun _ ↦
          ⟨fun hall c hc hlo hneed ↦ ?_, fun hall c hc hlo ↦ hall c hc (by omega)⟩)⟩
        rcases hcases c hc hlo with rfl | hbehind
        · exact absurd hneed (hskips.1 hskip)
        · exact hall c hc hbehind hneed
      · rename_i hkeep
        replace htests := htests hkeep
        have hneed : need (ops.key s) := by
          by_contra hnot
          exact hkeep (hskips.2 hnot)
        -- an entry that is asked for and is not there makes the answer false
        have hfalse : (∀ b ∈ entries, key b = ops.key s → ¬ good b) →
            ∃ r, some (false, total) = some r ∧
              (r.1 = true ↔ (∀ c ∈ C, lo ≤ c → need c → ∃ b ∈ entries, key b = c ∧ good b) ∧
                whole) := by
          intro hnone
          refine ⟨(false, total), rfl, nofun, fun hall ↦ ?_⟩
          obtain ⟨b, hb, hkey, hg⟩ := hall.1 _ hmem hle hneed
          exact absurd hg (hnone b hb hkey)
        cases hrest : entriesFrom key (ops.key s) entries with
        | nil =>
          apply hfalse
          intro b hb hkey
          have hb' := (mem_entriesFrom hasc).2 ⟨hb, hkey.ge⟩
          rw [hrest] at hb'
          exact absurd hb' List.not_mem_nil
        | cons b bs =>
          obtain ⟨⟨hb, hkb⟩, hsub, honly⟩ := entriesFrom_eq_cons hasc hrest
          dsimp only
          split
          · rename_i hne
            apply hfalse
            intro a ha hkey
            rcases honly a ha hkey.ge with rfl | ⟨-, hlt⟩
            · exact absurd hkey hne
            · omega
          · rename_i heq
            have hkey : key b = ops.key s := not_not.1 heq
            split
            · rename_i htest
              have hg := (htests b hb hkey).1 htest
              have hpieces : ∀ s t p c, Inv s → ops.position s = some c →
                  ops.piece s = some (t, p) →
                  (skip p = true ↔ ¬ need c) ∧
                    (¬ skip p = true → ∀ a ∈ bs, key a = c → (test a p = true ↔ good a)) := by
                intro s t p c h1 h2 h3
                refine ⟨(hpiece s t p c h1 h2 h3).1, fun hkept a ha ↦ (hpiece s t p c h1 h2 h3).2
                  hkept a ?_⟩
                exact hsub.subset ha
              obtain ⟨r, hr, hiff⟩ := @ih (ops.key s + 1) (total + weight p) bs (ops.advance t)
                hpieces hnext hnextpos
                (hasc.sublist hsub) hfew
              exact ⟨r, hr, hiff.trans (and_congr_left fun _ ↦
                forall_needed_iff hle hcases hb hkey hg hsub honly)⟩
            · rename_i hfail
              apply hfalse
              intro a ha hka hga
              rcases honly a ha hka.ge with rfl | ⟨-, hlt⟩
              · exact hfail ((htests a ha hka).2 hga)
              · omega

end Stepper

end Lib
