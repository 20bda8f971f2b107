import Mathlib
import Roaring.Table.Leaf

/-!
# Leaves stacked between floors

A row is a leaf with the floor its keys start from.  Rows are stacked when each
holds ascending keys from its floor on, all of them below the floors of the rows
behind it; only the last may be empty.
-/

namespace Roaring

open Lib

variable {H : Type}

/-- The keys of a list of entries ascend. -/
abbrev Sorted (es : List (Nat × H)) : Prop := es.Pairwise fun a b ↦ a.1 < b.1

namespace Leaf

/-- A leaf between others: it holds what its size says, in ascending order, all keys legal. -/
structure Sound (l : Leaf H) : Prop where
  holds : l.Holds l.entries
  sorted : Sorted l.entries
  legal : ∀ e ∈ l.entries, e.1 + 1 < chunkKeyPad

theorem Holds.sound {l : Leaf H} {es : List (Nat × H)} (h : l.Holds es) (hsorted : Sorted es)
    (hlegal : ∀ e ∈ es, e.1 + 1 < chunkKeyPad) : l.Sound := by
  obtain rfl := h.entries_eq
  exact ⟨h, hsorted, hlegal⟩

theorem Sound.size_eq {l : Leaf H} (h : l.Sound) : l.size = l.entries.length := h.holds.size

theorem Sound.lt_pad {l : Leaf H} (h : l.Sound) : ∀ e ∈ l.entries, e.1 < chunkKeyPad := by
  intro e he
  have hlt := h.legal e he
  omega

theorem Sound.lastKey_eq {l : Leaf H} (h : l.Sound) {front : List (Nat × H)} {e : Nat × H}
    (heq : l.entries = front ++ [e]) : l.lastKey = e.1 := by
  have hsize := h.size_eq
  rw [heq, List.length_append, List.length_singleton] at hsize
  have hlt : front.length < l.entries.length := by rw [heq]; simp
  rw [lastKey, hsize, Nat.add_sub_cancel, h.holds.keyAt_of_lt hlt]
  simp [heq]

theorem Sound.keyAt_zero {l : Leaf H} (h : l.Sound) {e : Nat × H} {back : List (Nat × H)}
    (heq : l.entries = e :: back) : l.keyAt 0 = e.1 := by
  have hlt : 0 < l.entries.length := by rw [heq]; exact Nat.succ_pos _
  rw [h.holds.keyAt_of_lt hlt]
  simp [heq]

end Leaf

/-- A leaf with the floor its keys start from. -/
abbrev Row (H : Type) := Nat × Leaf H

structure Row.Ok (r : Row H) : Prop where
  sound : r.2.Sound
  above : ∀ e ∈ r.2.entries, r.1 ≤ e.1
  floor : r.1 < chunkKeyPad

/-- A row before another: it is not empty and its keys are below the other's floor. -/
structure Row.Below (r s : Row H) : Prop where
  floor : r.1 < s.1
  keys : ∀ e ∈ r.2.entries, e.1 < s.1
  nonempty : r.2.entries ≠ []

structure Stacked (rows : List (Row H)) : Prop where
  ok : ∀ r ∈ rows, Row.Ok r
  below : rows.Pairwise Row.Below

namespace Stacked

variable {rows front gone mid back : List (Row H)} {r s : Row H}

theorem nil : Stacked ([] : List (Row H)) := ⟨by simp, List.Pairwise.nil⟩

theorem singleton (h : Row.Ok r) : Stacked [r] := ⟨by simpa using h, List.pairwise_singleton _ _⟩

theorem row (h : Stacked (front ++ r :: back)) : Row.Ok r :=
  h.ok r (List.mem_append_right front List.mem_cons_self)

theorem below_back (h : Stacked (front ++ r :: back)) : ∀ s ∈ back, Row.Below r s := by
  have hbelow := h.below
  rw [List.pairwise_append, List.pairwise_cons] at hbelow
  exact hbelow.2.1.1

theorem front_below (h : Stacked (front ++ r :: back)) : ∀ f ∈ front, Row.Below f r := by
  have hbelow := h.below
  rw [List.pairwise_append] at hbelow
  exact fun f hf ↦ hbelow.2.2 f hf r List.mem_cons_self

theorem of_sublist (h : Stacked rows) {sub : List (Row H)} (hs : sub.Sublist rows) : Stacked sub :=
  ⟨fun r hr ↦ h.ok r (hs.subset hr), h.below.sublist hs⟩

theorem pair (hr : Row.Ok r) (hs : Row.Ok s) (h : Row.Below r s) : Stacked [r, s] := by
  refine ⟨?_, List.pairwise_pair.mpr h⟩
  rintro x hx
  rcases List.mem_cons.mp hx with rfl | hx
  · exact hr
  · rw [List.mem_singleton.mp hx]
    exact hs

/-- Some rows give way to others between the same neighbours. -/
theorem replace (h : Stacked (front ++ r :: (gone ++ back))) (hmid : Stacked mid)
    (hfloor : ∀ m ∈ mid, r.1 ≤ m.1) (hback : ∀ m ∈ mid, ∀ s ∈ back, Row.Below m s) :
    Stacked (front ++ mid ++ back) := by
  obtain ⟨hok, hbelow⟩ := h
  rw [List.forall_mem_append, List.forall_mem_cons, List.forall_mem_append] at hok
  rw [List.pairwise_append, List.pairwise_cons, List.pairwise_append] at hbelow
  obtain ⟨hfront, ⟨-, -, hbackPair, -⟩, hcross⟩ := hbelow
  have hfrontMid : ∀ f ∈ front, ∀ m ∈ mid, Row.Below f m := by
    intro f hf m hm
    have hfr := hcross f hf r List.mem_cons_self
    have hle := hfloor m hm
    exact ⟨hfr.floor.trans_le hle, fun e he ↦ (hfr.keys e he).trans_le hle, hfr.nonempty⟩
  constructor
  · rw [List.forall_mem_append, List.forall_mem_append]
    exact ⟨⟨hok.1, hmid.ok⟩, hok.2.2.2⟩
  · rw [List.pairwise_append, List.pairwise_append]
    refine ⟨⟨hfront, hmid.below, hfrontMid⟩, hbackPair, ?_⟩
    intro a ha s hs
    rcases List.mem_append.mp ha with ha | ha
    · exact hcross a ha s (List.mem_cons_of_mem r (List.mem_append_right gone hs))
    · exact hback a ha s hs

/-- One row gives way to another between the same neighbours. -/
theorem update (h : Stacked (front ++ r :: back)) (hs : Row.Ok s) (hfloor : r.1 ≤ s.1)
    (hback : ∀ b ∈ back, Row.Below s b) : Stacked (front ++ s :: back) := by
  have hgone : Stacked (front ++ r :: ([] ++ back)) := h
  have hreplaced := hgone.replace (singleton hs)
    (fun m hm ↦ (List.mem_singleton.mp hm).symm ▸ hfloor)
    (fun m hm ↦ (List.mem_singleton.mp hm).symm ▸ hback)
  rwa [List.append_assoc] at hreplaced

/-- A row behind all others. -/
theorem push (h : Stacked rows) (hs : Row.Ok s) (hbelow : ∀ r ∈ rows, Row.Below r s) :
    Stacked (rows ++ [s]) := by
  constructor
  · rw [List.forall_mem_append, List.forall_mem_singleton]
    exact ⟨h.ok, hs⟩
  · rw [List.pairwise_append]
    refine ⟨h.below, List.pairwise_singleton _ _, fun r hr m hm ↦ ?_⟩
    rw [List.mem_singleton.mp hm]
    exact hbelow r hr

end Stacked

/-- The entries of rows from first to last. -/
def entriesOf (rows : List (Row H)) : List (Nat × H) := rows.flatMap fun r ↦ r.2.entries

theorem entriesOf_append (rows rows' : List (Row H)) :
    entriesOf (rows ++ rows') = entriesOf rows ++ entriesOf rows' := List.flatMap_append

theorem entriesOf_cons (r : Row H) (rows : List (Row H)) :
    entriesOf (r :: rows) = r.2.entries ++ entriesOf rows := List.flatMap_cons

@[simp] theorem entriesOf_nil : entriesOf ([] : List (Row H)) = [] := rfl

namespace Stacked

variable {rows front back : List (Row H)} {r : Row H}

theorem mem_entriesOf_front (h : Stacked (front ++ r :: back)) :
    ∀ e ∈ entriesOf front, e.1 < r.1 := by
  intro e he
  obtain ⟨f, hf, he⟩ := List.mem_flatMap.mp he
  exact (h.front_below f hf).keys e he

theorem mem_entriesOf_back (h : Stacked (front ++ r :: back)) :
    ∀ e ∈ entriesOf back, r.1 < e.1 ∧ ∀ a ∈ r.2.entries, a.1 < e.1 := by
  intro e he
  obtain ⟨s, hs, he⟩ := List.mem_flatMap.mp he
  have hbelow := h.below_back s hs
  have hle := (h.ok s (List.mem_append_right front (List.mem_cons_of_mem r hs))).above e he
  exact ⟨hbelow.floor.trans_le hle, fun a ha ↦ (hbelow.keys a ha).trans_le hle⟩

/-- The entries of stacked rows ascend. -/
theorem sorted (h : Stacked rows) : Sorted (entriesOf rows) := by
  induction rows with
  | nil => exact List.Pairwise.nil
  | cons r rows ih =>
    rw [entriesOf_cons, Sorted, List.pairwise_append]
    refine ⟨(h.ok r List.mem_cons_self).sound.sorted,
      ih (h.of_sublist (List.sublist_cons_self r rows)),
      fun a ha b hb ↦ ?_⟩
    have hfirst : Stacked ([] ++ r :: rows) := h
    exact (hfirst.mem_entriesOf_back b hb).2 a ha

theorem legal (h : Stacked rows) : ∀ e ∈ entriesOf rows, e.1 + 1 < chunkKeyPad := by
  intro e he
  obtain ⟨r, hr, he⟩ := List.mem_flatMap.mp he
  exact (h.ok r hr).sound.legal e he

end Stacked

/-- Ascending entries split at a probe. -/
theorem Sorted.split {es : List (Nat × H)} (h : Sorted es) (probe : Nat) :
    ∃ low high, es = low ++ high ∧ (∀ e ∈ low, e.1 < probe) ∧ ∀ e ∈ high, probe ≤ e.1 := by
  induction es with
  | nil => exact ⟨[], [], rfl, by simp, by simp⟩
  | cons e es ih =>
    rw [Sorted, List.pairwise_cons] at h
    by_cases he : e.1 < probe
    · obtain ⟨low, high, rfl, hlow, hhigh⟩ := ih h.2
      exact ⟨e :: low, high, rfl, List.forall_mem_cons.mpr ⟨he, hlow⟩, hhigh⟩
    · refine ⟨[], e :: es, rfl, by simp, List.forall_mem_cons.mpr
        ⟨Nat.le_of_not_lt he, fun a ha ↦ ?_⟩⟩
      exact (Nat.le_of_not_lt he).trans (h.1 a ha).le

/-- An entry of a new key takes its place in ascending entries. -/
theorem Sorted.insert {low high : List (Nat × H)} {key : Nat} (h : Sorted (low ++ high))
    (hlow : ∀ e ∈ low, e.1 < key) (hhigh : ∀ e ∈ high, key < e.1) (handle : H) :
    Sorted (low ++ (key, handle) :: high) := by
  rw [Sorted, List.pairwise_append] at h
  rw [Sorted, List.pairwise_append, List.pairwise_cons]
  refine ⟨h.1, ⟨hhigh, h.2.1⟩, fun a ha b hb ↦ ?_⟩
  rcases List.mem_cons.mp hb with rfl | hb
  · exact hlow a ha
  · exact h.2.2 a ha b hb

end Roaring
