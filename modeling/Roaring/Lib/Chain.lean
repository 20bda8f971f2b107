import Mathlib

/-!
# Chains of named nodes

A doubly linked chain is the list of its nodes, each with a name; the two links
of a node are its neighbours in the list.  The names of a chain are distinct, so
an operation at a name is an operation at the one place where the list has it.
-/

namespace Lib

variable {α ι : Type} (name : α → ι)

/-- The names of a chain are distinct. -/
def Distinct (chain : List α) : Prop := (chain.map name).Nodup

variable {name} {front back : List α} {a : α}

namespace Distinct

theorem of_sublist {chain sub : List α} (h : Distinct name chain) (hs : sub.Sublist chain) :
    Distinct name sub := h.sublist (hs.map name)

theorem ne_front (h : Distinct name (front ++ a :: back)) : ∀ b ∈ front, name b ≠ name a := by
  intro b hb heq
  rw [Distinct, List.map_append, List.map_cons, List.nodup_append] at h
  exact h.2.2 _ (List.mem_map_of_mem hb) _ List.mem_cons_self heq

theorem ne_back (h : Distinct name (front ++ a :: back)) : ∀ b ∈ back, name b ≠ name a := by
  intro b hb heq
  rw [Distinct, List.map_append, List.map_cons, List.nodup_append, List.nodup_cons] at h
  exact h.2.1.1 (heq ▸ List.mem_map_of_mem hb)

theorem append_right {a : List α} {b : List α} (h : Distinct name (a ++ b)) : Distinct name b :=
  h.of_sublist (List.sublist_append_right a b)

/-- Another node of the same name in the same place. -/
theorem replace {b : α} (h : Distinct name (front ++ a :: back)) (hb : name b = name a) :
    Distinct name (front ++ b :: back) := by
  rw [Distinct, List.map_append, List.map_cons] at h ⊢
  rwa [hb]

/-- A node of a new name behind another. -/
theorem insert {fresh : α} (h : Distinct name (front ++ back))
    (hfresh : name fresh ∉ (front ++ back).map name) :
    Distinct name (front ++ fresh :: back) := by
  rw [Distinct, List.map_append, List.map_cons, List.nodup_middle, List.nodup_cons,
    ← List.map_append]
  exact ⟨hfresh, h⟩

end Distinct

variable [DecidableEq ι] (name)

def nodeAt (chain : List α) (i : ι) : Option α := chain.find? fun a ↦ name a = i

def modifyAt (chain : List α) (i : ι) (f : α → α) : List α :=
  chain.map fun a ↦ if name a = i then f a else a

def linkAfter : List α → ι → α → List α
  | [], _, _ => []
  | a :: as, i, fresh => if name a = i then a :: fresh :: as else a :: linkAfter as i fresh

def unlink (chain : List α) (i : ι) : List α := chain.filter fun a ↦ name a ≠ i

def nextOf : List α → ι → Option α
  | [], _ => none
  | a :: as, i => if name a = i then as.head? else nextOf as i

def prevOf : List α → ι → Option α
  | a :: b :: as, i => if name b = i then some a else prevOf (b :: as) i
  | _, _ => none

variable {name}

variable (h : Distinct name (front ++ a :: back))

include h

theorem nodeAt_eq : nodeAt name (front ++ a :: back) (name a) = some a := by
  rw [nodeAt, List.find?_append, List.find?_eq_none.mpr, Option.none_or, List.find?_cons_of_pos]
  · simp
  · intro b hb
    simpa using h.ne_front b hb

theorem modifyAt_eq (f : α → α) :
    modifyAt name (front ++ a :: back) (name a) f = front ++ f a :: back := by
  rw [modifyAt, List.map_append, List.map_cons, if_pos rfl]
  have hid : ∀ l : List α, (∀ b ∈ l, name b ≠ name a) →
      (l.map fun b ↦ if name b = name a then f b else b) = l := by
    intro l hl
    conv_rhs => rw [← List.map_id l]
    exact List.map_congr_left fun b hb ↦ if_neg (hl b hb)
  rw [hid front h.ne_front, hid back h.ne_back]

theorem linkAfter_eq (fresh : α) :
    linkAfter name (front ++ a :: back) (name a) fresh = front ++ a :: fresh :: back := by
  have hne := h.ne_front
  clear h
  induction front with
  | nil => rw [List.nil_append, linkAfter, if_pos rfl]; rfl
  | cons b front ih =>
      rw [List.cons_append, linkAfter, if_neg (hne b List.mem_cons_self),
        ih fun c hc ↦ hne c (List.mem_cons_of_mem b hc)]
      rfl

theorem unlink_eq : unlink name (front ++ a :: back) (name a) = front ++ back := by
  rw [unlink, List.filter_append, List.filter_cons_of_neg (by simp)]
  have hid : ∀ l : List α, (∀ b ∈ l, name b ≠ name a) → (l.filter fun b ↦ name b ≠ name a) = l := by
    intro l hl
    rw [List.filter_eq_self]
    intro b hb
    exact decide_eq_true (hl b hb)
  rw [hid front h.ne_front, hid back h.ne_back]

theorem nextOf_eq : nextOf name (front ++ a :: back) (name a) = back.head? := by
  have hne := h.ne_front
  clear h
  induction front with
  | nil => rw [List.nil_append, nextOf, if_pos rfl]
  | cons b front ih =>
      rw [List.cons_append, nextOf, if_neg (hne b List.mem_cons_self),
        ih fun c hc ↦ hne c (List.mem_cons_of_mem b hc)]

theorem prevOf_eq : prevOf name (front ++ a :: back) (name a) = front.getLast? := by
  have hne := h.ne_front
  have hback := h.ne_back
  clear h
  induction front with
  | nil =>
      have hnone : ∀ l : List α, ∀ x, (∀ b ∈ l, name b ≠ name a) →
          prevOf name (x :: l) (name a) = none := by
        intro l
        induction l with
        | nil => exact fun _ _ ↦ rfl
        | cons b l ih =>
            intro x hl
            rw [prevOf, if_neg (hl b List.mem_cons_self)]
            exact ih b fun c hc ↦ hl c (List.mem_cons_of_mem b hc)
      exact hnone back a hback
  | cons b front ih =>
      have hrest := ih fun c hc ↦ hne c (List.mem_cons_of_mem b hc)
      cases front with
      | nil => rw [List.cons_append, List.nil_append, prevOf, if_pos rfl]; rfl
      | cons c front =>
          rw [List.cons_append, List.cons_append, prevOf,
            if_neg (hne c (List.mem_cons_of_mem b List.mem_cons_self))]
          exact hrest

end Lib
