import Mathlib
import Roaring.Table.TreeInvariant

/-!
# Steps on the chain

What the leaf operations do to the rows, whatever index stands over them: an
entry put into a leaf or taken out of it, a fresh leaf linked behind another, a
leaf freed, the root leaf moved to another block.
-/

namespace Roaring

open Lib

variable {H : Type} {minEntries : Nat}

namespace Row

variable {r s : Row H} {low high : List (Nat × H)} {key : Nat}

/-- A leaf of the same floor that holds other entries. -/
theorem Ok.of_holds {l : Leaf H} {es : List (Nat × H)} {floor : Nat} (hl : l.Holds es)
    (hsorted : Sorted es) (hlegal : ∀ e ∈ es, e.1 + 1 < chunkKeyPad)
    (habove : ∀ e ∈ es, floor ≤ e.1) (hfloor : floor < chunkKeyPad) : Row.Ok (floor, l) where
  sound := hl.sound hsorted hlegal
  above := by
    rw [show (floor, l).2.entries = es from hl.entries_eq]
    exact habove
  floor := hfloor

theorem Ok.holds (h : Row.Ok r) {es : List (Nat × H)} (heq : r.2.entries = es) : r.2.Holds es :=
  heq ▸ h.sound.holds

/-- An entry put between those below it and those above. -/
theorem Ok.put (h : Row.Ok r) (hr : r.2.entries = low ++ high) (hroom : r.2.size < r.2.cap)
    (hlow : ∀ e ∈ low, e.1 < key) (hhigh : ∀ e ∈ high, key < e.1) (hfloor : r.1 ≤ key)
    (hkey : key + 1 < chunkKeyPad) (handle : H) :
    Row.Ok (r.1, r.2.put low.length key handle) ∧
      (r.2.put low.length key handle).entries = low ++ (key, handle) :: high := by
  have hholds : (r.2.put low.length key handle).Holds (low ++ (key, handle) :: high) := by
    have hlen : low.length ≤ (low ++ high).length := by
      rw [List.length_append]
      omega
    have hput := (h.holds hr).put hlen
      (by rw [← hr, ← h.sound.size_eq]; exact hroom) key handle
    rwa [insertIdx_length_append] at hput
  have hsorted : Sorted (low ++ high) := hr ▸ h.sound.sorted
  refine ⟨Ok.of_holds hholds (hsorted.insert hlow hhigh handle) ?_ ?_ h.floor, hholds.entries_eq⟩
  · have hlegal := h.sound.legal
    rw [hr, List.forall_mem_append] at hlegal
    rw [List.forall_mem_append, List.forall_mem_cons]
    exact ⟨hlegal.1, hkey, hlegal.2⟩
  · have habove := h.above
    rw [hr, List.forall_mem_append] at habove
    rw [List.forall_mem_append, List.forall_mem_cons]
    exact ⟨habove.1, hfloor, habove.2⟩

theorem Ok.append (h : Row.Ok r) (hroom : r.2.size < r.2.cap) (hlow : ∀ e ∈ r.2.entries, e.1 < key)
    (hfloor : r.1 ≤ key) (hkey : key + 1 < chunkKeyPad) (handle : H) :
    Row.Ok (r.1, r.2.append key handle) ∧
      (r.2.append key handle).entries = r.2.entries ++ [(key, handle)] := by
  have hholds : (r.2.append key handle).Holds (r.2.entries ++ [(key, handle)]) :=
    h.sound.holds.append (by rw [← h.sound.size_eq]; exact hroom) key handle
  have hsorted : Sorted (r.2.entries ++ []) := (List.append_nil r.2.entries).symm ▸ h.sound.sorted
  refine ⟨Ok.of_holds hholds (hsorted.insert hlow (by simp) handle) ?_ ?_ h.floor,
    hholds.entries_eq⟩
  · rw [List.forall_mem_append, List.forall_mem_singleton]
    exact ⟨h.sound.legal, hkey⟩
  · rw [List.forall_mem_append, List.forall_mem_singleton]
    exact ⟨h.above, hfloor⟩

theorem Ok.remove (h : Row.Ok r) {e : Nat × H} (hr : r.2.entries = low ++ e :: high) :
    Row.Ok (r.1, r.2.remove low.length) ∧ (r.2.remove low.length).entries = low ++ high := by
  have hsub : (low ++ high).Sublist r.2.entries := by
    rw [hr]
    exact (List.Sublist.refl low).append (List.sublist_cons_self e high)
  have hholds : (r.2.remove low.length).Holds (low ++ high) := by
    have hlen : low.length < (low ++ e :: high).length := by
      rw [List.length_append, List.length_cons]
      omega
    have hremove := (h.holds hr).remove hlen
    rwa [List.eraseIdx_append_of_length_le le_rfl, Nat.sub_self] at hremove
  refine ⟨Ok.of_holds hholds (h.sound.sorted.sublist hsub) ?_ ?_ h.floor, hholds.entries_eq⟩
  · exact fun a ha ↦ h.sound.legal a (hsub.subset ha)
  · exact fun a ha ↦ h.above a (hsub.subset ha)

/-- A leaf that takes in the entries of the one behind it. -/
theorem Ok.absorb (hr : Row.Ok r) (hs : Row.Ok s) (hbelow : Row.Below r s)
    (hfits : r.2.size + s.2.size ≤ r.2.cap) :
    Row.Ok (r.1, r.2.absorb s.2) ∧ (r.2.absorb s.2).entries = r.2.entries ++ s.2.entries := by
  have hholds : (r.2.absorb s.2).Holds (r.2.entries ++ s.2.entries) :=
    hr.sound.holds.absorb hs.sound.holds
      (by rw [← hr.sound.size_eq, ← hs.sound.size_eq]; exact hfits)
  refine ⟨Ok.of_holds hholds ?_ ?_ ?_ hr.floor, hholds.entries_eq⟩
  · rw [Sorted, List.pairwise_append]
    exact ⟨hr.sound.sorted, hs.sound.sorted, fun a ha b hb ↦
      (hbelow.keys a ha).trans_le (hs.above b hb)⟩
  · rw [List.forall_mem_append]
    exact ⟨hr.sound.legal, hs.sound.legal⟩
  · rw [List.forall_mem_append]
    exact ⟨hr.above, fun b hb ↦ hbelow.floor.le.trans (hs.above b hb)⟩

theorem Ok.relocate (h : Row.Ok r) (id : LeafId) {cap : Nat} (hfits : r.2.size ≤ cap) :
    Row.Ok (r.1, r.2.relocate id cap) ∧ (r.2.relocate id cap).entries = r.2.entries := by
  have hholds : (r.2.relocate id cap).Holds r.2.entries :=
    h.sound.holds.relocate id (by rw [← h.sound.size_eq]; exact hfits)
  exact ⟨Ok.of_holds hholds h.sound.sorted h.sound.legal h.above h.floor, hholds.entries_eq⟩

end Row

namespace ChunkTree

variable {t : ChunkTree H minEntries} {rows rows' front back : List (Row H)} {r s : Row H}

namespace Chained

/-- The same leaves above other floors. -/
theorem refloor (h : Chained t rows) (hleaves : rows'.map Prod.snd = rows.map Prod.snd)
    (hstacked : Stacked rows') : Chained t rows' where
  chain := h.chain.trans hleaves.symm
  stacked := hstacked
  names := h.names
  fresh := h.fresh
  tail := h.tail
  cap := by
    intro r hr
    have hmem : r.2 ∈ rows.map Prod.snd := hleaves ▸ List.mem_map_of_mem hr
    obtain ⟨s, hs, heq⟩ := List.mem_map.mp hmem
    exact heq ▸ h.cap s hs
  full := by
    intro hlen r hr
    have hmem : r.2 ∈ rows.map Prod.snd := hleaves ▸ List.mem_map_of_mem hr
    obtain ⟨s, hs, heq⟩ := List.mem_map.mp hmem
    have hlens := congrArg List.length hleaves
    rw [List.length_map, List.length_map] at hlens
    exact heq ▸ h.full (hlens ▸ hlen) s hs

theorem modify (h : Chained t (front ++ r :: back)) {f : Leaf H → Leaf H}
    (hid : (f r.2).id = r.2.id) (hcap : (f r.2).cap = r.2.cap)
    (hstacked : Stacked (front ++ (r.1, f r.2) :: back)) :
    Chained (t.modify r.2.id f) (front ++ (r.1, f r.2) :: back) := by
  have hchain : (t.modify r.2.id f).chain = front.map Prod.snd ++ f r.2 :: back.map Prod.snd := by
    rw [ChunkTree.modify, h.chain_eq]
    exact modifyAt_eq h.distinct f
  have hids : (t.modify r.2.id f).chain.map Leaf.id = t.chain.map Leaf.id := by
    rw [hchain, h.chain_eq, List.map_append, List.map_append, List.map_cons, List.map_cons, hid]
  constructor
  · rw [hchain, List.map_append, List.map_cons]
  · exact hstacked
  · rw [Distinct, hids]
    exact h.names
  · intro l hl
    have hmem : l.id ∈ t.chain.map Leaf.id := hids ▸ List.mem_map_of_mem hl
    obtain ⟨l', hl', heq⟩ := List.mem_map.mp hmem
    exact heq ▸ h.fresh l' hl'
  · show t.tail = _
    rw [h.tail, ← List.getLast?_map, ← List.getLast?_map, hids]
  · have hcaps := h.cap
    rw [List.forall_mem_append, List.forall_mem_cons] at hcaps ⊢
    exact ⟨hcaps.1, hcap.le.trans hcaps.2.1, hcaps.2.2⟩
  · intro hlen
    rw [List.length_append, List.length_cons] at hlen
    have hfull := h.full (by rwa [List.length_append, List.length_cons])
    rw [List.forall_mem_append, List.forall_mem_cons] at hfull ⊢
    exact ⟨hfull.1, hcap.trans hfull.2.1, hfull.2.2⟩

theorem not_mem_of_fresh (h : Chained t rows) {l : Leaf H} (hl : l.id = t.nextId) :
    l.id ∉ t.chain.map Leaf.id := by
  intro hmem
  obtain ⟨l', hl', heq⟩ := List.mem_map.mp hmem
  have hlt := h.fresh l' hl'
  rw [heq, hl] at hlt
  exact lt_irrefl _ hlt

theorem linkFresh (h : Chained t (front ++ r :: back)) (hid : s.2.id = t.nextId)
    (hr : r.2.cap = leafCapacity) (hs : s.2.cap = leafCapacity)
    (hstacked : Stacked (front ++ r :: s :: back)) :
    Chained (t.linkFresh r.2.id s.2) (front ++ r :: s :: back) := by
  have hchain : (t.linkFresh r.2.id s.2).chain =
      front.map Prod.snd ++ r.2 :: s.2 :: back.map Prod.snd := by
    rw [ChunkTree.linkFresh, h.chain_eq]
    exact linkAfter_eq h.distinct s.2
  have hfull : ∀ x ∈ front ++ r :: back, x.2.cap = leafCapacity := by
    by_cases hlen : 1 < (front ++ r :: back).length
    · exact h.full hlen
    · rw [List.length_append, List.length_cons] at hlen
      have hfront : front = [] := List.eq_nil_of_length_eq_zero (by omega)
      have hback : back = [] := List.eq_nil_of_length_eq_zero (by omega)
      subst hfront hback
      simpa using hr
  have hall : ∀ x ∈ front ++ r :: s :: back, x.2.cap = leafCapacity := by
    rw [List.forall_mem_append, List.forall_mem_cons] at hfull ⊢
    exact ⟨hfull.1, hfull.2.1, List.forall_mem_cons.mpr ⟨hs, hfull.2.2⟩⟩
  constructor
  · rw [hchain, List.map_append, List.map_cons, List.map_cons]
  · exact hstacked
  · rw [hchain, List.append_cons]
    apply Distinct.insert
    · rw [← List.append_cons]
      exact h.distinct
    · rw [← List.append_cons, ← h.chain_eq]
      exact h.not_mem_of_fresh hid
  · have hfresh := h.fresh
    rw [h.chain_eq, List.forall_mem_append, List.forall_mem_cons] at hfresh
    rw [hchain, List.forall_mem_append, List.forall_mem_cons, List.forall_mem_cons]
    show (∀ x ∈ front.map Prod.snd, x.id < t.nextId + 1) ∧ r.2.id < t.nextId + 1 ∧
      s.2.id < t.nextId + 1 ∧ ∀ x ∈ back.map Prod.snd, x.id < t.nextId + 1
    refine ⟨fun x hx ↦ Nat.lt_succ_of_lt (hfresh.1 x hx), Nat.lt_succ_of_lt hfresh.2.1, ?_,
      fun x hx ↦ Nat.lt_succ_of_lt (hfresh.2.2 x hx)⟩
    rw [hid]
    exact Nat.lt_succ_self _
  · rw [hchain]
    show (if (nextOf Leaf.id t.chain r.2.id).isNone then some s.2.id else t.tail) = _
    rw [h.chain_eq, nextOf_eq h.distinct, h.tail, h.chain_eq]
    rcases List.eq_nil_or_concat back with rfl | ⟨init, last, rfl⟩
    · simp
    · have hne : (((init.concat last).map Prod.snd).head?).isNone = false := by
        cases init <;> rfl
      rw [hne, if_neg (by decide), List.concat_eq_append, List.map_append, List.map_singleton]
      simp [List.getLast?_append, List.getLast?_cons]
  · exact fun x hx ↦ (hall x hx).le
  · exact fun _ ↦ hall

theorem freeLeaf (h : Chained t (front ++ r :: back)) : Chained (t.freeLeaf r.2.id) (front ++ back)
    := by
  have hchain : (t.freeLeaf r.2.id).chain = (front ++ back).map Prod.snd := by
    rw [ChunkTree.freeLeaf, h.chain_eq, List.map_append]
    exact unlink_eq h.distinct
  have hsub : (front ++ back).Sublist (front ++ r :: back) :=
    (List.Sublist.refl front).append (List.sublist_cons_self r back)
  have hsubChain : (t.freeLeaf r.2.id).chain.Sublist t.chain := by
    rw [hchain, h.chain]
    exact hsub.map Prod.snd
  constructor
  · exact hchain
  · exact h.stacked.of_sublist hsub
  · exact h.names.of_sublist hsubChain
  · exact fun l hl ↦ h.fresh l (hsubChain.subset hl)
  · rw [hchain]
    show (if (nextOf Leaf.id t.chain r.2.id).isNone then (prevOf Leaf.id t.chain r.2.id).map Leaf.id
      else t.tail) = _
    rw [h.chain_eq, nextOf_eq h.distinct, prevOf_eq h.distinct, h.tail, h.chain_eq]
    rcases List.eq_nil_or_concat back with rfl | ⟨init, last, rfl⟩
    · simp
    · have hne : (((init.concat last).map Prod.snd).head?).isNone = false := by
        cases init <;> rfl
      rw [hne, if_neg (by decide), List.concat_eq_append, List.map_append, List.map_append,
        List.map_singleton]
      simp [List.getLast?_append, List.getLast?_cons]
  · exact fun x hx ↦ h.cap x (hsub.subset hx)
  · exact fun hlen x hx ↦ h.full (hlen.trans_le hsub.length_le) x (hsub.subset hx)

/-- The root leaf in another block. -/
theorem relocateRoot (h : Chained t [r]) {cap : Nat} (hfits : r.2.size ≤ cap)
    (hcap : cap ≤ leafCapacity) :
    Chained (t.relocateRoot r.2.id cap) [(r.1, r.2.relocate t.nextId cap)] := by
  have hrow : Chained t ([] ++ r :: []) := h
  have hchain : (t.relocateRoot r.2.id cap).chain = [r.2.relocate t.nextId cap] := by
    rw [ChunkTree.relocateRoot, hrow.chain_eq]
    exact modifyAt_eq hrow.distinct fun l ↦ l.relocate t.nextId cap
  have hid : (r.2.relocate t.nextId cap).id = t.nextId := rfl
  constructor
  · rw [hchain, List.map_singleton]
  · exact Stacked.singleton ((h.stacked.ok r List.mem_cons_self).relocate t.nextId hfits).1
  · rw [hchain, Distinct, List.map_singleton]
    exact List.nodup_singleton _
  · rw [hchain, List.forall_mem_singleton, hid]
    exact Nat.lt_succ_self _
  · rw [hchain]
    rfl
  · rw [List.forall_mem_singleton]
    exact hcap
  · intro hlen
    exact absurd hlen (by simp)

end Chained

end ChunkTree

end Roaring
