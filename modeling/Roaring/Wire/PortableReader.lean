import Mathlib
import Roaring.Lib.Window
import Roaring.Wire.PortableFormat

/-!
# The portable reader is a safe validator

The reader interleaves cutting the image, checking it and building the table.
Each of its loops is shown to do the same as cutting first, then checking, then
building: `ReadsAs` is that statement for one cursor position, and it composes.
What is left then follows from the abstract side: a legal image has a valid
table that holds its keys.
-/

namespace Roaring

open Lib

/-! ## Reading against cutting -/

/-- The reader result `r` at position `p` agrees with the piece cut off there:
it refuses what cannot be cut or is not legal, and builds the rest. -/
def ReadsAs {α β : Type} (buf : List UInt8) (p : Nat) (legal : α → Prop) (build : α → β)
    (r : Parsed (Nat × β)) : Option (α × List UInt8) → Prop
  | none => r = .refused
  | some (a, rest) => ∃ p', p ≤ p' ∧ p' ≤ buf.length ∧ rest = buf.drop p' ∧
      (legal a → r = .value (p', build a)) ∧ (¬ legal a → r = .refused)

theorem ReadsAs.mono {α β : Type} {buf : List UInt8} {p q : Nat} {legal : α → Prop}
    {build : α → β} {r : Parsed (Nat × β)} {d : Option (α × List UInt8)}
    (h : ReadsAs buf p legal build r d) (hle : q ≤ p) : ReadsAs buf q legal build r d := by
  cases d with
  | none => exact h
  | some cut =>
      obtain ⟨p', hle', hrest⟩ := h
      exact ⟨p', hle.trans hle', hrest⟩

theorem takeBytes_drop {buf : List UInt8} {p : Nat} (n : Nat) :
    takeBytes n (buf.drop p) =
      if n ≤ buf.length - p then some ((buf.drop p).take n, buf.drop (p + n)) else none := by
  rw [takeBytes, List.length_drop, List.drop_drop]

/-- A slice of a slice is a slice. -/
theorem take_drop_take_drop (buf : List UInt8) (p : Nat) {m i j : Nat} (h : i + j ≤ m) :
    (((buf.drop p).take m).drop i).take j = (buf.drop (p + i)).take j := by
  rw [List.drop_take, List.take_take, List.drop_drop, Nat.min_eq_left (by omega)]

theorem leValue_take_lt (n : Nat) (bs : List UInt8) : leValue (bs.take n) < 256 ^ n :=
  (leValue_lt _).trans_le (Nat.pow_le_pow_right (by decide) (List.length_take_le n bs))

/-! ## Arrays -/

theorem pairwise_of_strictlyAscending {l : List Nat} (h : strictlyAscending l = true) :
    l.Pairwise (· < ·) := by
  induction l using strictlyAscending.induct with
  | case1 a b rest ih =>
      rw [strictlyAscending, Bool.and_eq_true, decide_eq_true_eq] at h
      have hrest := ih h.2
      refine List.pairwise_cons.mpr ⟨fun c hc ↦ ?_, hrest⟩
      rcases List.mem_cons.mp hc with rfl | hc
      · exact h.1
      · exact h.1.trans (List.rel_of_pairwise_cons hrest hc)
  | case2 t hne =>
      cases t with
      | nil => exact List.Pairwise.nil
      | cons a rest =>
          cases rest with
          | nil => exact List.pairwise_singleton _ _
          | cons b rest => exact absurd rfl (hne a b rest)

theorem strictlyAscending_iff {l : List Nat} :
    strictlyAscending l = true ↔ l.Pairwise (· < ·) :=
  ⟨pairwise_of_strictlyAscending, strictlyAscending_of_pairwise⟩

theorem units_succ_drop (k n : Nat) (buf : List UInt8) (p : Nat) :
    units k (n + 1) (buf.drop p) = leValue ((buf.drop p).take k) :: units k n
      (buf.drop (p + k)) := by
  rw [units, List.drop_drop]

theorem portableAscendingFrom_eq {buf : List UInt8} {values pairs : Nat} (i : Nat) (u : Bool)
    (h : values + 2 * (i + pairs + 1) ≤ buf.length) :
    portableAscendingFrom buf values pairs i u =
      .value (!u && strictlyAscending (units 2 (pairs + 1) (buf.drop (values + i * 2)))) := by
  induction pairs generalizing i u with
  | zero => simp [portableAscendingFrom, units, strictlyAscending]
  | succ pairs ih =>
      have hnext : values + i * 2 + 2 = values + (i + 1) * 2 := by ring
      rw [portableAscendingFrom, getLE_of_le (by omega), Parsed.value_bind, getLE_of_le (by omega),
        Parsed.value_bind, ih (i + 1) _ (by omega), units_succ_drop 2 (pairs + 1), hnext,
        units_succ_drop, strictlyAscending]
      congr 1
      rw [Bool.not_or, Bool.and_assoc]
      congr 2
      rw [← decide_not]
      exact decide_eq_decide.mpr Nat.not_le

/-- Some pair of neighbours in the window from `i` to `j` is out of order. -/
def Unordered (l : List Nat) (i j : Nat) : Prop :=
  ∃ x, i ≤ x ∧ x < j ∧ l.getD (x + 1) 0 ≤ l.getD x 0

theorem Unordered.append {l : List Nat} {i j i' k : Nat} (hij : i ≤ i') (hi : i' ≤ j)
    (hjk : j ≤ k) : Unordered l i j ∨ Unordered l i' k ↔ Unordered l i k := by
  constructor
  · rintro (⟨x, hix, hxj, hx⟩ | ⟨x, hix, hxk, hx⟩)
    · exact ⟨x, hix, hxj.trans_le hjk, hx⟩
    · exact ⟨x, hij.trans hix, hxk, hx⟩
  · rintro ⟨x, hix, hxk, hx⟩
    rcases Nat.lt_or_ge x j with hxj | hjx
    · exact .inl ⟨x, hix, hxj, hx⟩
    · exact .inr ⟨x, hi.trans hjx, hxk, hx⟩

theorem strictlyAscending_iff_not_unordered {l : List Nat} :
    strictlyAscending l = true ↔ ¬ Unordered l 0 (l.length - 1) := by
  rw [strictlyAscending_iff, ← List.isChain_iff_pairwise, List.isChain_iff_getElem]
  constructor
  · rintro h ⟨x, -, hx, hle⟩
    rw [List.getD_eq_getElem _ _ (by omega), List.getD_eq_getElem _ _ (by omega)] at hle
    exact absurd (h x (by omega)) (Nat.not_lt.2 hle)
  · intro h x hx
    by_contra hle
    refine h ⟨x, Nat.zero_le x, by omega, ?_⟩
    rw [List.getD_eq_getElem _ _ hx, List.getD_eq_getElem _ _ (by omega)]
    exact Nat.not_lt.1 hle

/-- A vector of values is a window of them. -/
theorem units_window {k n m i : Nat} {buf : List UInt8} {p : Nat} (h : i + m ≤ n) :
    units k m (buf.drop (p + i * k)) = ((units k n (buf.drop p)).drop i).take m := by
  refine List.ext_getElem? fun x ↦ ?_
  rcases Nat.lt_or_ge x m with hx | hx
  · rw [List.getElem?_take_of_lt hx, List.getElem?_drop, getElem?_units k hx,
      getElem?_units k (by omega), List.drop_drop, List.drop_drop, Nat.add_mul, Nat.add_assoc]
  · rw [List.getElem?_eq_none (by rwa [length_units]),
      List.getElem?_eq_none ((List.length_take_le ..).trans hx)]

section Vectors

variable {buf : List UInt8} {p n : Nat}

/-- One vector tells whether one of its sixteen pairs is out of order. -/
theorem portableCompare_spec {i : Nat} (h : p + n * 2 ≤ buf.length) (hi : i + portableLanes < n)
    (u : Bool) : ∃ u', portableCompare buf p i u = .value u' ∧
      (u' = true ↔ u = true ∨ Unordered (units 2 n (buf.drop p)) i (i + portableLanes)) := by
  have hlength : (units 2 n (buf.drop p)).length = n := length_units 2 n _
  have hcurrent : p + i * 2 + 2 * portableLanes ≤ buf.length := by omega
  have hnext : p + (i + 1) * 2 + 2 * portableLanes ≤ buf.length := by omega
  refine ⟨_, by rw [portableCompare, bytesAt_of_le hcurrent, Parsed.value_bind,
    bytesAt_of_le hnext, Parsed.value_bind]; rfl, ?_⟩
  rw [units_take le_rfl, units_take le_rfl, units_window (n := n) (by omega),
    units_window (n := n) (by omega), Bool.or_eq_true]
  refine or_congr_right ?_
  generalize units 2 n (buf.drop p) = l at hlength ⊢
  rw [List.any_eq_true]
  constructor
  · rintro ⟨lane, hmem, hlane⟩
    obtain ⟨x, hx, rfl⟩ := List.getElem_of_mem hmem
    rw [List.length_zip, List.length_take, List.length_take, List.length_drop,
      List.length_drop] at hx
    rw [List.getElem_zip, beq_iff_eq, max_eq_left_iff, List.getElem_take, List.getElem_take,
      List.getElem_drop, List.getElem_drop] at hlane
    refine ⟨i + x, Nat.le_add_right i x, by omega, ?_⟩
    rw [Nat.add_right_comm, List.getD_eq_getElem _ _ (by omega),
      List.getD_eq_getElem _ _ (by omega)]
    exact hlane
  · rintro ⟨x, hix, hx, hle⟩
    obtain ⟨y, rfl⟩ := Nat.exists_eq_add_of_le hix
    have hin : y < (((l.drop i).take portableLanes).zip
        ((l.drop (i + 1)).take portableLanes)).length := by
      rw [List.length_zip, List.length_take, List.length_take, List.length_drop,
        List.length_drop]
      omega
    refine ⟨_, List.getElem_mem hin, ?_⟩
    rw [Nat.add_right_comm, List.getD_eq_getElem _ _ (by omega),
      List.getD_eq_getElem _ _ (by omega)] at hle
    rw [List.getElem_zip, beq_iff_eq, max_eq_left_iff, List.getElem_take, List.getElem_take,
      List.getElem_drop, List.getElem_drop]
    exact hle

/-- The loop tells it of all the pairs of its vectors. -/
theorem portableCompareVectors_spec {vectors i : Nat} (h : p + n * 2 ≤ buf.length)
    (hi : i + vectors * portableLanes < n) (u : Bool) :
    ∃ u', portableCompareVectors buf p vectors i u = .value u' ∧
      (u' = true ↔
        u = true ∨ Unordered (units 2 n (buf.drop p)) i (i + vectors * portableLanes)) := by
  induction vectors generalizing i u with
  | zero =>
      refine ⟨u, rfl, (or_iff_left ?_).symm⟩
      rintro ⟨x, hix, hx, -⟩
      omega
  | succ vectors ih =>
      rw [Nat.succ_mul] at hi ⊢
      obtain ⟨v, hcompare, hv⟩ := portableCompare_spec (i := i) h (by omega) u
      obtain ⟨w, hloop, hw⟩ := ih (i := i + portableLanes) (by omega) v
      refine ⟨w, by rw [portableCompareVectors, hcompare, Parsed.value_bind, hloop], ?_⟩
      rw [hw, hv, or_assoc, Unordered.append (Nat.le_add_right _ _) le_rfl (by omega)]
      rw [show i + portableLanes + vectors * portableLanes =
        i + (vectors * portableLanes + portableLanes) by omega]

/-- Sixteen pairs at a time or one by one, the reader reads the values and nothing else, and
finds whether they ascend. -/
theorem portableStrictlyAscending_eq {avx2 : Bool} (h : p + n * 2 ≤ buf.length) :
    portableStrictlyAscending avx2 buf p n =
      .value (strictlyAscending (units 2 n (buf.drop p))) := by
  match n with
  | 0 => rfl
  | 1 => rfl
  | n + 2 =>
      rw [portableStrictlyAscending, if_neg (by omega)]
      dsimp only
      split
      · rename_i hvector
        obtain ⟨-, hlanes⟩ := hvector
        have hwhole : (n + 2 - 1) / portableLanes * portableLanes ≤ n + 2 - 1 :=
          Nat.div_mul_le_self _ _
        have hmost : n + 2 - 1 < (n + 2 - 1) / portableLanes * portableLanes + portableLanes :=
          Nat.lt_div_mul_add (by decide)
        have hinside : 0 + (n + 2 - 1) / portableLanes * portableLanes < n + 2 := by omega
        obtain ⟨v, hloop, hv⟩ := portableCompareVectors_spec h hinside false
        have hdone : ∀ w, (w = true ↔ Unordered (units 2 (n + 2) (buf.drop p)) 0 (n + 2 - 1)) →
            Parsed.value (!w) = .value (strictlyAscending (units 2 (n + 2) (buf.drop p))) := by
          intro w hw
          refine congrArg Parsed.value (Bool.eq_iff_iff.2 ?_)
          rw [strictlyAscending_iff_not_unordered, length_units, ← hw, Bool.not_eq_true',
            Bool.not_eq_true]
        rw [Nat.zero_add, Bool.false_eq_true, false_or] at hv
        rw [hloop, Parsed.value_bind]
        split
        · obtain ⟨w, hcompare, hw⟩ :=
            portableCompare_spec (i := n + 2 - 1 - portableLanes) h (by omega) v
          rw [hv, Nat.sub_add_cancel hlanes,
            Unordered.append (Nat.zero_le _) (by omega) hwhole] at hw
          rw [hcompare, Parsed.value_bind]
          exact hdone w hw
        · rename_i hexact
          rw [not_not.1 hexact] at hv
          exact hdone v hv
      · rw [portableAscendingFrom_eq 0 false (by omega)]
        simp

end Vectors

variable (avx2 : Bool)

/-! ## Runs -/

/-- The checks of the run loop, from a previous end on. -/
def runsFrom : Int → List (Nat × Nat) → Prop
  | _, [] => True
  | previousEnd, r :: rs =>
      r.1 + r.2 ≤ 0xFFFF ∧ previousEnd < (r.1 : Int) ∧ runsFrom (r.1 + r.2 : Nat) rs

theorem runsFrom_iff {previousEnd : Int} {rs : List (Nat × Nat)} :
    runsFrom previousEnd rs ↔ WireRunsOrdered rs ∧ ∀ r ∈ rs, previousEnd < (r.1 : Int) := by
  induction rs generalizing previousEnd with
  | nil => exact ⟨fun _ ↦ ⟨⟨by simp, List.Pairwise.nil⟩, by simp⟩, fun _ ↦ trivial⟩
  | cons r rs ih =>
      rw [runsFrom, ih]
      constructor
      · rintro ⟨hle, hlt, ho, hafter⟩
        refine ⟨⟨?_, List.pairwise_cons.mpr ⟨fun s hs ↦ ?_, ho.ascending⟩⟩, ?_⟩
        · simpa using ⟨hle, fun a b hab ↦ ho.bounded (a, b) hab⟩
        · exact_mod_cast hafter s hs
        · intro s hs
          rcases List.mem_cons.mp hs with rfl | hs
          · exact hlt
          · have := hafter s hs
            omega
      · rintro ⟨ho, hall⟩
        have hr := ho.bounded r List.mem_cons_self
        obtain ⟨hap, hrest⟩ := List.pairwise_cons.mp ho.ascending
        exact ⟨hr, hall r List.mem_cons_self,
          ⟨fun s hs ↦ ho.bounded s (List.mem_cons_of_mem r hs), hrest⟩,
          fun s hs ↦ by exact_mod_cast hap s hs⟩

theorem wireRuns_take (n m : Nat) (bs : List UInt8) (h : n * 4 ≤ m) :
    wireRuns n (bs.take m) = wireRuns n bs := by
  induction n generalizing m bs with
  | zero => rfl
  | succ n ih =>
      rw [wireRuns, wireRuns, List.drop_take, List.drop_take, List.take_take, List.take_take,
        Nat.min_eq_left (by omega), Nat.min_eq_left (by omega), ih _ _ (by omega)]

/-- The values the stored runs hold between them. -/
def wireRunTotal (rs : List (Nat × Nat)) : Nat := (rs.map fun r ↦ r.2 + 1).sum

theorem portableStoreRun_eq {previousEnd : Int} {first runEnd length : Nat} {dst : List Run}
    (hend : runEnd = first + length) (hdst : ∀ d ∈ dst.head?, (d.last : Int) = previousEnd) :
    portableStoreRun previousEnd first runEnd dst = coalesceRun dst (first, length) := by
  subst hend
  cases dst with
  | nil => rfl
  | cons d ds =>
      have hd : (d.last : Int) = previousEnd := hdst d rfl
      have hadj : (first : Int) = previousEnd + 1 ↔ first = d.last + 1 := by omega
      simp only [portableStoreRun, coalesceRun, hadj]

theorem coalesceRun_head (dst : List Run) (r : Nat × Nat) :
    ∀ d ∈ (coalesceRun dst r).head?, d.last = r.1 + r.2 := by
  cases dst with
  | nil => simp [coalesceRun]
  | cons d ds =>
      rw [coalesceRun]
      split <;> simp

theorem portableReadRuns_eq {buf : List UInt8} {n p : Nat} (h : p + n * 4 ≤ buf.length)
    (covered : Nat) (previousEnd : Int) (dst : List Run)
    (hdst : ∀ d ∈ dst.head?, (d.last : Int) = previousEnd) :
    (runsFrom previousEnd (wireRuns n (buf.drop p)) →
      portableReadRuns buf n p covered previousEnd dst =
        .value (p + n * 4, covered + wireRunTotal (wireRuns n (buf.drop p)),
          ((wireRuns n (buf.drop p)).foldl coalesceRun dst).reverse)) ∧
    (¬ runsFrom previousEnd (wireRuns n (buf.drop p)) →
      portableReadRuns buf n p covered previousEnd dst = .refused) := by
  induction n generalizing p covered previousEnd dst with
  | zero => simp [portableReadRuns, wireRuns, runsFrom, wireRunTotal]
  | succ n ih =>
      set first := leValue ((buf.drop p).take 2) with hfirst
      set length := leValue ((buf.drop (p + 2)).take 2) with hlength
      have hcons : wireRuns (n + 1) (buf.drop p) =
          (first, length) :: wireRuns n (buf.drop (p + 4)) := by
        rw [wireRuns, List.drop_drop, List.drop_drop, ← hfirst, ← hlength]
      have hread : portableReadRuns buf (n + 1) p covered previousEnd dst =
          if first + length > 0xFFFF ∨ (first : Int) ≤ previousEnd then .refused
          else portableReadRuns buf n (p + 4) (covered + (first + length - first + 1))
            (first + length : Nat) (coalesceRun dst (first, length)) := by
        rw [portableReadRuns, getLE_of_le (by omega), Parsed.value_bind, getLE_of_le (by omega),
          Parsed.value_bind, ← hfirst, ← hlength, ← portableStoreRun_eq rfl hdst]
      have hpos : p + (n + 1) * 4 = p + 4 + n * 4 := by ring
      have hcov : ∀ rs, covered + wireRunTotal ((first, length) :: rs) =
          covered + (first + length - first + 1) + wireRunTotal rs := fun rs ↦ by
        simp only [wireRunTotal, List.map_cons, List.sum_cons]
        omega
      rw [hcons, hread, runsFrom, hpos, hcov, List.foldl_cons]
      by_cases hbad : first + length > 0xFFFF ∨ (first : Int) ≤ previousEnd
      · rw [if_pos hbad]
        exact ⟨fun hok ↦ by omega, fun _ ↦ rfl⟩
      · rw [if_neg hbad]
        have hnext := ih (p := p + 4) (by omega) (covered + (first + length - first + 1))
          (first + length : Nat) (coalesceRun dst (first, length))
          fun d hd ↦ by exact_mod_cast coalesceRun_head dst (first, length) d hd
        exact ⟨fun hok ↦ hnext.1 hok.2.2, fun hno ↦ hnext.2 fun hok ↦
          hno ⟨by omega, by omega, hok⟩⟩

theorem wireRunTotal_eq_length (rs : List (Nat × Nat)) :
    wireRunTotal rs = (WireContainer.run rs).values.length := by
  simp [wireRunTotal, WireContainer.values, List.length_flatMap]

theorem length_wireRuns (n : Nat) (bs : List UInt8) : (wireRuns n bs).length = n := by
  induction n generalizing bs with
  | zero => rfl
  | succ n ih => simp [wireRuns, ih]

/-! ## Containers -/

/-- A container is legal under a header that says `cardinality`. -/
def LegalUnder (cardinality : Nat) (c : WireContainer) : Prop :=
  c.WellFormed ∧ c.values.length = cardinality

theorem readsAs_run {buf : List UInt8} {p : Nat} (hp : p ≤ buf.length) (cardinality : Nat) :
    ReadsAs buf p (LegalUnder cardinality) (WireContainer.toHandle cardinality)
      (if buf.length - p < 2 then .refused
        else do
          let runCount ← getLE 2 buf p
          let p := p + 2
          if runCount = 0 ∨ buf.length - p < runCount * 4 then .refused
          else do
            let (p, covered, runs) ← portableReadRuns buf runCount p 0 (-1) []
            if covered ≠ cardinality then .refused
            else return (p, ContainerHandle.makeRunFrom runs cardinality))
      ((takeBytes 2 (buf.drop p)).bind fun (n, bs) ↦
        (takeBytes (leValue n * 4) bs).map fun (payload, bs) ↦
          (.run (wireRuns (leValue n) payload), bs)) := by
  rw [takeBytes_drop]
  by_cases h2 : buf.length - p < 2
  · rw [if_pos h2, if_neg (by omega)]
    rfl
  · rw [if_neg h2, if_pos (by omega), getLE_of_le (by omega), Parsed.value_bind, Option.bind_some]
    dsimp only
    rw [takeBytes_drop]
    set n := leValue ((buf.drop p).take 2) with hn
    by_cases hroom : n * 4 ≤ buf.length - (p + 2)
    · rw [if_pos hroom, Option.map_some, wireRuns_take _ _ _ le_rfl]
      refine ⟨p + 2 + n * 4, by omega, by omega, rfl, ?_, ?_⟩
      · rintro ⟨⟨hne, hord⟩, hlen⟩
        have hpos : n ≠ 0 := fun h0 ↦ hne (by rw [h0]; rfl)
        have hread := (portableReadRuns_eq (show p + 2 + n * 4 ≤ buf.length by omega) 0 (-1) []
          (by simp)).1 (runsFrom_iff.mpr ⟨hord, fun r _ ↦ by omega⟩)
        rw [← wireRunTotal_eq_length] at hlen
        simp only [hread, Parsed.value_bind]
        rw [if_neg (by omega), if_neg (by omega)]
        rfl
      · intro hno
        by_cases h0 : n = 0
        · simp [h0]
        · rw [if_neg (by omega)]
          have hread := portableReadRuns_eq (show p + 2 + n * 4 ≤ buf.length by omega) 0 (-1) []
            (by simp)
          by_cases hord : runsFrom (-1) (wireRuns n (buf.drop (p + 2)))
          · rw [hread.1 hord, Parsed.value_bind]
            have hne : wireRuns n (buf.drop (p + 2)) ≠ [] := fun hnil ↦ h0 (by
              rw [← length_wireRuns n (buf.drop (p + 2)), hnil]
              rfl)
            dsimp only
            rw [if_pos]
            intro hcov
            refine hno ⟨⟨hne, (runsFrom_iff.mp hord).1⟩, ?_⟩
            rw [← wireRunTotal_eq_length]
            omega
          · rw [hread.2 hord, Parsed.refused_bind]
    · rw [if_neg hroom, if_pos (by omega)]
      rfl

theorem readsAs_bitset {buf : List UInt8} {p : Nat} (hp : p ≤ buf.length) (cardinality : Nat) :
    ReadsAs buf p (LegalUnder cardinality) (WireContainer.toHandle cardinality)
      (if buf.length - p < portableBitsetBytes then .refused
        else do
          let bytes ← bytesAt buf p portableBitsetBytes
          let words := wordsOfBytes bytes
          if words.count ≠ cardinality then .refused
          else return (p + portableBitsetBytes, ContainerHandle.makeBitsetFrom words cardinality))
      ((takeBytes portableBitsetBytes (buf.drop p)).map fun (payload, bs) ↦
        (.bitset (wordsOfBytes payload), bs)) := by
  rw [takeBytes_drop]
  by_cases hroom : buf.length - p < portableBitsetBytes
  · rw [if_pos hroom, if_neg (by omega)]
    rfl
  · have hpos : 0 < portableBitsetBytes := by decide
    rw [if_neg hroom, if_pos (by omega), bytesAt_of_le (by omega), Parsed.value_bind,
      Option.map_some]
    refine ⟨p + portableBitsetBytes, by omega, by omega, rfl, ?_, ?_⟩
    · rintro ⟨-, hlen⟩
      rw [WireContainer.values, ← Words.count_eq_length_values] at hlen
      simp only [hlen, ne_eq, not_true_eq_false, if_false]
      rfl
    · intro hno
      dsimp only
      rw [if_pos]
      intro hcount
      exact hno ⟨trivial, by rw [WireContainer.values, ← Words.count_eq_length_values, hcount]⟩

theorem readsAs_array {buf : List UInt8} {p : Nat} (hp : p ≤ buf.length) (cardinality : Nat) :
    ReadsAs buf p (LegalUnder cardinality) (WireContainer.toHandle cardinality)
      (if buf.length - p < cardinality * 2 then .refused
        else do
          let ordered ← portableStrictlyAscending avx2 buf p cardinality
          if ¬ ordered then .refused
          else do
            let bytes ← bytesAt buf p (cardinality * 2)
            return (p + cardinality * 2, ContainerHandle.syncHeader (units 2 cardinality bytes)))
      ((takeBytes (cardinality * 2) (buf.drop p)).map fun (payload, bs) ↦
        (.array (units 2 cardinality payload), bs)) := by
  rw [takeBytes_drop]
  by_cases hroom : buf.length - p < cardinality * 2
  · rw [if_pos hroom, if_neg (by omega)]
    rfl
  · rw [if_neg hroom, if_pos (by omega), portableStrictlyAscending_eq (by omega),
      Parsed.value_bind, Option.map_some, ← units_take (m := cardinality * 2) (by omega)]
    refine ⟨p + cardinality * 2, by omega, by omega, rfl, ?_, ?_⟩
    · rintro ⟨hasc, -⟩
      rw [if_neg (by simpa using strictlyAscending_of_pairwise hasc), bytesAt_of_le (by omega)]
      rfl
    · intro hno
      rw [if_pos]
      intro hasc
      exact hno ⟨strictlyAscending_iff.mp hasc, length_units _ _ _⟩

theorem portableReadContainer_readsAs {buf : List UInt8} {p : Nat} (hp : p ≤ buf.length)
    (isRun : Bool) (cardinality : Nat) :
    ReadsAs buf p (LegalUnder cardinality) (WireContainer.toHandle cardinality)
      (portableReadContainer avx2 buf isRun cardinality p)
      (decodeContainer isRun cardinality (buf.drop p)) := by
  rw [decodeContainer, portableReadContainer]
  cases isRun with
  | true => exact readsAs_run hp cardinality
  | false =>
      simp only [Bool.false_eq_true, if_false]
      by_cases hbig : cardinality > portableArrayMaxCardinality
      · rw [if_pos hbig, if_pos hbig]
        exact readsAs_bitset hp cardinality
      · rw [if_neg hbig, if_neg hbig]
        exact readsAs_array avx2 hp cardinality

/-! ## Chunks -/

/-- The checks of the container loop, from a previous key on. -/
def chunksFrom : Int → List WireChunk → Prop
  | _, [] => True
  | previousKey, c :: cs =>
      previousKey < (c.key : Int) ∧ LegalUnder c.cardinality c.container ∧ chunksFrom c.key cs

theorem chunksFrom_iff {previousKey : Int} {cs : List WireChunk} :
    chunksFrom previousKey cs ↔ (∀ c ∈ cs, previousKey < (c.key : Int)) ∧
      cs.Pairwise (fun c d ↦ c.key < d.key) ∧ ∀ c ∈ cs, c.WellFormed := by
  induction cs generalizing previousKey with
  | nil => simp [chunksFrom]
  | cons c cs ih =>
      rw [chunksFrom, ih]
      constructor
      · rintro ⟨hlt, hc, hafter, hasc, hall⟩
        refine ⟨fun d hd ↦ ?_,
          List.pairwise_cons.mpr ⟨fun d hd ↦ by exact_mod_cast hafter d hd, hasc⟩,
          fun d hd ↦ ?_⟩
        · rcases List.mem_cons.mp hd with rfl | hd
          · exact hlt
          · have := hafter d hd
            omega
        · rcases List.mem_cons.mp hd with rfl | hd
          · exact ⟨hc.1, hc.2⟩
          · exact hall d hd
      · rintro ⟨hall, hasc, hwf⟩
        obtain ⟨hap, hasc⟩ := List.pairwise_cons.mp hasc
        have hc := hwf c List.mem_cons_self
        exact ⟨hall c List.mem_cons_self, ⟨hc.container, hc.cardinality⟩,
          fun d hd ↦ by exact_mod_cast hap d hd, hasc, fun d hd ↦ hwf d (List.mem_cons_of_mem c hd)⟩

/-- The table under construction with the chunks of a bucket added. -/
def PortableResult.addChunks (result : PortableResult) (high : Nat) (cs : List WireChunk) :
    PortableResult where
  chunks := (cs.map (WireChunk.toChunk high)).reverse ++ result.chunks
  total := result.total + (cs.map WireChunk.cardinality).sum

theorem shiftLeft_or_key (high : Nat) {key : Nat} (h : key < 65536) :
    (high <<< 16) ||| key = high * 65536 + key := by
  have h16 : key < 2 ^ 16 := h
  rw [Nat.shiftLeft_eq, mul_comm, ← Nat.two_pow_add_eq_or_of_lt h16, mul_comm]

/-- The flag byte of container `k`, seen from the flag bytes cut off beforehand. -/
theorem portableIsRun_eq {buf : List UInt8} {p n k : Nat} (hk : k / 8 < n)
    (hp : p + n ≤ buf.length) :
    portableIsRun buf (some p) k =
      .value ((leValue (((((buf.drop p).take n)).drop (k / 8)).take 1)).testBit (k % 8)) := by
  rw [portableIsRun, getLE_of_le (by omega), take_drop_take_drop buf p (by omega)]
  rfl

/-- Where the flag bytes lie, if there are any, and what was cut off for them. -/
structure FlagsAt (buf : List UInt8) (count : Nat) (runFlags : Option Nat)
    (flags : Option (List UInt8)) : Prop where
  isRun : ∀ k < count, portableIsRun buf runFlags k =
    .value (flags.elim false fun flags ↦
      (leValue ((flags.drop (k / 8)).take 1)).testBit (k % 8))

theorem portableReadChunks_readsAs {buf : List UInt8} {count descriptive : Nat}
    {runFlags : Option Nat} {flags : Option (List UInt8)}
    (hflags : FlagsAt buf count runFlags flags)
    (hdesc : descriptive + count * 4 ≤ buf.length) (high : Nat) {remaining k p : Nat}
    (hk : k + remaining = count) (hp : p ≤ buf.length) (previousKey : Int)
    (result : PortableResult) :
    ReadsAs buf p (chunksFrom previousKey) (result.addChunks high)
      (portableReadChunks avx2 buf runFlags descriptive (high <<< 16) remaining k p
        previousKey result)
      (decodeChunks flags ((buf.drop descriptive).take (count * 4)) remaining k (buf.drop p)) := by
  induction remaining generalizing k p previousKey result with
  | zero =>
      refine ⟨p, le_rfl, hp, rfl, fun _ ↦ ?_, fun hno ↦ absurd trivial hno⟩
      rw [portableReadChunks, PortableResult.addChunks]
      rfl
  | succ remaining ih =>
      rw [decodeChunks, take_drop_take_drop buf _ (by omega), take_drop_take_drop buf _ (by omega)]
      rw [portableReadChunks, getLE_of_le (by omega), Parsed.value_bind, getLE_of_le (by omega),
        Parsed.value_bind, ← Nat.add_assoc descriptive (4 * k) 2, hflags.isRun k (by omega),
        Parsed.value_bind]
      set key := leValue ((buf.drop (descriptive + 4 * k)).take 2) with hkey
      set cardinality := leValue ((buf.drop (descriptive + 4 * k + 2)).take 2) + 1
      set isRun := flags.elim false fun flags ↦
        (leValue ((flags.drop (k / 8)).take 1)).testBit (k % 8)
      have hkeylt : key < 65536 := leValue_take_lt 2 _
      have hcont := portableReadContainer_readsAs avx2 hp isRun cardinality
      dsimp only
      cases hdec : decodeContainer isRun cardinality (buf.drop p) with
      | none =>
          rw [hdec] at hcont
          rw [show portableReadContainer avx2 buf isRun cardinality p = .refused from hcont,
            Parsed.refused_bind, ite_self]
          rfl
      | some cut =>
          obtain ⟨container, rest⟩ := cut
          rw [hdec] at hcont
          obtain ⟨p₁, hle, hlen, rfl, hok, hno⟩ := hcont
          rw [Option.bind_some]
          dsimp only
          -- the rest of the loop, when this container is built
          set chunk : WireChunk := ⟨key, cardinality, container⟩ with hchunk
          have hnext :=
            ih (k := k + 1) (p := p₁) (by omega) hlen key (result.addChunks high [chunk])
          have hstep : LegalUnder cardinality container → previousKey < (key : Int) →
              (if (key : Int) ≤ previousKey then Parsed.refused
                else portableReadContainer avx2 buf isRun cardinality p >>= fun next ↦
                  portableReadChunks avx2 buf runFlags descriptive (high <<< 16) remaining
                    (k + 1) next.1
                    key
                    { chunks := ⟨(high <<< 16) ||| key, next.2⟩ :: result.chunks
                      total := result.total + cardinality }) =
              portableReadChunks avx2 buf runFlags descriptive (high <<< 16) remaining
                (k + 1) p₁ key
                (result.addChunks high [chunk]) := by
            intro hlegal hlt
            rw [if_neg (by omega), hok hlegal, Parsed.value_bind, shiftLeft_or_key high hkeylt]
            rfl
          have hrefuse : ¬ (previousKey < (key : Int) ∧ LegalUnder cardinality container) →
              (if (key : Int) ≤ previousKey then Parsed.refused
                else portableReadContainer avx2 buf isRun cardinality p >>= fun next ↦
                  portableReadChunks avx2 buf runFlags descriptive (high <<< 16) remaining
                    (k + 1) next.1
                    key
                    { chunks := ⟨(high <<< 16) ||| key, next.2⟩ :: result.chunks
                      total := result.total + cardinality }) = .refused := by
            intro hbad
            by_cases hle : (key : Int) ≤ previousKey
            · rw [if_pos hle]
            · rw [if_neg hle, hno fun hlegal ↦ hbad ⟨by omega, hlegal⟩, Parsed.refused_bind]
          cases hrest : decodeChunks flags ((buf.drop descriptive).take (count * 4)) remaining
              (k + 1) (buf.drop p₁) with
          | none =>
              rw [hrest] at hnext
              by_cases hgood : previousKey < (key : Int) ∧ LegalUnder cardinality container
              · exact (hstep hgood.2 hgood.1).trans hnext
              · exact hrefuse hgood
          | some cut =>
              obtain ⟨chunks, rest⟩ := cut
              rw [hrest] at hnext
              obtain ⟨p₂, hle₂, hlen₂, rfl, hok₂, hno₂⟩ := hnext
              refine ⟨p₂, hle.trans hle₂, hlen₂, rfl, ?_, ?_⟩
              · rintro ⟨hlt, hlegal, hrest⟩
                refine (hstep hlegal hlt).trans ((hok₂ hrest).trans ?_)
                congr 2
                simp [PortableResult.addChunks, Nat.add_assoc]
              · intro hbad
                by_cases hgood : previousKey < (key : Int) ∧ LegalUnder cardinality container
                · exact (hstep hgood.2 hgood.1).trans
                    (hno₂ fun hrest ↦ hbad ⟨hgood.1, hgood.2, hrest⟩)
                · exact hrefuse hgood

/-! ## One 32-bit bitmap -/

theorem portableReadCookie_readsAs {buf : List UInt8} {p : Nat} (hp : p ≤ buf.length) :
    match decodeCookie (buf.drop p) with
    | none => portableReadCookie buf p = .refused
    | some (hasRun, count, rest) => ∃ p', p + 4 ≤ p' ∧ p' ≤ buf.length ∧ rest = buf.drop p' ∧
        (hasRun = false → p + 8 ≤ p') ∧ (hasRun = true → 0 < count) ∧ count ≤ 65536 ∧
        portableReadCookie buf p = .value (hasRun, count, p') := by
  rw [decodeCookie, portableReadCookie, takeBytes_drop]
  dsimp only
  by_cases h4 : buf.length - p < 4
  · rw [if_pos h4, if_neg (by omega)]
    rfl
  · rw [if_neg h4, if_pos (by omega), getLE_of_le (by omega), Parsed.value_bind, Option.bind_some]
    dsimp only
    set cookie := leValue ((buf.drop p).take 4)
    have hcookie : cookie < 65536 * 65536 := leValue_take_lt 4 _
    by_cases hrun : cookie % 65536 = portableCookieWithRun
    · rw [if_pos hrun, if_pos hrun]
      exact ⟨p + 4, le_rfl, by omega, rfl, nofun, fun _ ↦ Nat.succ_pos _, by omega, rfl⟩
    · rw [if_neg hrun, if_neg hrun]
      by_cases hno : cookie = portableCookieNoRun
      · rw [if_pos hno, if_pos hno, takeBytes_drop]
        by_cases h8 : buf.length - (p + 4) < 4
        · rw [if_pos h8, if_neg (by omega)]
          rfl
        · rw [if_neg h8, if_pos (by omega), getLE_of_le (by omega), Parsed.value_bind,
            Option.bind_some]
          dsimp only
          by_cases hcount : leValue ((buf.drop (p + 4)).take 4) > 65536
          · rw [if_pos hcount, if_pos hcount]
          · rw [if_neg hcount, if_neg hcount]
            exact ⟨p + 4 + 4, by omega, by omega, rfl, fun _ ↦ by omega, nofun, by omega, rfl⟩
      · rw [if_neg hno, if_neg hno]

theorem flagsAt_some {buf : List UInt8} {count p : Nat}
    (hp : p + (count + 7) / 8 ≤ buf.length) :
    FlagsAt buf count (some p) (some ((buf.drop p).take ((count + 7) / 8))) :=
  ⟨fun _ hk ↦ portableIsRun_eq (by omega) hp⟩

theorem flagsAt_none (buf : List UInt8) (count : Nat) : FlagsAt buf count none none :=
  ⟨fun _ _ ↦ rfl⟩

/-- One 32-bit bitmap; what it consumes is never less than a minimal header. -/
theorem portableRead32_readsAs {buf : List UInt8} {p : Nat} (hp : p ≤ buf.length) (high : Nat)
    (result : PortableResult) :
    ReadsAs buf p (chunksFrom (-1)) (result.addChunks high)
      (portableRead32 avx2 buf p (high <<< 16) result) (decode32 (buf.drop p)) := by
  rw [decode32, portableRead32]
  have hcookie := portableReadCookie_readsAs hp
  cases hdec : decodeCookie (buf.drop p) with
  | none =>
      rw [hdec] at hcookie
      dsimp only at hcookie
      rw [hcookie]
      rfl
  | some cut =>
      obtain ⟨hasRun, count, rest⟩ := cut
      rw [hdec] at hcookie
      obtain ⟨p₀, hle₀, hlen₀, rfl, -, hpos, -, hread⟩ := hcookie
      rw [hread, Parsed.value_bind, Option.bind_some]
      dsimp only
      -- behind the flags, the descriptive header and the offsets
      have hbody : ∀ (runFlags : Option Nat) (flags : Option (List UInt8)) (p₁ : Nat),
          FlagsAt buf count runFlags flags → p ≤ p₁ → p₁ ≤ buf.length →
          ReadsAs buf p (chunksFrom (-1)) (result.addChunks high)
            (if buf.length - p₁ < count * 4 then .refused
              else
                if (!hasRun || decide (count ≥ portableNoOffsetThreshold)) = true ∧
                    buf.length - (p₁ + count * 4) < count * 4 then .refused
                else portableReadChunks avx2 buf runFlags p₁ (high <<< 16) count 0
                  (if (!hasRun || decide (count ≥ portableNoOffsetThreshold)) = true then
                    p₁ + count * 4 + count * 4 else p₁ + count * 4) (-1) result)
            ((takeBytes (count * 4) (buf.drop p₁)).bind fun (descriptive, bs) ↦
              (takeBytes (if (!hasRun || decide (count ≥ portableNoOffsetThreshold)) = true then
                count * 4 else 0) bs).bind fun (_, bs) ↦
                decodeChunks flags descriptive count 0 bs) := by
        intro runFlags flags p₁ hflags hle₁ hlen₁
        rw [takeBytes_drop]
        by_cases hroom : buf.length - p₁ < count * 4
        · rw [if_pos hroom, if_neg (by omega)]
          rfl
        · have hfit : count * 4 ≤ buf.length - p₁ := by omega
          rw [if_neg hroom, if_pos hfit, Option.bind_some]
          dsimp only
          rw [takeBytes_drop]
          by_cases hoff : (!hasRun || decide (count ≥ portableNoOffsetThreshold)) = true
          · simp only [hoff, true_and, if_true]
            by_cases hroom₂ : buf.length - (p₁ + count * 4) < count * 4
            · rw [if_pos hroom₂, if_neg (by omega)]
              rfl
            · rw [if_neg hroom₂, if_pos (by omega), Option.bind_some]
              exact (portableReadChunks_readsAs avx2 hflags (by omega) high (k := 0) (by omega)
                (by omega) (-1) result).mono (by omega)
          · simp only [hoff, false_and, if_false, Bool.false_eq_true]
            rw [if_pos (Nat.zero_le _), Option.bind_some]
            exact (portableReadChunks_readsAs avx2 hflags (by omega) high (k := 0) (by omega)
              (by omega) (-1) result).mono (by omega)
      rw [takeBytes_drop]
      cases hasRun with
      | true =>
          simp only [true_and, if_true]
          by_cases hroom : buf.length - p₀ < (count + 7) / 8
          · rw [if_pos hroom, if_neg (by omega)]
            rfl
          · have hfit : (count + 7) / 8 ≤ buf.length - p₀ := by omega
            rw [if_neg hroom, if_pos hfit, Option.bind_some]
            exact hbody _ _ _ (flagsAt_some (by omega)) (by omega) (by omega)
      | false =>
          simp only [Bool.false_eq_true, false_and, if_false]
          rw [if_pos (Nat.zero_le _), Option.bind_some]
          exact hbody _ _ _ (flagsAt_none buf count) (by omega) (by omega)

/-! ## Buckets -/

theorem length_of_takeBytes {n : Nat} {bs a rest : List UInt8}
    (h : takeBytes n bs = some (a, rest)) : rest.length + n = bs.length := by
  rw [takeBytes] at h
  split at h
  · cases h
    rw [List.length_drop]
    omega
  · cases h

theorem length_of_decodeContainer {isRun : Bool} {cardinality : Nat} {bs rest : List UInt8}
    {c : WireContainer} (h : decodeContainer isRun cardinality bs = some (c, rest)) :
    rest.length ≤ bs.length := by
  rw [decodeContainer] at h
  split at h
  · obtain ⟨⟨n, bs₁⟩, h₁, h⟩ := Option.bind_eq_some_iff.mp h
    obtain ⟨⟨payload, bs₂⟩, h₂, h⟩ := Option.map_eq_some_iff.mp h
    cases h
    have := length_of_takeBytes h₁
    have := length_of_takeBytes h₂
    omega
  · split at h
    all_goals
      obtain ⟨⟨payload, bs₁⟩, h₁, h⟩ := Option.map_eq_some_iff.mp h
      cases h
      have := length_of_takeBytes h₁
      omega

theorem length_of_decodeChunks {flags : Option (List UInt8)} {descriptive bs rest : List UInt8}
    {remaining k : Nat} {cs : List WireChunk}
    (h : decodeChunks flags descriptive remaining k bs = some (cs, rest)) :
    rest.length ≤ bs.length ∧ cs.length = remaining := by
  induction remaining generalizing k bs cs with
  | zero =>
      cases h
      exact ⟨le_rfl, rfl⟩
  | succ remaining ih =>
      rw [decodeChunks] at h
      obtain ⟨⟨c, bs₁⟩, h₁, h⟩ := Option.bind_eq_some_iff.mp h
      obtain ⟨⟨ds, bs₂⟩, h₂, h⟩ := Option.map_eq_some_iff.mp h
      cases h
      have := length_of_decodeContainer h₁
      have := ih h₂
      exact ⟨by omega, by simp [this.2]⟩

/-- A bitmap takes eight bytes at least, which is what makes the bucket count checkable. -/
theorem length_of_decode32 {bs rest : List UInt8} {cs : List WireChunk}
    (h : decode32 bs = some (cs, rest)) : rest.length + 8 ≤ bs.length := by
  rw [decode32] at h
  obtain ⟨⟨hasRun, count, bs₁⟩, h₁, h⟩ := Option.bind_eq_some_iff.mp h
  obtain ⟨⟨flags, bs₂⟩, h₂, h⟩ := Option.bind_eq_some_iff.mp h
  obtain ⟨⟨descriptive, bs₃⟩, h₃, h⟩ := Option.bind_eq_some_iff.mp h
  obtain ⟨⟨offsets, bs₄⟩, h₄, h⟩ := Option.bind_eq_some_iff.mp h
  have hlen₂ := length_of_takeBytes h₂
  have hlen₃ := length_of_takeBytes h₃
  have hlen₄ := length_of_takeBytes h₄
  have hlen₅ := (length_of_decodeChunks h).1
  have hcookie := portableReadCookie_readsAs (Nat.zero_le bs.length)
  rw [List.drop_zero, h₁] at hcookie
  obtain ⟨p, hle, hlen, rfl, hplain, hpos, -, -⟩ := hcookie
  rw [List.length_drop] at hlen₂
  cases hasRun with
  | true =>
      have := hpos rfl
      simp only [if_true] at hlen₂
      omega
  | false =>
      have := hplain rfl
      omega

theorem length_of_decodeBuckets {n : Nat} {bs rest : List UInt8} {buckets : List WireBucket}
    (h : decodeBuckets n bs = some (buckets, rest)) :
    rest.length + 12 * n ≤ bs.length ∧ buckets.length = n := by
  induction n generalizing bs buckets with
  | zero =>
      cases h
      exact ⟨le_rfl, rfl⟩
  | succ n ih =>
      rw [decodeBuckets] at h
      obtain ⟨⟨high, bs₁⟩, h₁, h⟩ := Option.bind_eq_some_iff.mp h
      obtain ⟨⟨chunks, bs₂⟩, h₂, h⟩ := Option.bind_eq_some_iff.mp h
      obtain ⟨⟨ds, bs₃⟩, h₃, h⟩ := Option.map_eq_some_iff.mp h
      cases h
      have := length_of_takeBytes h₁
      have := length_of_decode32 h₂
      have := ih h₃
      exact ⟨by omega, by simp [this.2]⟩

/-- The checks of the bucket loop, from a previous high half on. -/
def bucketsFrom : Int → List WireBucket → Prop
  | _, [] => True
  | previousHigh, b :: bs =>
      previousHigh < (b.high : Int) ∧ chunksFrom (-1) b.chunks ∧ bucketsFrom b.high bs

theorem bucketsFrom_iff {previousHigh : Int} {bs : List WireBucket} :
    bucketsFrom previousHigh bs ↔
      (∀ b ∈ bs, previousHigh < (b.high : Int)) ∧ WireWellFormed bs := by
  induction bs generalizing previousHigh with
  | nil => exact ⟨fun _ ↦ ⟨by simp, ⟨List.Pairwise.nil, by simp, by simp⟩⟩, fun _ ↦ trivial⟩
  | cons b bs ih =>
      rw [bucketsFrom, ih, chunksFrom_iff]
      constructor
      · rintro ⟨hlt, ⟨-, hkeys, hwf⟩, hafter, hrest⟩
        refine ⟨fun c hc ↦ ?_, ⟨List.pairwise_cons.mpr ⟨fun c hc ↦ by exact_mod_cast hafter c hc,
          hrest.highs⟩, ?_, ?_⟩⟩
        · rcases List.mem_cons.mp hc with rfl | hc
          · exact hlt
          · have := hafter c hc
            omega
        · exact List.forall_mem_cons.mpr ⟨hkeys, hrest.keys⟩
        · exact List.forall_mem_cons.mpr ⟨hwf, hrest.chunks⟩
      · rintro ⟨hall, hwf⟩
        obtain ⟨hap, hhighs⟩ := List.pairwise_cons.mp hwf.highs
        obtain ⟨hkey, hkeys⟩ := List.forall_mem_cons.mp hwf.keys
        obtain ⟨hchunk, hchunks⟩ := List.forall_mem_cons.mp hwf.chunks
        exact ⟨hall b List.mem_cons_self, ⟨fun c _ ↦ by omega, hkey, hchunk⟩,
          fun c hc ↦ by exact_mod_cast hap c hc, hhighs, hkeys, hchunks⟩

def PortableResult.addBuckets (result : PortableResult) : List WireBucket → PortableResult
  | [] => result
  | b :: bs => (result.addChunks b.high b.chunks).addBuckets bs

theorem portableReadBuckets_eq {buf : List UInt8} {n p : Nat} (hp : p ≤ buf.length)
    (previousHigh : Int) (result : PortableResult) :
    match decodeBuckets n (buf.drop p) with
    | none => portableReadBuckets avx2 buf n p previousHigh result = .refused
    | some (buckets, _) =>
        (bucketsFrom previousHigh buckets →
          portableReadBuckets avx2 buf n p previousHigh result =
            .value (result.addBuckets buckets)) ∧
        (¬ bucketsFrom previousHigh buckets →
          portableReadBuckets avx2 buf n p previousHigh result = .refused) := by
  induction n generalizing p previousHigh result with
  | zero => exact ⟨fun _ ↦ rfl, fun hno ↦ absurd trivial hno⟩
  | succ n ih =>
      rw [decodeBuckets, takeBytes_drop, portableReadBuckets]
      by_cases h4 : buf.length - p < 4
      · rw [if_pos h4, if_neg (by omega)]
        rfl
      · have hfit : 4 ≤ buf.length - p := by omega
        rw [if_neg h4, if_pos hfit, getLE_of_le (by omega), Parsed.value_bind, Option.bind_some]
        dsimp only
        set high := leValue ((buf.drop p).take 4)
        have hread := portableRead32_readsAs avx2 (show p + 4 ≤ buf.length by omega) high result
        cases hdec : decode32 (buf.drop (p + 4)) with
        | none =>
            rw [hdec] at hread
            rw [show portableRead32 avx2 buf (p + 4) (high <<< 16) result = .refused from hread,
              Parsed.refused_bind, ite_self]
            rfl
        | some cut =>
            obtain ⟨chunks, rest⟩ := cut
            rw [hdec] at hread
            obtain ⟨p₁, hle, hlen, rfl, hok, hno⟩ := hread
            rw [Option.bind_some]
            dsimp only
            have hnext := ih (p := p₁) hlen high (result.addChunks high chunks)
            by_cases hgood : previousHigh < (high : Int) ∧ chunksFrom (-1) chunks
            · rw [if_neg (by omega), hok hgood.2, Parsed.value_bind]
              dsimp only
              cases hrest : decodeBuckets n (buf.drop p₁) with
              | none =>
                  rw [hrest] at hnext
                  exact hnext
              | some cut =>
                  rw [hrest] at hnext
                  exact ⟨fun h ↦ hnext.1 h.2.2, fun h ↦ hnext.2 fun hb ↦ h ⟨hgood.1, hgood.2, hb⟩⟩
            · have hrefuse : (if (high : Int) ≤ previousHigh then Parsed.refused
                  else portableRead32 avx2 buf (p + 4) (high <<< 16) result >>= fun next ↦
                    portableReadBuckets avx2 buf n next.1 high next.2) = .refused := by
                by_cases hle : (high : Int) ≤ previousHigh
                · rw [if_pos hle]
                · rw [if_neg hle, hno fun h ↦ hgood ⟨by omega, h⟩, Parsed.refused_bind]
              cases decodeBuckets n (buf.drop p₁) with
              | none => exact hrefuse
              | some cut => exact ⟨fun h ↦ absurd ⟨h.1, h.2.1⟩ hgood, fun _ ↦ hrefuse⟩

/-! ## Whole images -/

theorem portableReadImage_eq {K : KeyType} (hK : 32 ≤ K.digits) (buf : List UInt8) :
    match decodePortable K buf with
    | none => portableReadImage avx2 K buf = .refused
    | some buckets =>
        (WireWellFormed buckets →
          portableReadImage avx2 K buf = .value (PortableResult.addBuckets {} buckets)) ∧
        (¬ WireWellFormed buckets → portableReadImage avx2 K buf = .refused) := by
  have hiff : ∀ buckets, bucketsFrom (-1) buckets ↔ WireWellFormed buckets := fun buckets ↦ by
    rw [bucketsFrom_iff]
    exact ⟨And.right, fun h ↦ ⟨fun b _ ↦ by omega, h⟩⟩
  cases K with
  | u16 => simp [KeyType.digits] at hK
  | u32 =>
      unfold decodePortable portableReadImage
      dsimp only
      have hread := portableRead32_readsAs avx2 (Nat.zero_le buf.length) 0 {}
      rw [List.drop_zero, Nat.zero_shiftLeft] at hread
      cases hdec : decode32 buf with
      | none =>
          rw [hdec] at hread
          rw [show portableRead32 avx2 buf 0 0 {} = .refused from hread]
          rfl
      | some cut =>
          rw [hdec] at hread
          obtain ⟨p₁, -, -, -, hok, hno⟩ := hread
          have hone : WireWellFormed [⟨0, cut.1⟩] ↔ chunksFrom (-1) cut.1 := by
            rw [← hiff, bucketsFrom, bucketsFrom]
            simp
          rw [Option.map_some]
          dsimp only
          rw [hone]
          refine ⟨fun h ↦ ?_, fun h ↦ ?_⟩
          · rw [hok h, Parsed.value_bind]
            rfl
          · rw [hno h, Parsed.refused_bind]
  | u64 =>
      rw [decodePortable, portableReadImage]
      by_cases h8 : buf.length < 8
      · rw [if_pos h8, takeBytes, if_neg (by omega)]
        rfl
      · rw [if_neg h8, takeBytes, if_pos (by omega), Option.bind_some, getLE_of_le (by omega),
          Parsed.value_bind]
        dsimp only
        rw [List.drop_zero]
        set n := leValue (buf.take 8)
        have hread := portableReadBuckets_eq avx2 (n := n) (show 8 ≤ buf.length by omega) (-1) {}
        by_cases hmax : n ≤ 0xFFFFFFFF
        · rw [if_pos hmax]
          by_cases hroom : n > (buf.length - 8) / 12
          · rw [if_pos (.inr hroom)]
            cases hdec : decodeBuckets n (buf.drop 8) with
            | none => rfl
            | some cut =>
                have := (length_of_decodeBuckets hdec).1
                rw [List.length_drop] at this
                omega
          · rw [if_neg (by omega)]
            cases hdec : decodeBuckets n (buf.drop 8) with
            | none =>
                rw [hdec] at hread
                exact hread
            | some cut =>
                rw [hdec] at hread
                rw [Option.map_some]
                dsimp only
                rw [← hiff]
                exact hread
        · rw [if_neg hmax, if_pos (.inl (by omega))]

end Roaring
