import Mathlib
import Roaring.Lib.Leapfrog
import Roaring.Container.RangeQuery
import Roaring.Bitmap.Basic
import Roaring.Interop.Sources

/-!
# Queries along a source

The size of the intersection of a bitmap with an operand, whether the bitmap lies in the
operand, and whether it holds all of it, are answered by one walk over the chunks of
both.  The kernels look at one container and one piece; those for a piece of one run
are given here, and the others are parameters with what they answer.
-/

namespace Roaring

open Lib

/-! ## Bitmaps and layouts -/

def KeyType.layout (K : KeyType) : Layout := ⟨K.digits, by cases K <;> decide⟩

namespace KeyType

variable (K : KeyType)

@[simp] theorem layout_lowDomainSize : K.layout.lowDomainSize = lowDomainSize := by cases K <;> rfl

@[simp] theorem layout_chunkCount : K.layout.chunkCount = K.chunkDomainSize := by cases K <;> rfl

@[simp] theorem layout_maxKey : K.layout.maxKey = 2 ^ K.digits - 1 := rfl

theorem layout_chunkKey {x : Nat} (hx : x ≤ K.layout.maxKey) :
    K.layout.chunkKey x = chunkKey x := by
  rw [Layout.chunkKey_eq hx, layout_lowDomainSize, chunkKey]

@[simp] theorem layout_lowKey (x : Nat) : K.layout.lowKey x = lowKey x := by
  rw [Layout.lowKey, layout_lowDomainSize, lowKey]

end KeyType

/-- The keys a bitmap holds, as a set. -/
def Bitmap.keys (b : Bitmap) : Set Nat := {x | x ∈ b.values}

/-! ## Kernels -/

namespace ContainerHandle

/-- The smallest and the largest value, read off the payload. -/
def boundsOf (h : ContainerHandle) : Nat × Nat :=
  match h.payload with
  | .array values => (values.headD 0, values.getLastD 0)
  | .run runs => ((runs.head?.map Run.first).getD 0, (runs.getLast?.map Run.last).getD 0)
  | .bitset words => (words.lowest.getD 0, words.highest.getD 0)

theorem Valid.boundsOf_spec {h : ContainerHandle} (hv : h.Valid) (hne : h.values ≠ []) :
    h.boundsOf.1 ∈ h.values ∧ h.boundsOf.2 ∈ h.values ∧ ∀ v ∈ h.values, h.boundsOf.1 ≤ v ∧
      v ≤ h.boundsOf.2 := by
  have hwf := hv.payload
  rw [boundsOf]
  rw [ContainerHandle.values] at hne ⊢
  cases hp : h.payload with
  | array values =>
    rw [hp] at hwf hne
    have hne : values ≠ [] := hne
    cases hwf with
    | array hasc _ =>
      refine ⟨?_, ?_, fun v hv ↦ ⟨headD_le_of_mem hasc hv, le_getLast_of_mem hasc hv⟩⟩
      · change values.headD 0 ∈ values
        rw [List.headD_eq_head?_getD, List.head?_eq_some_head hne, Option.getD_some]
        exact List.head_mem hne
      · change values.getLastD 0 ∈ values
        rw [List.getLastD_eq_getLast?, List.getLast?_eq_some_getLast hne, Option.getD_some]
        exact List.getLast_mem hne
  | run runs =>
    rw [hp] at hwf hne
    have hne : runValues runs ≠ [] := hne
    cases hwf with
    | run hcanonical =>
      have hsome : runs ≠ [] := fun h ↦ hne (by rw [h]; rfl)
      have hasc := hcanonical.values_ascending
      have hfirst : (runs.head?.map Run.first).getD 0 = (runValues runs).head hne := by
        cases runs with
        | nil => exact absurd rfl hsome
        | cons r rs => exact (hcanonical.head_values hne).symm
      have hlast : (runs.getLast?.map Run.last).getD 0 = (runValues runs).getLast hne := by
        rcases List.eq_nil_or_concat' runs with rfl | ⟨rs, r, rfl⟩
        · exact absurd rfl hsome
        · rw [hcanonical.getLast_values hne, List.getLast?_concat, Option.map_some,
            Option.getD_some]
      change (runs.head?.map Run.first).getD 0 ∈ runValues runs ∧
        (runs.getLast?.map Run.last).getD 0 ∈ runValues runs ∧
        ∀ v ∈ runValues runs, (runs.head?.map Run.first).getD 0 ≤ v ∧
          v ≤ (runs.getLast?.map Run.last).getD 0
      rw [hfirst, hlast]
      refine ⟨List.head_mem hne, List.getLast_mem hne, fun v hv ↦ ?_⟩
      have hle := headD_le_of_mem hasc hv
      have hge := le_getLast_of_mem hasc hv
      rw [List.headD_eq_head?_getD, List.head?_eq_some_head hne, Option.getD_some] at hle
      rw [List.getLastD_eq_getLast?, List.getLast?_eq_some_getLast hne, Option.getD_some] at hge
      exact ⟨hle, hge⟩
  | bitset words =>
    rw [hp] at hne
    simp only [Payload.values] at hne ⊢
    exact Words.ends_spec hne

end ContainerHandle

variable {n : Nat}

/-- The kernels for pieces that are no single run (of `and_card`) and no runs (of `covers`). -/
structure PieceKernels (n : Nat) where
  otherCard : ContainerHandle → Piece n → Nat
  otherCovers : ContainerHandle → Piece n → Bool

def Piece.isFull (p : Piece n) : Bool := p.cardinality = lowDomainSize

/-- `|slot ∩ piece|`. -/
def andCard (K : PieceKernels n) (slot : ContainerHandle) (p : Piece n) : Nat :=
  match p.payload with
  | .run [r] => slot.countInRange r.first r.last
  | _ => K.otherCard slot p

/-- Whether every value of the piece is in the container. -/
def covers (K : PieceKernels n) (slot : ContainerHandle) (p : Piece n) : Bool :=
  if slot.cardinality < p.cardinality then false
  else match p.payload with
    | .run runs => runs.all fun r ↦ slot.coversRange r.first r.last
    | _ => K.otherCovers slot p

/-- Whether every value of the container is in the piece; the bounds decide on one run. -/
def within (K : PieceKernels n) (slot : ContainerHandle) (p : Piece n) : Bool :=
  if p.cardinality < slot.cardinality then false
  else match p.payload with
    | .run [r] => decide (r.first ≤ slot.boundsOf.1) && decide (slot.boundsOf.2 ≤ r.last)
    | _ => andCard K slot p = slot.cardinality

/-- What the kernels answer about a piece and a valid container. -/
structure PieceKernels.Answer (K : PieceKernels n) (p : Piece n) : Prop where
  card : ∀ slot, slot.Valid → andCard K slot p = (slot.values.filter (· ∈ p.values)).length
  covers : ∀ slot, slot.Valid → (covers K slot p = true ↔ ∀ v ∈ p.values, v ∈ slot.values)
  within : ∀ slot, slot.Valid → slot.values ≠ [] →
    (within K slot p = true ↔ ∀ v ∈ slot.values, v ∈ p.values)

/-- A piece of one run is answered for, whatever the other kernels do. -/
theorem answer_of_single (K : PieceKernels n) {p : Piece n} {r : Run} (hp : p.payload = .run [r])
    (hle : r.first ≤ r.last) (hcard : p.cardinality = p.values.length) : K.Answer p := by
  have hvalues : p.values = r.values := by
    rw [Piece.values, hp]
    exact List.append_nil _
  have hasc : p.values.Pairwise (· < ·) := by
    rw [hvalues]
    exact r.values_ascending
  constructor
  · intro slot hv
    have hkernel : andCard K slot p = slot.countInRange r.first r.last := by
      unfold andCard
      rw [hp]
    rw [hkernel, hv.countInRange_eq hle]
    congr 1
    apply List.filter_congr
    intro v _
    rw [hvalues]
    exact decide_eq_decide.2 Run.mem_values.symm
  · intro slot hv
    unfold covers
    rw [hp, hcard]
    split
    · rename_i hfew
      refine ⟨nofun, fun hall ↦ ?_⟩
      have hlen := length_le_of_ascending hasc hall
      rw [← hv.cardinality] at hlen
      exact absurd hlen (not_le.2 hfew)
    · change List.all [r] (fun r ↦ slot.coversRange r.first r.last) = true ↔ _
      rw [List.all_cons, List.all_nil, Bool.and_true, hv.coversRange_iff hle, hvalues]
      constructor
      · intro hall v hmem
        exact hall v (Run.mem_values.1 hmem).1 (Run.mem_values.1 hmem).2
      · intro hall v h1 h2
        exact hall v (Run.mem_values.2 ⟨h1, h2⟩)
  · intro slot hv hne
    unfold within
    rw [hp, hcard]
    split
    · rename_i hfew
      refine ⟨nofun, fun hall ↦ ?_⟩
      have hlen := length_le_of_ascending hv.values_ascending hall
      rw [← hv.cardinality] at hlen
      exact absurd hlen (not_le.2 hfew)
    · obtain ⟨hlow, hhigh, hbounds⟩ := hv.boundsOf_spec hne
      change (decide (r.first ≤ slot.boundsOf.1) && decide (slot.boundsOf.2 ≤ r.last)) = true ↔ _
      rw [Bool.and_eq_true, decide_eq_true_eq, decide_eq_true_eq, hvalues]
      constructor
      · rintro ⟨h1, h2⟩ v hmem
        exact Run.mem_values.2 ⟨h1.trans (hbounds v hmem).1, (hbounds v hmem).2.trans h2⟩
      · intro hall
        exact ⟨(Run.mem_values.1 (hall _ hlow)).1, (Run.mem_values.1 (hall _ hhigh)).2⟩

/-! ## Streams -/

section Streams

variable {σ : Type} {L : Layout} (ops : Stepper L.chunkCount σ (Piece L.wordCount))
  (K : PieceKernels L.wordCount)

/-- The walk of `leapfrog`: it visits the chunks that both sides have and whose piece is not empty.
A seek is followed by a step that takes a chunk off, so two steps a chunk are enough. -/
def leapfrog {α : Type} (visit : α → Chunk → Piece L.wordCount → α × Bool) (b : Bitmap) (s : σ)
    (acc : α) : Option α :=
  ops.leapfrog Chunk.key (fun acc c p ↦ if p.cardinality ≠ 0 then visit acc c p else (acc, true))
    (2 * b.chunks.length + 2) b.chunks s acc

def andCardinalityStream (b : Bitmap) (s : σ) : Option Nat :=
  leapfrog ops
    (fun count c p ↦ (count + if p.isFull then c.slot.cardinality else andCard K c.slot p, true)) b
    s 0

def subsetStream (b : Bitmap) (s : σ) : Option Bool :=
  ops.holdsEvery Chunk.key (fun p ↦ p.cardinality = 0) (fun c p ↦ p.isFull || within K c.slot p)
    (2 * b.chunks.length + 2) b.chunks s

/-- `superset_stream`, with the total that it adds up. -/
def supersetStream (truncated : σ → Bool) (b : Bitmap) (s : σ) : Option (Bool × Nat) :=
  ops.heldByAll Chunk.key (fun p ↦ p.cardinality = 0)
    (fun c p ↦ if p.isFull then c.slot.cardinality = lowDomainSize else covers K c.slot p)
    Piece.cardinality (fun s ↦ !truncated s) (L.chunkCount + 1) b.chunks s 0

end Streams

/-! ## What the streams answer -/

/-- A source that walks over the chunks of its operand, and whose pieces the kernels answer for. -/
structure Serves {σ : Type} {L : Layout} (ops : Stepper L.chunkCount σ (Piece L.wordCount))
    (K : PieceKernels L.wordCount) (extent members : Set Nat) (Inv : σ → Prop) : Prop where
  walks : ops.Walks (L.chunksOf extent) Inv
  inside : ∀ x ∈ members, x ∈ extent ∧ x ≤ L.maxKey
  piece : ∀ s t p c, Inv s → ops.position s = some c → ops.piece s = some (t, p) →
    p.Holds L members c ∧ (p.values ≠ [] → K.Answer p)

variable {T : KeyType} {sb : Bool} {c : Chunk} {p : Piece T.layout.wordCount} {members : Set Nat}

/-- Values of a chunk are in a piece where their keys are among the members. -/
theorem mem_piece_iff (hp : p.Holds T.layout members c.key) (hc : c.Valid T sb) {v : Nat}
    (hv : v ∈ c.slot.values) :
    v ∈ p.values ↔ compose c.key v ∈ members := by
  rw [hp.mem, KeyType.layout_lowDomainSize]
  exact and_iff_right (hc.slot.values_lt v hv)

/-- A piece with as many values as a chunk can have has them all. -/
theorem mem_of_isFull (hp : p.Holds T.layout members c.key) (hfull : p.isFull = true) {v : Nat}
    (hv : v < lowDomainSize) :
    v ∈ p.values := by
  have hcard : p.values.length = lowDomainSize := by
    rw [← hp.cardinality]
    exact of_decide_eq_true hfull
  refine mem_of_length_eq hp.ascending (fun u hu ↦ ?_) hcard hv
  have hu := ((hp.mem u).1 hu).1
  rwa [KeyType.layout_lowDomainSize] at hu

theorem values_eq_nil_of_cardinality (hp : p.Holds T.layout members c.key)
    (hzero : p.cardinality = 0) : p.values = [] := by
  rw [hp.cardinality] at hzero
  exact List.length_eq_zero_iff.1 hzero

theorem values_ne_nil_of_cardinality (hp : p.Holds T.layout members c.key)
    (hne : p.cardinality ≠ 0) : p.values ≠ [] := by
  rw [hp.cardinality] at hne
  exact fun h ↦ hne (by rw [h]; rfl)

/-- The keys of a valid chunk are keys of their type. -/
theorem Chunk.Valid.le_maxKey (hc : c.Valid T sb) {v : Nat} (hv : v ∈ c.slot.values) :
    compose c.key v ≤ T.layout.maxKey ∧ T.layout.chunkKey (compose c.key v) = c.key := by
  have hlt := hc.slot.values_lt v hv
  have hkey := hc.key_lt
  rw [← KeyType.layout_chunkCount] at hkey
  have hend := T.layout.chunk_end_le hkey
  rw [KeyType.layout_lowDomainSize, Nat.succ_mul] at hend
  have hle : compose c.key v ≤ T.layout.maxKey := by
    rw [compose]
    omega
  exact ⟨hle, by rw [KeyType.layout_chunkKey T hle, chunkKey_compose hlt]⟩

theorem Bitmap.mem_keys {b : Bitmap} {x : Nat} : x ∈ b.keys ↔ ∃ c ∈ b.chunks, ∃ v ∈ c.slot.values,
    compose c.key v = x := by
  change x ∈ b.chunks.flatMap Chunk.values ↔ _
  simp only [List.mem_flatMap, Chunk.values, List.mem_map]

theorem Bitmap.Valid.eq_of_key_eq {b : Bitmap} (hb : b.Valid T sb) {c d : Chunk} (hc : c ∈ b.chunks)
    (hd : d ∈ b.chunks) (hkey : c.key = d.key) : c = d := by
  by_contra hne
  have hpair := List.pairwise_iff_getElem.1 hb.ascending
  obtain ⟨i, hi, rfl⟩ := List.getElem_of_mem hc
  obtain ⟨j, hj, rfl⟩ := List.getElem_of_mem hd
  rcases Nat.lt_trichotomy i j with hij | rfl | hij
  · exact absurd hkey (Nat.ne_of_lt (hpair i j hi hj hij))
  · exact hne rfl
  · exact absurd hkey.symm (Nat.ne_of_lt (hpair j i hj hi hij))

/-- The keys of one chunk, and where they are in its container. -/
theorem Bitmap.Valid.mem_keys_compose {b : Bitmap} (hb : b.Valid T sb) {c v : Nat}
    (hv : v < lowDomainSize) :
    compose c v ∈ b.keys ↔ ∃ d ∈ b.chunks, d.key = c ∧ v ∈ d.slot.values := by
  rw [Bitmap.mem_keys]
  constructor
  · rintro ⟨d, hd, u, hu, heq⟩
    have hlt := (hb.chunks d hd).slot.values_lt u hu
    have hkey : chunkKey (compose d.key u) = chunkKey (compose c v) := by rw [heq]
    have hlow : lowKey (compose d.key u) = lowKey (compose c v) := by rw [heq]
    rw [chunkKey_compose hlt, chunkKey_compose hv] at hkey
    rw [lowKey_compose hlt, lowKey_compose hv] at hlow
    exact ⟨d, hd, hkey, hlow ▸ hu⟩
  · rintro ⟨d, hd, rfl, hmem⟩
    exact ⟨d, hd, v, hmem, rfl⟩

open Classical in
/-- How many keys of a set are in a chunk. -/
noncomputable def Chunk.share (members : Set Nat) (c : Chunk) : Nat :=
  (c.slot.values.filter fun v ↦ compose c.key v ∈ members).length

theorem Chunk.share_eq_zero {c : Chunk} (h : ∀ v ∈ c.slot.values, compose c.key v ∉ members) :
    c.share members = 0 := by
  classical
  rw [Chunk.share, List.length_eq_zero_iff, List.filter_eq_nil_iff]
  intro v hv
  rw [decide_eq_true_eq]
  exact h v hv

/-- The keys that a bitmap has of a set are counted chunk by chunk. -/
theorem Bitmap.Valid.ncard_keys_inter {b : Bitmap} (hb : b.Valid T sb) :
    (b.keys ∩ members).ncard = (b.chunks.map (Chunk.share members)).sum := by
  classical
  have hnodup : (b.values.filter (· ∈ members)).Nodup :=
    (hb.values_ascending.imp Nat.ne_of_lt).filter _
  have hlength : (b.keys ∩ members).ncard = (b.values.filter (· ∈ members)).length := by
    rw [← List.toFinset_card_of_nodup hnodup, ← Set.ncard_coe_finset]
    congr 1
    ext x
    simp [Bitmap.keys]
  rw [hlength, Bitmap.values, List.filter_flatMap, List.length_flatMap]
  congr 1
  apply List.map_congr_left
  intro c _
  rw [Chunk.values, List.filter_map, List.length_map, Chunk.share]
  rfl

section Serves

variable {σ : Type} {ops : Stepper T.layout.chunkCount σ (Piece T.layout.wordCount)}
  {K : PieceKernels T.layout.wordCount} {extent : Set Nat} {Inv : σ → Prop} {b : Bitmap} {s : σ}

theorem before_of_valid (hb : b.Valid T sb) (hs : Inv s)
    (hstart : ops.position s = nextFrom (T.layout.chunksOf extent) 0) :
    Stepper.Before ops Chunk.key (T.layout.chunksOf extent) Inv b.chunks s :=
  ⟨hs, hb.ascending, fun c hc ↦ by rw [KeyType.layout_chunkCount]; exact (hb.chunks c hc).key_lt,
    0, hstart, fun _ _ ↦ Nat.zero_le _⟩

/-- A chunk that the source lacks has no member. -/
theorem notMem_of_notMem_chunks (h : Serves ops K extent members Inv) (hc : c.Valid T sb)
    (hnot : c.key ∉ T.layout.chunksOf extent) {v : Nat} (hv : v ∈ c.slot.values) :
    compose c.key v ∉ members := by
  intro hmem
  obtain ⟨hle, hkey⟩ := hc.le_maxKey hv
  exact hnot ⟨_, (h.inside _ hmem).1, hle, hkey⟩

/-- The stream counts what the bitmap and the operand share. -/
theorem andCardinalityStream_eq (h : Serves ops K extent members Inv) (hb : b.Valid T sb)
    (hs : Inv s) (hstart : ops.position s = nextFrom (T.layout.chunksOf extent) 0) :
    andCardinalityStream ops K b s = some (b.keys ∩ members).ncard := by
  classical
  have hrun : ∃ r, andCardinalityStream ops K b s = some r ∧ r = (b.keys ∩ members).ncard := by
    -- what is counted, and what the chunks ahead share with the operand
    refine Stepper.leapfrog_rule
      (fun (cs : List Chunk) acc ↦ (∀ c ∈ cs, c.Valid T sb) ∧
        acc + (cs.map (Chunk.share members)).sum = (b.keys ∩ members).ncard)
      (fun acc ↦ acc = (b.keys ∩ members).ncard) h.walks ?_ ?_ ?_ (before_of_valid hb hs hstart)
      (.inl (Nat.lt_succ_self _)) ⟨hb.chunks, by rw [Nat.zero_add, hb.ncard_keys_inter]⟩
    · rintro c cs acc hnot ⟨hvalid, htotal⟩
      refine ⟨fun d hd ↦ hvalid d (List.mem_cons_of_mem c hd), ?_⟩
      have hnone : c.share members = 0 := Chunk.share_eq_zero fun v hv ↦
        notMem_of_notMem_chunks h (hvalid c List.mem_cons_self) hnot hv
      rwa [List.map_cons, List.sum_cons, hnone, Nat.zero_add] at htotal
    · rintro c cs acc s t p hs hpos hpiece ⟨hvalid, htotal⟩
      obtain ⟨hholds, hanswer⟩ := h.piece s t p c.key hs hpos hpiece
      have hc := hvalid c List.mem_cons_self
      have hshare : c.share members = (c.slot.values.filter (· ∈ p.values)).length := by
        rw [Chunk.share]
        congr 1
        apply List.filter_congr
        intro v hv
        exact decide_eq_decide.2 (mem_piece_iff hholds hc hv).symm
      rw [List.map_cons, List.sum_cons, hshare] at htotal
      have hrest : ∀ d ∈ cs, d.Valid T sb := fun d hd ↦ hvalid d (List.mem_cons_of_mem c hd)
      by_cases hzero : p.cardinality = 0
      · rw [if_neg (not_not.2 hzero)]
        rw [values_eq_nil_of_cardinality hholds hzero] at htotal
        simp only [List.not_mem_nil, decide_false, List.filter_false, List.length_nil,
          Nat.zero_add] at htotal
        exact ⟨hrest, htotal⟩
      · rw [if_pos hzero]
        refine ⟨hrest, ?_⟩
        have hcount : (if p.isFull then c.slot.cardinality else andCard K c.slot p) =
            (c.slot.values.filter (· ∈ p.values)).length := by
          split
          · rename_i hfull
            rw [hc.slot.cardinality, List.filter_eq_self.2]
            intro v hv
            exact decide_eq_true (mem_of_isFull hholds hfull (hc.slot.values_lt v hv))
          · exact (hanswer (values_ne_nil_of_cardinality hholds hzero)).card _ hc.slot
        dsimp only
        rw [hcount, Nat.add_assoc]
        exact htotal
    · rintro acc ⟨-, htotal⟩
      exact htotal
  obtain ⟨r, hr, rfl⟩ := hrun
  exact hr

/-- The stream tells whether the bitmap lies in the operand. -/
theorem subsetStream_iff (h : Serves ops K extent members Inv) (hb : b.Valid T sb) (hs : Inv s)
    (hstart : ops.position s = nextFrom (T.layout.chunksOf extent) 0) :
    ∃ r, subsetStream ops K b s = some r ∧ (r = true ↔ b.keys ⊆ members) := by
  have hrun : ∃ r, subsetStream ops K b s = some r ∧ (r = true ↔ ∀ c : Chunk, c ∈ b.chunks →
      c.key ∈ T.layout.chunksOf extent ∧ ∀ v ∈ c.slot.values, compose c.key v ∈ members) := by
    refine Stepper.holdsEvery_rule
      (fun c : Chunk ↦ c.key ∈ T.layout.chunksOf extent ∧ ∀ v ∈ c.slot.values,
        compose c.key v ∈ members) h.walks
      (fun c hc ↦ hc.1) ?_ (before_of_valid hb hs hstart) (.inl (Nat.lt_succ_self _))
    intro c hc s t p hs hpos hpiece
    obtain ⟨hholds, hanswer⟩ := h.piece s t p c.key hs hpos hpiece
    have hvalid := hb.chunks c hc
    have hkey : c.key ∈ T.layout.chunksOf extent ∧
        (∀ v ∈ c.slot.values, compose c.key v ∈ members) ↔
        ∀ v ∈ c.slot.values, v ∈ p.values := by
      constructor
      · rintro ⟨-, hall⟩ v hv
        exact (mem_piece_iff hholds hvalid hv).2 (hall v hv)
      · intro hall
        have hmem : ∀ v ∈ c.slot.values, compose c.key v ∈ members :=
          fun v hv ↦ (mem_piece_iff hholds hvalid hv).1 (hall v hv)
        refine ⟨?_, hmem⟩
        by_contra hnot
        obtain ⟨v, hv⟩ := List.exists_mem_of_ne_nil _ hvalid.nonempty
        exact notMem_of_notMem_chunks h hvalid hnot hv (hmem v hv)
    split
    · rename_i hskip
      have hnil := values_eq_nil_of_cardinality hholds (of_decide_eq_true hskip)
      rw [hkey]
      intro hall
      obtain ⟨v, hv⟩ := List.exists_mem_of_ne_nil _ hvalid.nonempty
      have hin := hall v hv
      rw [hnil] at hin
      exact List.not_mem_nil hin
    · rename_i hkeep
      have hne := values_ne_nil_of_cardinality hholds fun hz ↦ hkeep (decide_eq_true hz)
      rw [hkey, Bool.or_eq_true, (hanswer hne).within c.slot hvalid.slot hvalid.nonempty]
      constructor
      · rintro (hfull | hall)
        · exact fun v hv ↦ mem_of_isFull hholds hfull (hvalid.slot.values_lt v hv)
        · exact hall
      · exact .inr
  obtain ⟨r, hr, hiff⟩ := hrun
  refine ⟨r, hr, hiff.trans ⟨fun hall x hx ↦ ?_, fun hsub c hc ↦ ?_⟩⟩
  · obtain ⟨c, hc, v, hv, rfl⟩ := Bitmap.mem_keys.1 hx
    exact (hall c hc).2 v hv
  · have hmem : ∀ v ∈ c.slot.values, compose c.key v ∈ members :=
      fun v hv ↦ hsub (Bitmap.mem_keys.2 ⟨c, hc, v, hv, rfl⟩)
    refine ⟨?_, hmem⟩
    by_contra hnot
    obtain ⟨v, hv⟩ := List.exists_mem_of_ne_nil _ (hb.chunks c hc).nonempty
    exact notMem_of_notMem_chunks h (hb.chunks c hc) hnot hv (hmem v hv)

/-- The stream tells whether the bitmap holds all of an operand that is not cut off. -/
theorem supersetStream_iff (h : Serves ops K extent members Inv) (hb : b.Valid T sb) (hs : Inv s)
    (hstart : ops.position s = nextFrom (T.layout.chunksOf extent) 0) {truncated : σ → Bool}
    {whole : Prop} (hwhole : ∀ s, Inv s → ops.atEnd s = true → (truncated s = false ↔ whole)) :
    ∃ r, supersetStream ops K truncated b s = some r ∧ (r.1 = true ↔ members ⊆ b.keys ∧ whole) := by
  have hbound : ∀ c ∈ T.layout.chunksOf extent, c < T.layout.chunkCount := by
    rintro c ⟨x, -, hx, rfl⟩
    exact Layout.chunkKey_lt hx
  have hrun : ∃ r, supersetStream ops K truncated b s = some r ∧
      (r.1 = true ↔
        (∀ c ∈ T.layout.chunksOf extent, 0 ≤ c → (∃ v < lowDomainSize, compose c v ∈ members) →
        ∃ d ∈ b.chunks, d.key = c ∧ ∀ v < lowDomainSize, compose d.key v ∈ members →
          v ∈ d.slot.values) ∧ whole) := by
    refine Stepper.heldByAll_rule (fun c ↦ ∃ v < lowDomainSize, compose c v ∈ members)
      (fun c : Chunk ↦ ∀ v < lowDomainSize, compose c.key v ∈ members → v ∈ c.slot.values) whole
        h.walks hbound
      (fun s hs hend ↦ by rw [Bool.not_eq_true']; exact hwhole s hs hend) ?_ hs hstart hb.ascending
        (Nat.lt_succ_self _)
    intro s t p c hs hpos hpiece
    obtain ⟨hholds, hanswer⟩ := h.piece s t p c hs hpos hpiece
    have hmem : ∀ v, v ∈ p.values ↔ v < lowDomainSize ∧ compose c v ∈ members := by
      intro v
      rw [hholds.mem, KeyType.layout_lowDomainSize]
      rfl
    have hzero : p.cardinality = 0 ↔ ¬ ∃ v < lowDomainSize, compose c v ∈ members := by
      rw [hholds.cardinality, List.length_eq_zero_iff, List.eq_nil_iff_forall_not_mem, not_exists]
      exact forall_congr' fun v ↦ not_congr (hmem v)
    refine ⟨by rw [decide_eq_true_eq]; exact hzero, ?_⟩
    rintro hkept d hd rfl
    have hvalid := hb.chunks d hd
    have hgood : (∀ v < lowDomainSize, compose d.key v ∈ members → v ∈ d.slot.values) ↔
        ∀ v ∈ p.values, v ∈ d.slot.values := by
      constructor
      · intro hall v hv
        exact hall v ((hmem v).1 hv).1 ((hmem v).1 hv).2
      · intro hall v hv hin
        exact hall v ((hmem v).2 ⟨hv, hin⟩)
    rw [hgood]
    split
    · rename_i hfull
      rw [decide_eq_true_eq, hvalid.slot.cardinality]
      constructor
      · intro hcard v hv
        exact mem_of_length_eq hvalid.slot.values_ascending hvalid.slot.values_lt hcard
          ((hmem v).1 hv).1
      · intro hall
        have hle := length_le_of_ascending hholds.ascending hall
        have hcard : p.values.length = lowDomainSize := by
          rw [← hholds.cardinality]
          exact of_decide_eq_true hfull
        have hge := length_le_of_ascending hvalid.slot.values_ascending fun v hv ↦
          mem_of_isFull hholds hfull (hvalid.slot.values_lt v hv)
        omega
    · rename_i hpart
      have hne := values_ne_nil_of_cardinality (c := d) hholds fun hz ↦ hkept (decide_eq_true hz)
      exact (hanswer hne).covers d.slot hvalid.slot
  obtain ⟨r, hr, hiff⟩ := hrun
  refine ⟨r, hr,
    hiff.trans (and_congr_left fun _ ↦ ⟨fun hall x hx ↦ ?_, fun hsub c hc _ hneed ↦ ?_⟩)⟩
  · obtain ⟨hext, hmax⟩ := h.inside x hx
    have hchunk : chunkKey x ∈ T.layout.chunksOf extent :=
      ⟨x, hext, hmax, KeyType.layout_chunkKey T hmax⟩
    have hself : compose (chunkKey x) (lowKey x) = x := compose_chunkKey_lowKey x
    obtain ⟨c, hc, hkey, hgood⟩ :=
      hall _ hchunk (Nat.zero_le _) ⟨lowKey x, lowKey_lt x, by rwa [hself]⟩
    have hv := hgood (lowKey x) (lowKey_lt x) (by rwa [hkey, hself])
    exact Bitmap.mem_keys.2 ⟨c, hc, lowKey x, hv, by rw [hkey, hself]⟩
  · obtain ⟨v, hv, hmem⟩ := hneed
    obtain ⟨d, hd, rfl, -⟩ := (hb.mem_keys_compose hv).1 (hsub hmem)
    refine ⟨d, hd, rfl, fun u hu hu' ↦ ?_⟩
    obtain ⟨e, he, hkey, hue⟩ := (hb.mem_keys_compose hu).1 (hsub hu')
    have hsame : e = d := hb.eq_of_key_eq he hd hkey
    exact hsame ▸ hue

end Serves

end Roaring
