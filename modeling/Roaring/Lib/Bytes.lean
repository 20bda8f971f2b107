import Mathlib

/-!
# Little-endian byte strings and bounded reads

`leBytes k x` is the `k`-byte little-endian form of `x` and `leValue` reads one
back.  `Parsed` is the result of a reader over a byte buffer: a value, a refusal
of the input, or a read of bytes that the buffer does not hold.  A reader is
memory safe when the third never comes out.
-/

namespace Lib

/-! ## Little-endian numbers -/

def leBytes : Nat → Nat → List UInt8
  | 0, _ => []
  | k + 1, x => UInt8.ofNat x :: leBytes k (x / 256)

def leValue : List UInt8 → Nat
  | [] => 0
  | b :: bs => b.toNat + 256 * leValue bs

@[simp] theorem length_leBytes (k x : Nat) : (leBytes k x).length = k := by
  induction k generalizing x with
  | zero => rfl
  | succ k ih => simp [leBytes, ih]

theorem leValue_leBytes (k x : Nat) : leValue (leBytes k x) = x % 256 ^ k := by
  induction k generalizing x with
  | zero => simp [leBytes, leValue, Nat.mod_one]
  | succ k ih =>
      rw [leBytes, leValue, ih, pow_succ, mul_comm (256 ^ k), Nat.mod_mul]
      simp [UInt8.toNat_ofNat']

theorem leValue_leBytes_of_lt {k x : Nat} (h : x < 256 ^ k) : leValue (leBytes k x) = x := by
  rw [leValue_leBytes, Nat.mod_eq_of_lt h]

theorem leValue_lt (bs : List UInt8) : leValue bs < 256 ^ bs.length := by
  induction bs with
  | nil => simp [leValue]
  | cons b bs ih =>
      have := b.toNat_lt
      rw [leValue, List.length_cons, pow_succ]
      omega

theorem leBytes_leValue (bs : List UInt8) : leBytes bs.length (leValue bs) = bs := by
  induction bs with
  | nil => rfl
  | cons b bs ih =>
      have hb := b.toNat_lt
      have h1 : UInt8.ofNat (b.toNat + 256 * leValue bs) = b := by
        apply UInt8.toNat_inj.mp
        rw [UInt8.toNat_ofNat']
        omega
      have h2 : (b.toNat + 256 * leValue bs) / 256 = leValue bs := by omega
      rw [List.length_cons, leValue, leBytes, h1, h2, ih]

/-- Bit `i` of the number is bit `i % 8` of byte `i / 8`. -/
theorem testBit_leValue (bs : List UInt8) (i : Nat) :
    (leValue bs).testBit i = (bs[i / 8]?.getD 0).toNat.testBit (i % 8) := by
  induction bs generalizing i with
  | nil => simp [leValue]
  | cons b bs ih =>
      have hb : b.toNat < 2 ^ 8 := b.toNat_lt
      have hsum : leValue (b :: bs) = 2 ^ 8 * leValue bs + b.toNat := by rw [leValue]; omega
      rw [hsum, Nat.testBit_two_pow_mul_add _ hb]
      by_cases hi : i < 8
      · have h0 : i / 8 = 0 := by omega
        have h1 : i % 8 = i := by omega
        simp [hi, h0, h1]
      · have h0 : i / 8 = (i - 8) / 8 + 1 := by omega
        have h1 : i % 8 = (i - 8) % 8 := by omega
        rw [if_neg hi, ih, h0, h1, List.getElem?_cons_succ]

/-- The first `n` numbers of `k` little-endian bytes each. -/
def units (k : Nat) : Nat → List UInt8 → List Nat
  | 0, _ => []
  | n + 1, bs => leValue (bs.take k) :: units k n (bs.drop k)

@[simp] theorem length_units (k n : Nat) (bs : List UInt8) : (units k n bs).length = n := by
  induction n generalizing bs with
  | zero => rfl
  | succ n ih => simp [units, ih]

theorem units_take {k n m : Nat} (h : k * n ≤ m) (bs : List UInt8) :
    units k n (bs.take m) = units k n bs := by
  induction n generalizing m bs with
  | zero => rfl
  | succ n ih =>
      rw [Nat.mul_succ] at h
      rw [units, units, List.take_take, Nat.min_eq_left (by omega), List.drop_take, ih (by omega)]

theorem units_lt (k n : Nat) (bs : List UInt8) : ∀ v ∈ units k n bs, v < 256 ^ k := by
  induction n generalizing bs with
  | zero => simp [units]
  | succ n ih =>
      intro v hv
      rcases List.mem_cons.mp hv with rfl | hv
      · exact (leValue_lt _).trans_le (Nat.pow_le_pow_right (by decide) (List.length_take_le k bs))
      · exact ih _ v hv

theorem length_flatMap_leBytes (k : Nat) (vs : List Nat) :
    (vs.flatMap (leBytes k)).length = k * vs.length := by
  induction vs with
  | nil => rfl
  | cons v vs ih =>
      rw [List.flatMap_cons, List.length_append, ih, length_leBytes, List.length_cons]
      ring

/-- Numbers written one behind the other are read back. -/
theorem units_flatMap_leBytes (k : Nat) {vs : List Nat} (h : ∀ v ∈ vs, v < 256 ^ k)
    (rest : List UInt8) : units k vs.length (vs.flatMap (leBytes k) ++ rest) = vs := by
  induction vs with
  | nil => rfl
  | cons v vs ih =>
      rw [List.length_cons, units, List.flatMap_cons, List.append_assoc,
        List.take_left' (length_leBytes k v), List.drop_left' (length_leBytes k v),
        leValue_leBytes_of_lt (h v List.mem_cons_self),
        ih fun u hu ↦ h u (List.mem_cons_of_mem v hu)]

/-- A record laid out without gaps: each field with its width in bytes. -/
def leFields (fields : List (Nat × Nat)) : List UInt8 := fields.flatMap fun f ↦ leBytes f.1 f.2

@[simp] theorem length_leFields (fields : List (Nat × Nat)) :
    (leFields fields).length = (fields.map Prod.fst).sum := by
  simp [leFields, List.length_flatMap]

/-- A field is read back behind the fields in front of it. -/
theorem leValue_field (front : List (Nat × Nat)) {k x : Nat} (h : x < 256 ^ k)
    (back : List (Nat × Nat)) :
    leValue (((leFields (front ++ (k, x) :: back)).drop (front.map Prod.fst).sum).take k) = x := by
  have hsplit : leFields (front ++ (k, x) :: back) =
      leFields front ++ (leBytes k x ++ leFields back) := by
    rw [leFields, List.flatMap_append, List.flatMap_cons]
    rfl
  rw [hsplit, List.drop_left' (length_leFields front), List.take_left' (length_leBytes k x),
    leValue_leBytes_of_lt h]

/-! ## Reading a buffer -/

/-- What a reader of a byte buffer ends with. -/
inductive Parsed (α : Type) where
  | value (a : α)
  | refused
  /-- Bytes outside the buffer were read. -/
  | outside
deriving DecidableEq

namespace Parsed

variable {α β : Type}

def bind (x : Parsed α) (f : α → Parsed β) : Parsed β :=
  match x with
  | .value a => f a
  | .refused => .refused
  | .outside => .outside

instance : Monad Parsed where
  pure := .value
  bind := bind

@[simp] theorem value_bind (a : α) (f : α → Parsed β) : (Parsed.value a >>= f) = f a := rfl

@[simp] theorem refused_bind (f : α → Parsed β) : (Parsed.refused >>= f) = .refused := rfl

@[simp] theorem outside_bind (f : α → Parsed β) : (Parsed.outside >>= f) = .outside := rfl

@[simp] theorem pure_eq (a : α) : (pure a : Parsed α) = .value a := rfl

theorem bind_eq_value {x : Parsed α} {f : α → Parsed β} {b : β} :
    (x >>= f) = .value b ↔ ∃ a, x = .value a ∧ f a = .value b := by
  cases x <;> simp

/-- A computation is safe when it never reads outside the buffer. -/
def Safe (x : Parsed α) : Prop := x ≠ .outside

@[simp] theorem safe_value (a : α) : (Parsed.value a).Safe := nofun

@[simp] theorem safe_refused : (Parsed.refused : Parsed α).Safe := nofun

theorem Safe.bind {x : Parsed α} {f : α → Parsed β} (hx : x.Safe)
    (hf : ∀ a, x = .value a → (f a).Safe) : (x >>= f).Safe := by
  cases x with
  | value a => exact hf a rfl
  | refused => exact safe_refused
  | outside => exact absurd rfl hx

end Parsed

/-- The `n` bytes at `at` of the buffer. -/
def bytesAt (buf : List UInt8) (offset n : Nat) : Parsed (List UInt8) :=
  if offset + n ≤ buf.length then .value ((buf.drop offset).take n) else .outside

/-- The little-endian number in the `n` bytes at `offset` of the buffer. -/
def getLE (n : Nat) (buf : List UInt8) (offset : Nat) : Parsed Nat := do
  let bs ← bytesAt buf offset n
  return leValue bs

theorem bytesAt_of_le {buf : List UInt8} {offset n : Nat} (h : offset + n ≤ buf.length) :
    bytesAt buf offset n = .value ((buf.drop offset).take n) := if_pos h

theorem getLE_of_le {buf : List UInt8} {offset n : Nat} (h : offset + n ≤ buf.length) :
    getLE n buf offset = .value (leValue ((buf.drop offset).take n)) := by
  rw [getLE, bytesAt_of_le h]
  rfl

end Lib
