import Mathlib
import Roaring.Interop.KeysSource
import Roaring.Interop.BitsSource

/-!
# What the chunk sources stand for

The sources of an interval, of a range of keys and of a bit string stand for their
operand in every run.  A source of keys learns only at the end of its walk whether
members lie beyond the key type, and trusts that a chunk key which is sought is one
of the key type; the length of a bit string is computed with in 64 bits.
-/

namespace Roaring

open Lib

/-- Every chunk source stands for its operand, whatever is asked of it in whatever order. -/
theorem chunkSources_denote (L : Layout) :
    (∀ range, Yields L (IntervalSource.source L) (IntervalSource.make L range) range.keys
      {k ∈ range.keys | k ≤ L.maxKey}) ∧
    (∀ seq, Yields L (KeysSource.source L) (KeysSource.make L seq) seq.keys
      {k ∈ seq.keys | k ≤ L.maxKey} ∧
      ∀ moves s, (KeysSource.source L).run (KeysSource.make L seq) moves = some s →
        (s.truncated = true ↔ (KeysSource.source L).position s = none ∧
          ∃ k ∈ seq.keys, L.maxKey < k)) ∧
    ∀ str : BitString, str.Short → ∃ start, BitsSource.make L str = some start ∧
      Yields L (BitsSource.source L) start str.extent {k ∈ str.keys | k ≤ L.maxKey} ∧
      ∀ moves s, (BitsSource.source L).run start moves = some s →
        (s.truncated = true ↔ ∃ k ∈ str.keys, L.maxKey < k) := by
  refine ⟨IntervalSource.yields L, ?_, fun str h ↦ BitsSource.yields L h⟩
  intro seq
  refine ⟨KeysSource.yields L seq, ?_⟩
  intro moves s hrun
  obtain ⟨hinv, hstart⟩ := KeysSource.make_inv L seq
  obtain ⟨t, hrun', ht, -⟩ := (KeysSource.source_walks L seq).run_walk hinv hstart moves
  obtain rfl := Option.some.inj (hrun'.symm.trans hrun)
  exact KeysSource.truncated_iff ht

/-- Ten bits from a byte on, the last of which is beyond the keys of a byte. -/
def tenBits : BitString :=
  ⟨[1, 2], 10, 250, 3, by decide, by decide, by decide⟩

theorem chunkSources_denote_tenBits :
    ∃ start, BitsSource.make ⟨8, by decide⟩ tenBits = some start ∧
      ∀ moves, ∀ s : BitsSource ⟨8, by decide⟩, (BitsSource.source ⟨8, by decide⟩).run start moves =
        some s →
        (s.truncated = true ↔ ∃ k ∈ tenBits.keys, Layout.maxKey ⟨8, by decide⟩ < k) := by
  have hshort : tenBits.Short := by
    show 10 ≤ 2 ^ 64 - 64
    decide
  obtain ⟨start, hmake, -, htruncated⟩ := (chunkSources_denote ⟨8, by decide⟩).2.2 tenBits hshort
  exact ⟨start, hmake, htruncated⟩

/-- Two 16-bit elements, one of which is no key of a byte. -/
def bytePair : KeySequence := ⟨16, false, [1, 300], by decide, by decide⟩

/-- A string of all the bits that 64 bits count, the first of each byte set. -/
def longestString : BitString where
  bytes := List.replicate (2 ^ 61) 1
  bitCount := 2 ^ 64 - 1
  base := 0
  address := 1
  bitCount_lt := by decide
  base_lt := by decide
  covers := by rw [List.length_replicate]; decide

/-- Before its walk ends, a source of keys does not tell that a member lies beyond the key type; a
seek of a number that is no chunk key goes nowhere; and the longest bit string reads as if it had no
bytes. -/
theorem chunkSources_err :
    ((KeysSource.make ⟨8, by decide⟩ bytePair).truncated = false ∧
      ∃ k ∈ bytePair.keys, Layout.maxKey ⟨8, by decide⟩ < k) ∧
    (KeysSource.source ⟨8, by decide⟩).position ((KeysSource.make ⟨8, by decide⟩ bytePair).seek 1) =
      some 0 ∧
    (longestString.loadBits (2 ^ 64 - 2) 0 = some 0#64 ∧ longestString.bit 0 = true) := by
  have hcount : longestString.byteCount = 0 := by decide
  have hat : ∀ i, longestString.byteAt i = some 0 := by
    intro i
    rw [BitString.byteAt, hcount, if_neg (Nat.not_lt_zero i)]
  have hjoin : longestString.joinBytes 0 8 = some 0#64 := by
    simp only [BitString.joinBytes, hat, Option.map_some]
    decide
  refine ⟨⟨by decide, 300, by simp [KeySequence.keys, bytePair], by decide⟩, by decide, ?_, ?_⟩
  · have hread : longestString.readShifted (0 / 8) (0 % 8) = some 0#64 := by
      rw [BitString.readShifted, BitString.readWord, hcount, if_neg (by decide), hjoin]
      rfl
    rw [BitString.loadBits, if_neg (by decide), hread]
    rfl
  · change ((List.replicate (2 ^ 61) (1 : UInt8)).getD 0 0).toNat.testBit 0 = true
    rw [List.getD_eq_getElem?_getD, List.getElem?_replicate, if_pos (by decide)]
    rfl

end Roaring
