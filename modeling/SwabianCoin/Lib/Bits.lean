import Mathlib.Data.Nat.Bitwise
import Mathlib.Data.Nat.Count

/-!
# Byte strings as sets of bits

Bit `i` of a byte string is bit `i % 8` of byte `i / 8`. A byte string of known length is the set
of the positions of its one bits (`positions`), and the operations on bytes are operations on this
set: all bytes zero is the empty set, one bit more is `insert`, and the bytewise or is the union.
-/

namespace Bits

variable {bytes other : List UInt8}

def bitAt (bytes : List UInt8) (i : Nat) : Bool := (bytes.getD (i / 8) 0).toNat.testBit (i % 8)

/-- The positions of the one bits. -/
def positions (bytes : List UInt8) : Finset Nat :=
  (Finset.range (8 * bytes.length)).filter fun i => bitAt bytes i

/-- A byte with bit `k` set as well. -/
def withBit (k : Nat) (byte : UInt8) : UInt8 := byte ||| UInt8.ofNat (2 ^ k)

/-! ## Single bytes -/

theorem testBit_withBit {k : Nat} (hk : k < 8) (byte : UInt8) (j : Nat) :
    (withBit k byte).toNat.testBit j = (byte.toNat.testBit j || decide (k = j)) := by
  have hpow : 2 ^ k < 256 := Nat.pow_lt_pow_right (by decide) hk
  rw [withBit, UInt8.toNat_or, UInt8.toNat_ofNat', Nat.mod_eq_of_lt hpow, Nat.testBit_or,
    Nat.testBit_two_pow]

/-- A bit is tested by masking the others. -/
theorem and_two_pow_ne_zero {k : Nat} (hk : k < 8) (byte : UInt8) :
    byte &&& UInt8.ofNat (2 ^ k) ≠ 0 ↔ byte.toNat.testBit k := by
  have hpow : 2 ^ k < 256 := Nat.pow_lt_pow_right (by decide) hk
  rw [ne_eq, ← UInt8.toNat_inj, UInt8.toNat_and, UInt8.toNat_ofNat', Nat.mod_eq_of_lt hpow,
    Nat.and_two_pow, UInt8.toNat_zero]
  cases byte.toNat.testBit k with
  | true => simp
  | false => simp

theorem testBit_of_le {byte : UInt8} {j : Nat} (h : 8 ≤ j) : byte.toNat.testBit j = false := by
  refine Nat.testBit_lt_two_pow (byte.toNat_lt.trans_le ?_)
  exact Nat.pow_le_pow_right (by decide) h

theorem byte_ext {a b : UInt8} (h : ∀ j < 8, a.toNat.testBit j = b.toNat.testBit j) : a = b := by
  apply UInt8.toNat_inj.1
  apply Nat.eq_of_testBit_eq
  intro j
  rcases Nat.lt_or_ge j 8 with hj | hj
  · exact h j hj
  · rw [testBit_of_le hj, testBit_of_le hj]

/-! ## Positions -/

theorem mem_positions {i : Nat} : i ∈ positions bytes ↔ i < 8 * bytes.length ∧ bitAt bytes i := by
  rw [positions, Finset.mem_filter, Finset.mem_range]

theorem bitAt_of_le {i : Nat} (h : 8 * bytes.length ≤ i) : bitAt bytes i = false := by
  have hle : bytes.length ≤ i / 8 := by omega
  rw [bitAt, List.getD_eq_default _ _ hle]
  exact Nat.zero_testBit _

theorem mem_positions_iff_bitAt {i : Nat} : i ∈ positions bytes ↔ bitAt bytes i := by
  rw [mem_positions, and_iff_right_iff_imp]
  intro hbit
  by_contra hle
  rw [bitAt_of_le (Nat.le_of_not_lt hle)] at hbit
  exact Bool.noConfusion hbit

theorem eq_of_positions_eq (hlength : bytes.length = other.length)
    (h : positions bytes = positions other) : bytes = other := by
  apply List.ext_getElem hlength
  intro n hn hn'
  apply byte_ext
  intro j hj
  have hiff : bitAt bytes (8 * n + j) ↔ bitAt other (8 * n + j) := by
    rw [← mem_positions_iff_bitAt, ← mem_positions_iff_bitAt, h]
  have hdiv : (8 * n + j) / 8 = n := by omega
  have hmod : (8 * n + j) % 8 = j := by omega
  rw [bitAt, bitAt, hdiv, hmod, List.getD_eq_getElem _ _ hn, List.getD_eq_getElem _ _ hn'] at hiff
  exact Bool.eq_iff_iff.2 hiff

theorem positions_replicate_zero (n : Nat) : positions (List.replicate n 0) = ∅ := by
  rw [Finset.eq_empty_iff_forall_notMem]
  intro i hi
  have hbyte : (List.replicate n (0 : UInt8)).getD (i / 8) 0 = 0 := by
    rw [List.getD_eq_getElem?_getD, List.getElem?_replicate]
    split <;> rfl
  rw [mem_positions_iff_bitAt, bitAt, hbyte, UInt8.toNat_zero, Nat.zero_testBit] at hi
  exact Bool.noConfusion hi

theorem positions_modify {i : Nat} (h : i < 8 * bytes.length) :
    positions (bytes.modify (i / 8) (withBit (i % 8))) = insert i (positions bytes) := by
  have hmod : i % 8 < 8 := Nat.mod_lt _ (by decide)
  ext j
  rw [Finset.mem_insert, mem_positions, mem_positions, List.length_modify]
  by_cases hj : j < 8 * bytes.length
  · have hlt : j / 8 < bytes.length := by omega
    have hlt' : j / 8 < (bytes.modify (i / 8) (withBit (i % 8))).length := by
      rwa [List.length_modify]
    have hsame : i = j ↔ i / 8 = j / 8 ∧ i % 8 = j % 8 := by omega
    rw [bitAt, bitAt, List.getD_eq_getElem _ _ hlt, List.getD_eq_getElem _ _ hlt',
      List.getElem_modify, @eq_comm _ j, hsame]
    by_cases hbyte : i / 8 = j / 8
    · rw [if_pos hbyte, testBit_withBit hmod]
      simp only [hj, hbyte, true_and, Bool.or_eq_true, decide_eq_true_eq]
      exact or_comm
    · simp only [hj, hbyte, true_and, false_and, false_or, if_false]
  · have hne : j ≠ i := by omega
    simp only [hj, hne, false_and, false_or]

theorem positions_zipWith_or (hlength : bytes.length = other.length) :
    positions (List.zipWith (· ||| ·) bytes other) = positions bytes ∪ positions other := by
  have hzip : (List.zipWith (· ||| ·) bytes other).length = bytes.length := by
    rw [List.length_zipWith, hlength, Nat.min_self]
  ext i
  rw [Finset.mem_union, mem_positions, mem_positions, mem_positions, hzip, ← hlength]
  by_cases hi : i < 8 * bytes.length
  · have hlt : i / 8 < bytes.length := by omega
    have hlt' : i / 8 < other.length := by omega
    have hltzip : i / 8 < (List.zipWith (· ||| ·) bytes other).length := by omega
    rw [bitAt, bitAt, bitAt, List.getD_eq_getElem _ _ hlt, List.getD_eq_getElem _ _ hlt',
      List.getD_eq_getElem _ _ hltzip, List.getElem_zipWith, UInt8.toNat_or, Nat.testBit_or,
      Bool.or_eq_true]
    simp only [hi, true_and]
  · simp only [hi, false_and, or_self]

/-! ## Counting -/

theorem card_positions (bytes : List UInt8) :
    (positions bytes).card =
      (bytes.map fun byte => Nat.count (fun j => byte.toNat.testBit j) 8).sum := by
  rw [positions, ← Nat.count_eq_card_filter_range]
  induction bytes with
  | nil => rfl
  | cons byte bytes ih =>
    have hsplit : 8 * (byte :: bytes).length = 8 + 8 * bytes.length := by
      rw [List.length_cons]
      omega
    have hfirst : Nat.count (fun i => bitAt (byte :: bytes) i) 8 =
        Nat.count (fun j => byte.toNat.testBit j) 8 := rfl
    have hrest (i : Nat) : bitAt (byte :: bytes) (8 + i) = bitAt bytes i := by
      have hdiv : (8 + i) / 8 = i / 8 + 1 := by omega
      have hmod : (8 + i) % 8 = i % 8 := by omega
      rw [bitAt, bitAt, hdiv, hmod, List.getD_cons_succ]
    simp only [hsplit, Nat.count_add, hfirst, hrest, List.map_cons, List.sum_cons, ih]

end Bits
