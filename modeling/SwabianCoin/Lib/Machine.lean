import Mathlib.Data.Int.ModEq
import Mathlib.Data.UInt
import Mathlib.Data.List.Lex
import Mathlib.Tactic.Ring

/-!
# Machine integers

Orders on the unsigned machine integers, and the dictionary between machine arithmetic and exact
arithmetic: a machine sum or difference is congruent to the exact one modulo `2 ^ 64`, and the
machine value is the residue in `[0, 2 ^ 64)`, or in `[-2 ^ 63, 2 ^ 63)` when read as signed.
-/

namespace Machine

instance linearOrderUInt8 : LinearOrder UInt8 where
  le_refl := UInt8.le_refl
  le_trans _ _ _ := UInt8.le_trans
  lt_iff_le_not_ge a b := by
    simp only [UInt8.lt_iff_toNat_lt, UInt8.le_iff_toNat_le]; omega
  le_antisymm _ _ := UInt8.le_antisymm
  le_total := UInt8.le_total
  toDecidableLE := inferInstance
  toDecidableEq := inferInstance
  toDecidableLT := inferInstance
  min_def _ _ := rfl
  max_def _ _ := rfl
  compare_eq_compareOfLessAndEq _ _ := rfl

instance linearOrderUInt64 : LinearOrder UInt64 where
  le_refl := UInt64.le_refl
  le_trans _ _ _ := UInt64.le_trans
  lt_iff_le_not_ge a b := by
    simp only [UInt64.lt_iff_toNat_lt, UInt64.le_iff_toNat_le]; omega
  le_antisymm _ _ := UInt64.le_antisymm
  le_total := UInt64.le_total
  toDecidableLE := inferInstance
  toDecidableEq := inferInstance
  toDecidableLT := inferInstance
  min_def _ _ := rfl
  max_def _ _ := rfl
  compare_eq_compareOfLessAndEq _ _ := rfl

/-! ## Unsigned arithmetic modulo `2 ^ 64` -/

theorem modEq_of_eq {n x y : ℤ} (h : x = y) : x ≡ y [ZMOD n] := h ▸ Int.ModEq.refl x

theorem toNat_add_modEq (a b : UInt64) :
    ((a + b).toNat : ℤ) ≡ a.toNat + b.toNat [ZMOD 2 ^ 64] := by
  rw [UInt64.toNat_add, Int.ModEq]
  omega

theorem toNat_sub_modEq (a b : UInt64) :
    ((a - b).toNat : ℤ) ≡ a.toNat - b.toNat [ZMOD 2 ^ 64] := by
  have hb := b.toNat_lt
  rw [UInt64.toNat_sub, Int.ModEq]
  omega

theorem toNat_mul_modEq (a b : UInt64) :
    ((a * b).toNat : ℤ) ≡ a.toNat * b.toNat [ZMOD 2 ^ 64] := by
  rw [UInt64.toNat_mul]
  push_cast
  exact Int.mod_modEq _ _

theorem toNat_ofNat_modEq (n : Nat) : ((UInt64.ofNat n).toNat : ℤ) ≡ n [ZMOD 2 ^ 64] := by
  rw [UInt64.toNat_ofNat']
  push_cast
  exact Int.mod_modEq _ _

theorem toNat_sum_modEq (l : List UInt64) :
    (l.sum.toNat : ℤ) ≡ (l.map UInt64.toNat).sum [ZMOD 2 ^ 64] := by
  induction l with
  | nil => rfl
  | cons a l ih =>
    rw [List.sum_cons, List.map_cons, List.sum_cons, Nat.cast_add]
    exact (toNat_add_modEq a l.sum).trans (ih.add_left _)

/-- Machine values congruent to each other are equal. -/
theorem eq_of_toNat_modEq {a b : UInt64} (h : (a.toNat : ℤ) ≡ b.toNat [ZMOD 2 ^ 64]) : a = b := by
  have ha := a.toNat_lt
  have hb := b.toNat_lt
  rw [Int.ModEq] at h
  exact UInt64.toNat_inj.1 (by omega)

/-- A machine value is the residue of any exact value it is congruent to. -/
theorem toNat_eq_emod {a : UInt64} {x : ℤ} (h : (a.toNat : ℤ) ≡ x [ZMOD 2 ^ 64]) :
    (a.toNat : ℤ) = x % 2 ^ 64 := by
  have ha := a.toNat_lt
  rw [Int.ModEq] at h
  omega

/-! ## Intervals -/

/-- The numbers after `a` and before `b`, counting upwards and round the corner. -/
def between (a b : UInt64) : List UInt64 :=
  (List.range (b - (a + 1)).toNat).map fun i => a + 1 + UInt64.ofNat i

theorem mem_between {a b k : UInt64} : k ∈ between a b ↔ k - (a + 1) < b - (a + 1) := by
  rw [between, List.mem_map, UInt64.lt_iff_toNat_lt]
  constructor
  · rintro ⟨i, hi, rfl⟩
    have hlt := (b - (a + 1)).toNat_lt
    rw [List.mem_range] at hi
    have hsub : a + 1 + UInt64.ofNat i - (a + 1) = UInt64.ofNat i := by
      rw [UInt64.add_comm, UInt64.add_sub_cancel]
    rw [hsub, UInt64.toNat_ofNat', Nat.mod_eq_of_lt (by omega)]
    exact hi
  · intro h
    refine ⟨(k - (a + 1)).toNat, List.mem_range.2 h, ?_⟩
    rw [UInt64.ofNat_toNat, UInt64.add_comm, UInt64.sub_add_cancel]

theorem nodup_between (a b : UInt64) : (between a b).Nodup := by
  refine List.Nodup.map_on ?_ List.nodup_range
  intro i hi j hj heq
  have hlt := (b - (a + 1)).toNat_lt
  rw [List.mem_range] at hi hj
  have hnat := congrArg UInt64.toNat ((UInt64.add_right_inj _).1 heq)
  rw [UInt64.toNat_ofNat', UInt64.toNat_ofNat', Nat.mod_eq_of_lt (by omega),
    Nat.mod_eq_of_lt (by omega)] at hnat
  exact hnat

theorem length_between (a b : UInt64) : (between a b).length = (b - (a + 1)).toNat := by
  rw [between, List.length_map, List.length_range]

theorem not_mem_between_succ (a k : UInt64) : k ∉ between a (a + 1) := by
  rw [mem_between, UInt64.sub_self]
  exact UInt64.not_lt_zero

theorem mem_between_succ_left {a b k : UInt64} (h : a + 1 ∈ between a b) :
    k ∈ between (a + 1) b ↔ k ≠ a + 1 ∧ k ∈ between a b := by
  rw [mem_between, UInt64.sub_self] at h
  have hk : k - (a + 1 + 1) = k - (a + 1) - 1 := by grind
  have hb : b - (a + 1 + 1) = b - (a + 1) - 1 := by grind
  have hne : k ≠ a + 1 ↔ k - (a + 1) ≠ 0 := by grind
  rw [mem_between, mem_between, hk, hb, hne]
  generalize k - (a + 1) = d
  generalize b - (a + 1) = n at h
  rw [UInt64.lt_iff_toNat_lt] at *
  rw [UInt64.lt_iff_toNat_lt, UInt64.toNat_sub, UInt64.toNat_sub, ne_eq, ← UInt64.toNat_inj]
  have hd := d.toNat_lt
  have hn := n.toNat_lt
  simp only [UInt64.toNat_zero, UInt64.toNat_one] at *
  omega

theorem mem_between_succ_right {a b k : UInt64} (h : (between a b).length + 1 < 2 ^ 64) :
    k ∈ between a (b + 1) ↔ k = b ∨ k ∈ between a b := by
  rw [length_between] at h
  have hb : b + 1 - (a + 1) = b - (a + 1) + 1 := by grind
  have heq : k = b ↔ k - (a + 1) = b - (a + 1) := by grind
  rw [mem_between, mem_between, hb, heq]
  generalize k - (a + 1) = d
  generalize b - (a + 1) = n at *
  rw [UInt64.lt_iff_toNat_lt, UInt64.lt_iff_toNat_lt, UInt64.toNat_add, ← UInt64.toNat_inj,
    UInt64.toNat_one, Nat.mod_eq_of_lt h]
  omega

theorem toNat_add_one {a : UInt64} (h : a + 1 ≠ 0) : (a + 1).toNat = a.toNat + 1 := by
  have hlt := a.toNat_lt
  rw [ne_eq, ← UInt64.toNat_inj] at h
  rw [UInt64.toNat_add, UInt64.toNat_one] at *
  have hzero : (0 : UInt64).toNat = 0 := rfl
  omega

theorem add_one_eq_zero_or_lt (a : UInt64) : a + 1 = 0 ∨ a < a + 1 := by
  by_cases hzero : a + 1 = 0
  · exact Or.inl hzero
  · rw [UInt64.lt_iff_toNat_lt, toNat_add_one hzero]
    exact Or.inr (Nat.lt_succ_self _)

/-- A sum that is above a number from the first summand on has not wrapped. -/
theorem toNat_add_of_lt_add {a n d : UInt64} (hle : a ≤ n) (hlt : n < a + d) :
    (a + d).toNat = a.toNat + d.toNat := by
  have ha := a.toNat_lt
  have hd := d.toNat_lt
  rw [UInt64.le_iff_toNat_le] at hle
  rw [UInt64.lt_iff_toNat_lt, UInt64.toNat_add] at hlt
  rw [UInt64.toNat_add]
  omega

/-- Counted from `a`, a number up to `b + 1` that is not `b + 1` itself is one up to `b`. -/
theorem sub_le_of_ne_succ {a b k : UInt64} (h : k - a ≤ b + 1 - a) (hne : k ≠ b + 1) :
    k - a ≤ b - a := by
  have hb : b + 1 - a = b - a + 1 := by grind
  have hne' : k - a ≠ b - a + 1 := by grind
  rw [hb] at h
  generalize k - a = d at *
  generalize b - a = n at *
  rw [ne_eq, ← UInt64.toNat_inj] at hne'
  rw [UInt64.le_iff_toNat_le] at *
  rw [UInt64.toNat_add, UInt64.toNat_one] at *
  have hd := d.toNat_lt
  have hn := n.toNat_lt
  omega

end Machine
