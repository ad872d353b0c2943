import SwabianCoin.Monitors

/-!
# The grid of baselines

Every `720`th id belongs to a baseline: `1`, `721`, `1441` and so on. The static functions of
`BlockchainManager` compute with 64-bit ids, so the last of these ids below `2 ^ 64` has no
successor: there `getNextBaselineBlock` comes out small. Below that, the three functions agree
(`next_and_previous_on_grid`).
-/

namespace SwabianCoin

open Machine

variable {uid b : BlockUid}

theorem isBaselineBlock_iff :
    isBaselineBlock uid = true ↔ (uid - 1).toNat % 720 = 0 := by
  rw [isBaselineBlock, beq_iff_eq, ← UInt64.toNat_inj, UInt64.toNat_mod]
  rfl

theorem toNat_sub_one (h : uid ≠ 0) : (uid - 1).toNat = uid.toNat - 1 := by
  have hlt := uid.toNat_lt
  have hpos : uid.toNat ≠ 0 := fun heq => h (UInt64.toNat_inj.1 heq)
  rw [UInt64.toNat_sub, UInt64.toNat_one]
  omega

theorem ne_zero_of_isBaselineBlock (h : isBaselineBlock uid = true) : uid ≠ 0 := by
  intro h0
  subst h0
  exact absurd h (by decide)

theorem toNat_getNextBaselineBlock (uid : BlockUid) :
    (getNextBaselineBlock uid).toNat = (((uid - 1).toNat / 720 + 1) * 720 + 1) % 2 ^ 64 := by
  have hlt := (uid - 1).toNat_lt
  have hmax : maxNumBlocksAfterBaseline.toNat = 720 := rfl
  unfold getNextBaselineBlock
  rw [UInt64.toNat_add, UInt64.toNat_mul, UInt64.toNat_add, UInt64.toNat_div, UInt64.toNat_one,
    hmax]
  omega

/-- No baseline is skipped: the next one is at most any later one. -/
theorem getNextBaselineBlock_le (hb : isBaselineBlock b = true) (h0 : uid ≠ 0) (hlt : uid < b) :
    getNextBaselineBlock uid ≤ b := by
  have hsub := toNat_sub_one h0
  have hgrid := isBaselineBlock_iff.1 hb
  have hpos : uid.toNat ≠ 0 := fun heq => h0 (UInt64.toNat_inj.1 heq)
  rw [toNat_sub_one (ne_zero_of_isBaselineBlock hb)] at hgrid
  rw [UInt64.lt_iff_toNat_lt] at hlt
  rw [UInt64.le_iff_toNat_le, toNat_getNextBaselineBlock, hsub]
  have hb' := b.toNat_lt
  omega

/-! ## Next and previous -/

section Neighbours

variable (h0 : uid ≠ 0) (hle : uid.toNat + 720 < 2 ^ 64)

include h0 hle

/-- Nothing wraps. -/
theorem toNat_next : (getNextBaselineBlock uid).toNat = (uid.toNat - 1) / 720 * 720 + 721 := by
  have hpos : uid.toNat ≠ 0 := fun heq => h0 (UInt64.toNat_inj.1 heq)
  have hfits : (uid.toNat - 1) / 720 * 720 + 721 < 2 ^ 64 := by omega
  rw [toNat_getNextBaselineBlock, toNat_sub_one h0, Nat.add_mul, Nat.add_assoc,
    Nat.mod_eq_of_lt hfits]

theorem lt_getNextBaselineBlock : uid < getNextBaselineBlock uid := by
  rw [UInt64.lt_iff_toNat_lt, toNat_next h0 hle]
  omega

theorem isBaselineBlock_getNextBaselineBlock :
    isBaselineBlock (getNextBaselineBlock uid) = true := by
  have hne : getNextBaselineBlock uid ≠ 0 := by
    intro hzero
    have hlt := UInt64.lt_iff_toNat_lt.1 (lt_getNextBaselineBlock h0 hle)
    rw [hzero] at hlt
    exact Nat.not_lt_zero _ hlt
  rw [isBaselineBlock_iff, toNat_sub_one hne, toNat_next h0 hle]
  omega

theorem toNat_getPreviousBaselineBlock :
    (getPreviousBaselineBlock uid).toNat = (uid.toNat - 1) / 720 * 720 + 1 := by
  have hnext := toNat_next h0 hle
  have hperiod : (maxNumBlocksAfterBaseline + 1).toNat = 721 := rfl
  have hmax : max (maxNumBlocksAfterBaseline + 1) (getNextBaselineBlock uid) =
      getNextBaselineBlock uid := by
    apply max_eq_right
    rw [UInt64.le_iff_toNat_le, hperiod]
    omega
  have hlt := (getNextBaselineBlock uid).toNat_lt
  have hlength : maxNumBlocksAfterBaseline.toNat = 720 := rfl
  rw [getPreviousBaselineBlock, hmax, UInt64.toNat_sub, hlength]
  omega

end Neighbours

/-- The last id of the grid has no successor. -/
theorem getNextBaselineBlock_le_self (h : isBaselineBlock uid = true)
    (hge : 2 ^ 64 ≤ uid.toNat + 720) : getNextBaselineBlock uid ≤ uid := by
  have h0 := ne_zero_of_isBaselineBlock h
  have hgrid := isBaselineBlock_iff.1 h
  have hlt := uid.toNat_lt
  rw [toNat_sub_one h0] at hgrid
  rw [UInt64.le_iff_toNat_le, toNat_getNextBaselineBlock, toNat_sub_one h0]
  omega

/-- **The grid.** As long as the next period fits into 64 bits, `getNextBaselineBlock` is the first
id of the grid after an id, `getPreviousBaselineBlock` the last one up to it, and an id is on the
grid exactly if it is its own previous one. -/
theorem next_and_previous_on_grid (uid : BlockUid) (hpos : 1 ≤ uid.toNat)
    (hle : uid.toNat ≤ 2 ^ 64 - 1 - 2 * 720) :
    IsLeast {b | uid < b ∧ isBaselineBlock b = true} (getNextBaselineBlock uid) ∧
      IsGreatest {b | b ≤ uid ∧ isBaselineBlock b = true} (getPreviousBaselineBlock uid) ∧
      (isBaselineBlock uid = true ↔ getPreviousBaselineBlock uid = uid) := by
  have h0 : uid ≠ 0 := by
    rintro rfl
    exact absurd hpos (by decide)
  have hfits : uid.toNat + 720 < 2 ^ 64 := by omega
  have hprevious := toNat_getPreviousBaselineBlock h0 hfits
  have hne : getPreviousBaselineBlock uid ≠ 0 := by
    intro hzero
    rw [hzero] at hprevious
    exact absurd hprevious (Nat.succ_ne_zero _).symm
  have hnext := lt_getNextBaselineBlock h0 hfits
  have hgrid := isBaselineBlock_getNextBaselineBlock h0 hfits
  refine ⟨⟨⟨hnext, hgrid⟩, ?_⟩, ⟨⟨?_, ?_⟩, ?_⟩, ?_⟩
  · rintro b ⟨hlt, hb⟩
    exact getNextBaselineBlock_le hb h0 hlt
  · rw [UInt64.le_iff_toNat_le, hprevious]
    omega
  · rw [isBaselineBlock_iff, toNat_sub_one hne, hprevious]
    omega
  · rintro b ⟨hbelow, hb⟩
    have hgrid := isBaselineBlock_iff.1 hb
    rw [toNat_sub_one (ne_zero_of_isBaselineBlock hb)] at hgrid
    rw [UInt64.le_iff_toNat_le] at hbelow
    rw [UInt64.le_iff_toNat_le, hprevious]
    omega
  · rw [isBaselineBlock_iff, toNat_sub_one h0, ← UInt64.toNat_inj, hprevious]
    omega

/-- In the third period. -/
theorem neighbours_of_1442 :
    IsLeast {b | (1442 : BlockUid) < b ∧ isBaselineBlock b = true} 2161 ∧
      IsGreatest {b | b ≤ (1442 : BlockUid) ∧ isBaselineBlock b = true} 1441 := by
  have hgrid := next_and_previous_on_grid 1442 (by decide) (by decide)
  exact ⟨hgrid.1, hgrid.2.1⟩

end SwabianCoin
