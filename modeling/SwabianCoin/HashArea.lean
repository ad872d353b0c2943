import SwabianCoin.Blockchain

/-!
# Hash areas

Every epoch divides the upper limit of the allowed hashes by `α`, and 391 divisions halve it. After
`391 * 256` epochs nothing but the hash zero is allowed, so that no epoch from there on can be
filled (`epoch_lt_of_two_hashes`). The epoch counter of a chain therefore stays far below the
widths the source stores it in.

The loop computes the upper limit of an epoch with as many rounded divisions, and the lower limit
comes from one more, written down separately. Both round in the same way: the areas lie side by
side, and every hash but zero is allowed in one epoch (`PartitionsHashes`).
-/

namespace SwabianCoin

/-- An epoch whose area, like that of every later one, holds only the hash zero. -/
def exhaustedEpoch : Nat := 391 * 256

/-- A hash is allowed in an epoch. -/
def InHashArea (epoch : Epoch) (hash : Hash) : Prop :=
  (getHashArea epoch).2 ≤ hash ∧ hash ≤ (getHashArea epoch).1

/-- The product does not wrap, so a step is a division by `α`. -/
theorem hashAreaStep_of_lt {temp : Nat} (h : temp < 2 ^ 256) :
    hashAreaStep temp = temp * 1000000000000000 / 1001776032062287 := by
  have hlt : temp * 1000000000000000 < uint512Size := by
    unfold uint512Size
    omega
  rw [hashAreaStep, Nat.mod_eq_of_lt hlt]

theorem hashAreaStep_le {temp : Nat} (h : temp < 2 ^ 256) : hashAreaStep temp ≤ temp := by
  rw [hashAreaStep_of_lt h]
  omega

theorem iterate_hashAreaStep_le {temp : Nat} (h : temp < 2 ^ 256) (n : Nat) :
    hashAreaStep^[n] temp ≤ temp := by
  induction n with
  | zero => exact le_refl _
  | succ n ih =>
    rw [Function.iterate_succ_apply']
    exact (hashAreaStep_le (ih.trans_lt h)).trans ih

theorem iterate_hashAreaStep_mul_le {temp : Nat} (h : temp < 2 ^ 256) (n : Nat) :
    hashAreaStep^[n] temp * 1001776032062287 ^ n ≤ temp * 1000000000000000 ^ n := by
  induction n with
  | zero => exact le_refl _
  | succ n ih =>
    have hlt := (iterate_hashAreaStep_le h n).trans_lt h
    rw [Function.iterate_succ_apply', hashAreaStep_of_lt hlt]
    calc hashAreaStep^[n] temp * 1000000000000000 / 1001776032062287 * 1001776032062287 ^ (n + 1)
        = hashAreaStep^[n] temp * 1000000000000000 / 1001776032062287 * 1001776032062287 *
            1001776032062287 ^ n := by ring
      _ ≤ hashAreaStep^[n] temp * 1000000000000000 * 1001776032062287 ^ n :=
          Nat.mul_le_mul_right _ (Nat.div_mul_le_self _ _)
      _ = hashAreaStep^[n] temp * 1001776032062287 ^ n * 1000000000000000 := by ring
      _ ≤ temp * 1000000000000000 ^ n * 1000000000000000 := Nat.mul_le_mul_right _ ih
      _ = temp * 1000000000000000 ^ (n + 1) := by ring

/-- 391 steps halve the limit. -/
theorem iterate_hashAreaStep_halves {temp : Nat} (h : temp < 2 ^ 256) :
    2 * hashAreaStep^[391] temp ≤ temp := by
  have hα : 2 * 1000000000000000 ^ 391 ≤ 1001776032062287 ^ 391 := by decide +kernel
  have hpos : ∀ n, 0 < 1000000000000000 ^ n := fun n => Nat.pow_pos (by omega)
  refine Nat.le_of_mul_le_mul_right ?_ (hpos 391)
  calc 2 * hashAreaStep^[391] temp * 1000000000000000 ^ 391
      = hashAreaStep^[391] temp * (2 * 1000000000000000 ^ 391) := by
        rw [Nat.mul_comm 2, Nat.mul_assoc]
    _ ≤ hashAreaStep^[391] temp * 1001776032062287 ^ 391 := Nat.mul_le_mul_left _ hα
    _ ≤ temp * 1000000000000000 ^ 391 := iterate_hashAreaStep_mul_le h 391

theorem pow_mul_iterate_hashAreaStep_le {temp : Nat} (h : temp < 2 ^ 256) (k : Nat) :
    2 ^ k * hashAreaStep^[391 * k] temp ≤ temp := by
  induction k with
  | zero => exact (one_mul temp).le
  | succ k ih =>
    have hlt := (iterate_hashAreaStep_le h (391 * k)).trans_lt h
    have hhalf := iterate_hashAreaStep_halves hlt
    rw [← Function.iterate_add_apply, show 391 + 391 * k = 391 * (k + 1) by ring] at hhalf
    calc 2 ^ (k + 1) * hashAreaStep^[391 * (k + 1)] temp
        = 2 ^ k * (2 * hashAreaStep^[391 * (k + 1)] temp) := by ring
      _ ≤ 2 ^ k * hashAreaStep^[391 * k] temp := Nat.mul_le_mul_left _ hhalf
      _ ≤ temp := ih

theorem iterate_hashAreaStep_exhausted {n : Nat} (h : exhaustedEpoch ≤ n) :
    hashAreaStep^[n] (2 ^ 256 - 1) = 0 := by
  have hzero : hashAreaStep^[exhaustedEpoch] (2 ^ 256 - 1) = 0 := by
    have hle := pow_mul_iterate_hashAreaStep_le (show 2 ^ 256 - 1 < 2 ^ 256 by omega) 256
    by_contra hne
    have hpos : 1 ≤ hashAreaStep^[391 * 256] (2 ^ 256 - 1) := Nat.one_le_iff_ne_zero.2 hne
    have := Nat.mul_le_mul_left (2 ^ 256) hpos
    omega
  obtain ⟨m, rfl⟩ := Nat.exists_eq_add_of_le h
  rw [Nat.add_comm, Function.iterate_add_apply, hzero]
  exact Nat.le_zero.1 (iterate_hashAreaStep_le (by omega) m)

theorem getHashArea_exhausted {epoch : Epoch} (h : exhaustedEpoch ≤ epoch.toNat) :
    (getHashArea epoch).1 = 0 := by
  unfold getHashArea
  dsimp only
  rw [iterate_hashAreaStep_exhausted h]
  rfl

/-- **Two hashes need an area that is not exhausted.** -/
theorem epoch_lt_of_two_hashes {epoch : Epoch} {hashes : List Hash}
    (hasc : hashes.Pairwise (· < ·)) (harea : ∀ hash ∈ hashes, InHashArea epoch hash)
    (hlen : 1 < hashes.length) : epoch.toNat < exhaustedEpoch := by
  by_contra hge
  have hzero := getHashArea_exhausted (not_lt.1 hge)
  match hashes, hlen with
  | a :: b :: rest, _ =>
    have hab : a < b := (List.pairwise_cons.1 hasc).1 b (List.mem_cons_self ..)
    have hb := (harea b (List.mem_cons_of_mem _ (List.mem_cons_self ..))).2
    rw [hzero] at hb
    exact absurd (hab.trans_le hb) (not_lt.2 (Fin.zero_le a))

/-! ## Side by side -/

/-- The largest hash of an epoch. -/
def hashLimit (epoch : Nat) : Nat := hashAreaStep^[epoch] (2 ^ 256 - 1)

theorem hashLimit_lt (epoch : Nat) : hashLimit epoch < 2 ^ 256 := by
  have hle := iterate_hashAreaStep_le (show 2 ^ 256 - 1 < 2 ^ 256 by omega) epoch
  exact lt_of_le_of_lt hle (by omega)

theorem hashLimit_succ (epoch : Nat) : hashLimit (epoch + 1) = hashAreaStep (hashLimit epoch) :=
  Function.iterate_succ_apply' ..

theorem hashLimit_antitone {a b : Nat} (h : a ≤ b) : hashLimit b ≤ hashLimit a := by
  obtain ⟨n, rfl⟩ := Nat.exists_eq_add_of_le h
  rw [hashLimit, Nat.add_comm, Function.iterate_add_apply]
  exact iterate_hashAreaStep_le (hashLimit_lt a) n

theorem hashLimit_succ_lt {epoch : Nat} (h : 0 < hashLimit epoch) :
    hashLimit (epoch + 1) < hashLimit epoch := by
  rw [hashLimit_succ, hashAreaStep_of_lt (hashLimit_lt epoch)]
  omega

theorem getHashArea_max (epoch : Epoch) : (getHashArea epoch).1.val = hashLimit epoch.toNat :=
  Nat.mod_eq_of_lt (hashLimit_lt epoch.toNat)

/-- The lower limit, before it is compared with the upper one. -/
theorem val_hashAreaStep_succ (epoch : Nat) :
    (Fin.ofNat (2 ^ 256) (hashAreaStep (hashLimit epoch)) + 1 : Hash).val =
      hashLimit (epoch + 1) + 1 := by
  have hlimit : hashLimit (epoch + 1) < 2 ^ 256 - 1 := by
    rw [hashLimit_succ, hashAreaStep_of_lt (hashLimit_lt epoch)]
    have hlt := hashLimit_lt epoch
    omega
  rw [← hashLimit_succ, Fin.val_add]
  show (hashLimit (epoch + 1) % 2 ^ 256 + 1 % 2 ^ 256) % 2 ^ 256 = _
  omega

theorem getHashArea_min (epoch : Epoch) :
    (getHashArea epoch).2.val =
      min (hashLimit (epoch.toNat + 1) + 1) (hashLimit epoch.toNat) := by
  show (min (Fin.ofNat (2 ^ 256) (hashAreaStep (getHashArea epoch).1.val) + 1)
    (getHashArea epoch).1).val = _
  rw [Fin.val_strictMono.monotone.map_min, getHashArea_max, val_hashAreaStep_succ]

/-- **The area of an epoch** goes from its limit down to that of the next one, exclusively. -/
theorem inHashArea_iff_of_pos {epoch : Epoch} (h : 0 < hashLimit epoch.toNat) {hash : Hash} :
    InHashArea epoch hash ↔
      hashLimit (epoch.toNat + 1) < hash.val ∧ hash.val ≤ hashLimit epoch.toNat := by
  have hsucc := hashLimit_succ_lt h
  unfold InHashArea
  rw [Fin.le_def, Fin.le_def, getHashArea_max, getHashArea_min, min_eq_left hsucc]
  exact Iff.rfl

/-- The limits of the epochs divide up the hashes. -/
structure PartitionsHashes : Prop where
  /-- No product of the loop is cut to 512 bits. -/
  loopFits : ∀ (epoch : Epoch), ∀ i < epoch.toNat,
    hashAreaStep^[i] (2 ^ 256 - 1) * 1000000000000000 < uint512Size
  /-- Nor is the product for the lower limit. -/
  lowerFits : ∀ epoch, (getHashArea epoch).1.val * 1000000000000000 < uint512Size
  ordered : ∀ epoch, (getHashArea epoch).2 ≤ (getHashArea epoch).1
  /-- Where one area ends, the next one begins. -/
  adjacent : ∀ epoch, 1 ≤ (getHashArea epoch).1.val →
    (getHashArea epoch).2.val = (getHashArea (epoch + 1)).1.val + 1
  covered : ∀ hash : Hash, 1 ≤ hash.val → ∃! epoch, InHashArea epoch hash

theorem hashLimit_mul_lt (epoch : Nat) : hashLimit epoch * 1000000000000000 < uint512Size := by
  have hlt := hashLimit_lt epoch
  unfold uint512Size
  omega

theorem limits_of_inHashArea {epoch : Epoch} {hash : Hash} (hpos : 1 ≤ hash.val)
    (h : InHashArea epoch hash) :
    hashLimit (epoch.toNat + 1) < hash.val ∧ hash.val ≤ hashLimit epoch.toNat := by
  have hmax : hash.val ≤ hashLimit epoch.toNat := by
    rw [← getHashArea_max]
    exact h.2
  exact (inHashArea_iff_of_pos (lt_of_lt_of_le hpos hmax)).1 h

/-- The last epoch whose limit a hash does not exceed. -/
theorem exists_between_limits {hash : Hash} (hpos : 1 ≤ hash.val) :
    ∃ epoch < exhaustedEpoch, hashLimit (epoch + 1) < hash.val ∧ hash.val ≤ hashLimit epoch := by
  have hexhausted : hashLimit exhaustedEpoch < hash.val := by
    rw [hashLimit, iterate_hashAreaStep_exhausted (le_refl _)]
    exact hpos
  have hexists : ∃ n, hashLimit n < hash.val := ⟨exhaustedEpoch, hexhausted⟩
  have hfirst : Nat.find hexists ≠ 0 := by
    intro hzero
    have hfound := Nat.find_spec hexists
    have hlt := hash.isLt
    rw [hzero] at hfound
    simp only [hashLimit, Function.iterate_zero, id_eq] at hfound
    omega
  obtain ⟨epoch, hepoch⟩ := Nat.exists_eq_succ_of_ne_zero hfirst
  have hbound : Nat.find hexists ≤ exhaustedEpoch := Nat.find_min' hexists hexhausted
  refine ⟨epoch, by omega, ?_, ?_⟩
  · have hfound := Nat.find_spec hexists
    rwa [hepoch] at hfound
  · have hbefore := Nat.find_min hexists (show epoch < Nat.find hexists by omega)
    exact not_lt.1 hbefore

/-- **Every hash but zero belongs to one epoch.** -/
theorem existsUnique_inHashArea {hash : Hash} (hpos : 1 ≤ hash.val) :
    ∃! epoch, InHashArea epoch hash := by
  obtain ⟨n, hn, hlow, hhigh⟩ := exists_between_limits hpos
  have hbound : exhaustedEpoch = 391 * 256 := rfl
  have htoNat : (UInt64.ofNat n).toNat = n := by
    rw [UInt64.toNat_ofNat', Nat.mod_eq_of_lt (by omega)]
  refine ⟨UInt64.ofNat n, ?_, ?_⟩
  · show InHashArea (UInt64.ofNat n) hash
    have hlimit : 0 < hashLimit (UInt64.ofNat n).toNat := by
      rw [htoNat]
      omega
    rw [inHashArea_iff_of_pos hlimit, htoNat]
    exact ⟨hlow, hhigh⟩
  · intro epoch hepoch
    obtain ⟨hlow', hhigh'⟩ := limits_of_inHashArea hpos hepoch
    rw [← UInt64.toNat_inj, htoNat]
    -- of two different epochs, the later one has its whole area below the earlier one's
    rcases Nat.lt_trichotomy epoch.toNat n with hlt | heq | hgt
    · have hle := hashLimit_antitone (show epoch.toNat + 1 ≤ n from hlt)
      omega
    · exact heq
    · have hle := hashLimit_antitone (show n + 1 ≤ epoch.toNat from hgt)
      omega

theorem getHashArea_adjacent {epoch : Epoch} (h : 1 ≤ (getHashArea epoch).1.val) :
    (getHashArea epoch).2.val = (getHashArea (epoch + 1)).1.val + 1 := by
  rw [getHashArea_max] at h
  -- the counter does not come round: the last epoch is exhausted
  have hlt : epoch.toNat < exhaustedEpoch := by
    by_contra hge
    rw [hashLimit, iterate_hashAreaStep_exhausted (not_lt.1 hge)] at h
    omega
  have hbound : exhaustedEpoch = 391 * 256 := rfl
  have hsucc : (epoch + 1).toNat = epoch.toNat + 1 := by
    rw [UInt64.toNat_add, UInt64.toNat_one]
    omega
  rw [getHashArea_min, getHashArea_max, hsucc, min_eq_left (hashLimit_succ_lt h)]

/-- **The areas divide up the hashes.** -/
theorem partitionsHashes : PartitionsHashes where
  loopFits _ i _ := hashLimit_mul_lt i
  lowerFits epoch := by
    rw [getHashArea_max]
    exact hashLimit_mul_lt epoch.toNat
  ordered epoch := by
    rw [Fin.le_def, getHashArea_max, getHashArea_min]
    exact min_le_right _ _
  adjacent _ h := getHashArea_adjacent h
  covered _ h := existsUnique_inHashArea h

end SwabianCoin
