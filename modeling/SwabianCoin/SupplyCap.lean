import SwabianCoin.Baseline
import SwabianCoin.SignedOnce
import Mathlib.Order.Interval.Finset.Nat

/-!
# The supply cap

The check of a baseline compares neighbours and looks at the first and the last hash of each
epoch. Together with the shape of the areas this is enough: the areas of different epochs are
disjoint, so no coin appears twice, and the area of epoch `92538` has fewer than a thousand
hashes, so this epoch is never completed and there is none after it.

The limit of an epoch comes from as many rounded divisions. Rounding loses less than `565` in
total, which leaves one comparison of large powers on either side.
-/

namespace SwabianCoin

open Machine

/-! ## Limits -/

/-- The last epoch that can be entered. -/
def highestEpoch : Nat := 92538

/-- One rounded division loses little. -/
theorem hashAreaStep_add_mul_ge {temp : Nat} (h : temp < 2 ^ 256) :
    (temp + 565) * 1000000000000000 ≤ (hashAreaStep temp + 565) * 1001776032062287 := by
  rw [hashAreaStep_of_lt h]
  omega

theorem iterate_hashAreaStep_add_mul_ge {temp : Nat} (h : temp < 2 ^ 256) (n : Nat) :
    (temp + 565) * 1000000000000000 ^ n ≤
      (hashAreaStep^[n] temp + 565) * 1001776032062287 ^ n := by
  induction n with
  | zero => exact le_refl _
  | succ n ih =>
    have hlt := (iterate_hashAreaStep_le h n).trans_lt h
    rw [Function.iterate_succ_apply']
    calc (temp + 565) * 1000000000000000 ^ (n + 1)
        = (temp + 565) * 1000000000000000 ^ n * 1000000000000000 := by ring
      _ ≤ (hashAreaStep^[n] temp + 565) * 1001776032062287 ^ n * 1000000000000000 :=
          Nat.mul_le_mul_right _ ih
      _ = (hashAreaStep^[n] temp + 565) * 1000000000000000 * 1001776032062287 ^ n := by ring
      _ ≤ (hashAreaStep (hashAreaStep^[n] temp) + 565) * 1001776032062287 *
            1001776032062287 ^ n := Nat.mul_le_mul_right _ (hashAreaStep_add_mul_ge hlt)
      _ = (hashAreaStep (hashAreaStep^[n] temp) + 565) * 1001776032062287 ^ (n + 1) := by ring

theorem hashAreaStep_mono {a b : Nat} (hab : a ≤ b) (hb : b < 2 ^ 256) :
    hashAreaStep a ≤ hashAreaStep b := by
  rw [hashAreaStep_of_lt (lt_of_le_of_lt hab hb), hashAreaStep_of_lt hb]
  exact Nat.div_le_div_right (Nat.mul_le_mul_right _ hab)

theorem iterate_hashAreaStep_mono {a b : Nat} (hab : a ≤ b) (hb : b < 2 ^ 256) (n : Nat) :
    hashAreaStep^[n] a ≤ hashAreaStep^[n] b := by
  induction n with
  | zero => exact hab
  | succ n ih =>
    rw [Function.iterate_succ_apply', Function.iterate_succ_apply']
    exact hashAreaStep_mono ih (lt_of_le_of_lt (iterate_hashAreaStep_le hb n) hb)

theorem hashLimit_mul_le (epoch : Nat) :
    hashLimit epoch * 1001776032062287 ^ epoch ≤ (2 ^ 256 - 1) * 1000000000000000 ^ epoch :=
  iterate_hashAreaStep_mul_le (by omega) epoch

theorem hashLimit_add_mul_ge (epoch : Nat) :
    (2 ^ 256 - 1 + 565) * 1000000000000000 ^ epoch ≤
      (hashLimit epoch + 565) * 1001776032062287 ^ epoch :=
  iterate_hashAreaStep_add_mul_ge (by omega) epoch

/-- An epoch shortly before the highest one. -/
def lateEpoch : Nat := 92338

theorem hashLimit_lateEpoch_lt : hashLimit lateEpoch < 802822 := by
  have hpowers : (2 ^ 256 - 1) * 1000000000000000 ^ lateEpoch <
      802822 * 1001776032062287 ^ lateEpoch := by decide +kernel
  have hmul := lt_of_le_of_lt (hashLimit_mul_le lateEpoch) hpowers
  generalize hashLimit lateEpoch = limit at *
  generalize 1001776032062287 ^ lateEpoch = power at *
  exact Nat.lt_of_mul_lt_mul_right hmul

/-- From there on the roundings are carried out, since here they matter. -/
theorem hashLimit_highestEpoch_le : hashLimit highestEpoch ≤ 562924 := by
  have hlate := Nat.le_of_lt_succ hashLimit_lateEpoch_lt
  have hsteps : hashLimit highestEpoch = hashAreaStep^[200] (hashLimit lateEpoch) :=
    Function.iterate_add_apply hashAreaStep 200 lateEpoch (2 ^ 256 - 1)
  have hfinal : hashAreaStep^[200] 802821 ≤ 562924 := by decide +kernel
  rw [hsteps]
  exact (iterate_hashAreaStep_mono hlate (by omega) 200).trans hfinal

theorem hashLimit_highestEpoch_pos : 0 < hashLimit highestEpoch := by
  have hpowers : 566 * 1001776032062287 ^ highestEpoch ≤
      (2 ^ 256 - 1 + 565) * 1000000000000000 ^ highestEpoch := by decide +kernel
  have hmul := hpowers.trans (hashLimit_add_mul_ge highestEpoch)
  have hpos : 0 < 1001776032062287 ^ highestEpoch := Nat.pow_pos (by omega)
  generalize hashLimit highestEpoch = limit at *
  generalize 1001776032062287 ^ highestEpoch = power at *
  have hsum : 566 ≤ limit + 565 := Nat.le_of_mul_le_mul_right hmul hpos
  omega

theorem inHashArea_iff {epoch : Nat} (h : epoch ≤ highestEpoch) {hash : Hash} :
    InHashArea (UInt64.ofNat epoch) hash ↔
      hashLimit (epoch + 1) < hash.val ∧ hash.val ≤ hashLimit epoch := by
  have hbound : highestEpoch = 92538 := rfl
  have hepoch : (UInt64.ofNat epoch).toNat = epoch := by
    rw [UInt64.toNat_ofNat', Nat.mod_eq_of_lt (by omega)]
  have hpos := lt_of_lt_of_le hashLimit_highestEpoch_pos (hashLimit_antitone h)
  rw [inHashArea_iff_of_pos (by rwa [hepoch]), hepoch]

/-! ## One epoch -/

theorem pairwise_lt_of_isChain {hashes : List Hash} (hle : hashes.IsChain (· ≤ ·))
    (hne : hashes.IsChain (· ≠ ·)) : hashes.Pairwise (· < ·) := by
  rw [← List.isChain_iff_pairwise]
  induction hashes with
  | nil => exact List.IsChain.nil
  | cons first rest ih =>
    cases rest with
    | nil => exact List.IsChain.singleton _
    | cons second rest =>
      rw [List.isChain_cons_cons] at *
      exact ⟨lt_of_le_of_ne hle.1 hne.1, ih hle.2 hne.2⟩

/-- If the first and the last hash of an ascending list lie in the area, all do. -/
theorem inHashArea_of_ends {epoch : Epoch} {hashes : List Hash} (hasc : hashes.Pairwise (· < ·))
    (h : insideHashArea epoch hashes = true) : ∀ hash ∈ hashes, InHashArea epoch hash := by
  intro hash hmem
  have hne : hashes ≠ [] := List.ne_nil_of_mem hmem
  have hempty : hashes.isEmpty = false := List.isEmpty_eq_false_iff.2 hne
  simp only [insideHashArea, hempty, Bool.false_or, Bool.and_eq_true, decide_eq_true_eq] at h
  obtain ⟨⟨⟨hlow, -⟩, -⟩, hhigh⟩ := h
  constructor
  · refine le_trans hlow ?_
    cases hashes with
    | nil => exact absurd rfl hne
    | cons first rest =>
      rcases List.mem_cons.1 hmem with rfl | hrest
      · exact le_refl _
      · exact le_of_lt ((List.pairwise_cons.1 hasc).1 hash hrest)
  · refine le_trans ?_ hhigh
    obtain ⟨front, last, rfl⟩ := List.eq_nil_or_concat hashes |>.resolve_left hne
    rw [List.concat_eq_append] at hmem hasc ⊢
    rw [List.getLastD_concat]
    rcases List.mem_append.1 hmem with hfront | hlast
    · exact le_of_lt
        ((List.pairwise_append.1 hasc).2.2 hash hfront last (List.mem_singleton_self _))
    · exact le_of_eq (List.mem_singleton.1 hlast)

theorem length_le_of_ascending {hashes : List Hash} {low high : Nat}
    (hasc : hashes.Pairwise (· < ·))
    (hbetween : ∀ hash ∈ hashes, low < hash.val ∧ hash.val ≤ high) :
    hashes.length ≤ high - low := by
  have hnodup : (hashes.map Fin.val).Nodup :=
    List.Nodup.map Fin.val_injective (hasc.imp ne_of_lt)
  have hsub : (hashes.map Fin.val).toFinset ⊆ Finset.Ioc low high := by
    intro value hvalue
    obtain ⟨hash, hmem, rfl⟩ := List.mem_map.1 (List.mem_toFinset.1 hvalue)
    exact Finset.mem_Ioc.2 (hbetween hash hmem)
  have hcard := Finset.card_le_card hsub
  rw [List.toFinset_card_of_nodup hnodup, List.length_map, Nat.card_Ioc] at hcard
  exact hcard

/-- **The highest epoch is never completed.** -/
theorem length_highestEpoch_le {hashes : List Hash} (h : EpochHashesOk highestEpoch hashes) :
    hashes.length ≤ 998 := by
  have hlimit := hashLimit_highestEpoch_le
  have hlength := length_le_of_ascending h.ascending fun hash hmem =>
    (inHashArea_iff (le_refl _)).1 (h.inArea hash hmem)
  rw [hashLimit_succ, hashAreaStep_of_lt (hashLimit_lt highestEpoch)] at hlength
  generalize hashLimit highestEpoch = limit at *
  omega

/-! ## All epochs -/

theorem length_of_epochSizesOk {epochs : List (List Hash)} (h : epochSizesOk epochs = true)
    {i : Nat} {hashes : List Hash} (hget : epochs[i]? = some hashes) :
    hashes.length ≤ 1000 ∧ (i + 1 < epochs.length → hashes.length = 1000) := by
  have hmax : maxNumCreations.toNat = 1000 := rfl
  induction epochs generalizing i with
  | nil => simp at hget
  | cons first rest ih =>
    cases rest with
    | nil =>
      simp only [epochSizesOk, decide_eq_true_eq, hmax] at h
      cases i with
      | zero =>
        cases hget
        exact ⟨h, fun hlt => absurd hlt (by simp)⟩
      | succ i => simp at hget
    | cons second rest =>
      simp only [epochSizesOk, Bool.and_eq_true, beq_iff_eq, hmax] at h
      cases i with
      | zero =>
        cases hget
        exact ⟨le_of_eq h.1, fun _ => h.1⟩
      | succ i =>
        obtain ⟨hle, hfull⟩ := ih h.2 hget
        refine ⟨hle, fun hlt => hfull ?_⟩
        rw [List.length_cons] at hlt
        omega

theorem insideHashArea_of_hashAreasOk {epochs : List (List Hash)} {start : Nat}
    (h : hashAreasOk (UInt32.ofNat start) epochs = true) {i : Nat} {hashes : List Hash}
    (hget : epochs[i]? = some hashes) :
    insideHashArea (UInt32.ofNat (start + i)).toUInt64 hashes = true := by
  induction epochs generalizing start i with
  | nil => simp at hget
  | cons first rest ih =>
    have hnext : UInt32.ofNat start + 1 = UInt32.ofNat (start + 1) :=
      (UInt32.ofNat_add start 1).symm
    rw [hashAreasOk, hnext, Bool.and_eq_true] at h
    cases i with
    | zero =>
      cases hget
      exact h.1
    | succ i =>
      have hrest := ih h.2 hget
      rwa [Nat.add_assoc, Nat.add_comm 1 i] at hrest

/-- What the shape checks of `validateBlockWithoutContext` say about the lists of hashes. -/
structure EpochsChecked (epochs : List (List Hash)) : Prop where
  sizes : epochSizesOk epochs = true
  ascending : ∀ hashes ∈ epochs, hashes.Pairwise (· < ·)
  areas : hashAreasOk 0 epochs = true

theorem epochsChecked_of_valid {crypto : CryptoHelper} {block : BaselineBlock}
    (h : validateBlockWithoutContext crypto block = true) :
    EpochsChecked block.dataValueHashes := by
  simp only [validateBlockWithoutContext, Bool.and_eq_true, and_assoc, List.all_eq_true,
    decide_eq_true_eq] at h
  obtain ⟨-, -, -, -, -, -, hsizes, hsorted, hdiffer, hareas, -⟩ := h
  exact ⟨hsizes, fun hashes hmem => pairwise_lt_of_isChain (hsorted hashes hmem)
    (hdiffer hashes hmem), hareas⟩

namespace EpochsChecked

variable {epochs : List (List Hash)}

theorem epochOk (h : EpochsChecked epochs) {epoch : Nat} (hepoch : epoch ≤ highestEpoch)
    {hashes : List Hash} (hget : epochs[epoch]? = some hashes) : EpochHashesOk epoch hashes := by
  have hasc := h.ascending hashes (List.mem_of_getElem? hget)
  have hinside := insideHashArea_of_hashAreasOk h.areas hget
  have hbound : highestEpoch = 92538 := rfl
  have hcounter : (UInt32.ofNat (0 + epoch)).toUInt64 = UInt64.ofNat epoch := by
    refine UInt64.toNat_inj.1 ?_
    rw [UInt32.toNat_toUInt64, UInt32.toNat_ofNat', UInt64.toNat_ofNat']
    omega
  rw [hcounter] at hinside
  exact ⟨hasc, inHashArea_of_ends hasc hinside⟩

/-- **There is no epoch after the highest one**: an epoch that is followed by another is full. -/
theorem length_le (h : EpochsChecked epochs) : epochs.length ≤ highestEpoch + 1 := by
  by_contra hlong
  have hlt : highestEpoch < epochs.length := by omega
  have hget : epochs[highestEpoch]? = some (epochs.get ⟨highestEpoch, hlt⟩) :=
    List.getElem?_eq_getElem hlt
  have hfull := (length_of_epochSizesOk h.sizes hget).2 (by omega)
  have hshort := length_highestEpoch_le (h.epochOk (le_refl _) hget)
  omega

theorem allEpochsOk (h : EpochsChecked epochs) : AllEpochsOk epochs := by
  intro epoch hashes hget
  have hlt := (List.getElem?_eq_some_iff.1 hget).1
  have hlength := h.length_le
  exact h.epochOk (by omega) hget

theorem lt_of_epoch_lt (h : EpochsChecked epochs) {a b : Nat} (hab : a < b)
    {early late : List Hash} (hearly : epochs[a]? = some early) (hlate : epochs[b]? = some late)
    {hash other : Hash} (hmem : hash ∈ early) (hother : other ∈ late) : other < hash := by
  have hlt := (List.getElem?_eq_some_iff.1 hlate).1
  have hlength := h.length_le
  have hlow := ((inHashArea_iff (by omega)).1 ((h.allEpochsOk a early hearly).inArea hash hmem)).1
  have hhigh := ((inHashArea_iff (by omega)).1 ((h.allEpochsOk b late hlate).inArea other hother)).2
  rw [Fin.lt_def]
  exact lt_of_le_of_lt (hhigh.trans (hashLimit_antitone hab)) hlow

/-- **No coin appears twice.** -/
theorem nodup_flatten (h : EpochsChecked epochs) : epochs.flatten.Nodup := by
  refine List.nodup_flatten.2 ⟨fun hashes hmem => (h.ascending hashes hmem).imp ne_of_lt, ?_⟩
  rw [List.pairwise_iff_getElem]
  intro a b ha hb hab hash hearly hlate
  have hlt := h.lt_of_epoch_lt hab (List.getElem?_eq_getElem ha) (List.getElem?_eq_getElem hb)
    hearly hlate
  exact lt_irrefl _ hlt

theorem completed_le (h : EpochsChecked epochs) :
    epochs.countP (fun hashes => hashes.length == 1000) ≤ highestEpoch := by
  have hlength := h.length_le
  have hcount := List.countP_le_length (p := fun hashes : List Hash => hashes.length == 1000)
    (l := epochs)
  by_contra hmany
  have hall : epochs.countP (fun hashes => hashes.length == 1000) = epochs.length := by omega
  have hlt : highestEpoch < epochs.length := by omega
  have hget : epochs[highestEpoch]? = some (epochs.get ⟨highestEpoch, hlt⟩) :=
    List.getElem?_eq_getElem hlt
  have hfull := List.countP_eq_length.1 hall _ (List.mem_of_getElem? hget)
  have hshort := length_highestEpoch_le (h.epochOk (le_refl _) hget)
  rw [beq_iff_eq] at hfull
  omega

/-- **The supply cap.** -/
theorem length_flatten_le (h : EpochsChecked epochs) : epochs.flatten.length ≤ 92538998 := by
  have hlength := h.length_le
  have hsmall : ∀ hashes ∈ epochs, hashes.length ≤ 1000 := by
    intro hashes hmem
    obtain ⟨epoch, hget⟩ := List.mem_iff_getElem?.1 hmem
    exact (length_of_epochSizesOk h.sizes hget).1
  have hsum (lists : List (List Hash)) (hlists : ∀ hashes ∈ lists, hashes.length ≤ 1000) :
      lists.flatten.length ≤ lists.length * 1000 := by
    rw [List.length_flatten]
    have hle := List.sum_le_card_nsmul (lists.map List.length) 1000 (by simpa using hlists)
    simpa using hle
  have hbound : highestEpoch = 92538 := rfl
  by_cases hlt : highestEpoch < epochs.length
  · -- The last list is that of the highest epoch.
    obtain ⟨front, last, rfl⟩ := List.eq_nil_or_concat epochs |>.resolve_left
      (List.ne_nil_of_length_pos (by omega))
    rw [List.concat_eq_append] at *
    rw [List.length_append, List.length_singleton] at hlength hlt
    have hfront : front.length = highestEpoch := by omega
    have hget : (front ++ [last])[highestEpoch]? = some last := by
      rw [← hfront]
      exact List.getElem?_concat_length
    have hlast := length_highestEpoch_le (h.epochOk (le_refl _) hget)
    have hrest := hsum front fun hashes hmem => hsmall hashes (List.mem_append_left _ hmem)
    rw [List.flatten_append, List.length_append, List.flatten_singleton]
    omega
  · have hall := hsum epochs hsmall
    omega

end EpochsChecked

/-- **What an accepted baseline guarantees.** Every hash lies in the area of its epoch, no hash
appears twice in any epochs, and the supply is capped. -/
theorem validBaseline_supply (crypto : CryptoHelper) (block : BaselineBlock)
    (h : validateBlockWithoutContext crypto block = true) :
    (∀ (epoch : Nat) (hashes : List Hash), block.dataValueHashes[epoch]? = some hashes →
        ∀ hash ∈ hashes, (getHashArea (UInt64.ofNat epoch)).2 ≤ hash ∧
          hash ≤ (getHashArea (UInt64.ofNat epoch)).1) ∧
      block.dataValueHashes.flatten.Nodup ∧
      block.dataValueHashes.length ≤ 92539 ∧
      block.dataValueHashes.countP (fun hashes => hashes.length == 1000) ≤ 92538 ∧
      block.dataValueHashes.flatten.length ≤ 92538998 := by
  have hchecked := epochsChecked_of_valid h
  refine ⟨?_, hchecked.nodup_flatten, hchecked.length_le, hchecked.completed_le,
    hchecked.length_flatten_le⟩
  intro epoch hashes hget hash hmem
  exact (hchecked.allEpochsOk epoch hashes hget).inArea hash hmem

namespace Sample

/-- The baseline of a chain on which `keyA` and `keyB` have mined a coin each. -/
def twoCoins : BaselineBlock :=
  ((({} : Blockchain).initEmptyChain .sample).addBlock .sample
    (block root [] [coin root keyA [], coin root keyB [7]])).establishedBaseline .sample

end Sample

theorem minedBaseline_supply :
    Sample.twoCoins.dataValueHashes.flatten.length = 2 ∧
      Sample.twoCoins.dataValueHashes.flatten.Nodup :=
  ⟨by decide +kernel, (validBaseline_supply .sample Sample.twoCoins (by decide +kernel)).2.1⟩

/-! ## The sum of the wallets -/

/-- The check compares the two sums modulo `2 ^ 64`. -/
theorem totalBalance_modEq_of_valid {crypto : CryptoHelper} {block : BaselineBlock}
    (h : validateBlockWithoutContext crypto block = true) :
    (totalBalance block.wallets : ℤ) ≡
      fractionPerCoin.toNat * totalHashes block.dataValueHashes [ZMOD 2 ^ 64] := by
  simp only [validateBlockWithoutContext, Bool.and_eq_true, and_assoc, beq_iff_eq] at h
  obtain ⟨-, -, -, hsum, -⟩ := h
  have hhashes := sum_epochs_modEq block.dataValueHashes
  rw [hsum] at hhashes
  exact (toNat_sum_modEq block.wallets.values).symm.trans hhashes

/-- **When the sum check is exact.** The coins of an accepted baseline are capped far below
`2 ^ 64`, so only the balances can wrap round. -/
theorem validBaseline_exact_sum_iff (crypto : CryptoHelper) (block : BaselineBlock)
    (h : validateBlockWithoutContext crypto block = true) :
    totalBalance block.wallets = fractionPerCoin.toNat * totalHashes block.dataValueHashes ↔
      totalBalance block.wallets < 2 ^ 64 := by
  have hcap : totalHashes block.dataValueHashes ≤ 92538998 := by
    rw [totalHashes, ← List.length_flatten]
    exact (epochsChecked_of_valid h).length_flatten_le
  have hcoin : fractionPerCoin.toNat = 1000000 := rfl
  have hmod := totalBalance_modEq_of_valid h
  rw [hcoin] at hmod ⊢
  rw [Int.ModEq] at hmod
  omega

/-- The theorem at a baseline with one coin. -/
theorem minedBaseline_exact_sum :
    totalBalance (Sample.minedChain.establishedBaseline .sample).wallets = 1000000 ∧
      totalBalance (Sample.minedChain.establishedBaseline .sample).wallets =
        fractionPerCoin.toNat *
          totalHashes (Sample.minedChain.establishedBaseline .sample).dataValueHashes :=
  ⟨by decide +kernel, (validBaseline_exact_sum_iff .sample
    (Sample.minedChain.establishedBaseline .sample) (by decide +kernel)).2 (by decide +kernel)⟩

namespace Sample

/-- Two wallets of `2 ^ 63` fractions and not a single coin. -/
def inflatedBaseline : BaselineBlock :=
  CryptoHelper.sample.fillHash
    { header := { genericHeader := { blockType := .BaselineBlock }, blockUid := 1 }
      miningState := {}
      dataValueHashes := [[]]
      wallets := ((∅ : Wallets).insert keyA (2 ^ 63)).insert keyB (2 ^ 63) }

end Sample

/-- Balances of `2 ^ 64` altogether are accepted for no coin. -/
theorem inflated_baseline_accepted :
    ¬ ∀ (crypto : CryptoHelper) (block : BaselineBlock),
      validateBlockWithoutContext crypto block = true →
        totalBalance block.wallets =
          fractionPerCoin.toNat * totalHashes block.dataValueHashes := by
  intro h
  exact absurd (h .sample Sample.inflatedBaseline (by decide +kernel)) (by decide +kernel)

end SwabianCoin
