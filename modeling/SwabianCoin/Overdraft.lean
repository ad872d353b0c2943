import SwabianCoin.Ledger
import Mathlib.Algebra.Order.BigOperators.Group.List

/-!
# Who can pay?

`validateBlock` nets what a block gives to and takes from a wallet in 64-bit signed arithmetic and
compares the result with the balance (`Covers`). For a union of blocks that is a property of the
whole: if some of the transactions are left out, a payer may lack the money another transaction
would have given him. `Affords` is what survives leaving out: every payer has what he pays
altogether, and the amounts are small enough not to wrap.
-/

namespace SwabianCoin

open Machine

/-! ## The difference a block makes -/

/-- Differences and balances agree, read as unsigned integers. -/
def SameAmounts (diffs : WalletDiffs) (wallets : Wallets) : Prop :=
  ∀ key, (diffs.getD key 0).toUInt64 = wallets.getD key 0

theorem SameAmounts.update {diffs : WalletDiffs} {wallets : Wallets} (h : SameAmounts diffs wallets)
    (owner : PublicKeyPEM) {f : Int64 → Int64} {g : UInt64 → UInt64}
    (hfg : ∀ diff, (f diff).toUInt64 = g diff.toUInt64) :
    SameAmounts (diffs.update owner 0 f) (wallets.update owner 0 g) := by
  intro key
  rw [OrdMap.getD_update, OrdMap.getD_update]
  split_ifs with hkey
  · rw [hfg, h owner]
  · exact h key

theorem SameAmounts.foldl {γ : Type} {f : WalletDiffs → γ → WalletDiffs} {g : Wallets → γ → Wallets}
    (hstep : ∀ diffs wallets subBlock, SameAmounts diffs wallets →
      SameAmounts (f diffs subBlock) (g wallets subBlock))
    (subBlocks : List γ) {diffs : WalletDiffs} {wallets : Wallets}
    (h : SameAmounts diffs wallets) :
    SameAmounts (subBlocks.foldl f diffs) (subBlocks.foldl g wallets) := by
  induction subBlocks generalizing diffs wallets with
  | nil => exact h
  | cons subBlock rest ih => exact ih (hstep _ _ subBlock h)

/-- The differences are what the block would leave in wallets that were empty before. -/
theorem sameAmounts_walletDiffs (block : CollectionBlock) :
    SameAmounts (walletDiffs block) (applyBlock ∅ block) := by
  have hadd : ∀ (amount : UInt64) (diff : Int64),
      (addUnsigned diff amount).toUInt64 = diff.toUInt64 + amount := fun _ _ => rfl
  have hsub : ∀ (amount : UInt64) (diff : Int64),
      (subUnsigned diff amount).toUInt64 = diff.toUInt64 - amount := fun _ _ => rfl
  refine SameAmounts.foldl (fun _ _ transaction h => ?_) _
    (SameAmounts.foldl (fun _ _ creation h => ?_) _ fun _ => rfl)
  · exact (h.update transaction.preOwner (hsub transaction.fraction)).update transaction.postOwner
      (hadd transaction.fraction)
  · exact h.update creation.creator (hadd fractionPerCoin.toUInt64)

/-- **What a block changes**, up to multiples of `2 ^ 64`. -/
theorem walletDiffs_modEq (block : CollectionBlock) (key : PublicKeyPEM) :
    (((walletDiffs block).getD key 0).toUInt64.toNat : ℤ) ≡
      (block.minted key + block.received key : ℕ) - (block.sent key : ℕ) [ZMOD 2 ^ 64] := by
  rw [sameAmounts_walletDiffs block key, applyBlock]
  refine (getD_foldl_applyTransaction _ _ key).trans ?_
  refine (((getD_foldl_applyCreation _ _ key).add_right _).sub_right _).trans (modEq_of_eq ?_)
  rw [OrdMap.getD_empty, CollectionBlock.minted, CollectionBlock.received, CollectionBlock.sent]
  push_cast
  ring

/-! ## The check -/

theorem toInt_eq_of_modEq {a : Int64} {x : ℤ} (h : (a.toUInt64.toNat : ℤ) ≡ x [ZMOD 2 ^ 64])
    (hlow : -2 ^ 63 ≤ x) (hhigh : x < 2 ^ 63) : a.toInt = x := by
  have hbmod : a.toInt = Int.bmod a.toUInt64.toNat (2 ^ 64) := BitVec.toInt_eq_toNat_bmod _
  have hmod : (a.toUInt64.toNat : ℤ) % (2 ^ 64 : ℕ) = x % 2 ^ 64 := h
  rw [hbmod, Int.bmod_def, hmod]
  split_ifs <;> omega

/-- Whoever has what he pays is not overdrawn, as long as nothing wraps. -/
theorem overdrawn_eq_false {diff : Int64} {balance : UInt64} {credit debit : ℕ}
    (hdiff : (diff.toUInt64.toNat : ℤ) ≡ credit - debit [ZMOD 2 ^ 64]) (hcredit : credit < 2 ^ 63)
    (hdebit : debit = 0 ∨ debit ≤ balance.toNat ∧ balance.toNat < 2 ^ 63) :
    overdrawn diff balance = false := by
  have hd : diff.toInt = credit - debit := toInt_eq_of_modEq hdiff (by omega) (by omega)
  rw [overdrawn, Bool.and_eq_false_iff, decide_eq_false_iff_not, decide_eq_false_iff_not,
    Int64.lt_iff_toInt_lt, Int64.lt_iff_toInt_lt, Int64.toInt_zero, hd]
  by_cases hgain : debit ≤ credit
  · exact Or.inl (by omega)
  · refine Or.inr ?_
    obtain ⟨hle, hlt⟩ := hdebit.resolve_left (by omega)
    have hb : balance.toInt64.toInt = balance.toNat :=
      toInt_eq_of_modEq (Int.ModEq.refl _) (by omega) (by omega)
    rw [Int64.toInt_add, hd, hb, Int.bmod_def]
    split_ifs <;> omega

namespace Blockchain

/-- The balance check passes. -/
def Covers (bc : Blockchain) (block : CollectionBlock) : Prop :=
  ∀ diff ∈ (walletDiffs block).entries, overdrawn diff.2 (bc.getBalance diff.1) = false

instance (bc : Blockchain) (block : CollectionBlock) : Decidable (bc.Covers block) :=
  inferInstanceAs (Decidable (∀ diff ∈ (walletDiffs block).entries, _))

/-- Every payer has what he pays altogether, and no sum reaches `2 ^ 63`. -/
def Affords (bc : Blockchain) (block : CollectionBlock) : Prop :=
  (∀ transaction ∈ block.transactions.values,
    block.sent transaction.preOwner ≤ (bc.getBalance transaction.preOwner).toNat ∧
      (bc.getBalance transaction.preOwner).toNat < 2 ^ 63) ∧
    fractionPerCoin.toNat * block.creations.size +
      (block.transactions.values.map fun transaction => transaction.fraction.toNat).sum < 2 ^ 63

instance (bc : Blockchain) (block : CollectionBlock) : Decidable (bc.Affords block) :=
  inferInstanceAs (Decidable (_ ∧ _))

end Blockchain

/-! ## Leaving out -/

theorem sum_map_le_of_sublist {γ : Type} {l l' : List γ} (h : l.Sublist l') (f : γ → ℕ) :
    (l.map f).sum ≤ (l'.map f).sum :=
  (h.map f).sum_le_sum fun _ _ => Nat.zero_le _

theorem sentBy_le {transactions transactions' : List TransactionSubBlock}
    (h : transactions.Sublist transactions') (key : PublicKeyPEM) :
    sentBy transactions key ≤ sentBy transactions' key :=
  sum_map_le_of_sublist (h.filter _) _

theorem receivedBy_le_total (transactions : List TransactionSubBlock) (key : PublicKeyPEM) :
    receivedBy transactions key ≤
      (transactions.map fun transaction => transaction.fraction.toNat).sum :=
  sum_map_le_of_sublist List.filter_sublist _

/-- **Any part of what can be afforded passes the check.** -/
theorem Blockchain.Affords.covers {bc : Blockchain} {block part : CollectionBlock}
    (h : bc.Affords block) (htransactions : ∀ entry ∈ part.transactions, entry ∈ block.transactions)
    (hcreations : ∀ entry ∈ part.creations, entry ∈ block.creations) : bc.Covers part := by
  have hsubT : part.transactions.values.Sublist block.transactions.values :=
    (OrdMap.entries_sublist htransactions).map Prod.snd
  have hsubC : part.creations.values.Sublist block.creations.values :=
    (OrdMap.entries_sublist hcreations).map Prod.snd
  intro diff hdiff
  have hvalue : (walletDiffs part).getD diff.1 0 = diff.2 := OrdMap.getD_of_mem hdiff
  have hmod := walletDiffs_modEq part diff.1
  rw [hvalue] at hmod
  refine overdrawn_eq_false hmod ?_ ?_
  · have hreceived := receivedBy_le_total part.transactions.values diff.1
    have htotal := sum_map_le_of_sublist hsubT fun transaction => transaction.fraction.toNat
    have hminted : part.minted diff.1 ≤ fractionPerCoin.toNat * block.creations.size := by
      refine Nat.mul_le_mul_left _ (List.countP_le_length.trans ?_)
      have hlength := hsubC.length_le
      rw [OrdMap.values, OrdMap.values, List.length_map, List.length_map] at *
      exact hlength
    have hbound := h.2
    unfold CollectionBlock.received
    omega
  · by_cases hsent : part.sent diff.1 = 0
    · exact Or.inl hsent
    · obtain ⟨transaction, hmem, hpre⟩ := exists_preOwner_of_sent_pos (Nat.pos_of_ne_zero hsent)
      have hpayer := h.1 transaction (hsubT.mem hmem)
      rw [hpre] at hpayer
      exact Or.inr ⟨(sentBy_le hsubT diff.1).trans hpayer.1, hpayer.2⟩

end SwabianCoin
