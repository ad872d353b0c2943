import SwabianCoin.Assembly
import SwabianCoin.ChainRun
import Mathlib.Algebra.BigOperators.Group.List.Basic
import Mathlib.Tactic.Abel

/-!
# What a block does to the balances

The exact amounts a block mints, pays to and takes from a wallet are natural numbers. The chain
computes modulo `2 ^ 64`: the balance after a block is the residue of the exact one
(`balance_addBlock`). Everything about money follows from that. A run never takes more from a
wallet than the wallet signed for exactly when no step carries a balance past `2 ^ 64` by what
comes in.
-/

namespace SwabianCoin

open Machine

/-! ## Amounts -/

/-- What creations give to a wallet. -/
def mintedBy (creations : List CreationSubBlock) (key : PublicKeyPEM) : Nat :=
  fractionPerCoin.toNat * creations.countP fun creation => creation.creator = key

/-- What transactions pay to a wallet. -/
def receivedBy (transactions : List TransactionSubBlock) (key : PublicKeyPEM) : Nat :=
  ((transactions.filter fun transaction => transaction.postOwner = key).map
    fun transaction => transaction.fraction.toNat).sum

/-- What transactions take from a wallet. -/
def sentBy (transactions : List TransactionSubBlock) (key : PublicKeyPEM) : Nat :=
  ((transactions.filter fun transaction => transaction.preOwner = key).map
    fun transaction => transaction.fraction.toNat).sum

namespace CollectionBlock

def minted (block : CollectionBlock) (key : PublicKeyPEM) : Nat :=
  mintedBy block.creations.values key

def received (block : CollectionBlock) (key : PublicKeyPEM) : Nat :=
  receivedBy block.transactions.values key

def sent (block : CollectionBlock) (key : PublicKeyPEM) : Nat :=
  sentBy block.transactions.values key

end CollectionBlock

theorem receivedBy_cons (transaction : TransactionSubBlock) (rest : List TransactionSubBlock)
    (key : PublicKeyPEM) :
    receivedBy (transaction :: rest) key =
      (if transaction.postOwner = key then transaction.fraction.toNat else 0) +
        receivedBy rest key := by
  unfold receivedBy
  by_cases h : transaction.postOwner = key <;> simp [h]

theorem sentBy_cons (transaction : TransactionSubBlock) (rest : List TransactionSubBlock)
    (key : PublicKeyPEM) :
    sentBy (transaction :: rest) key =
      (if transaction.preOwner = key then transaction.fraction.toNat else 0) + sentBy rest key := by
  unfold sentBy
  by_cases h : transaction.preOwner = key <;> simp [h]

theorem mintedBy_cons (creation : CreationSubBlock) (rest : List CreationSubBlock)
    (key : PublicKeyPEM) :
    mintedBy (creation :: rest) key =
      (if creation.creator = key then fractionPerCoin.toNat else 0) + mintedBy rest key := by
  unfold mintedBy
  by_cases h : creation.creator = key <;> simp [h]
  ring

/-! ## The balance after a block -/

theorem getD_applyCreation (wallets : Wallets) (creation : CreationSubBlock)
    (key : PublicKeyPEM) :
    ((applyCreation wallets creation).getD key 0).toNat ≡
      ((wallets.getD key 0).toNat + if creation.creator = key then fractionPerCoin.toNat else 0 : ℤ)
        [ZMOD 2 ^ 64] := by
  unfold applyCreation
  rw [OrdMap.getD_update]
  by_cases h : creation.creator = key
  · subst h
    have hsum := toNat_add_modEq (wallets.getD creation.creator 0) fractionPerCoin.toUInt64
    rw [UInt32.toNat_toUInt64] at hsum
    rw [if_pos rfl, if_pos rfl]
    exact hsum
  · rw [if_neg h, if_neg (Ne.symm h), Nat.cast_zero, add_zero]

theorem getD_applyTransaction (wallets : Wallets) (transaction : TransactionSubBlock)
    (key : PublicKeyPEM) :
    ((applyTransaction wallets transaction).getD key 0).toNat ≡
      ((wallets.getD key 0).toNat +
          (if transaction.postOwner = key then transaction.fraction.toNat else 0 : ℤ) -
        (if transaction.preOwner = key then transaction.fraction.toNat else 0 : ℤ))
        [ZMOD 2 ^ 64] := by
  have hpre : (((wallets.update transaction.preOwner 0 (· - transaction.fraction)).getD
      key 0).toNat : ℤ) ≡
        (wallets.getD key 0).toNat -
          (if transaction.preOwner = key then transaction.fraction.toNat else 0 : ℤ)
        [ZMOD 2 ^ 64] := by
    rw [OrdMap.getD_update]
    by_cases h : transaction.preOwner = key
    · subst h
      simpa using toNat_sub_modEq (wallets.getD transaction.preOwner 0) transaction.fraction
    · simp [h, Ne.symm h, Int.ModEq.refl]
  unfold applyTransaction
  rw [OrdMap.getD_update]
  by_cases h : transaction.postOwner = key
  · subst h
    simp only [if_true]
    refine (toNat_add_modEq _ _).trans ?_
    have := hpre.add_right (transaction.fraction.toNat : ℤ)
    refine this.trans (modEq_of_eq ?_)
    ring
  · simp only [h, Ne.symm h, if_false, add_zero]
    exact hpre

theorem getD_foldl_applyCreation (creations : List CreationSubBlock) (wallets : Wallets)
    (key : PublicKeyPEM) :
    ((creations.foldl applyCreation wallets).getD key 0).toNat ≡
      ((wallets.getD key 0).toNat + mintedBy creations key : ℤ) [ZMOD 2 ^ 64] := by
  induction creations generalizing wallets with
  | nil => simp [mintedBy, Int.ModEq.refl]
  | cons creation rest ih =>
    refine (ih _).trans ?_
    refine ((getD_applyCreation wallets creation key).add_right _).trans (modEq_of_eq ?_)
    rw [mintedBy_cons]
    push_cast
    ring

theorem getD_foldl_applyTransaction (transactions : List TransactionSubBlock) (wallets : Wallets)
    (key : PublicKeyPEM) :
    ((transactions.foldl applyTransaction wallets).getD key 0).toNat ≡
      ((wallets.getD key 0).toNat + receivedBy transactions key - sentBy transactions key : ℤ)
        [ZMOD 2 ^ 64] := by
  induction transactions generalizing wallets with
  | nil => simp [receivedBy, sentBy, Int.ModEq.refl]
  | cons transaction rest ih =>
    refine (ih _).trans ?_
    refine (((getD_applyTransaction wallets transaction key).add_right _).sub_right _).trans
      (modEq_of_eq ?_)
    rw [receivedBy_cons, sentBy_cons]
    push_cast
    ring

/-- The balance a wallet would have after the block in exact arithmetic. -/
def exactBalance (bc : Blockchain) (block : CollectionBlock) (key : PublicKeyPEM) : ℤ :=
  (bc.getBalance key).toNat + block.minted key + block.received key - block.sent key

theorem updateCurrentBaseline_wallets (crypto : CryptoHelper) (baseline : BaselineBlock)
    (uid : BlockUid) (block : CollectionBlock) :
    (updateCurrentBaseline crypto baseline uid block).wallets =
      applyBlock baseline.wallets block := by
  simp only [updateCurrentBaseline]
  split_ifs <;> rfl

/-- **The balance after a block is the residue of the exact one.** -/
theorem balance_addBlock (crypto : CryptoHelper) (bc : Blockchain) (block : CollectionBlock)
    (key : PublicKeyPEM) :
    (((bc.addBlock crypto block).getBalance key).toNat : ℤ) =
      exactBalance bc block key % 2 ^ 64 := by
  apply toNat_eq_emod
  simp only [Blockchain.getBalance, Blockchain.addBlock]
  rw [updateCurrentBaseline_wallets, applyBlock]
  refine (getD_foldl_applyTransaction _ _ key).trans ?_
  refine (((getD_foldl_applyCreation _ _ key).add_right _).sub_right _).trans (modEq_of_eq ?_)
  rfl

/-! ## Debits -/

/-- Adding the block takes nothing from a wallet that its owner has not signed for: a balance
only shrinks for the payer of a transaction, and by no more than its transactions say. -/
def AuthorisedDebit (crypto : CryptoHelper) (bc : Blockchain) (block : CollectionBlock)
    (key : PublicKeyPEM) : Prop :=
  (bc.addBlock crypto block).getBalance key < bc.getBalance key →
    (∃ transaction ∈ block.transactions.values, transaction.preOwner = key) ∧
      (bc.getBalance key).toNat - ((bc.addBlock crypto block).getBalance key).toNat ≤
        block.sent key

/-- What comes in does not carry the balance past `2 ^ 64`. -/
def NoCarry (bc : Blockchain) (block : CollectionBlock) (key : PublicKeyPEM) : Prop :=
  (bc.getBalance key).toNat + (block.minted key + block.received key) % 2 ^ 64 <
    2 ^ 64 + block.sent key

theorem exists_preOwner_of_sent_pos {block : CollectionBlock} {key : PublicKeyPEM}
    (h : 0 < block.sent key) :
    ∃ transaction ∈ block.transactions.values, transaction.preOwner = key := by
  by_contra hno
  push Not at hno
  have hnil : block.transactions.values.filter (fun t => t.preOwner = key) = [] :=
    List.filter_eq_nil_iff.2 fun t ht => by simpa using hno t ht
  simp [CollectionBlock.sent, sentBy, hnil] at h

theorem authorisedDebit_iff (crypto : CryptoHelper) (bc : Blockchain) (block : CollectionBlock)
    (key : PublicKeyPEM) : AuthorisedDebit crypto bc block key ↔ NoCarry bc block key := by
  have hafter := balance_addBlock crypto bc block key
  have hlt := (bc.getBalance key).toNat_lt
  unfold exactBalance at hafter
  unfold AuthorisedDebit NoCarry
  rw [UInt64.lt_iff_toNat_lt]
  constructor
  · intro h
    by_contra hcarry
    obtain ⟨-, hle⟩ := h (by omega)
    omega
  · intro h hshrink
    have hle : (bc.getBalance key).toNat - ((bc.addBlock crypto block).getBalance key).toNat ≤
        block.sent key := by omega
    exact ⟨exists_preOwner_of_sent_pos (by omega), hle⟩

/-- **Debits in a run.** Every added block respects every wallet exactly when no added block
carries a balance past `2 ^ 64`. -/
theorem ChainRun.authorisedDebit_iff_noCarry {crypto : CryptoHelper} (run : ChainRun crypto) :
    run.AllSteps (OnAdd fun bc block => ∀ key, AuthorisedDebit crypto bc block key) ↔
      run.AllSteps (OnAdd fun bc block => ∀ key, NoCarry bc block key) := by
  refine Run.AllSteps.congr fun bc op => ?_
  cases op with
  | addBlock block => exact forall_congr' fun key => authorisedDebit_iff crypto bc block key
  | _ => exact Iff.rfl

namespace Sample

/-- `keyA` mines a coin. -/
def mining : CollectionBlock := block root [] [coin root keyA []]

/-- `keyB` pays `2 ^ 64 - 1` to `keyA`, which is a payment of one in the other direction. -/
def reversedPayment : CollectionBlock :=
  block (.collection mining) [payment (.collection mining) keyB keyA (2 ^ 64 - 1)] []

def theftRun : ChainRun .sample where
  before := {}
  ops := [.addBlock mining, .addBlock reversedPayment]
  admissible := by decide +kernel

end Sample

/-- `keyA` signs nothing and loses a fraction. -/
theorem unauthorised_debit :
    ¬ ∀ run : ChainRun .sample,
      run.AllSteps (OnAdd fun bc block => ∀ key, AuthorisedDebit .sample bc block key) := by
  intro h
  obtain ⟨-, hdebit, -⟩ := h Sample.theftRun
  obtain ⟨⟨transaction, hmem, howner⟩, -⟩ := hdebit Sample.keyA (by decide +kernel)
  have hnone : ∀ t ∈ Sample.reversedPayment.transactions.values, t.preOwner ≠ Sample.keyA := by
    decide +kernel
  exact hnone transaction hmem howner

end SwabianCoin
