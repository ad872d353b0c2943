import SwabianCoin.Ledger
import Mathlib.Algebra.Order.BigOperators.Group.Finset
import Mathlib.Algebra.BigOperators.Ring.Finset
import Mathlib.Tactic.Linarith

/-!
# Conservation of money

The balances of a chain should sum to a million fractions for every coin ever created. A block
keeps that sum modulo `2 ^ 64` whatever it contains; the exact sum changes by `2 ^ 64` for every
wallet that is carried past `2 ^ 64`, and back for every wallet that is borrowed below zero.

* `totalBalance_addBlock` — the exact sum after a block.
* `conserved_step_iff` — a step conserves money exactly when the carries and borrows of the block
  it adds cancel, and a run does when every step does.
-/

namespace SwabianCoin

open Machine

/-! ## Totals -/

/-- The exact sum of all balances. -/
def totalBalance (wallets : Wallets) : Nat := (wallets.values.map UInt64.toNat).sum

/-- The number of coins: of data value hashes over all epochs. -/
def totalHashes (epochs : List (List Hash)) : Nat := (epochs.map List.length).sum

/-- Every coin is in some wallet, and nothing else is. -/
def Conserved (bc : Blockchain) : Prop :=
  totalBalance bc.currentBaseline.wallets =
    fractionPerCoin.toNat * totalHashes bc.currentBaseline.dataValueHashes

/-- The wallets a block is about: those the chain has and those the block names. -/
def involved (bc : Blockchain) (block : CollectionBlock) : Finset PublicKeyPEM :=
  bc.currentBaseline.wallets.keySet ∪
    (block.creations.values.map CreationSubBlock.creator ++
      block.transactions.values.map TransactionSubBlock.preOwner ++
      block.transactions.values.map TransactionSubBlock.postOwner).toFinset

/-- As many wallets are carried past `2 ^ 64` as are borrowed below zero, counted with
multiplicity. -/
def CarriesCancel (bc : Blockchain) (block : CollectionBlock) : Prop :=
  ∑ key ∈ involved bc block, exactBalance bc block key / 2 ^ 64 = 0

theorem totalBalance_eq_sum {wallets : Wallets} {S : Finset PublicKeyPEM}
    (hS : wallets.keySet ⊆ S) : totalBalance wallets = ∑ key ∈ S, (wallets.getD key 0).toNat :=
  wallets.sum_values UInt64.toNat rfl hS

theorem sum_mintedBy {S : Finset PublicKeyPEM} (creations : List CreationSubBlock)
    (h : ∀ creation ∈ creations, creation.creator ∈ S) :
    ∑ key ∈ S, mintedBy creations key = fractionPerCoin.toNat * creations.length := by
  induction creations with
  | nil => simp [mintedBy]
  | cons creation rest ih =>
    obtain ⟨hc, hrest⟩ := List.forall_mem_cons.1 h
    simp only [mintedBy_cons, Finset.sum_add_distrib, ih hrest, Finset.sum_ite_eq, hc, if_true,
      List.length_cons]
    ring

theorem sum_receivedBy {S : Finset PublicKeyPEM} (transactions : List TransactionSubBlock)
    (h : ∀ transaction ∈ transactions, transaction.postOwner ∈ S) :
    ∑ key ∈ S, receivedBy transactions key =
      (transactions.map fun transaction => transaction.fraction.toNat).sum := by
  induction transactions with
  | nil => simp [receivedBy]
  | cons transaction rest ih =>
    obtain ⟨ht, hrest⟩ := List.forall_mem_cons.1 h
    simp only [receivedBy_cons, Finset.sum_add_distrib, ih hrest, Finset.sum_ite_eq, ht, if_true,
      List.map_cons, List.sum_cons]

theorem sum_sentBy {S : Finset PublicKeyPEM} (transactions : List TransactionSubBlock)
    (h : ∀ transaction ∈ transactions, transaction.preOwner ∈ S) :
    ∑ key ∈ S, sentBy transactions key =
      (transactions.map fun transaction => transaction.fraction.toNat).sum := by
  induction transactions with
  | nil => simp [sentBy]
  | cons transaction rest ih =>
    obtain ⟨ht, hrest⟩ := List.forall_mem_cons.1 h
    simp only [sentBy_cons, Finset.sum_add_distrib, ih hrest, Finset.sum_ite_eq, ht, if_true,
      List.map_cons, List.sum_cons]

/-! ## The wallets a block leaves -/

/-- The block names a key: as creator, payer or payee. -/
def CollectionBlock.Names (block : CollectionBlock) (key : PublicKeyPEM) : Prop :=
  (∃ creation ∈ block.creations.values, creation.creator = key) ∨
    ∃ transaction ∈ block.transactions.values,
      transaction.preOwner = key ∨ transaction.postOwner = key

theorem mem_keys_creation {β : Type} {m : OrdMap PublicKeyPEM β} {d : β} {f : β → β}
    {creation : CreationSubBlock} {key : PublicKeyPEM} :
    key ∈ (m.update creation.creator d f).keys ↔ key ∈ m.keys ∨ creation.creator = key := by
  rw [OrdMap.mem_keys_update, or_comm, eq_comm]

theorem mem_keys_transaction {β : Type} {m : OrdMap PublicKeyPEM β} {d : β} {f g : β → β}
    {transaction : TransactionSubBlock} {key : PublicKeyPEM} :
    key ∈ ((m.update transaction.preOwner d f).update transaction.postOwner d g).keys ↔
      key ∈ m.keys ∨ (transaction.preOwner = key ∨ transaction.postOwner = key) := by
  rw [OrdMap.mem_keys_update, OrdMap.mem_keys_update, eq_comm, @eq_comm _ key]
  tauto

theorem mem_keys_applyBlock {wallets : Wallets} {block : CollectionBlock} {key : PublicKeyPEM} :
    key ∈ (applyBlock wallets block).keys ↔ key ∈ wallets.keys ∨ block.Names key := by
  rw [applyBlock, OrdMap.mem_keys_foldl applyTransaction (fun _ _ _ => mem_keys_transaction),
    OrdMap.mem_keys_foldl applyCreation (fun _ _ _ => mem_keys_creation), or_assoc]
  rfl

theorem keySet_applyBlock_subset (bc : Blockchain) (block : CollectionBlock) :
    (applyBlock bc.currentBaseline.wallets block).keySet ⊆ involved bc block := by
  intro key hkey
  unfold involved
  simp only [Finset.mem_union, OrdMap.mem_keySet, List.mem_toFinset, List.mem_append, List.mem_map]
  rcases mem_keys_applyBlock.1 (OrdMap.mem_keySet.1 hkey) with
    hk | ⟨c, hc, rfl⟩ | ⟨t, ht, rfl | rfl⟩
  · exact Or.inl hk
  · exact Or.inr (Or.inl (Or.inl ⟨c, hc, rfl⟩))
  · exact Or.inr (Or.inl (Or.inr ⟨t, ht, rfl⟩))
  · exact Or.inr (Or.inr ⟨t, ht, rfl⟩)

theorem sum_exactBalance (bc : Blockchain) (block : CollectionBlock) :
    ∑ key ∈ involved bc block, exactBalance bc block key =
      totalBalance bc.currentBaseline.wallets + fractionPerCoin.toNat * block.creations.size := by
  have hwallets : bc.currentBaseline.wallets.keySet ⊆ involved bc block :=
    Finset.subset_union_left
  have hcreators : ∀ creation ∈ block.creations.values, creation.creator ∈ involved bc block :=
    fun c hc => by simp [involved, List.mem_map_of_mem hc]
  have hpre : ∀ transaction ∈ block.transactions.values,
      transaction.preOwner ∈ involved bc block :=
    fun t ht => by simp [involved, List.mem_map_of_mem ht]
  have hpost : ∀ transaction ∈ block.transactions.values,
      transaction.postOwner ∈ involved bc block :=
    fun t ht => by simp [involved, List.mem_map_of_mem ht]
  have hm := sum_mintedBy block.creations.values hcreators
  have hr := sum_receivedBy block.transactions.values hpost
  have hs := sum_sentBy block.transactions.values hpre
  have hb := totalBalance_eq_sum hwallets
  have hlen : block.creations.values.length = block.creations.size := List.length_map _
  rw [hlen] at hm
  unfold exactBalance CollectionBlock.minted CollectionBlock.received CollectionBlock.sent
  rw [Finset.sum_sub_distrib, Finset.sum_add_distrib, Finset.sum_add_distrib]
  have hb' : ∑ key ∈ involved bc block, ((bc.getBalance key).toNat : ℤ) =
      totalBalance bc.currentBaseline.wallets := by
    rw [hb]
    push_cast
    rfl
  rw [hb', ← Nat.cast_sum, ← Nat.cast_sum, ← Nat.cast_sum, hm, hr, hs]
  push_cast
  ring

/-- **The exact sum after a block.** -/
theorem totalBalance_addBlock (crypto : CryptoHelper) (bc : Blockchain) (block : CollectionBlock) :
    (totalBalance (bc.addBlock crypto block).currentBaseline.wallets : ℤ) =
      totalBalance bc.currentBaseline.wallets + fractionPerCoin.toNat * block.creations.size -
        2 ^ 64 * ∑ key ∈ involved bc block, exactBalance bc block key / 2 ^ 64 := by
  have hsub : (bc.addBlock crypto block).currentBaseline.wallets.keySet ⊆ involved bc block := by
    show (updateCurrentBaseline crypto bc.currentBaseline _ block).wallets.keySet ⊆ _
    rw [updateCurrentBaseline_wallets]
    exact keySet_applyBlock_subset bc block
  rw [totalBalance_eq_sum hsub, Nat.cast_sum, ← sum_exactBalance, Finset.mul_sum,
    ← Finset.sum_sub_distrib]
  refine Finset.sum_congr rfl fun key _ => ?_
  rw [← Int.emod_def]
  exact balance_addBlock crypto bc block key

/-! ## The coins a block leaves -/

/-- There is a list of hashes for every epoch up to the current one. -/
def EpochsOk (bc : Blockchain) : Prop :=
  bc.currentBaseline.dataValueHashes.length = bc.getMiningState.epoch.toNat + 1

/-- The epoch counter and the size of the list of epochs are not about to wrap. -/
def EpochRoom (bc : Blockchain) : Prop := bc.getMiningState.epoch.toNat + 2 < 2 ^ 64

instance (bc : Blockchain) : Decidable (EpochRoom bc) :=
  inferInstanceAs (Decidable (_ < _))

theorem length_addDataValues (crypto : CryptoHelper) (block : CollectionBlock)
    (hashes : List Hash) :
    (addDataValues crypto block hashes).length = hashes.length + block.creations.size := by
  unfold addDataValues
  rw [List.length_insertionSort, List.length_append, List.length_map]
  exact congrArg _ (List.length_map _)

theorem totalHashes_modify {f : List Hash → List Hash} {n : Nat}
    (hf : ∀ hashes, (f hashes).length = hashes.length + n) {epochs : List (List Hash)} {i : Nat}
    (hi : i < epochs.length) : totalHashes (epochs.modify i f) = totalHashes epochs + n := by
  unfold totalHashes
  induction epochs generalizing i with
  | nil => exact absurd hi (by simp)
  | cons hashes rest ih =>
    cases i with
    | zero =>
      simp only [List.modify_zero_cons, List.map_cons, List.sum_cons, hf]
      omega
    | succ i =>
      simp only [List.modify_succ_cons, List.map_cons, List.sum_cons,
        ih (Nat.lt_of_succ_lt_succ hi)]
      omega

theorem resizeEpochs_of_le {epochs : List (List Hash)} {size : Nat} (h : epochs.length ≤ size) :
    resizeEpochs epochs size = epochs ++ List.replicate (size - epochs.length) [] := by
  rw [resizeEpochs, List.take_of_length_le h]

theorem totalHashes_resizeEpochs {epochs : List (List Hash)} {size : Nat}
    (h : epochs.length ≤ size) : totalHashes (resizeEpochs epochs size) = totalHashes epochs := by
  rw [resizeEpochs_of_le h]
  simp [totalHashes]

theorem length_resizeEpochs (epochs : List (List Hash)) (size : Nat) :
    (resizeEpochs epochs size).length = size := by
  rw [resizeEpochs, List.length_append, List.length_take, List.length_replicate]
  omega

/-- A block is entered into the baseline, and perhaps its epoch ends. -/
theorem updateCurrentBaseline_cases (crypto : CryptoHelper) (baseline : BaselineBlock)
    (uid : BlockUid) (block : CollectionBlock) :
    updateCurrentBaseline crypto baseline uid block = enterBlock crypto baseline uid block ∧
        (enterBlock crypto baseline uid block).miningState.numMiningsInEpoch.toUInt32 ≠
          maxNumCreations ∨
      updateCurrentBaseline crypto baseline uid block =
          rollOver (enterBlock crypto baseline uid block) ∧
        (enterBlock crypto baseline uid block).miningState.numMiningsInEpoch.toUInt32 =
          maxNumCreations := by
  simp only [updateCurrentBaseline]
  split_ifs with h
  · exact Or.inr ⟨rfl, h⟩
  · exact Or.inl ⟨rfl, h⟩

theorem epoch_succ_succ {bc : Blockchain} (h : EpochRoom bc) :
    (bc.getMiningState.epoch + 1 + 1).toNat = bc.getMiningState.epoch.toNat + 2 := by
  unfold EpochRoom at h
  rw [UInt64.toNat_add, UInt64.toNat_add]
  simp only [UInt64.toNat_one]
  omega

theorem epoch_succ {bc : Blockchain} (h : EpochRoom bc) :
    (bc.getMiningState.epoch + 1).toNat = bc.getMiningState.epoch.toNat + 1 := by
  unfold EpochRoom at h
  rw [UInt64.toNat_add]
  simp only [UInt64.toNat_one]
  omega

theorem EpochsOk.addBlock {crypto : CryptoHelper} {bc : Blockchain} (h : EpochsOk bc)
    (hroom : EpochRoom bc) (block : CollectionBlock) : EpochsOk (bc.addBlock crypto block) := by
  simp only [EpochsOk, Blockchain.getMiningState, Blockchain.addBlock]
  rcases updateCurrentBaseline_cases crypto bc.currentBaseline bc.cache.nextFreeBlockId block with
    ⟨heq, -⟩ | ⟨heq, -⟩ <;> rw [heq]
  · simp only [enterBlock]
    rw [List.length_modify]
    exact h
  · simp only [rollOver]
    rw [length_resizeEpochs]
    exact (epoch_succ_succ hroom).trans (congrArg (· + 1) (epoch_succ hroom).symm)

/-- **A block adds one hash for each creation.** -/
theorem totalHashes_addBlock (crypto : CryptoHelper) {bc : Blockchain} (h : EpochsOk bc)
    (hroom : EpochRoom bc) (block : CollectionBlock) :
    totalHashes (bc.addBlock crypto block).currentBaseline.dataValueHashes =
      totalHashes bc.currentBaseline.dataValueHashes + block.creations.size := by
  have hlt : bc.getMiningState.epoch.toNat < bc.currentBaseline.dataValueHashes.length := by
    rw [h]
    omega
  have henter : totalHashes
      (enterBlock crypto bc.currentBaseline bc.cache.nextFreeBlockId block).dataValueHashes =
        totalHashes bc.currentBaseline.dataValueHashes + block.creations.size :=
    totalHashes_modify (length_addDataValues crypto block) hlt
  simp only [Blockchain.addBlock]
  rcases updateCurrentBaseline_cases crypto bc.currentBaseline bc.cache.nextFreeBlockId block with
    ⟨heq, -⟩ | ⟨heq, -⟩ <;> rw [heq]
  · exact henter
  · refine (totalHashes_resizeEpochs ?_).trans henter
    show ((bc.currentBaseline.dataValueHashes.modify _ _).length) ≤
      (bc.getMiningState.epoch + 1 + 1).toNat
    rw [List.length_modify, epoch_succ_succ hroom, h]
    omega

/-! ## Conservation along a run -/

theorem totalBalance_congr {wallets wallets' : Wallets}
    (h : ∀ key, wallets'.getD key 0 = wallets.getD key 0) :
    totalBalance wallets' = totalBalance wallets := by
  rw [totalBalance_eq_sum (S := wallets.keySet ∪ wallets'.keySet) Finset.subset_union_right,
    totalBalance_eq_sum (S := wallets.keySet ∪ wallets'.keySet) Finset.subset_union_left]
  exact Finset.sum_congr rfl fun key _ => by rw [h]

theorem conserved_of_sameBalances {bc bc' : Blockchain} (hs : Blockchain.SameBalances bc bc') :
    Conserved bc' ↔ Conserved bc := by
  unfold Conserved
  rw [totalBalance_congr hs.balance, hs.dataValueHashes]

theorem epochsOk_of_sameBalances {bc bc' : Blockchain} (hs : Blockchain.SameBalances bc bc') :
    EpochsOk bc' ↔ EpochsOk bc := by
  unfold EpochsOk Blockchain.getMiningState
  rw [hs.dataValueHashes, hs.miningState]

theorem EpochsOk.step {crypto : CryptoHelper} {bc : Blockchain} (h : EpochsOk bc)
    (hroom : EpochRoom bc) (op : ChainOp) : EpochsOk (bc.step crypto op) := by
  cases op with
  | addBlock block => exact h.addBlock hroom block
  | establishBaseline => exact h
  | cacheThread => exact h
  | query question =>
    exact (epochsOk_of_sameBalances (Blockchain.afterQuery_sameBalances crypto bc question)).2 h

/-- A conserved chain stays conserved in a step exactly when the carries of the added block, if
there is one, cancel. -/
theorem conserved_step_iff {crypto : CryptoHelper} {bc : Blockchain} (hepochs : EpochsOk bc)
    (hroom : EpochRoom bc) (h : Conserved bc) (op : ChainOp) :
    Conserved (bc.step crypto op) ↔ OnAdd CarriesCancel bc op := by
  cases op with
  | addBlock block =>
    have htotal := totalBalance_addBlock crypto bc block
    have hhashes := totalHashes_addBlock crypto hepochs hroom block
    show Conserved (bc.addBlock crypto block) ↔ CarriesCancel bc block
    unfold Conserved CarriesCancel at *
    rw [hhashes, Nat.mul_add]
    have h' : (totalBalance bc.currentBaseline.wallets : ℤ) =
        fractionPerCoin.toNat * totalHashes bc.currentBaseline.dataValueHashes := by
      exact_mod_cast h
    constructor
    · intro hc
      rw [hc, Nat.cast_add, Nat.cast_mul, Nat.cast_mul] at htotal
      linarith
    · intro hc
      rw [hc] at htotal
      zify
      linarith
  | establishBaseline => exact iff_of_true h trivial
  | cacheThread => exact iff_of_true h trivial
  | query question =>
    exact iff_of_true
      ((conserved_of_sameBalances (Blockchain.afterQuery_sameBalances crypto bc question)).2 h)
      trivial

/-- **Conservation.** Money is conserved in every state of a run exactly when the carries of
every added block cancel, as long as the epoch counter does not wrap. -/
theorem ChainRun.conserved_iff_carriesCancel {crypto : CryptoHelper} (run : ChainRun crypto)
    (hroom : run.AllSteps fun bc _ => EpochRoom bc) :
    run.AllStates Conserved ↔ run.AllSteps (OnAdd CarriesCancel) := by
  have hepochs : run.AllSteps fun bc _ => EpochsOk bc ∧ EpochRoom bc :=
    Run.AllSteps.with_invariant (fun _ op h hr => h.step hr op) rfl hroom
  exact Run.AllStates.iff_allSteps (fun _ op h hr => conserved_step_iff hr.1 hr.2 h op) rfl hepochs

namespace Sample

/-- Out of two empty wallets' worth of nothing: `keyA` pays `2 ^ 63 - 1` to each of two others. -/
def wrappingPayments : CollectionBlock :=
  block root
    [payment root keyA keyB (2 ^ 63 - 1), payment root keyA keyC (2 ^ 63 - 1)] []

def creationRun : ChainRun .sample where
  before := {}
  ops := [.addBlock wrappingPayments]
  admissible := by decide +kernel

/-- A coin is mined and half of it spent, with a rejected question and a baseline in between. -/
def spendingRun : ChainRun .sample where
  before := {}
  ops := [.addBlock mining, .query (.validateBlock reversedPayment),
    .addBlock (block (.collection mining) [payment (.collection mining) keyA keyB 500000] []),
    .establishBaseline]
  admissible := by decide +kernel

end Sample

/-- The run theorem at a concrete run: money is conserved there. -/
theorem conserved_in_spendingRun :
    (Sample.spendingRun.AllSteps fun bc _ => EpochRoom bc) ∧
      Sample.spendingRun.AllStates Conserved := by
  have hroom : Sample.spendingRun.AllSteps fun bc _ => EpochRoom bc :=
    ⟨by decide +kernel, by decide +kernel, by decide +kernel, by decide +kernel, trivial⟩
  have hcancel : Sample.spendingRun.AllSteps (OnAdd CarriesCancel) :=
    ⟨by unfold OnAdd CarriesCancel; decide +kernel, trivial,
      by unfold OnAdd CarriesCancel; decide +kernel, trivial, trivial⟩
  exact ⟨hroom, (Sample.spendingRun.conserved_iff_carriesCancel hroom).2 hcancel⟩

/-- Two payments out of an empty wallet are accepted and leave `2 ^ 64` fractions. -/
theorem money_from_nothing :
    ¬ ∀ run : ChainRun .sample, run.AllStates Conserved := by
  intro h
  obtain ⟨-, hlast⟩ := h Sample.creationRun
  have hnot : ¬ Conserved
      (Sample.creationRun.start.step .sample (.addBlock Sample.wrappingPayments)) := by
    unfold Conserved
    decide +kernel
  exact hnot hlast

end SwabianCoin
