import SwabianCoin.Conservation
import SwabianCoin.Overdraft

/-!
# Applying a block

`validateBlock` nets what a block gives to and takes from a wallet; `updateCurrentBaseline` pays
transaction by transaction, in the order of their keys, in 64-bit arithmetic. For moderate amounts
both agree: every balance after the block is the exact one, in whatever order the transactions are
processed (`Moderate`).

In between they do not agree. The assertion before each payment asks for a wallet that covers it
at its place in the order (`PaidFromHand`), while the validator lets a wallet spend what it only
receives later in the block. The net balance is enough for a payment that comes after everything
its payer receives; one that does not must be covered without (`PaidInOrder`).
-/

namespace SwabianCoin

open Machine

variable {crypto : CryptoHelper} {bc : Blockchain} {block : CollectionBlock}

/-! ## Order -/

theorem applyTransaction_comm (wallets : Wallets) (first second : TransactionSubBlock) :
    applyTransaction (applyTransaction wallets first) second =
      applyTransaction (applyTransaction wallets second) first := by
  have hsub (a b v : UInt64) : v - a - b = v - b - a := by
    rw [UInt64.sub_eq_add_neg, UInt64.sub_eq_add_neg, UInt64.sub_eq_add_neg, UInt64.sub_eq_add_neg]
    ac_rfl
  have hmixed (a b v : UInt64) : v + a - b = v - b + a := by
    rw [UInt64.sub_eq_add_neg, UInt64.sub_eq_add_neg]
    ac_rfl
  have hadd (a b v : UInt64) : v + a + b = v + b + a := by ac_rfl
  unfold applyTransaction
  rw [OrdMap.update_comm _ first.postOwner second.preOwner 0 fun v => (hmixed _ _ v).symm,
    OrdMap.update_comm _ first.preOwner second.preOwner 0 fun v => hsub _ _ v,
    OrdMap.update_comm _ first.postOwner second.postOwner 0 fun v => hadd _ _ v,
    OrdMap.update_comm _ first.preOwner second.postOwner 0 fun v => hmixed _ _ v]

/-- **The order of the payments does not matter.** -/
theorem foldl_applyTransaction_of_perm {order order' : List TransactionSubBlock}
    (h : order.Perm order') (wallets : Wallets) :
    order.foldl applyTransaction wallets = order'.foldl applyTransaction wallets := by
  apply h.foldl_eq'
  intro first _ second _ wallets
  exact applyTransaction_comm wallets first second

/-! ## Moderate blocks -/

/-- An accepted block with payments below `2 ^ 62` altogether, on a chain with balances below
`2 ^ 62` altogether. -/
structure Moderate (crypto : CryptoHelper) (bc : Blockchain) (block : CollectionBlock) : Prop where
  accepted : bc.Accepts crypto block
  balances : totalBalance bc.currentBaseline.wallets < 2 ^ 62
  fractions : (block.transactions.values.map fun transaction =>
    transaction.fraction.toNat).sum < 2 ^ 62

theorem balance_le_totalBalance (bc : Blockchain) (key : PublicKeyPEM) :
    (bc.getBalance key).toNat ≤ totalBalance bc.currentBaseline.wallets := by
  have hsubset : bc.currentBaseline.wallets.keySet ⊆
      insert key bc.currentBaseline.wallets.keySet := Finset.subset_insert _ _
  rw [totalBalance_eq_sum hsubset]
  exact Finset.single_le_sum (f := fun key => (bc.currentBaseline.wallets.getD key 0).toNat)
    (fun _ _ => Nat.zero_le _) (Finset.mem_insert_self _ _)

theorem sentBy_le_total (transactions : List TransactionSubBlock) (key : PublicKeyPEM) :
    sentBy transactions key ≤
      (transactions.map fun transaction => transaction.fraction.toNat).sum :=
  sum_map_le_of_sublist List.filter_sublist _

/-- The creations of a block are counted in 32 bits. -/
theorem minted_lt_of_accepts (hacc : bc.Accepts crypto block) (key : PublicKeyPEM) :
    block.minted key < 2 ^ 52 := by
  obtain ⟨newest, -, hc⟩ := hacc.contents
  have hcount : block.creations.values.countP (fun creation => creation.creator = key) ≤
      block.creations.size := by
    refine List.countP_le_length.trans (le_of_eq ?_)
    rw [OrdMap.values, List.length_map]
    rfl
  have hleft : creationsLeft bc.getMiningState < 2 ^ 32 := UInt32.toNat_lt _
  have hsize := hc.numCreations
  have hcoin : fractionPerCoin.toNat = 1000000 := rfl
  rw [CollectionBlock.minted, mintedBy, hcoin]
  omega

theorem nonneg_of_not_overdrawn {diff : Int64} {balance : UInt64} {credit debit : ℕ}
    (hdiff : (diff.toUInt64.toNat : ℤ) ≡ credit - debit [ZMOD 2 ^ 64])
    (hcredit : credit < 2 ^ 63) (hdebit : debit < 2 ^ 62) (hbalance : balance.toNat < 2 ^ 62)
    (h : overdrawn diff balance = false) : (0 : ℤ) ≤ balance.toNat + credit - debit := by
  have hd : diff.toInt = credit - debit := toInt_eq_of_modEq hdiff (by omega) (by omega)
  have hb : balance.toInt64.toInt = balance.toNat :=
    toInt_eq_of_modEq (Int.ModEq.refl _) (by omega) (by omega)
  rw [overdrawn, Bool.and_eq_false_iff, decide_eq_false_iff_not, decide_eq_false_iff_not,
    Int64.lt_iff_toInt_lt, Int64.lt_iff_toInt_lt, Int64.toInt_zero, Int64.toInt_add, hd, hb,
    Int.bmod_def] at h
  rcases h with hgain | hcovered
  · omega
  · split_ifs at hcovered <;> omega

/-- The check passes for every wallet, also for those the block does not mention. -/
theorem not_overdrawn_of_accepts (hacc : bc.Accepts crypto block) (key : PublicKeyPEM) :
    overdrawn ((walletDiffs block).getD key 0) (bc.getBalance key) = false := by
  by_cases hmem : key ∈ (walletDiffs block).keys
  · obtain ⟨diff, hdiff⟩ := OrdMap.mem_keys.1 hmem
    rw [OrdMap.getD_of_mem hdiff]
    exact (Blockchain.accepts_iff.1 hacc).2 (key, diff) hdiff
  · rw [OrdMap.getD_of_not_mem hmem]
    simp [overdrawn]

namespace Moderate

variable (h : Moderate crypto bc block)

include h

theorem exactBalance_nonneg (key : PublicKeyPEM) : 0 ≤ exactBalance bc block key := by
  have hminted := minted_lt_of_accepts h.accepted key
  have hreceived := receivedBy_le_total block.transactions.values key
  have hsent := sentBy_le_total block.transactions.values key
  have hbalance := balance_le_totalBalance bc key
  have htotal := h.balances
  have hfractions := h.fractions
  have hcovered := nonneg_of_not_overdrawn (walletDiffs_modEq block key)
    (by unfold CollectionBlock.received; omega) (by unfold CollectionBlock.sent; omega) (by omega)
    (not_overdrawn_of_accepts h.accepted key)
  unfold exactBalance
  push_cast at hcovered
  omega

theorem exactBalance_lt (key : PublicKeyPEM) : exactBalance bc block key < 2 ^ 64 := by
  have hminted := minted_lt_of_accepts h.accepted key
  have hreceived := receivedBy_le_total block.transactions.values key
  have hbalance := balance_le_totalBalance bc key
  have htotal := h.balances
  have hfractions := h.fractions
  unfold exactBalance CollectionBlock.received
  omega

end Moderate

/-- **Moderate blocks are applied exactly.** After the block every wallet has its exact balance,
which is not negative, and the transactions might have been processed in any order. -/
theorem applied_exactly (crypto : CryptoHelper) (bc : Blockchain) (block : CollectionBlock)
    (h : Moderate crypto bc block) :
    (∀ key, (((bc.addBlock crypto block).getBalance key).toNat : ℤ) =
        (bc.getBalance key).toNat +
          fractionPerCoin.toNat *
            block.creations.values.countP (fun creation => creation.creator = key) +
          block.received key - block.sent key ∧
        (0 : ℤ) ≤ (bc.getBalance key).toNat +
          fractionPerCoin.toNat *
            block.creations.values.countP (fun creation => creation.creator = key) +
          block.received key - block.sent key) ∧
      ∀ order : List TransactionSubBlock, order.Perm block.transactions.values →
        order.foldl applyTransaction
            (block.creations.values.foldl applyCreation bc.currentBaseline.wallets) =
          (bc.addBlock crypto block).currentBaseline.wallets := by
  constructor
  · intro key
    have hnonneg := h.exactBalance_nonneg key
    have hafter := balance_addBlock crypto bc block key
    rw [Int.emod_eq_of_lt hnonneg (h.exactBalance_lt key)] at hafter
    unfold exactBalance CollectionBlock.minted mintedBy at hafter hnonneg
    push_cast at hafter hnonneg
    exact ⟨hafter, hnonneg⟩
  · intro order horder
    rw [foldl_applyTransaction_of_perm horder]
    exact (updateCurrentBaseline_wallets crypto _ _ block).symm

namespace Sample

/-- `keyA` has mined a coin. -/
def coinRun : ChainRun .sample where
  before := {}
  ops := [.addBlock mining]
  admissible := by decide +kernel

/-- `keyA` pays `keyB`, who pays `fraction` of it on in the same block. -/
def passedOn (fraction : UInt64) : CollectionBlock :=
  Sample.block (.collection mining) [payment (.collection mining) keyA keyB 500000,
    payment (.collection mining) keyB keyC fraction] []

end Sample

/-- Money that is passed on inside a block arrives. -/
theorem passedOn_applied_exactly :
    Moderate .sample Sample.coinRun.final (Sample.passedOn 400000) ∧
      (((Sample.coinRun.final.addBlock .sample (Sample.passedOn 400000)).getBalance
        Sample.keyB).toNat : ℤ) = 100000 := by
  have hmoderate : Moderate .sample Sample.coinRun.final (Sample.passedOn 400000) :=
    ⟨by decide +kernel, by decide +kernel, by decide +kernel⟩
  refine ⟨hmoderate, ?_⟩
  rw [((applied_exactly .sample Sample.coinRun.final (Sample.passedOn 400000) hmoderate).1
    Sample.keyB).1]
  decide +kernel

/-! ## The assertion before each payment -/

/-- The assertion holds before every transaction of the loop. -/
def AssertsTransactions : Wallets → List TransactionSubBlock → Prop
  | _, [] => True
  | wallets, transaction :: rest =>
    transaction.fraction ≤ wallets.getD transaction.preOwner 0 ∧
      AssertsTransactions (applyTransaction wallets transaction) rest

instance decidableAssertsTransactions : ∀ (wallets : Wallets)
    (transactions : List TransactionSubBlock), Decidable (AssertsTransactions wallets transactions)
  | _, [] => inferInstanceAs (Decidable True)
  | wallets, transaction :: rest =>
    have := decidableAssertsTransactions (applyTransaction wallets transaction) rest
    inferInstanceAs (Decidable (_ ∧ _))

/-- The assertions in `updateCurrentBaseline` hold for the transactions of the block. -/
structure Blockchain.AssertsPayments (bc : Blockchain) (block : CollectionBlock) : Prop where
  transactions : AssertsTransactions
    (block.creations.values.foldl applyCreation bc.currentBaseline.wallets)
    block.transactions.values

instance (bc : Blockchain) (block : CollectionBlock) : Decidable (bc.AssertsPayments block) :=
  decidable_of_iff (AssertsTransactions _ _) ⟨.mk, Blockchain.AssertsPayments.transactions⟩

/-- What a wallet has, in exact arithmetic, when the creations and some of the transactions have
been processed. -/
def inHand (bc : Blockchain) (block : CollectionBlock) (before : List TransactionSubBlock)
    (key : PublicKeyPEM) : ℤ :=
  (bc.getBalance key).toNat + block.minted key + receivedBy before key - sentBy before key

/-- Every payment is covered by what the payer had before the block, has created in it and has
received under smaller keys, less what has been paid under smaller keys. -/
def Blockchain.PaidFromHand (bc : Blockchain) (block : CollectionBlock) : Prop :=
  ∀ before transaction after, block.transactions.values = before ++ transaction :: after →
    (transaction.fraction.toNat : ℤ) ≤ inHand bc block before transaction.preOwner % 2 ^ 64

/-- The assertion at a place of the loop is about the wallets after the transactions before it. -/
theorem assertsTransactions_iff (wallets : Wallets) (transactions : List TransactionSubBlock) :
    AssertsTransactions wallets transactions ↔
      ∀ before transaction after, transactions = before ++ transaction :: after →
        transaction.fraction ≤
          (before.foldl applyTransaction wallets).getD transaction.preOwner 0 := by
  induction transactions generalizing wallets with
  | nil => simp [AssertsTransactions]
  | cons first rest ih =>
    rw [AssertsTransactions, ih]
    constructor
    · intro h before transaction after heq
      obtain ⟨hfirst, hrest⟩ := h
      cases before with
      | nil =>
        cases heq
        exact hfirst
      | cons earlier before =>
        cases heq
        exact hrest before transaction after rfl
    · intro h
      refine ⟨h [] first rest rfl, ?_⟩
      intro before transaction after heq
      exact h (first :: before) transaction after (by rw [heq, List.cons_append])

/-- The wallet at a place of the loop is the residue of what is in hand. -/
theorem toNat_getD_eq_inHand (bc : Blockchain) (block : CollectionBlock)
    (before : List TransactionSubBlock) (key : PublicKeyPEM) :
    (((before.foldl applyTransaction (block.creations.values.foldl applyCreation
      bc.currentBaseline.wallets)).getD key 0).toNat : ℤ) =
        inHand bc block before key % 2 ^ 64 := by
  apply toNat_eq_emod
  refine (getD_foldl_applyTransaction before _ key).trans ?_
  exact ((getD_foldl_applyCreation _ _ key).add_right _).sub_right _

/-- The assertions in exact arithmetic, place by place. -/
theorem assertsPayments_iff_paidFromHand (bc : Blockchain) (block : CollectionBlock) :
    bc.AssertsPayments block ↔ bc.PaidFromHand block := by
  have hunfold : bc.AssertsPayments block ↔ AssertsTransactions
      (block.creations.values.foldl applyCreation bc.currentBaseline.wallets)
      block.transactions.values := ⟨Blockchain.AssertsPayments.transactions, .mk⟩
  unfold Blockchain.PaidFromHand
  rw [hunfold, assertsTransactions_iff]
  apply forall_congr'
  intro before
  apply forall_congr'
  intro transaction
  have hwallet := toNat_getD_eq_inHand bc block before transaction.preOwner
  rw [← hwallet, UInt64.le_iff_toNat_le]
  norm_cast

/-! ## Payments in order -/

/-- What transactions take from a wallet under keys up to this one. -/
def CollectionBlock.sentUpTo (block : CollectionBlock) (hash : Hash) (key : PublicKeyPEM) : Nat :=
  sentBy ((block.transactions.entries.filter fun entry => entry.1 ≤ hash).map Prod.snd) key

/-- No payment relies on money that comes later. The payer's balance and own coins cover what he
pays up to its key, or whatever he receives in the block comes under smaller keys. And what he has
and gets stays below `2 ^ 64`. -/
def Blockchain.PaidInOrder (bc : Blockchain) (block : CollectionBlock) : Prop :=
  ∀ entry ∈ block.transactions,
    (bc.getBalance entry.2.preOwner).toNat + block.minted entry.2.preOwner +
        block.received entry.2.preOwner < 2 ^ 64 ∧
      (block.sentUpTo entry.1 entry.2.preOwner ≤
          (bc.getBalance entry.2.preOwner).toNat + block.minted entry.2.preOwner ∨
        ∀ receipt ∈ block.transactions, receipt.2.postOwner = entry.2.preOwner →
          receipt.1 < entry.1)

instance (bc : Blockchain) (block : CollectionBlock) : Decidable (bc.PaidInOrder block) :=
  inferInstanceAs (Decidable (∀ entry ∈ block.transactions, _))

theorem receivedBy_append (first second : List TransactionSubBlock) (key : PublicKeyPEM) :
    receivedBy (first ++ second) key = receivedBy first key + receivedBy second key := by
  simp [receivedBy]

theorem sentBy_append (first second : List TransactionSubBlock) (key : PublicKeyPEM) :
    sentBy (first ++ second) key = sentBy first key + sentBy second key := by
  simp [sentBy]

theorem receivedBy_eq_zero {transactions : List TransactionSubBlock} {key : PublicKeyPEM}
    (h : ∀ transaction ∈ transactions, transaction.postOwner ≠ key) :
    receivedBy transactions key = 0 := by
  have hnil : (transactions.filter fun transaction => transaction.postOwner = key) = [] :=
    List.filter_eq_nil_iff.2 fun transaction hmem hpost =>
      h transaction hmem (of_decide_eq_true hpost)
  rw [receivedBy, hnil, List.map_nil, List.sum_nil]

/-- **The net check**: nobody pays more in the block than he has and gets. -/
theorem sent_le_of_accepts (hacc : bc.Accepts crypto block)
    (hfractions : (block.transactions.values.map fun transaction =>
      transaction.fraction.toNat).sum < 2 ^ 62) (key : PublicKeyPEM) :
    block.sent key ≤ (bc.getBalance key).toNat + block.minted key + block.received key := by
  have hminted := minted_lt_of_accepts hacc key
  have hreceived : block.received key < 2 ^ 62 :=
    (receivedBy_le_total block.transactions.values key).trans_lt hfractions
  have hsent : block.sent key < 2 ^ 62 :=
    (sentBy_le_total block.transactions.values key).trans_lt hfractions
  by_cases hlarge : (bc.getBalance key).toNat < 2 ^ 62
  · have hcovered := nonneg_of_not_overdrawn (walletDiffs_modEq block key) (by omega) hsent hlarge
      (not_overdrawn_of_accepts hacc key)
    push_cast at hcovered
    omega
  · omega

theorem sentUpTo_eq {before after : List (Hash × TransactionSubBlock)}
    {entry : Hash × TransactionSubBlock}
    (hsplit : block.transactions.entries = before ++ entry :: after) (key : PublicKeyPEM) :
    block.sentUpTo entry.1 key =
      sentBy (before.map Prod.snd) key + sentBy [entry.2] key := by
  have hsorted := block.transactions.sorted
  rw [hsplit, List.pairwise_append] at hsorted
  obtain ⟨-, hafter, hbefore⟩ := hsorted
  have hfilter : (block.transactions.entries.filter fun other => other.1 ≤ entry.1) =
      before ++ [entry] := by
    rw [hsplit, List.filter_append, List.filter_cons_of_pos (by simp)]
    congr 1
    · refine List.filter_eq_self.2 fun other hmem => decide_eq_true (le_of_lt ?_)
      exact hbefore other hmem entry (List.mem_cons_self ..)
    · congr 1
      refine List.filter_eq_nil_iff.2 fun other hmem => ?_
      simpa using (List.pairwise_cons.1 hafter).1 other hmem
  rw [CollectionBlock.sentUpTo, hfilter, List.map_append, sentBy_append, List.map_singleton]

theorem receivedBy_eq_of_smaller {before after : List (Hash × TransactionSubBlock)}
    {entry : Hash × TransactionSubBlock} {key : PublicKeyPEM}
    (hsplit : block.transactions.entries = before ++ entry :: after)
    (hsmaller : ∀ receipt ∈ block.transactions, receipt.2.postOwner = key → receipt.1 < entry.1) :
    receivedBy (before.map Prod.snd) key = block.received key := by
  have hsorted := block.transactions.sorted
  rw [hsplit, List.pairwise_append] at hsorted
  have hnone : receivedBy ((entry :: after).map Prod.snd) key = 0 := by
    refine receivedBy_eq_zero fun transaction hmem hpost => ?_
    obtain ⟨receipt, hreceipt, rfl⟩ := List.mem_map.1 hmem
    have hlt := hsmaller receipt (show receipt ∈ block.transactions.entries by
      rw [hsplit]
      exact List.mem_append_right _ hreceipt) hpost
    rcases List.mem_cons.1 hreceipt with rfl | hlater
    · exact lt_irrefl _ hlt
    · exact lt_asymm hlt ((List.pairwise_cons.1 hsorted.2.1).1 receipt hlater)
  rw [CollectionBlock.received, OrdMap.values, hsplit, List.map_append, receivedBy_append, hnone,
    Nat.add_zero]

/-- **Payments in order pass the assertions.** -/
theorem assertsPayments_of_paidInOrder (crypto : CryptoHelper) (bc : Blockchain)
    (block : CollectionBlock) (hacc : bc.Accepts crypto block)
    (hfractions : (block.transactions.values.map fun transaction =>
      transaction.fraction.toNat).sum < 2 ^ 62)
    (hpaid : bc.PaidInOrder block) : bc.AssertsPayments block := by
  rw [assertsPayments_iff_paidFromHand]
  intro before transaction after hvalues
  obtain ⟨first, second, hsplit, rfl, hsecond⟩ := List.map_eq_append_iff.1 hvalues
  obtain ⟨entry, rest, rfl, rfl, rfl⟩ := List.map_eq_cons_iff.1 hsecond
  obtain ⟨hnoCarry, hcovered⟩ := hpaid entry (show entry ∈ block.transactions.entries by
    rw [hsplit]
    exact List.mem_append_right _ (List.mem_cons_self ..))
  have hnet := sent_le_of_accepts hacc hfractions entry.2.preOwner
  have hreceived : block.received entry.2.preOwner = receivedBy (first.map Prod.snd)
      entry.2.preOwner + receivedBy ((entry :: rest).map Prod.snd) entry.2.preOwner := by
    rw [CollectionBlock.received, OrdMap.values, hsplit, List.map_append, receivedBy_append]
  have hsent : block.sent entry.2.preOwner = sentBy (first.map Prod.snd) entry.2.preOwner +
      (entry.2.fraction.toNat + sentBy (rest.map Prod.snd) entry.2.preOwner) := by
    rw [CollectionBlock.sent, OrdMap.values, hsplit, List.map_append, sentBy_append, List.map_cons,
      sentBy_cons, if_pos rfl]
  have henough : (entry.2.fraction.toNat : ℤ) ≤
      inHand bc block (first.map Prod.snd) entry.2.preOwner := by
    unfold inHand
    rcases hcovered with hcovered | hsmaller
    · rw [sentUpTo_eq hsplit, sentBy_cons, if_pos rfl] at hcovered
      omega
    · -- all that the payer receives is there, so the net check is about this place too
      have hall := receivedBy_eq_of_smaller hsplit hsmaller
      omega
  rw [Int.emod_eq_of_lt (by omega) (by unfold inHand; omega)]
  exact henough

/-- `keyA` pays from its coin, and `keyB` passes on what it has received under a smaller key. -/
theorem passedOn_assertsPayments :
    Sample.coinRun.final.AssertsPayments (Sample.passedOn 300000) :=
  assertsPayments_of_paidInOrder .sample Sample.coinRun.final (Sample.passedOn 300000)
    (by decide +kernel) (by decide +kernel) (by decide +kernel)

/-- On a chain where `keyA` has a coin, a block is accepted in which `keyB` spends under a smaller
key what it receives under a larger one. -/
theorem accepted_block_fails_assertion :
    ¬ ∀ (crypto : CryptoHelper) (run : ChainRun crypto) (block : CollectionBlock),
      run.final.Accepts crypto block →
      (block.transactions.values.map fun transaction => transaction.fraction.toNat).sum < 2 ^ 62 →
      run.final.AssertsPayments block := by
  intro h
  have hacc : Sample.coinRun.final.Accepts .sample (Sample.passedOn 400000) := by decide +kernel
  have hfails : ¬ Sample.coinRun.final.AssertsPayments (Sample.passedOn 400000) := by decide +kernel
  exact hfails (h .sample Sample.coinRun (Sample.passedOn 400000) hacc (by decide +kernel))

end SwabianCoin
