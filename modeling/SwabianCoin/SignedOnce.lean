import SwabianCoin.Ledger

/-!
# One signature, one payment

A transaction is meant to take money once. The two maps of a block are filed under the hashes of
the sub-blocks, which would rule out a second copy; but the keys come from the wire and validation
looks at the values only.
-/

namespace SwabianCoin

open Machine

/-- What distinct transactions take from a wallet, however often a block repeats them. -/
def CollectionBlock.sentOnce (block : CollectionBlock) (key : PublicKeyPEM) : Nat :=
  sentBy block.transactions.values.dedup key

/-- Every sub-block is stored under its own hash, no transaction occurs twice, and the chain
takes the fraction of every signed transaction from its payer once. -/
structure AppliedOnce (crypto : CryptoHelper) (bc : Blockchain) (block : CollectionBlock) :
    Prop where
  transactionKeys : ∀ entry ∈ block.transactions,
    entry.1 = entry.2.header.genericHeader.blockHash
  creationKeys : ∀ entry ∈ block.creations, entry.1 = entry.2.header.genericHeader.blockHash
  distinct : block.transactions.values.Nodup
  debits : ∀ key, (((bc.addBlock crypto block).getBalance key).toNat : ℤ) =
    ((bc.getBalance key).toNat + block.minted key + block.received key - block.sentOnce key : ℤ) %
      2 ^ 64

namespace Sample

/-- A chain on which `keyA` has mined a coin. -/
def minedChain : Blockchain := (({} : Blockchain).initEmptyChain .sample).addBlock .sample mining

/-- One payment of `keyA`. -/
def paymentOfA : TransactionSubBlock := payment (.collection mining) keyA keyB 300000

/-- The payment, stored under its hash and under the hash plus one. -/
def doubledPayment : CollectionBlock :=
  placeBlock .sample 2 (.collection mining)
    { transactions :=
        (storeTransaction ∅ paymentOfA).insert (paymentOfA.header.genericHeader.blockHash + 1)
          paymentOfA }

end Sample

/-- A block that repeats a signed payment under a second key is accepted and takes the money
twice. -/
theorem payment_applied_twice :
    Sample.minedChain.Accepts .sample Sample.doubledPayment ∧
      ¬ Sample.doubledPayment.transactions.values.Nodup ∧
      Sample.minedChain.getBalance Sample.keyA = 1000000 ∧
      (Sample.minedChain.addBlock .sample Sample.doubledPayment).getBalance Sample.keyA = 400000 ∧
      ¬ ∀ (bc : Blockchain) (block : CollectionBlock), bc.Accepts .sample block →
        AppliedOnce .sample bc block := by
  have haccepts : Sample.minedChain.Accepts .sample Sample.doubledPayment := by decide +kernel
  have hrepeats : ¬ Sample.doubledPayment.transactions.values.Nodup := by decide +kernel
  refine ⟨haccepts, hrepeats, by decide +kernel, by decide +kernel, ?_⟩
  intro h
  exact hrepeats (h _ _ haccepts).distinct

end SwabianCoin
