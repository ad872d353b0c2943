import SwabianCoin.Ledger

/-!
# What verdicts depend on

A verdict on a block depends on little: the newest block, the mining state, the hashes of the
epoch and the balances. Two chains that agree in these and in the header of the next baseline
(`SameView`) accept the same blocks, and they still agree when a block is added to both. Where the
blocks are stored, which older ones there are and which empty wallets exist does not matter.
-/

namespace SwabianCoin

variable {crypto : CryptoHelper}

/-- Wallets go their own way. -/
theorem updateCurrentBaseline_withWallets (crypto : CryptoHelper) (baseline : BaselineBlock)
    (wallets : Wallets) (uid : BlockUid) (block : CollectionBlock) :
    updateCurrentBaseline crypto { baseline with wallets } uid block =
      { updateCurrentBaseline crypto baseline uid block with
        wallets := applyBlock wallets block } := by
  unfold updateCurrentBaseline enterBlock
  dsimp only
  split_ifs <;> rfl

namespace Blockchain

/-- The chains cannot be told apart by verdicts. -/
structure SameView (bc bc' : Blockchain) : Prop where
  newest : bc'.getNewestBlock = bc.getNewestBlock
  nextFreeBlockId : bc'.cache.nextFreeBlockId = bc.cache.nextFreeBlockId
  header : bc'.currentBaseline.header = bc.currentBaseline.header
  miningState : bc'.currentBaseline.miningState = bc.currentBaseline.miningState
  dataValueHashes : bc'.currentBaseline.dataValueHashes = bc.currentBaseline.dataValueHashes
  balance : ∀ key, bc'.getBalance key = bc.getBalance key

theorem SameBalances.sameView {bc bc' : Blockchain} (h : SameBalances bc bc') :
    SameView bc bc' where
  newest := h.newest
  nextFreeBlockId := by rw [h.cache]
  header := h.header
  miningState := h.miningState
  dataValueHashes := h.dataValueHashes
  balance := h.balance

namespace SameView

variable {bc bc' bc'' : Blockchain}

theorem refl (bc : Blockchain) : SameView bc bc := ⟨rfl, rfl, rfl, rfl, rfl, fun _ => rfl⟩

theorem trans (h : SameView bc bc') (h' : SameView bc' bc'') : SameView bc bc'' :=
  ⟨h'.newest.trans h.newest, h'.nextFreeBlockId.trans h.nextFreeBlockId,
    h'.header.trans h.header, h'.miningState.trans h.miningState,
    h'.dataValueHashes.trans h.dataValueHashes, fun key => (h'.balance key).trans (h.balance key)⟩

theorem contents (h : SameView bc bc') {block : CollectionBlock} {newest : Block} :
    ContentsOk crypto bc' block newest ↔ ContentsOk crypto bc block newest := by
  have hmining : bc'.getMiningState = bc.getMiningState := h.miningState
  have hhashes : bc'.dataValueHashesOfEpoch = bc.dataValueHashesOfEpoch := by
    unfold dataValueHashesOfEpoch
    rw [h.dataValueHashes]
  rw [← checkContents_iff, ← checkContents_iff]
  unfold checkContents
  rw [hmining, hhashes]

/-- **The same verdicts.** -/
theorem accepts (h : SameView bc bc') {block : CollectionBlock} :
    bc'.Accepts crypto block ↔ bc.Accepts crypto block := by
  simp only [accepts_iff, h.newest, h.contents, h.balance]

theorem addBlock (h : SameView bc bc') (crypto : CryptoHelper) (block : CollectionBlock) :
    SameView (bc.addBlock crypto block) (bc'.addBlock crypto block) := by
  have hbaseline : bc'.currentBaseline =
      { bc.currentBaseline with wallets := bc'.currentBaseline.wallets } := by
    dsimp only
    rw [← h.header, ← h.miningState, ← h.dataValueHashes]
  have hupdated : (bc'.addBlock crypto block).currentBaseline =
      { (bc.addBlock crypto block).currentBaseline with
        wallets := applyBlock bc'.currentBaseline.wallets block } := by
    simp only [Blockchain.addBlock]
    rw [hbaseline, h.nextFreeBlockId, updateCurrentBaseline_withWallets]
  refine ⟨?_, congrArg (· + 1) h.nextFreeBlockId, ?_, ?_, ?_, ?_⟩
  · have hself := Cache.getBlock_addBlock_self bc.cache (.collection block)
    have hself' := Cache.getBlock_addBlock_self bc'.cache (.collection block)
    exact hself'.trans hself.symm
  · rw [hupdated]
  · rw [hupdated]
  · rw [hupdated]
  · intro key
    rw [← UInt64.toNat_inj, ← Int.natCast_inj, balance_addBlock, balance_addBlock]
    unfold exactBalance
    rw [h.balance]

end SameView

end Blockchain

end SwabianCoin
