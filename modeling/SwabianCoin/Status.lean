import SwabianCoin.Rollover
import SwabianCoin.Rooted

/-!
# The number of coins

The status that the console prints has the number of coins in circulation, which is computed from
the epoch and from the counter of the epoch. The coins themselves are the data values that the
baseline lists, epoch by epoch. A node changes the one and the other block by block, and gets both
with a root it has fetched. They stay the same, whatever peers send (`coins_shown`).

The last epoch has no list. While it lasts there is nothing to compare; when its counter has gone
round, both numbers are `0`.
-/

namespace SwabianCoin

open Machine

variable {crypto : CryptoHelper}

/-! ## Counting -/

/-- What the status prints as `Coins in circulation`. The counter, a signed number of 32 bits, is
extended to 64 bits. -/
def coinsInCirculation (miningState : MiningState) : UInt64 :=
  miningState.numMiningsInEpoch.toInt64.toUInt64 + miningState.epoch * maxNumCreations.toUInt64

/-- The status prints the number of coins, as long as the current epoch has a list. -/
def CoinsShown (bc : Blockchain) : Prop :=
  EpochListed bc → coinsInCirculation bc.getMiningState =
    UInt64.ofNat (totalHashes bc.currentBaseline.dataValueHashes)

theorem coinsInCirculation_eq {miningState : MiningState} {minings : Nat}
    (hle : minings ≤ maxNumCreations.toNat)
    (h : miningState.numMiningsInEpoch = Int32.ofNat minings) :
    coinsInCirculation miningState = UInt64.ofNat minings + miningState.epoch * 1000 := by
  have hbound : maxNumCreations.toNat = 1000 := rfl
  have hmax : Int32.maxValue.toInt = 2147483647 := rfl
  rw [coinsInCirculation, h, Int32.toInt64_ofNat' (by omega), Int64.toUInt64_ofNat']
  rfl

/-- **A block that fits** adds one coin for each creation. -/
theorem coinsInCirculation_addBlock (crypto : CryptoHelper) {bc : Blockchain}
    (h : CounterOk bc.getMiningState) {block : CollectionBlock}
    (hfits : block.creations.size ≤ creationsLeft bc.getMiningState) :
    coinsInCirculation (bc.addBlock crypto block).getMiningState =
      coinsInCirculation bc.getMiningState + UInt64.ofNat block.creations.size := by
  obtain ⟨minings, hle, hcount⟩ := h.exists_ofNat
  have hleft := h.creationsLeft_eq
  have hbound : maxNumCreations.toNat = 1000 := rfl
  rw [hcount, Int32.toInt_ofNat_of_lt (by omega)] at hleft
  have hentered (uid : BlockUid) :
      (enterBlock crypto bc.currentBaseline uid block).miningState.numMiningsInEpoch =
        Int32.ofNat (minings + block.creations.size) := by
    show bc.getMiningState.numMiningsInEpoch + _ = _
    rw [hcount, Int32.ofNat_add]
  rw [coinsInCirculation_eq hle hcount]
  simp only [Blockchain.addBlock, Blockchain.getMiningState]
  rcases updateCurrentBaseline_cases crypto bc.currentBaseline bc.cache.nextFreeBlockId block with
    ⟨heq, -⟩ | ⟨heq, hfull⟩ <;> rw [heq]
  · rw [coinsInCirculation_eq (by omega) (hentered _), UInt64.ofNat_add]
    show _ + _ + bc.getMiningState.epoch * 1000 = _
    ac_rfl
  · -- the epoch is full, and its coins are now counted with the epochs
    have hthousand : minings + block.creations.size = 1000 := by
      rw [hentered, Int32.toUInt32_ofNat', ← UInt32.toNat_inj, UInt32.toNat_ofNat'] at hfull
      omega
    show UInt64.ofNat 0 + (bc.getMiningState.epoch + 1) * 1000 = _
    have hsum : UInt64.ofNat minings + UInt64.ofNat block.creations.size = 1000 := by
      rw [← UInt64.ofNat_add, hthousand]
      rfl
    rw [UInt64.add_mul, UInt64.one_mul, ← hsum]
    show 0 + (_ + _) = _
    rw [UInt64.zero_add]
    ac_rfl

/-- As long as there is a list before and after, the list grows by the creations. -/
theorem totalHashes_addBlock_of_listed (crypto : CryptoHelper) {bc : Blockchain}
    (hcounted : EpochsCounted bc) (hlisted : EpochListed bc) (block : CollectionBlock)
    (hlisted' : EpochListed (bc.addBlock crypto block)) :
    totalHashes (bc.addBlock crypto block).currentBaseline.dataValueHashes =
      totalHashes bc.currentBaseline.dataValueHashes + block.creations.size := by
  have hnext : EpochsCounted (bc.addBlock crypto block) := hcounted.addBlock block
  have hepoch := hcounted.epochListed_iff.1 hlisted
  have hepoch' := hnext.epochListed_iff.1 hlisted'
  have hlast : lastEpoch.toNat = 2 ^ 64 - 1 := rfl
  have hlt := bc.getMiningState.epoch.toNat_lt
  rw [ne_eq, ← UInt64.toNat_inj, hlast] at hepoch hepoch'
  have hok : EpochsOk bc := by
    rw [EpochsOk, hcounted, UInt64.toNat_add, UInt64.toNat_one]
    omega
  by_cases hroom : EpochRoom bc
  · exact totalHashes_addBlock crypto hok hroom block
  · -- the next epoch would be the last one, so this one goes on
    simp only [Blockchain.addBlock, Blockchain.getMiningState] at hepoch' ⊢
    rcases updateCurrentBaseline_cases crypto bc.currentBaseline bc.cache.nextFreeBlockId block with
      ⟨heq, -⟩ | ⟨heq, -⟩ <;> rw [heq] at hepoch' ⊢
    · exact totalHashes_modify (length_addDataValues crypto block) hlisted.1
    · have hafter : (rollOver (enterBlock crypto bc.currentBaseline bc.cache.nextFreeBlockId
          block)).miningState.epoch.toNat = bc.getMiningState.epoch.toNat + 1 := by
        show (bc.getMiningState.epoch + 1).toNat = _
        rw [UInt64.toNat_add, UInt64.toNat_one]
        omega
      unfold EpochRoom at hroom
      omega

/-- After the last epoch comes the first one again, with an empty list. -/
theorem coinsShown_addBlock_of_not_listed (crypto : CryptoHelper) {bc : Blockchain}
    (hcounted : EpochsCounted bc) (hlisted : ¬ EpochListed bc) (block : CollectionBlock) :
    CoinsShown (bc.addBlock crypto block) := by
  have hnext : EpochsCounted (bc.addBlock crypto block) := hcounted.addBlock block
  have hepoch : bc.getMiningState.epoch = lastEpoch := by
    rw [hcounted.epochListed_iff, not_not] at hlisted
    exact hlisted
  have hempty : bc.currentBaseline.dataValueHashes = [] := by
    rw [← List.length_eq_zero_iff, hcounted, hepoch]
    rfl
  intro hlisted'
  rw [hnext.epochListed_iff] at hlisted'
  simp only [Blockchain.addBlock, Blockchain.getMiningState] at hlisted' ⊢
  rcases updateCurrentBaseline_cases crypto bc.currentBaseline bc.cache.nextFreeBlockId block with
    ⟨heq, -⟩ | ⟨heq, -⟩ <;> rw [heq] at hlisted' ⊢
  · exact absurd hepoch hlisted'
  · have hnone : (enterBlock crypto bc.currentBaseline bc.cache.nextFreeBlockId
        block).dataValueHashes = [] := by
      show bc.currentBaseline.dataValueHashes.modify _ _ = []
      rw [hempty, List.modify_nil]
    have hzero : totalHashes (rollOver (enterBlock crypto bc.currentBaseline
        bc.cache.nextFreeBlockId block)).dataValueHashes = 0 := by
      show totalHashes (resizeEpochs (enterBlock crypto bc.currentBaseline
        bc.cache.nextFreeBlockId block).dataValueHashes _) = 0
      rw [hnone]
      exact totalHashes_resizeEpochs (Nat.zero_le _)
    rw [hzero]
    show coinsInCirculation _ = 0
    rw [coinsInCirculation]
    show _ + (bc.getMiningState.epoch + 1) * _ = 0
    rw [hepoch]
    rfl

theorem totalHashes_of_epochSizesOk {epochs : List (List Hash)} (h : epochSizesOk epochs = true)
    (hne : epochs ≠ []) :
    (epochs.getLastD []).length ≤ maxNumCreations.toNat ∧
      totalHashes epochs = (epochs.getLastD []).length + (epochs.length - 1) * 1000 := by
  have hbound : maxNumCreations.toNat = 1000 := rfl
  induction epochs with
  | nil => exact absurd rfl hne
  | cons first rest ih =>
    cases rest with
    | nil =>
      rw [epochSizesOk, decide_eq_true_eq] at h
      simpa [totalHashes] using h
    | cons second later =>
      simp only [epochSizesOk, Bool.and_eq_true, beq_iff_eq] at h
      obtain ⟨hle, htotal⟩ := ih h.2 (by simp)
      refine ⟨hle, ?_⟩
      have hsum : totalHashes (first :: second :: later) =
          first.length + totalHashes (second :: later) := rfl
      rw [hsum, htotal, h.1, hbound, List.getLastD_cons, List.getLastD_cons, List.getLastD_cons]
      simp only [List.length_cons]
      omega

/-- The counter is in its range, there are as many lists as `epoch + 1` comes out to, and the status
prints the number of coins. -/
structure CoinsCounted (bc : Blockchain) : Prop where
  counter : CounterOk bc.getMiningState
  counted : EpochsCounted bc
  shown : CoinsShown bc

namespace CoinsCounted

variable {bc bc' : Blockchain}

theorem addBlock (h : CoinsCounted bc) (crypto : CryptoHelper) {block : CollectionBlock}
    (hfits : block.creations.size ≤ creationsLeft bc.getMiningState) :
    CoinsCounted (bc.addBlock crypto block) where
  counter := (counter_addBlock crypto h.counter hfits).1
  counted := h.counted.addBlock block
  shown hlisted' := by
    by_cases hlisted : EpochListed bc
    · rw [coinsInCirculation_addBlock crypto h.counter hfits, h.shown hlisted,
        totalHashes_addBlock_of_listed crypto h.counted hlisted block hlisted', UInt64.ofNat_add]
    · exact coinsShown_addBlock_of_not_listed crypto h.counted hlisted block hlisted'

theorem initEmptyChain (crypto : CryptoHelper) (bc : Blockchain) :
    CoinsCounted (bc.initEmptyChain crypto) := by
  refine ⟨CounterOk.initEmptyChain crypto bc, rfl, fun _ => ?_⟩
  show coinsInCirculation {} = UInt64.ofNat (totalHashes [[]])
  decide

theorem establishBaseline (h : CoinsCounted bc) (crypto : CryptoHelper) :
    CoinsCounted (bc.establishBaseline crypto) :=
  ⟨h.counter, h.counted, h.shown⟩

theorem sameBalances (h : CoinsCounted bc) (hs : Blockchain.SameBalances bc bc') :
    CoinsCounted bc' := by
  have hstate : bc'.getMiningState = bc.getMiningState := hs.miningState
  refine ⟨h.counter.sameBalances hs, ?_, ?_⟩
  · rw [EpochsCounted, hstate, hs.dataValueHashes]
    exact h.counted
  · intro hlisted
    rw [EpochListed, hstate, hs.dataValueHashes] at hlisted
    rw [hstate, hs.dataValueHashes]
    exact h.shown hlisted

theorem setRootBlock {root : BaselineBlock} (bc : Blockchain)
    (hvalid : validateBlockWithoutContext crypto root = true) :
    CoinsCounted (bc.setRootBlock root) := by
  have hcounter := CounterOk.setRootBlock bc hvalid
  have hsizes := (epochsChecked_of_valid hvalid).sizes
  have hne := (validateBlockWithoutContext_header hvalid).2
  simp only [validateBlockWithoutContext, Bool.and_eq_true, and_assoc, beq_iff_eq] at hvalid
  obtain ⟨-, -, -, -, -, hlength, -, -, -, -, -, -, hcount⟩ := hvalid
  have hcounted : EpochsCounted (bc.setRootBlock root) := by
    rw [Blockchain.setRootBlock, if_neg hne]
    exact hlength
  refine ⟨hcounter, hcounted, fun hlisted => ?_⟩
  have hepoch := hcounted.epochListed_iff.1 hlisted
  rw [Blockchain.setRootBlock, if_neg hne] at hlisted hepoch ⊢
  have hepoch : root.miningState.epoch ≠ lastEpoch := hepoch
  obtain ⟨-, hsome⟩ := hlisted
  have hsome : root.dataValueHashes ≠ [] := hsome
  show coinsInCirculation root.miningState = UInt64.ofNat (totalHashes root.dataValueHashes)
  obtain ⟨hle, htotal⟩ := totalHashes_of_epochSizesOk hsizes hsome
  rw [coinsInCirculation_eq hle hcount, htotal]
  have hlast : lastEpoch.toNat = 2 ^ 64 - 1 := rfl
  have hlt := root.miningState.epoch.toNat_lt
  rw [ne_eq, ← UInt64.toNat_inj, hlast] at hepoch
  have hbefore : root.dataValueHashes.length - 1 = root.miningState.epoch.toNat := by
    rw [hlength, UInt64.toNat_add, UInt64.toNat_one]
    omega
  rw [hbefore, UInt64.ofNat_add, UInt64.ofNat_mul, UInt64.ofNat_toNat]
  rfl

end CoinsCounted

/-- What a node needs of a chain: this is so however the chain has come about. -/
theorem fetchClosed_coinsCounted (crypto : CryptoHelper) : FetchClosed crypto CoinsCounted where
  initEmptyChain := CoinsCounted.initEmptyChain crypto
  setRootBlock bc _ hvalid := CoinsCounted.setRootBlock bc hvalid
  sameBalances _ _ h hs := h.sameBalances hs
  addBlock _ _ h hacc := h.addBlock crypto hacc.contents.choose_spec.2.numCreations
  cacheThread _ h := ⟨h.counter, h.counted, h.shown⟩

/-! ## Nodes -/

/-- The own block is added at the end of a negotiation; it fits. -/
theorem RolloverInv.coinsCounted_advance {m : BlockchainManager} (h : RolloverInv m)
    (hcoins : CoinsCounted m.blockchain) (now : BlockchainTime) :
    CoinsCounted (m.step crypto (.advance now)).blockchain := by
  have hstart (hcurrent : m.currentState = none ∨ m.currentState = some .collect) :
      CoinsCounted (m.step crypto (.advance now)).blockchain := by
    unfold BlockchainManager.step
    rw [(m.act_advance_start crypto now hcurrent).2]
    exact hcoins
  cases hcurrent : m.currentState with
  | none => exact hstart (Or.inl hcurrent)
  | some state =>
    cases state with
    | collect => exact hstart (Or.inr hcurrent)
    | introduceBlock =>
      have hadded : CoinsCounted (m.exitIntroduceBlock crypto).1.blockchain := by
        rw [m.exitIntroduceBlock_blockchain crypto]
        exact hcoins.addBlock crypto (h.fits (Or.inr hcurrent))
      obtain ⟨hnext, hact⟩ := m.act_advance_introduceBlock crypto now hcurrent
      unfold BlockchainManager.step
      rw [hact]
      rcases hnext with heq | heq <;> rw [heq]
      · show CoinsCounted (m.exitIntroduceBlock crypto).1.blockchain
        exact hadded
      · show CoinsCounted ((m.exitIntroduceBlock crypto).1.blockchain.establishBaseline crypto)
        exact hadded.establishBaseline crypto
    | introduceBaseline =>
      unfold BlockchainManager.step
      rw [m.act_advance_introduceBaseline crypto now hcurrent]
      exact hcoins

/-- **One event.** -/
theorem NodeRolloverInv.coinsCounted_nodeStep {node : FetchingNode} (h : NodeRolloverInv node)
    (hcoins : CoinsCounted node.base.blockchain) (event : NodeEvent) :
    CoinsCounted (node.nodeStep crypto event).base.blockchain := by
  rcases node.nodeStep_cases crypto event with
    ⟨heq, -⟩ | ⟨-, -, heq, -⟩ | ⟨fetchEvent, -, -, hinside, heq, -⟩ |
      ⟨managerEvent, -, -, heq, -⟩ <;> rw [heq]
  · exact hcoins
  · exact CoinsCounted.initEmptyChain crypto node.base.blockchain
  · exact (fetchClosed_coinsCounted crypto).step_inside hcoins fetchEvent hinside
  · rcases managerEvent.advance_or_staysInState with ⟨now, rfl⟩ | hstays
    · exact h.manager.coinsCounted_advance hcoins now
    · exact hcoins.sameBalances (node.base.step_sameBalances crypto hstays)

/-- **The coins in circulation.** In every state of every run of a node, whatever its peers send and
whatever it finds, the status prints the number of the coins that the baseline lists, as long as
the current epoch has a list. -/
theorem FetchingNode.coins_shown (crypto : CryptoHelper) (ourPublicKey : PublicKeyPEM)
    (before : Blockchain) (events : List NodeEvent) :
    Run.AllStates (FetchingNode.nodeStep crypto) (fun node => CoinsShown node.base.blockchain)
      (construct crypto ourPublicKey before) events := by
  have hstart : CoinsCounted (construct crypto ourPublicKey before).base.blockchain :=
    CoinsCounted.initEmptyChain crypto before
  have hinv : Run.AllStates (FetchingNode.nodeStep crypto)
      (fun node => NodeRolloverInv node ∧ CoinsCounted node.base.blockchain)
      (construct crypto ourPublicKey before) events :=
    Run.AllStates.of_steps (P := fun _ _ => True)
      (fun _ event h _ => ⟨h.1.nodeStep event, h.1.coinsCounted_nodeStep h.2 event⟩)
      ⟨NodeRolloverInv.construct crypto ourPublicKey before, hstart⟩
      (Run.AllSteps.of_forall_mem fun _ _ _ => trivial)
  exact hinv.mono fun _ h => h.2.shown

-- One coin has been mined, the first of its epoch.
example : coinsInCirculation Sample.minedChain.getMiningState = 1 ∧
    Sample.minedChain.currentBaseline.dataValueHashes.map List.length = [1] := by
  decide +kernel

end SwabianCoin
