import SwabianCoin.Baseline
import SwabianCoin.FetchedChain
import SwabianCoin.FetchedIds
import SwabianCoin.Introduced
import SwabianCoin.Node

/-!
# The chain of hashes

In every state of a node the blocks from the root to the newest one hang together: each is stored
under its own id, carries the hash of its content and names the hash of the block before it. The
ids, the next free id and the place of the own block are kept in three different objects. The own
block gets its id and its predecessor when a negotiation begins and is added when it ends, without
being validated.

`HashChained` is the statement, `ChainInv` what the operations on the chain keep, and
`HashChainInv` adds the own block. The ids have to end before `2 ^ 64 - 1`.
-/

namespace SwabianCoin

open Machine

variable {crypto : CryptoHelper}

/-! ## Statements -/

/-- The block under an id is a collection block in its place: its id, its type, its hash and its
predecessor are right. -/
def Blockchain.LinkedAt (crypto : CryptoHelper) (bc : Blockchain) (uid : BlockUid) : Prop :=
  ∃ block previous, bc.getBlock uid = some (.collection block) ∧ block.header.blockUid = uid ∧
    block.header.genericHeader.blockType = .CollectionBlock ∧ crypto.verifyHash block = true ∧
    bc.getBlock (uid - 1) = some previous ∧
    block.header.genericHeader.previousBlockHash = previous.header.genericHeader.blockHash

/-- The chain hangs together from the root to the newest block. -/
structure HashChained (crypto : CryptoHelper) (bc : Blockchain) : Prop where
  root_le : bc.getRootBlockId ≤ bc.getNewestBlockId
  next : bc.cache.nextFreeBlockId = bc.getNewestBlockId + 1
  root : ∃ block : BaselineBlock, bc.getBlock bc.getRootBlockId = some (.baseline block) ∧
    block.header.blockUid = bc.getRootBlockId
  linked : ∀ uid, bc.getRootBlockId < uid → uid ≤ bc.getNewestBlockId → bc.LinkedAt crypto uid

/-- The assertion in `Cache::addBlock`. -/
def Cache.AssertsUid (cache : Cache) (block : Block) : Prop :=
  cache.nextFreeBlockId = block.header.blockUid

/-- The assertion holds for every block `processFinishedAgents` adds. -/
def AssertsProcessing (crypto : CryptoHelper) :
    Blockchain → List (BlockUid × BlockFetchAgent CollectionBlock) → Prop
  | _, [] => True
  | bc, (_, agent) :: rest =>
    match agent.receivedBlock with
    | none => True
    | some (_, block) =>
      let result := bc.validateBlock crypto block
      if result.1 then
        result.2.cache.AssertsUid (.collection block) ∧
          AssertsProcessing crypto (result.2.addBlock crypto block) rest
      else AssertsProcessing crypto result.2 rest

/-- The assertion holds when the regular cycle moves on: for the own block, and for the baseline
that may follow it. -/
def BlockchainManager.AssertsAdvance (crypto : CryptoHelper) (m : BlockchainManager) : Prop :=
  m.currentState = some .introduceBlock →
    m.blockchain.cache.AssertsUid (.collection (refillHash crypto m.newBlock)) ∧
    (m.nextState = .introduceBaseline →
      let exited := (m.exitIntroduceBlock crypto).1.blockchain
      (exited.cache.resetCache exited.currentBaseline.header.blockUid).AssertsUid
        (.baseline (exited.establishedBaseline crypto)))

/-- The assertion holds in a step of the thread. -/
def FetchingNode.AssertsThread (crypto : CryptoHelper) (node : FetchingNode) : FetchThread → Prop
  | .fetchingBaseline => ∀ received ∈ node.receivedBaseline,
    (node.base.blockchain.cache.resetCache received.2.header.blockUid).AssertsUid
      (.baseline received.2)
  | .loopHead _ => AssertsProcessing crypto node.base.blockchain
    node.state.blockFetchAgentMap.entries
  | _ => True

/-- The assertions in `Cache::addBlock` hold during an event. -/
def FetchingNode.AssertionsHold (crypto : CryptoHelper) (node : FetchingNode) : NodeEvent → Prop
  | .enterFetchBlockchain =>
    (node.base.blockchain.cache.resetCache 1).AssertsUid
      (.baseline (Blockchain.emptyBaseline crypto))
  | .fetch (.fetchBlocksThread _ _) => node.AssertsThread crypto node.state.thread
  | .manager (.advance _) => node.base.AssertsAdvance crypto
  | _ => True

/-! ## Operations on the chain -/

/-- The next id is larger, unless the ids have come to their end. -/
theorem Blockchain.newest_lt_next {bc : Blockchain}
    (hnext : bc.cache.nextFreeBlockId = bc.getNewestBlockId + 1)
    (hne : bc.getNewestBlockId + 1 ≠ 0) : bc.getNewestBlockId < bc.cache.nextFreeBlockId := by
  rw [hnext, UInt64.lt_iff_toNat_lt, toNat_add_one hne]
  exact Nat.lt_succ_self _

theorem Blockchain.getBlock_addBlock_of_le {bc : Blockchain}
    (hnext : bc.cache.nextFreeBlockId = bc.getNewestBlockId + 1)
    (hne : bc.getNewestBlockId + 1 ≠ 0) (block : CollectionBlock) {uid : BlockUid}
    (hle : uid ≤ bc.getNewestBlockId) :
    (bc.addBlock crypto block).getBlock uid = bc.getBlock uid :=
  Cache.getBlock_addBlock_of_ne (ne_of_lt (lt_of_le_of_lt hle (newest_lt_next hnext hne)))

/-- What keeps the chain together: the blocks in memory can be moved to disk, `0` is not among
their ids, and the current baseline can become the next root. -/
structure ChainInv (crypto : CryptoHelper) (bc : Blockchain) : Prop extends
    HashChained crypto bc where
  wellKeyed : bc.cache.WellKeyed
  root_ne_zero : bc.getRootBlockId ≠ 0
  baselineType : bc.currentBaseline.header.genericHeader.blockType = .BaselineBlock

namespace ChainInv

variable {bc bc' : Blockchain}

theorem ne_zero (h : ChainInv crypto bc) {uid : BlockUid} (hle : bc.getRootBlockId ≤ uid) :
    uid ≠ 0 := by
  intro h0
  rw [h0] at hle
  exact h.root_ne_zero (UInt64.le_zero_iff.1 hle)

theorem tipOk (h : ChainInv crypto bc) : TipOk bc where
  wellKeyed := h.wellKeyed
  newest := by
    by_cases heq : bc.getRootBlockId = bc.getNewestBlockId
    · obtain ⟨block, hblock, huid⟩ := h.root
      rw [heq] at hblock huid
      exact ⟨.baseline block, hblock, huid⟩
    · obtain ⟨block, _, hblock, huid, -⟩ :=
        h.linked bc.getNewestBlockId (lt_of_le_of_ne h.root_le heq) (le_refl _)
      exact ⟨.collection block, hblock, huid⟩
  next := h.next
  inMemory h0 := absurd h0 (h.ne_zero h.root_le)
  blockType := h.baselineType

/-- Only what can be looked up matters. -/
theorem congr (h : ChainInv crypto bc) (hmeta : bc'.metaData = bc.metaData)
    (hnext : bc'.cache.nextFreeBlockId = bc.cache.nextFreeBlockId)
    (hblock : ∀ uid, bc.getRootBlockId ≤ uid → bc'.getBlock uid = bc.getBlock uid)
    (hkeyed : bc'.cache.WellKeyed)
    (htype : bc'.currentBaseline.header.genericHeader.blockType =
      bc.currentBaseline.header.genericHeader.blockType) : ChainInv crypto bc' := by
  have hroot : bc'.getRootBlockId = bc.getRootBlockId := congrArg MetaData.rootBlockId hmeta
  have hnewest : bc'.getNewestBlockId = bc.getNewestBlockId :=
    congrArg MetaData.newestBlockId hmeta
  refine ⟨⟨?_, ?_, ?_, ?_⟩, hkeyed, ?_, htype.trans h.baselineType⟩
  · rw [hroot, hnewest]
    exact h.root_le
  · rw [hnext, hnewest]
    exact h.next
  · rw [hroot, hblock _ (le_refl _)]
    exact h.root
  · intro uid hlt hle
    rw [hroot] at hlt
    rw [hnewest] at hle
    obtain ⟨block, previous, hfound, huid, htype, hhash, hbefore, hlink⟩ := h.linked uid hlt hle
    have hprevious : bc.getRootBlockId ≤ uid - 1 := by
      have hne := h.ne_zero (le_of_lt hlt)
      rw [UInt64.lt_iff_toNat_lt] at hlt
      rw [UInt64.le_iff_toNat_le, toNat_sub_one hne]
      omega
    exact ⟨block, previous, (hblock uid (le_of_lt hlt)).trans hfound, huid, htype, hhash,
      (hblock _ hprevious).trans hbefore, hlink⟩
  · rw [hroot]
    exact h.root_ne_zero

theorem sameBalances (h : ChainInv crypto bc) (hs : Blockchain.SameBalances bc bc') :
    ChainInv crypto bc' := by
  refine h.congr hs.metaData (by rw [hs.cache]) ?_ (hs.cache ▸ h.wellKeyed) (by rw [hs.header])
  intro uid _
  unfold Blockchain.getBlock
  rw [hs.cache]

theorem cacheThread (h : ChainInv crypto bc) :
    ChainInv crypto { bc with cache := bc.cache.cacheThread } := by
  refine h.congr rfl (Cache.nextFreeBlockId_cacheThread bc.cache) ?_ h.wellKeyed.cacheThread rfl
  intro uid hle
  exact Cache.getBlock_cacheThread h.wellKeyed (Or.inl (h.ne_zero hle))

theorem of_root {cache : Cache} {block : BaselineBlock} {uid : BlockUid} (h0 : uid ≠ 0)
    (huid : block.header.blockUid = uid)
    (htype : block.header.genericHeader.blockType = .BaselineBlock) :
    ChainInv crypto
      { cache := (cache.resetCache uid).addBlock (.baseline block)
        currentBaseline := Hashed.withBlockHash block 0
        metaData := ⟨uid, uid⟩ } := by
  refine ⟨⟨le_refl _, rfl, ?_, ?_⟩, (Cache.wellKeyed_resetCache cache uid).addBlock huid htype, h0,
    htype⟩
  · exact ⟨block, Cache.getBlock_addBlock_self (cache.resetCache uid) _, huid⟩
  · intro k hlt hle
    exact absurd hlt (not_lt.2 hle)

theorem setRootBlock {block : BaselineBlock} (h0 : block.header.blockUid ≠ 0)
    (htype : block.header.genericHeader.blockType = .BaselineBlock) :
    ChainInv crypto (bc.setRootBlock block) := by
  rw [Blockchain.setRootBlock, if_neg h0]
  exact of_root h0 rfl htype

theorem initEmptyChain (crypto : CryptoHelper) (bc : Blockchain) :
    ChainInv crypto (bc.initEmptyChain crypto) :=
  setRootBlock (show (1 : UInt64) ≠ 0 by decide) rfl

theorem establishBaseline (h : ChainInv crypto bc)
    (hne : bc.currentBaseline.header.blockUid ≠ 0) :
    ChainInv crypto (bc.establishBaseline crypto) :=
  of_root hne rfl h.baselineType

theorem newest_lt_next (h : ChainInv crypto bc) (hne : bc.getNewestBlockId + 1 ≠ 0) :
    bc.getNewestBlockId < bc.cache.nextFreeBlockId :=
  Blockchain.newest_lt_next h.next hne

theorem getBlock_addBlock (h : ChainInv crypto bc) (hne : bc.getNewestBlockId + 1 ≠ 0)
    (block : CollectionBlock) {uid : BlockUid} (hle : uid ≤ bc.getNewestBlockId) :
    (bc.addBlock crypto block).getBlock uid = bc.getBlock uid :=
  Blockchain.getBlock_addBlock_of_le h.next hne block hle

/-- **A block in its place is added**, validated or not. -/
theorem addBlock (h : ChainInv crypto bc) {block : CollectionBlock} {newest : Block}
    (hn : bc.getNewestBlock = some newest) (hne : bc.getNewestBlockId + 1 ≠ 0)
    (huid : block.header.blockUid = bc.getNewestBlockId + 1)
    (htype : block.header.genericHeader.blockType = .CollectionBlock)
    (hhash : crypto.verifyHash block = true)
    (hlink : block.header.genericHeader.previousBlockHash =
      newest.header.genericHeader.blockHash) : ChainInv crypto (bc.addBlock crypto block) := by
  have hnext : bc.cache.nextFreeBlockId = bc.getNewestBlockId + 1 := h.next
  have hlt := h.newest_lt_next hne
  have hold (uid : BlockUid) (hle : uid ≤ bc.getNewestBlockId) :
      (bc.addBlock crypto block).getBlock uid = bc.getBlock uid := h.getBlock_addBlock hne block hle
  refine ⟨⟨?_, rfl, ?_, ?_⟩, ?_, h.root_ne_zero, ?_⟩
  · exact le_of_lt (lt_of_le_of_lt h.root_le hlt)
  · obtain ⟨root, hroot, hrootUid⟩ := h.root
    exact ⟨root, (hold _ h.root_le).trans hroot, hrootUid⟩
  · intro uid hafter hle
    change uid ≤ bc.cache.nextFreeBlockId at hle
    -- The new block is linked to the newest one, the others as they were.
    by_cases hlast : uid = bc.cache.nextFreeBlockId
    · subst hlast
      refine ⟨block, newest, Cache.getBlock_addBlock_self bc.cache _, huid.trans hnext.symm, htype,
        hhash, ?_, hlink⟩
      rw [hnext, UInt64.add_sub_cancel, hold _ (le_refl _)]
      exact hn
    · have hbefore : uid ≤ bc.getNewestBlockId := by
        have hne' : uid.toNat ≠ bc.cache.nextFreeBlockId.toNat :=
          fun heq => hlast (UInt64.toNat_inj.1 heq)
        rw [hnext] at hle hne'
        rw [UInt64.le_iff_toNat_le] at *
        rw [toNat_add_one hne] at *
        omega
      obtain ⟨old, previous, hfound, holdUid, holdType, holdHash, hprevious, holdLink⟩ :=
        h.linked uid hafter hbefore
      have hpred : uid - 1 ≤ bc.getNewestBlockId := by
        have hne' : uid ≠ 0 := h.ne_zero (le_of_lt hafter)
        rw [UInt64.le_iff_toNat_le] at *
        rw [toNat_sub_one hne']
        omega
      exact ⟨old, previous, (hold uid hbefore).trans hfound, holdUid, holdType, holdHash,
        (hold _ hpred).trans hprevious, holdLink⟩
  · exact h.wellKeyed.addBlock (huid.trans hnext.symm) htype
  · exact (TipOk.updateCurrentBaseline_blockType _ _ _).trans h.baselineType

theorem addBlock_of_accepts (h : ChainInv crypto bc) {block : CollectionBlock}
    (hacc : bc.Accepts crypto block) : ChainInv crypto (bc.addBlock crypto block) := by
  obtain ⟨newest, hn, hc⟩ := hacc.contents
  have huid : block.header.blockUid = bc.getNewestBlockId + 1 :=
    (h.tipOk.uid_of_accepts hacc).trans h.next
  exact h.addBlock hn (huid ▸ hc.uid_ne_zero) huid hc.blockType hc.hash hc.previous

end ChainInv

theorem fetchClosed_chainInv (crypto : CryptoHelper) : FetchClosed crypto (ChainInv crypto) where
  initEmptyChain := ChainInv.initEmptyChain crypto
  setRootBlock _ _ hvalid :=
    ChainInv.setRootBlock (validateBlockWithoutContext_header hvalid).2
      (validateBlockWithoutContext_header hvalid).1
  sameBalances _ _ h hs := h.sameBalances hs
  addBlock _ _ h hacc := h.addBlock_of_accepts hacc
  cacheThread _ h := h.cacheThread

/-! ## The own block -/

/-- The own block stands on the newest one. -/
def BlockchainManager.Placed (m : BlockchainManager) : Prop :=
  m.newBlock.header.blockUid = m.blockchain.getNewestBlockId + 1 ∧
    ∃ newest, m.blockchain.getNewestBlock = some newest ∧
      m.newBlock.header.genericHeader.previousBlockHash = newest.header.genericHeader.blockHash

/-- The chain hangs together, and during a negotiation the own block is in its place. -/
structure ManagerChainInv (crypto : CryptoHelper) (m : BlockchainManager) : Prop where
  chain : ChainInv crypto m.blockchain
  newBlockType : m.newBlock.header.genericHeader.blockType = .CollectionBlock
  placed : m.currentState = some .introduceBlock → m.Placed

theorem updateCurrentBaseline_blockUid (crypto : CryptoHelper) (baseline : BaselineBlock)
    (newestBlockId : BlockUid) (block : CollectionBlock) :
    (updateCurrentBaseline crypto baseline newestBlockId block).header.blockUid =
      newestBlockId + 1 := by
  simp only [updateCurrentBaseline]
  split_ifs <;> rfl

/-- After a block, the current baseline has the id after it. -/
theorem baselineUid_addBlock (crypto : CryptoHelper) {bc : Blockchain}
    (hnext : bc.cache.nextFreeBlockId = bc.getNewestBlockId + 1) (block : CollectionBlock) :
    (bc.addBlock crypto block).currentBaseline.header.blockUid = bc.getNewestBlockId + 2 := by
  refine (updateCurrentBaseline_blockUid crypto _ _ block).trans ?_
  rw [hnext, UInt64.add_assoc]
  rfl

theorem IdsLeft.succ_ne_zero {bc : Blockchain} (h : IdsLeft bc) : bc.getNewestBlockId + 1 ≠ 0 := by
  unfold IdsLeft at h
  rw [ne_eq, ← UInt64.toNat_inj, UInt64.toNat_add, UInt64.toNat_one, Nat.mod_eq_of_lt h]
  exact Nat.succ_ne_zero _

namespace ManagerChainInv

variable {m m' : BlockchainManager}

theorem sameNegotiation (h : ManagerChainInv crypto m) (hs : SameNegotiation m m') :
    ManagerChainInv crypto m' := by
  obtain ⟨hchain, hnew, -, hstate⟩ := hs
  constructor
  · rw [hchain]
    exact h.chain
  · rw [hnew]
    exact h.newBlockType
  · unfold BlockchainManager.Placed
    rw [hchain, hnew, hstate]
    exact h.placed

/-- Outside of a negotiation the own block may change anywhere but in its type. -/
theorem of_not_introducing (hchain : ChainInv crypto m.blockchain)
    (htype : m.newBlock.header.genericHeader.blockType = .CollectionBlock)
    (hstate : m.currentState ≠ some .introduceBlock) : ManagerChainInv crypto m :=
  ⟨hchain, htype, fun hintroducing => absurd hintroducing hstate⟩

theorem phase (h : ManagerChainInv crypto m) (hstate : m.currentState = some .introduceBlock)
    {event : ManagerEvent} (hstays : event.StaysInState) :
    ManagerChainInv crypto (m.step crypto event) := by
  have hself : BlockchainManager.PhaseInv m m :=
    ⟨hstate, Blockchain.SameBalances.refl _, rfl, rfl, rfl⟩
  have hphase : BlockchainManager.PhaseInv m (m.step crypto event) := hself.step hstays
  obtain ⟨huid, newest, hn, hlink⟩ := h.placed hstate
  refine ⟨h.chain.sameBalances hphase.blockchain, hphase.blockType.trans h.newBlockType,
    fun _ => ⟨?_, newest, ?_, hphase.previousBlockHash.trans hlink⟩⟩
  · rw [hphase.blockUid, huid, Blockchain.getNewestBlockId, Blockchain.getNewestBlockId,
      hphase.blockchain.metaData]
  · rw [hphase.blockchain.newest]
    exact hn

/-- **An event that keeps the state.** Outside of a negotiation sub-blocks are collected, or nothing
happens. -/
theorem stays (h : ManagerChainInv crypto m) {event : ManagerEvent}
    (hstays : event.StaysInState) :
    ManagerChainInv crypto (m.step crypto event) ∧
      (m.step crypto event).currentState = m.currentState := by
  refine ⟨?_, m.step_currentState crypto hstays⟩
  rcases BlockchainManager.step_stays_cases crypto hstays with
    hsame | ⟨hstate, creationSignature, transactionSignature, heq⟩ | ⟨hstate, -⟩ | ⟨hstate, -⟩
  · exact h.sameNegotiation hsame
  · have hcreation := m.collectCreation_same crypto creationSignature
    have htransaction :=
      (m.collectCreation crypto creationSignature).collectTransaction_same crypto
        transactionSignature
    rw [heq]
    refine of_not_introducing ?_ ?_ ?_
    · rw [htransaction.1, hcreation.1]
      exact h.chain
    · rw [htransaction.2.1, hcreation.2.1]
      exact h.newBlockType
    · rw [htransaction.2.2, hcreation.2.2, hstate]
      simp
  · exact h.phase hstate hstays
  · exact h.phase hstate hstays

theorem exitIntroduceBlock (h : ManagerChainInv crypto m)
    (hstate : m.currentState = some .introduceBlock) (hids : IdsLeft m.blockchain) :
    ChainInv crypto (m.exitIntroduceBlock crypto).1.blockchain := by
  obtain ⟨huid, newest, hn, hlink⟩ := h.placed hstate
  rw [m.exitIntroduceBlock_blockchain crypto]
  exact h.chain.addBlock hn hids.succ_ne_zero huid h.newBlockType (verifyHash_refillHash crypto _)
    hlink

/-- A baseline is only established under an id of the grid. -/
theorem baselineUid_ne_zero (h : ManagerChainInv crypto m)
    (hstate : m.currentState = some .introduceBlock) (hnext : m.nextState = .introduceBaseline) :
    (m.blockchain.addBlock crypto
      (refillHash crypto m.newBlock)).currentBaseline.header.blockUid ≠ 0 := by
  have hgrid : isBaselineBlock (m.blockchain.getNewestBlockId + 2) = true := by
    unfold BlockchainManager.nextState at hnext
    rw [hstate] at hnext
    by_contra hnot
    simp [hnot] at hnext
  rw [baselineUid_addBlock crypto h.chain.next]
  exact ne_zero_of_isBaselineBlock hgrid

theorem newBlockType_exit (h : ManagerChainInv crypto m) :
    (m.exitIntroduceBlock crypto).1.newBlock.header.genericHeader.blockType = .CollectionBlock := by
  simp only [BlockchainManager.exitIntroduceBlock]
  split_ifs <;> exact h.newBlockType

theorem enterCollect (hchain : ChainInv crypto m.blockchain) (now : BlockchainTime) :
    ManagerChainInv crypto (m.enterState crypto .collect now).1 :=
  of_not_introducing hchain rfl (by simp)

theorem enterIntroduceBaseline (hchain : ChainInv crypto m.blockchain)
    (htype : m.newBlock.header.genericHeader.blockType = .CollectionBlock)
    (h0 : m.blockchain.currentBaseline.header.blockUid ≠ 0) (now : BlockchainTime) :
    ManagerChainInv crypto (m.enterState crypto .introduceBaseline now).1 :=
  of_not_introducing (hchain.establishBaseline h0) htype (by simp)

theorem advance (h : ManagerChainInv crypto m)
    (hids : m.currentState = some .introduceBlock → IdsLeft m.blockchain) (now : BlockchainTime) :
    ManagerChainInv crypto (m.step crypto (.advance now)) := by
  have hstart (hcurrent : m.currentState = none ∨ m.currentState = some .collect) :
      ManagerChainInv crypto (m.step crypto (.advance now)) := by
    unfold BlockchainManager.step
    rw [(m.act_advance_start crypto now hcurrent).2]
    obtain ⟨newest, hn, -⟩ := h.chain.tipOk.newest
    have hnew := m.enterState_newBlock crypto now hn
    refine ⟨h.chain, ?_, fun _ => ⟨?_, newest, hn, ?_⟩⟩
    · rw [hnew]
      exact h.newBlockType
    · rw [hnew]
      rfl
    · rw [hnew]
      rfl
  cases hcurrent : m.currentState with
  | none => exact hstart (Or.inl hcurrent)
  | some state =>
    cases state with
    | collect => exact hstart (Or.inr hcurrent)
    | introduceBlock =>
      have hexit := h.exitIntroduceBlock hcurrent (hids hcurrent)
      obtain ⟨hnext, hact⟩ := m.act_advance_introduceBlock crypto now hcurrent
      unfold BlockchainManager.step
      rw [hact]
      rcases hnext with heq | heq <;> rw [heq]
      · exact enterCollect hexit now
      · refine enterIntroduceBaseline hexit h.newBlockType_exit ?_ now
        rw [m.exitIntroduceBlock_blockchain crypto]
        exact h.baselineUid_ne_zero hcurrent heq
    | introduceBaseline =>
      unfold BlockchainManager.step
      rw [m.act_advance_introduceBaseline crypto now hcurrent]
      exact enterCollect h.chain now

theorem cacheThread (h : ManagerChainInv crypto m) :
    ManagerChainInv crypto { m with blockchain :=
      { m.blockchain with cache := m.blockchain.cache.cacheThread } } := by
  refine ⟨h.chain.cacheThread, h.newBlockType, fun hstate => ?_⟩
  obtain ⟨huid, newest, hn, hlink⟩ := h.placed hstate
  refine ⟨huid, newest, ?_, hlink⟩
  exact (Cache.getBlock_cacheThread h.chain.wellKeyed
    (Or.inl (h.chain.ne_zero h.chain.root_le))).trans hn

end ManagerChainInv

/-! ## The whole node -/

namespace FetchingNode

variable {node : FetchingNode}

/-- Outside of `FetchBlockchain` only the cache goes on. -/
theorem step_of_left (hleft : node.Left) {event : FetchEvent} (henter : event ≠ .onEnter)
    (hinside : ∀ base, event ≠ .elsewhere base) :
    node.step crypto event = node ∨
      node.step crypto event = { node with base := { node.base with blockchain :=
        { node.base.blockchain with cache := node.base.blockchain.cache.cacheThread } } } := by
  obtain ⟨hrunning, hjoined⟩ := hleft
  unfold step act
  cases event with
  | onEnter => exact absurd rfl henter
  | elsewhere base => exact absurd rfl (hinside base)
  | cacheThread => exact Or.inr rfl
  | fetchBlocksThread now numConnectedPeers =>
    unfold fetchBlocksThread
    rw [hjoined]
    exact Or.inl rfl
  | onCycle now => simp [hrunning]
  | onExit now => simp [hrunning]
  | baselineBlockReceived peer block reply => simp [hrunning]
  | collectionBlockReceived peer block reply => simp [hrunning]

/-- Nodes that differ at most in the chain, the monitor of the peers and what is being fetched. -/
structure SameOwn (node node' : FetchingNode) : Prop where
  currentState : node'.base.currentState = node.base.currentState
  newBlock : node'.base.newBlock = node.base.newBlock
  miner : node'.base.miner = node.base.miner
  detector : node'.base.outOfSyncDetector = node.base.outOfSyncDetector
  running : node'.state.running = node.state.running

theorem SameOwn.refl (node : FetchingNode) : SameOwn node node := ⟨rfl, rfl, rfl, rfl, rfl⟩

theorem SameOwn.trans {a b c : FetchingNode} (h : SameOwn a b) (h' : SameOwn b c) : SameOwn a c :=
  ⟨h'.currentState.trans h.currentState, h'.newBlock.trans h.newBlock, h'.miner.trans h.miner,
    h'.detector.trans h.detector, h'.running.trans h.running⟩

theorem processAgents_own (entries : List (BlockUid × BlockFetchAgent CollectionBlock))
    (node : FetchingNode) : SameOwn node (node.processAgents crypto entries).1 := by
  induction entries generalizing node with
  | nil => exact .refl node
  | cons first rest ih =>
    obtain ⟨uid, agent⟩ := first
    rw [processAgents]
    cases agent.receivedBlock with
    | none => exact .refl node
    | some received =>
      obtain ⟨peer, block⟩ := received
      dsimp only
      split_ifs
      · refine SameOwn.trans ?_ (ih _)
        exact ⟨rfl, rfl, rfl, rfl, rfl⟩
      · refine SameOwn.trans ?_ (ih _)
        exact ⟨rfl, rfl, rfl, rfl, rfl⟩

theorem fetchBlocksThread_own (crypto : CryptoHelper) (node : FetchingNode) (now : BlockchainTime)
    (numConnectedPeers : Nat) :
    SameOwn node (node.fetchBlocksThread crypto now numConnectedPeers).1 := by
  unfold fetchBlocksThread
  cases node.state.thread with
  | joined => exact .refl node
  | waitingForPeers =>
    dsimp only
    split_ifs <;> exact ⟨rfl, rfl, rfl, rfl, rfl⟩
  | callingFetchBaseline => exact ⟨rfl, rfl, rfl, rfl, rfl⟩
  | fetchingBaseline =>
    simp only [cycleFetchBaseline]
    split_ifs
    · split
      · exact ⟨rfl, rfl, rfl, rfl, rfl⟩
      · split_ifs <;> exact ⟨rfl, rfl, rfl, rfl, rfl⟩
    · exact ⟨rfl, rfl, rfl, rfl, rfl⟩
  | loopHead nextIdToFetch =>
    dsimp only
    split_ifs
    · exact SameOwn.trans (processAgents_own _ node) ⟨rfl, rfl, rfl, rfl, rfl⟩
    · exact ⟨rfl, rfl, rfl, rfl, rfl⟩
  | refilling nextIdToFetch => exact ⟨rfl, rfl, rfl, rfl, rfl⟩
  | comparing nextIdToFetch =>
    dsimp only
    split_ifs <;> exact ⟨rfl, rfl, rfl, rfl, rfl⟩

/-- Fetching leaves the cycle where it is and the own block alone, until `onExit` empties it. -/
theorem step_own (crypto : CryptoHelper) (node : FetchingNode) {event : FetchEvent}
    (henter : event ≠ .onEnter) (hinside : ∀ base, event ≠ .elsewhere base) :
    SameOwn node (node.step crypto event) ∨
      ∃ now, event = .onExit now ∧ node.step crypto event = node.onExit now := by
  have hacts := node.acts_step crypto event
  generalize node.step crypto event = next at hacts ⊢
  cases hacts with
  | ignored => exact Or.inl (.refl node)
  | onEnter => exact absurd rfl henter
  | onCycle now => exact Or.inl ⟨rfl, rfl, rfl, rfl, rfl⟩
  | onExit now => exact Or.inr ⟨now, rfl, rfl⟩
  | baselineBlockReceived peer block reply =>
    left
    simp only [baselineBlockReceived]
    split_ifs <;> exact ⟨rfl, rfl, rfl, rfl, rfl⟩
  | collectionBlockReceived peer block reply =>
    left
    simp only [collectionBlockReceived]
    split_ifs <;> exact ⟨rfl, rfl, rfl, rfl, rfl⟩
  | fetchBlocksThread now numConnectedPeers =>
    exact Or.inl (fetchBlocksThread_own crypto node now numConnectedPeers)
  | cacheThread => exact Or.inl ⟨rfl, rfl, rfl, rfl, rfl⟩
  | elsewhere base => exact absurd rfl (hinside base)

theorem step_currentState (crypto : CryptoHelper) (node : FetchingNode) {event : FetchEvent}
    (henter : event ≠ .onEnter) (hinside : ∀ base, event ≠ .elsewhere base) :
    (node.step crypto event).base.currentState = node.base.currentState := by
  rcases node.step_own crypto henter hinside with hsame | ⟨now, -, heq⟩
  · exact hsame.currentState
  · rw [heq]
    rfl

end FetchingNode

/-- The chain and the own block are in order, and the regular cycle is in no state while the chain
is fetched. -/
structure HashChainInv (crypto : CryptoHelper) (node : FetchingNode) : Prop where
  manager : ManagerChainInv crypto node.base
  fetching : ¬ node.Left → node.base.currentState = none

namespace HashChainInv

variable {node : FetchingNode}

theorem construct (crypto : CryptoHelper) (ourPublicKey : PublicKeyPEM) (before : Blockchain) :
    HashChainInv crypto (FetchingNode.construct crypto ourPublicKey before) :=
  ⟨.of_not_introducing (ChainInv.initEmptyChain crypto before) rfl
    (fun hstate => by cases hstate), fun _ => rfl⟩

theorem fetch (h : HashChainInv crypto node) {event : FetchEvent} (henter : event ≠ .onEnter)
    (hinside : ∀ base, event ≠ .elsewhere base) : HashChainInv crypto (node.step crypto event) := by
  by_cases hleft : node.Left
  · rcases FetchingNode.step_of_left hleft henter hinside with heq | heq <;> rw [heq]
    · exact h
    · exact ⟨h.manager.cacheThread, fun hnot => absurd hleft hnot⟩
  · have hnone := h.fetching hleft
    have hstate := node.step_currentState crypto henter hinside
    refine ⟨.of_not_introducing ?_ ?_ ?_, fun _ => hstate.trans hnone⟩
    · exact (fetchClosed_chainInv crypto).step_inside h.manager.chain event hinside
    · rcases node.step_own crypto henter hinside with hsame | ⟨now, -, heq⟩
      · rw [hsame.newBlock]
        exact h.manager.newBlockType
      · rw [heq]
        rfl
    · rw [hstate, hnone]
      simp

theorem enterFetchBlockchain (h : HashChainInv crypto node) :
    HashChainInv crypto (node.enterFetchBlockchain crypto) :=
  ⟨.of_not_introducing (ChainInv.initEmptyChain crypto _) h.manager.newBlockType
    (fun hstate => by cases hstate), fun _ => rfl⟩

/-- **One event.** An id is needed for the own block. -/
theorem nodeStep (h : HashChainInv crypto node)
    (hids : node.base.currentState = some .introduceBlock → IdsLeft node.base.blockchain)
    (event : NodeEvent) : HashChainInv crypto (node.nodeStep crypto event) := by
  rcases node.nodeStep_cases crypto event with
    ⟨heq, -⟩ | ⟨-, -, heq, -⟩ | ⟨fetchEvent, -, henter, hinside, heq, -⟩ |
      ⟨managerEvent, -, hmay, heq, -⟩ <;> rw [heq]
  · exact h
  · exact h.enterFetchBlockchain
  · exact h.fetch henter hinside
  · rcases managerEvent.advance_or_staysInState with ⟨now, rfl⟩ | hstays
    · have hleft : node.Left := hmay.resolve_right id
      exact ⟨h.manager.advance hids now, fun hnot => absurd hleft hnot⟩
    · obtain ⟨hnext, hstate⟩ := h.manager.stays hstays
      exact ⟨hnext, fun hleft => hstate.trans (h.fetching hleft)⟩

end HashChainInv

/-! ## Assertions -/

/-- A block that is accepted gets the id it carries. -/
theorem assertsProcessing (entries : List (BlockUid × BlockFetchAgent CollectionBlock))
    {bc : Blockchain} (h : TipOk bc) : AssertsProcessing crypto bc entries := by
  induction entries generalizing bc with
  | nil => trivial
  | cons first rest ih =>
    obtain ⟨uid, agent⟩ := first
    rw [AssertsProcessing]
    cases agent.receivedBlock with
    | none => trivial
    | some received =>
      obtain ⟨peer, block⟩ := received
      have hjudged := Blockchain.validateBlock_snd crypto bc block
      have hleft := h.sameBalances hjudged
      dsimp only
      split_ifs with hvalid
      · have hacc : bc.Accepts crypto block := hvalid
        have hacc' := hjudged.accepts.2 hacc
        exact ⟨(hleft.uid_of_accepts hacc').symm, ih (hleft.addBlock hacc')⟩
      · exact ih hleft

theorem HashChainInv.assertionsHold {node : FetchingNode} (h : HashChainInv crypto node)
    (event : NodeEvent) : node.AssertionsHold crypto event := by
  cases event with
  | enterFetchBlockchain => exact rfl
  | fetch event =>
    cases event with
    | fetchBlocksThread now numConnectedPeers =>
      show node.AssertsThread crypto node.state.thread
      cases node.state.thread with
      | fetchingBaseline => exact fun _ _ => rfl
      | loopHead nextIdToFetch => exact assertsProcessing _ h.manager.chain.tipOk
      | joined => trivial
      | waitingForPeers => trivial
      | callingFetchBaseline => trivial
      | refilling nextIdToFetch => trivial
      | comparing nextIdToFetch => trivial
    | onEnter => trivial
    | elsewhere base => trivial
    | onCycle now => trivial
    | onExit now => trivial
    | baselineBlockReceived peer block reply => trivial
    | collectionBlockReceived peer block reply => trivial
    | cacheThread => trivial
  | manager event =>
    cases event with
    | advance now =>
      intro hstate
      have huid := (h.manager.placed hstate).1
      exact ⟨h.manager.chain.next.trans huid.symm, fun _ => rfl⟩
    | onCycle now creationSignature transactionSignature => trivial
    | collectionBlockReceived peer block reply now => trivial
    | foundHash data => trivial
    | triggerTransaction receiver fraction => trivial

/-- **The chain always hangs together**, and no assertion in `Cache::addBlock` fails, in every run
of a node in which the ids stay below `2 ^ 64 - 1`, whatever its peers send. -/
theorem FetchingNode.hashChained_of_idsLeft (crypto : CryptoHelper) (ourPublicKey : PublicKeyPEM)
    (before : Blockchain) (events : List NodeEvent)
    (hids : Run.AllStates (FetchingNode.nodeStep crypto)
      (fun node => IdsLeft node.base.blockchain) (construct crypto ourPublicKey before) events) :
    Run.AllStates (FetchingNode.nodeStep crypto)
        (fun node => HashChained crypto node.base.blockchain)
        (construct crypto ourPublicKey before) events ∧
      Run.AllSteps (FetchingNode.nodeStep crypto) (FetchingNode.AssertionsHold crypto)
        (construct crypto ourPublicKey before) events := by
  have hinv : Run.AllStates (FetchingNode.nodeStep crypto) (HashChainInv crypto)
      (construct crypto ourPublicKey before) events :=
    Run.AllStates.of_steps (fun _ event h hid => h.nodeStep (fun _ => hid) event)
      (HashChainInv.construct crypto ourPublicKey before) hids.allSteps
  exact ⟨hinv.mono fun _ h => h.manager.chain.toHashChained,
    hinv.allSteps.mono fun _ event h => h.assertionsHold event⟩

namespace Sample

/-- A node fetches an empty chain with one block, leaves the state, and introduces a block of its
own. -/
def fetchAndIntroduce : List NodeEvent :=
  [.enterFetchBlockchain] ++ (fetchMining.drop 1).map .fetch ++
    [.fetch (.onExit 0), .fetch (.fetchBlocksThread 0 1), .manager (.advance 0),
      .manager (.advance 0)]

end Sample

/-- The fetched and the own block are linked. -/
theorem fetchAndIntroduce_hashChained :
    (Run.exec (FetchingNode.nodeStep .sample) (FetchingNode.construct .sample Sample.keyC {})
        Sample.fetchAndIntroduce).base.blockchain.getNewestBlockId = 3 ∧
      Run.AllStates (FetchingNode.nodeStep .sample)
          (fun node => HashChained .sample node.base.blockchain)
          (FetchingNode.construct .sample Sample.keyC {}) Sample.fetchAndIntroduce ∧
        Run.AllSteps (FetchingNode.nodeStep .sample) (FetchingNode.AssertionsHold .sample)
          (FetchingNode.construct .sample Sample.keyC {}) Sample.fetchAndIntroduce :=
  ⟨by decide +kernel, FetchingNode.hashChained_of_idsLeft .sample Sample.keyC {}
    Sample.fetchAndIntroduce (by decide +kernel)⟩

end SwabianCoin
