import SwabianCoin.Manager

/-!
# One negotiation

A phase is what happens between `onEnter` and `onExit` of `IntroduceBlock`: blocks arrive in any
order from anybody, `onCycle` is called, and the queues fill up. This module says what one event
of a phase does, so that nothing later has to look into the callback again:

* `considerBlock_cases` — a received block is ignored, merged, recognised as the own one, or
  reported.
* `PhaseInv` — the chain keeps its balances and the own block its place in the chain.
-/

namespace SwabianCoin

open Machine

variable {crypto : CryptoHelper}

/-! ## Filling in the hash -/

section RefillHash

variable (crypto : CryptoHelper) (block : CollectionBlock)

@[simp] theorem refillHash_transactions :
    (refillHash crypto block).transactions = block.transactions := rfl

@[simp] theorem refillHash_creations : (refillHash crypto block).creations = block.creations := rfl

@[simp] theorem refillHash_blockUid :
    (refillHash crypto block).header.blockUid = block.header.blockUid := rfl

@[simp] theorem refillHash_previousBlockHash :
    (refillHash crypto block).header.genericHeader.previousBlockHash =
      block.header.genericHeader.previousBlockHash := rfl

@[simp] theorem refillHash_blockType :
    (refillHash crypto block).header.genericHeader.blockType =
      block.header.genericHeader.blockType := rfl

theorem refillHash_eq :
    refillHash crypto block = Hashed.withBlockHash block (crypto.contentHash block) :=
  crypto.fillHash_withBlockHash_zero block

theorem verifyHash_refillHash : crypto.verifyHash (refillHash crypto block) = true := by
  rw [refillHash_eq]
  exact crypto.verifyHash_withBlockHash_contentHash block

theorem refillHash_refillHash :
    refillHash crypto (refillHash crypto block) = refillHash crypto block := by
  rw [refillHash_eq, refillHash_eq, crypto.contentHash_withBlockHash,
    Hashed.withBlockHash_withBlockHash]

variable {block}

theorem refillHash_eq_self (h : crypto.verifyHash block = true) :
    refillHash crypto block = block := by
  rw [refillHash_eq, ← crypto.verifyHash_iff.1 h, Hashed.withBlockHash_blockHash]

theorem refillHash_congr {block' : CollectionBlock}
    (huid : block'.header.blockUid = block.header.blockUid)
    (hprevious : block'.header.genericHeader.previousBlockHash =
      block.header.genericHeader.previousBlockHash)
    (htype : block'.header.genericHeader.blockType = block.header.genericHeader.blockType)
    (htransactions : block'.transactions = block.transactions)
    (hcreations : block'.creations = block.creations) :
    refillHash crypto block' = refillHash crypto block := by
  have hzero : Hashed.withBlockHash block' 0 = Hashed.withBlockHash block 0 := by
    simp [Hashed.withBlockHash, huid, hprevious, htype, htransactions, hcreations]
  rw [refillHash, hzero, refillHash]

end RefillHash

/-! ## What the negotiation does not touch -/

/-- Two nodes that differ at most in monitors, queues and miner. -/
structure SameNegotiation (m m' : BlockchainManager) : Prop where
  blockchain : m'.blockchain = m.blockchain
  newBlock : m'.newBlock = m.newBlock
  state : m'.cycleStateIntroduceBlock = m.cycleStateIntroduceBlock
  currentState : m'.currentState = m.currentState

theorem SameNegotiation.trans {m m' m'' : BlockchainManager} (h : SameNegotiation m m')
    (h' : SameNegotiation m' m'') : SameNegotiation m m'' where
  blockchain := h'.blockchain.trans h.blockchain
  newBlock := h'.newBlock.trans h.newBlock
  state := h'.state.trans h.state
  currentState := h'.currentState.trans h.currentState

namespace BlockchainManager

variable {m : BlockchainManager}

@[simp] theorem enterState_currentState (crypto : CryptoHelper) (m : BlockchainManager)
    (state : CycleState) (now : BlockchainTime) :
    (m.enterState crypto state now).1.currentState = some state := by
  cases state <;> rfl

/-- Entering a state adds no block; a baseline keeps the mining state. -/
theorem enterState_miningState (crypto : CryptoHelper) (m : BlockchainManager)
    (state : CycleState) (now : BlockchainTime) :
    (m.enterState crypto state now).1.blockchain.getMiningState = m.blockchain.getMiningState := by
  cases state <;> rfl

theorem enterState_newBlock (crypto : CryptoHelper) (now : BlockchainTime) {newest : Block}
    (hn : m.blockchain.getNewestBlock = some newest) :
    (m.enterState crypto .introduceBlock now).1.newBlock =
      placeBlock crypto m.blockchain.getNewestBlockId newest m.newBlock := by
  simp [enterState, enterIntroduceBlock, hn]

theorem reportViolation_same (m : BlockchainManager) (peer : PeerId) (ground : Violation) :
    SameNegotiation m (m.reportViolation peer ground).1 :=
  ⟨rfl, rfl, rfl, rfl⟩

theorem mem_reportViolation {peer : PeerId} {ground : Violation} {effect : Effect}
    (h : effect ∈ (m.reportViolation peer ground).2) :
    effect = .reportViolation peer ground ∨ effect = .banPeer peer := by
  rcases List.mem_cons.1 h with hreport | hban
  · exact Or.inl hreport
  · split_ifs at hban
    · exact Or.inr (List.mem_singleton.1 hban)
    · exact absurd hban List.not_mem_nil

theorem monitorMessage_same (m : BlockchainManager) (peer : PeerId) (reply : Bool)
    (now : BlockchainTime) : SameNegotiation m (m.monitorMessage peer reply now).1 := by
  unfold monitorMessage
  split_ifs with hreply
  · exact ⟨rfl, rfl, rfl, rfl⟩
  · dsimp only
    split_ifs <;> exact ⟨rfl, rfl, rfl, rfl⟩

/-- A block that arrives during a negotiation is considered; the monitors see it as well. -/
theorem step_received_same (h : m.currentState = some .introduceBlock) (peer : PeerId)
    (block : CollectionBlock) (now : BlockchainTime) :
    SameNegotiation (m.considerBlock crypto peer block).1
      (m.step crypto (.collectionBlockReceived peer block false now)) := by
  have hconsider : SameNegotiation (m.considerBlock crypto peer block).1
      (m.blockReceivedIntroduceBlock crypto peer block false).1 := ⟨rfl, rfl, rfl, rfl⟩
  simp only [step, act, collectionBlockReceivedCallback]
  rw [h]
  exact hconsider.trans (monitorMessage_same _ peer false now)

theorem step_reply_same (h : m.currentState = some .introduceBlock) (peer : PeerId)
    (block : CollectionBlock) (now : BlockchainTime) :
    SameNegotiation m (m.step crypto (.collectionBlockReceived peer block true now)) := by
  simp only [step, act, collectionBlockReceivedCallback]
  rw [h]
  exact ⟨rfl, rfl, rfl, rfl⟩

/-- In another state only the monitors see it. -/
theorem step_outside_same (h : m.currentState ≠ some .introduceBlock) (peer : PeerId)
    (block : CollectionBlock) (reply : Bool) (now : BlockchainTime) :
    SameNegotiation m (m.step crypto (.collectionBlockReceived peer block reply now)) := by
  simp only [step, act, collectionBlockReceivedCallback]
  exact monitorMessage_same m peer reply now

/-- What a message adds to the effects of considering it: at most a violation of the rate. -/
theorem effects_received (crypto : CryptoHelper) (h : m.currentState = some .introduceBlock)
    (peer : PeerId) (block : CollectionBlock) (now : BlockchainTime) :
    ∃ monitored, m.effects crypto (.collectionBlockReceived peer block false now) =
        (m.considerBlock crypto peer block).2 ++ monitored ∧
      ∀ effect ∈ monitored, effect = .reportViolation peer .tooFast ∨ effect = .banPeer peer := by
  refine ⟨((m.blockReceivedIntroduceBlock crypto peer block false).1.monitorMessage peer false
    now).2, ?_, ?_⟩
  · simp only [effects, act, collectionBlockReceivedCallback]
    rw [h]
    rfl
  · intro effect hmem
    unfold monitorMessage at hmem
    simp only [Bool.false_eq_true, if_false] at hmem
    split_ifs at hmem
    · exact mem_reportViolation hmem
    · exact absurd hmem List.not_mem_nil

theorem effects_reply (crypto : CryptoHelper) (h : m.currentState = some .introduceBlock)
    (peer : PeerId) (block : CollectionBlock) (now : BlockchainTime) :
    ∀ effect ∈ m.effects crypto (.collectionBlockReceived peer block true now),
      effect = .reportViolation peer .unexpectedReply ∨ effect = .banPeer peer := by
  intro effect hmem
  unfold effects act collectionBlockReceivedCallback at hmem
  dsimp only at hmem
  rw [h] at hmem
  rcases List.mem_append.1 hmem with hmem | hmem
  · exact mem_reportViolation hmem
  · exact absurd hmem List.not_mem_nil

end BlockchainManager

/-! ## Considering a block -/

/-- No sub-block is being counted. -/
def CycleStateIntroduceBlock.CountersEmpty (state : CycleStateIntroduceBlock) : Prop :=
  state.creationSubBlockCounter = ∅ ∧ state.transactionSubBlockCounter = ∅

instance (state : CycleStateIntroduceBlock) : Decidable state.CountersEmpty :=
  inferInstanceAs (Decidable (_ ∧ _))

namespace BlockchainManager

variable {m : BlockchainManager}

/-- The block is looked at: it has the id of the own block, and its claimed hash is new or some
sub-block is being counted. -/
def Considers (m : BlockchainManager) (block : CollectionBlock) : Prop :=
  block.header.blockUid = m.newBlock.header.blockUid ∧
    (block.header.genericHeader.blockHash ∈ m.cycleStateIntroduceBlock.processedBlocks.keys →
      ¬ m.cycleStateIntroduceBlock.CountersEmpty)

/-- **What happens to a received block.** -/
theorem considerBlock_cases (crypto : CryptoHelper) (m : BlockchainManager) (peer : PeerId)
    (block : CollectionBlock) :
    ¬ m.Considers block ∧ m.considerBlock crypto peer block = (m, []) ∨
    m.Considers block ∧ (m.judge crypto block).1 = true ∧
      block.header.genericHeader.blockHash ≠ m.newBlock.header.genericHeader.blockHash ∧
      m.considerBlock crypto peer block = (m.judge crypto block).2.mergeBlock crypto block ∨
    m.Considers block ∧ (m.judge crypto block).1 = true ∧
      block.header.genericHeader.blockHash = m.newBlock.header.genericHeader.blockHash ∧
      m.considerBlock crypto peer block = ((m.judge crypto block).2, []) ∨
    m.Considers block ∧ (m.judge crypto block).1 = false ∧
      m.considerBlock crypto peer block =
        (m.judge crypto block).2.reportViolation peer .invalidBlock := by
  have hempty : (m.cycleStateIntroduceBlock.processedBlocks.contains
      block.header.genericHeader.blockHash &&
        m.cycleStateIntroduceBlock.creationSubBlockCounter.isEmpty &&
        m.cycleStateIntroduceBlock.transactionSubBlockCounter.isEmpty) = true ↔
      block.header.genericHeader.blockHash ∈ m.cycleStateIntroduceBlock.processedBlocks.keys ∧
        m.cycleStateIntroduceBlock.CountersEmpty := by
    rw [Bool.and_eq_true, Bool.and_eq_true, OrdMap.contains_iff, OrdMap.isEmpty_iff,
      OrdMap.isEmpty_iff, and_assoc]
    rfl
  simp only [considerBlock]
  -- The cases are in the order of the source: the id, the record, the verdict, the own block.
  by_cases huid : block.header.blockUid = m.newBlock.header.blockUid
  · rw [if_neg (not_not.2 huid)]
    by_cases hseen : block.header.genericHeader.blockHash ∈
        m.cycleStateIntroduceBlock.processedBlocks.keys ∧ m.cycleStateIntroduceBlock.CountersEmpty
    · rw [if_pos (hempty.2 hseen)]
      exact Or.inl ⟨fun h => h.2 hseen.1 hseen.2, rfl⟩
    · rw [if_neg fun h => hseen (hempty.1 h)]
      have hconsiders : m.Considers block := ⟨huid, fun hkey hnone => hseen ⟨hkey, hnone⟩⟩
      cases hverdict : (m.judge crypto block).1 with
      | true =>
        rw [if_pos rfl]
        by_cases hown : block.header.genericHeader.blockHash =
            m.newBlock.header.genericHeader.blockHash
        · rw [if_neg (not_not.2 hown)]
          exact Or.inr (Or.inr (Or.inl ⟨hconsiders, rfl, hown, rfl⟩))
        · rw [if_pos hown]
          exact Or.inr (Or.inl ⟨hconsiders, rfl, hown, rfl⟩)
      | false => exact Or.inr (Or.inr (Or.inr ⟨hconsiders, rfl, rfl⟩))
  · rw [if_pos huid]
    exact Or.inl ⟨fun h => huid h.1, rfl⟩

theorem judge_fst (crypto : CryptoHelper) (m : BlockchainManager) (block : CollectionBlock) :
    (m.judge crypto block).1 =
      (m.cycleStateIntroduceBlock.processedBlocks.find? block.header.genericHeader.blockHash).getD
        (m.blockchain.validateBlock crypto block).1 := by
  simp only [judge]
  cases m.cycleStateIntroduceBlock.processedBlocks.find? block.header.genericHeader.blockHash <;>
    rfl

theorem judge_sameBalances (crypto : CryptoHelper) (m : BlockchainManager)
    (block : CollectionBlock) :
    Blockchain.SameBalances m.blockchain (m.judge crypto block).2.blockchain := by
  simp only [judge]
  cases m.cycleStateIntroduceBlock.processedBlocks.find? block.header.genericHeader.blockHash with
  | none => exact Blockchain.validateBlock_snd crypto m.blockchain block
  | some blockValid => exact Blockchain.SameBalances.refl m.blockchain

@[simp] theorem judge_newBlock (crypto : CryptoHelper) (m : BlockchainManager)
    (block : CollectionBlock) : (m.judge crypto block).2.newBlock = m.newBlock := rfl

@[simp] theorem judge_currentState (crypto : CryptoHelper) (m : BlockchainManager)
    (block : CollectionBlock) : (m.judge crypto block).2.currentState = m.currentState := rfl

/-- Judging a block does not prejudice the vote on it. -/
theorem judge_offerTransactions (crypto : CryptoHelper) (m : BlockchainManager)
    (block : CollectionBlock) :
    (m.judge crypto block).2.offerTransactions block = m.offerTransactions block := rfl

theorem judge_offerCreations (crypto : CryptoHelper) (m : BlockchainManager)
    (block : CollectionBlock) :
    (m.judge crypto block).2.offerCreations block = m.offerCreations block := by
  unfold offerCreations
  rw [show (m.judge crypto block).2.blockchain.getMiningState = m.blockchain.getMiningState from
    (judge_sameBalances crypto m block).miningState]
  rfl

theorem mergeBlock_judge_newBlock (crypto : CryptoHelper) (m : BlockchainManager)
    (block : CollectionBlock) :
    ((m.judge crypto block).2.mergeBlock crypto block).1.newBlock =
      (m.mergeBlock crypto block).1.newBlock := by
  simp only [mergeBlock]
  rw [judge_offerTransactions, judge_offerCreations, judge_newBlock]

theorem considerBlock_of_not_considers (crypto : CryptoHelper) {block : CollectionBlock}
    (hnot : ¬ m.Considers block) (peer : PeerId) :
    m.considerBlock crypto peer block = (m, []) := by
  rcases considerBlock_cases crypto m peer block with ⟨-, heq⟩ | ⟨hc, -⟩ | ⟨hc, -⟩ | ⟨hc, -⟩
  · exact heq
  · exact absurd hc hnot
  · exact absurd hc hnot
  · exact absurd hc hnot

/-- However a block that is looked at is treated, the verdict used for it is recorded. -/
theorem considerBlock_processedBlocks (crypto : CryptoHelper) {block : CollectionBlock}
    (hc : m.Considers block) (peer : PeerId) :
    (m.considerBlock crypto peer block).1.cycleStateIntroduceBlock.processedBlocks =
      m.cycleStateIntroduceBlock.processedBlocks.insert block.header.genericHeader.blockHash
        (m.judge crypto block).1 := by
  rcases considerBlock_cases crypto m peer block with
    ⟨hnot, -⟩ | ⟨-, -, -, heq⟩ | ⟨-, -, -, heq⟩ | ⟨-, -, heq⟩
  · exact absurd hc hnot
  · rw [heq]
    rfl
  · rw [heq]
    rfl
  · rw [heq]
    rfl

theorem cycleIntroduceBlock_records (m : BlockchainManager) (now : BlockchainTime) :
    (m.cycleIntroduceBlock now).1.cycleStateIntroduceBlock.processedBlocks =
        m.cycleStateIntroduceBlock.processedBlocks ∧
      (m.cycleIntroduceBlock now).1.cycleStateIntroduceBlock.transactionSubBlockCounter =
        m.cycleStateIntroduceBlock.transactionSubBlockCounter ∧
      (m.cycleIntroduceBlock now).1.cycleStateIntroduceBlock.creationSubBlockCounter =
        m.cycleStateIntroduceBlock.creationSubBlockCounter ∧
      (m.cycleIntroduceBlock now).1.newBlock = m.newBlock ∧
      (m.cycleIntroduceBlock now).1.blockchain = m.blockchain := by
  simp only [cycleIntroduceBlock]
  split_ifs <;> exact ⟨rfl, rfl, rfl, rfl, rfl⟩

/-! ## The invariant of a phase -/

/-- A state of the phase that began in `start`: the same balances, and the own block in the same
place of the chain. -/
structure PhaseInv (start m : BlockchainManager) : Prop where
  currentState : m.currentState = some .introduceBlock
  blockchain : Blockchain.SameBalances start.blockchain m.blockchain
  blockUid : m.newBlock.header.blockUid = start.newBlock.header.blockUid
  previousBlockHash : m.newBlock.header.genericHeader.previousBlockHash =
    start.newBlock.header.genericHeader.previousBlockHash
  blockType : m.newBlock.header.genericHeader.blockType =
    start.newBlock.header.genericHeader.blockType

namespace PhaseInv

variable {start : BlockchainManager}

theorem sameNegotiation {m' : BlockchainManager} (h : PhaseInv start m)
    (hs : SameNegotiation m m') : PhaseInv start m' where
  currentState := hs.currentState.trans h.currentState
  blockchain := by rw [hs.blockchain]; exact h.blockchain
  blockUid := by rw [hs.newBlock]; exact h.blockUid
  previousBlockHash := by rw [hs.newBlock]; exact h.previousBlockHash
  blockType := by rw [hs.newBlock]; exact h.blockType

theorem judge (crypto : CryptoHelper) (h : PhaseInv start m) (block : CollectionBlock) :
    PhaseInv start (m.judge crypto block).2 :=
  ⟨h.currentState, h.blockchain.trans (judge_sameBalances crypto m block), h.blockUid,
    h.previousBlockHash, h.blockType⟩

theorem considerBlock (h : PhaseInv start m) (peer : PeerId) (block : CollectionBlock) :
    PhaseInv start (m.considerBlock crypto peer block).1 := by
  have hj := h.judge crypto block
  rcases considerBlock_cases crypto m peer block with
    ⟨-, heq⟩ | ⟨-, -, -, heq⟩ | ⟨-, -, -, heq⟩ | ⟨-, -, heq⟩ <;> rw [heq]
  · exact h
  · exact ⟨hj.currentState, hj.blockchain, hj.blockUid, hj.previousBlockHash, hj.blockType⟩
  · exact hj
  · exact hj.sameNegotiation (reportViolation_same _ _ _)

theorem cycleIntroduceBlock (h : PhaseInv start m) (now : BlockchainTime) :
    PhaseInv start (m.cycleIntroduceBlock now).1 := by
  simp only [BlockchainManager.cycleIntroduceBlock]
  split_ifs
  · exact ⟨h.currentState, h.blockchain, h.blockUid, h.previousBlockHash, h.blockType⟩
  · exact h

end PhaseInv

end BlockchainManager

/-! ## Events of a phase -/

/-- The block an event brings, unless it is a reply. -/
def ManagerEvent.message : ManagerEvent → Option (PeerId × CollectionBlock)
  | .collectionBlockReceived peer block false _ => some (peer, block)
  | _ => none

namespace BlockchainManager

variable {m : BlockchainManager}

/-- **What one event of a phase does to the negotiation**: nothing, a propagation, or a block is
considered. -/
theorem step_phase_cases (crypto : CryptoHelper) (h : m.currentState = some .introduceBlock)
    {event : ManagerEvent} (hstays : event.StaysInState) :
    event.message = none ∧ SameNegotiation m (m.step crypto event) ∨
    event.message = none ∧ (∃ now, m.step crypto event = (m.cycleIntroduceBlock now).1) ∨
    ∃ peer block, event.message = some (peer, block) ∧
      SameNegotiation (m.considerBlock crypto peer block).1 (m.step crypto event) := by
  cases event with
  | advance now => exact absurd hstays id
  | onCycle now creationSignature transactionSignature =>
    refine Or.inr (Or.inl ⟨rfl, now, ?_⟩)
    simp only [step, act, onCycle]
    rw [h]
  | collectionBlockReceived peer block reply now =>
    cases reply with
    | true => exact Or.inl ⟨rfl, step_reply_same h peer block now⟩
    | false => exact Or.inr (Or.inr ⟨peer, block, rfl, step_received_same h peer block now⟩)
  | foundHash data => exact Or.inl ⟨rfl, rfl, rfl, rfl, rfl⟩
  | triggerTransaction receiver fraction => exact Or.inl ⟨rfl, rfl, rfl, rfl, rfl⟩

theorem PhaseInv.step {start : BlockchainManager} (h : PhaseInv start m) {event : ManagerEvent}
    (hstays : event.StaysInState) : PhaseInv start (m.step crypto event) := by
  rcases step_phase_cases crypto h.currentState hstays with
    ⟨-, hs⟩ | ⟨-, now, heq⟩ | ⟨peer, block, -, hs⟩
  · exact h.sameNegotiation hs
  · rw [heq]
    exact h.cycleIntroduceBlock now
  · exact (h.considerBlock peer block).sameNegotiation hs

/-! ## Events inside a state -/

theorem collectCreation_same (crypto : CryptoHelper) (m : BlockchainManager)
    (signature : Signature) :
    (m.collectCreation crypto signature).blockchain = m.blockchain ∧
      (m.collectCreation crypto signature).newBlock.header = m.newBlock.header ∧
      (m.collectCreation crypto signature).currentState = m.currentState := by
  unfold collectCreation
  split
  · dsimp only
    split_ifs <;> exact ⟨rfl, rfl, rfl⟩
  · exact ⟨rfl, rfl, rfl⟩

theorem collectTransaction_same (crypto : CryptoHelper) (m : BlockchainManager)
    (signature : Signature) :
    (m.collectTransaction crypto signature).blockchain = m.blockchain ∧
      (m.collectTransaction crypto signature).newBlock.header = m.newBlock.header ∧
      (m.collectTransaction crypto signature).currentState = m.currentState := by
  unfold collectTransaction
  split
  · dsimp only
    split_ifs <;> exact ⟨rfl, rfl, rfl⟩
  · exact ⟨rfl, rfl, rfl⟩

/-- **An event during which the node stays in its state**: sub-blocks are collected, the own block
is sent again, a received block is considered, or nothing happens to the negotiation. -/
theorem step_stays_cases (crypto : CryptoHelper) {event : ManagerEvent}
    (hstays : event.StaysInState) :
    SameNegotiation m (m.step crypto event) ∨
    m.currentState = some .collect ∧ (∃ creationSignature transactionSignature,
      m.step crypto event =
        (m.collectCreation crypto creationSignature).collectTransaction crypto
          transactionSignature) ∨
    m.currentState = some .introduceBlock ∧
      (∃ now, m.step crypto event = (m.cycleIntroduceBlock now).1) ∨
    m.currentState = some .introduceBlock ∧ ∃ peer block,
      SameNegotiation (m.considerBlock crypto peer block).1 (m.step crypto event) := by
  by_cases hstate : m.currentState = some .introduceBlock
  · rcases step_phase_cases crypto hstate hstays with
      ⟨-, hs⟩ | ⟨-, now, heq⟩ | ⟨peer, block, -, hs⟩
    · exact Or.inl hs
    · exact Or.inr (Or.inr (Or.inl ⟨hstate, now, heq⟩))
    · exact Or.inr (Or.inr (Or.inr ⟨hstate, peer, block, hs⟩))
  · cases event with
    | advance now => exact absurd hstays id
    | onCycle now creationSignature transactionSignature =>
      simp only [step, act, onCycle]
      split
      · exact Or.inr (Or.inl ⟨‹_›, creationSignature, transactionSignature, rfl⟩)
      · exact absurd ‹_› hstate
      · exact Or.inl ⟨rfl, rfl, rfl, rfl⟩
    | collectionBlockReceived peer block reply now =>
      exact Or.inl (step_outside_same hstate peer block reply now)
    | foundHash data => exact Or.inl ⟨rfl, rfl, rfl, rfl⟩
    | triggerTransaction receiver fraction => exact Or.inl ⟨rfl, rfl, rfl, rfl⟩

theorem step_advance_currentState (crypto : CryptoHelper) (m : BlockchainManager)
    (now : BlockchainTime) :
    (m.step crypto (.advance now)).currentState = some m.nextState := by
  simp only [step, act, setState]
  split_ifs with hsame
  · exact hsame
  · exact enterState_currentState crypto _ _ now

theorem step_currentState (crypto : CryptoHelper) (m : BlockchainManager) {event : ManagerEvent}
    (hstays : event.StaysInState) :
    (m.step crypto event).currentState = m.currentState := by
  rcases step_stays_cases crypto hstays with
    hsame | ⟨hstate, _, _, heq⟩ | ⟨hstate, now, heq⟩ | ⟨hstate, peer, block, hsame⟩
  · exact hsame.currentState
  · rw [heq]
    exact (collectTransaction_same crypto _ _).2.2.trans (collectCreation_same crypto _ _).2.2
  · rw [heq, cycleIntroduceBlock]
    split_ifs <;> rfl
  · rw [hsame.currentState]
    rcases considerBlock_cases crypto m peer block with
      ⟨-, heq⟩ | ⟨-, -, -, heq⟩ | ⟨-, -, -, heq⟩ | ⟨-, -, heq⟩ <;> rw [heq] <;> rfl

theorem step_sameBalances (crypto : CryptoHelper) (m : BlockchainManager) {event : ManagerEvent}
    (hstays : event.StaysInState) :
    Blockchain.SameBalances m.blockchain (m.step crypto event).blockchain := by
  rcases step_stays_cases crypto hstays with
    hsame | ⟨hstate, _, _, heq⟩ | ⟨hstate, now, heq⟩ | ⟨hstate, peer, block, hsame⟩
  · rw [hsame.blockchain]
    exact .refl _
  · rw [heq, (collectTransaction_same crypto _ _).1, (collectCreation_same crypto _ _).1]
    exact .refl _
  · rw [heq, cycleIntroduceBlock]
    split_ifs <;> exact .refl _
  · have hjudged := m.judge_sameBalances crypto block
    rw [hsame.blockchain]
    rcases considerBlock_cases crypto m peer block with
      ⟨-, heq⟩ | ⟨-, -, -, heq⟩ | ⟨-, -, -, heq⟩ | ⟨-, -, heq⟩ <;> rw [heq]
    · exact .refl _
    · exact hjudged
    · exact hjudged
    · exact hjudged

end BlockchainManager

/-! ## Runs of a phase -/

/-- A phase, up to some point: the node that enters it and the events since. -/
structure IntroducePhase where
  before : BlockchainManager
  enteredAt : BlockchainTime
  events : List ManagerEvent
  stays : ∀ event ∈ events, event.StaysInState

namespace IntroducePhase

variable (crypto : CryptoHelper) (phase : IntroducePhase)

/-- The node after `onEnter`. -/
def start : BlockchainManager :=
  (phase.before.enterState crypto .introduceBlock phase.enteredAt).1

/-- The node after the events. -/
def state : BlockchainManager :=
  Run.exec (BlockchainManager.step crypto) (phase.start crypto) phase.events

/-- The blocks received so far and their senders, replies left out. -/
def messages : List (PeerId × CollectionBlock) := phase.events.filterMap ManagerEvent.message

/-- One event, with the messages heard so far. -/
def hear (heard : List (PeerId × CollectionBlock) × BlockchainManager) (event : ManagerEvent) :
    List (PeerId × CollectionBlock) × BlockchainManager :=
  (heard.1 ++ event.message.toList, heard.2.step crypto event)

/-- `Q` holds of every event of the phase, the messages before it and the state it meets. -/
def AllEvents (Q : List (PeerId × CollectionBlock) → BlockchainManager → ManagerEvent → Prop) :
    Prop :=
  Run.AllSteps (hear crypto) (fun heard event => Q heard.1 heard.2 event)
    ([], phase.start crypto) phase.events

/-- `Q` holds of every message of the phase, the messages before it and the state it meets. -/
def OnMessages (Q : List (PeerId × CollectionBlock) → BlockchainManager → PeerId →
    CollectionBlock → Prop) : Prop :=
  phase.AllEvents crypto fun heard m event =>
    ∀ message ∈ event.message, Q heard m message.1 message.2

theorem exec_hear (events : List ManagerEvent)
    (heard : List (PeerId × CollectionBlock) × BlockchainManager) :
    Run.exec (hear crypto) heard events =
      (heard.1 ++ events.filterMap ManagerEvent.message,
        Run.exec (BlockchainManager.step crypto) heard.2 events) := by
  induction events generalizing heard with
  | nil => simp
  | cons event events ih =>
    rw [Run.exec_cons, Run.exec_cons, ih, hear, List.append_assoc]
    cases hm : event.message <;> simp [hm]

theorem onMessages_heard :
    phase.OnMessages crypto fun heard _ peer block =>
      ∀ message ∈ heard ++ [(peer, block)], message ∈ phase.messages := by
  have hall : ∀ (events : List ManagerEvent)
      (heard : List (PeerId × CollectionBlock) × BlockchainManager),
      (∀ message ∈ heard.1 ++ events.filterMap ManagerEvent.message, message ∈ phase.messages) →
      Run.AllSteps (hear crypto)
        (fun heard event => ∀ message ∈ event.message,
          ∀ other ∈ heard.1 ++ [(message.1, message.2)], other ∈ phase.messages) heard events := by
    intro events
    induction events with
    | nil => exact fun _ _ => trivial
    | cons event events ih =>
      intro heard hmem
      have hsplit : heard.1 ++ (event :: events).filterMap ManagerEvent.message =
          (heard.1 ++ event.message.toList) ++ events.filterMap ManagerEvent.message := by
        cases hm : event.message <;> simp [hm]
      rw [hsplit] at hmem
      refine ⟨fun message hmessage other hother => ?_, ih _ hmem⟩
      rw [hmessage] at hmem
      exact hmem other (List.mem_append_left _ hother)
  exact hall phase.events _ (by simp [messages])

theorem phaseInv_start :
    BlockchainManager.PhaseInv (phase.start crypto) (phase.start crypto) :=
  ⟨rfl, Blockchain.SameBalances.refl _, rfl, rfl, rfl⟩

variable {crypto phase}

theorem at_end {I : List (PeerId × CollectionBlock) × BlockchainManager → Prop}
    (h : Run.AllStates (hear crypto) I ([], phase.start crypto) phase.events) :
    I (phase.messages, phase.state crypto) := by
  have hlast := h.last
  rw [exec_hear, List.nil_append] at hlast
  exact hlast

/-- **The rule for phases.** What holds after `onEnter` and is kept by propagations and by every
block that is considered holds in every state of the phase. -/
theorem invariant
    {P : List (PeerId × CollectionBlock) → BlockchainManager → Prop}
    {Q : List (PeerId × CollectionBlock) → BlockchainManager → PeerId → CollectionBlock → Prop}
    (hQ : phase.OnMessages crypto Q) (hstart : P [] (phase.start crypto))
    (hsame : ∀ heard m m', P heard m → SameNegotiation m m' → P heard m')
    (hcycle : ∀ heard m now, P heard m → P heard (m.cycleIntroduceBlock now).1)
    (hconsider : ∀ heard m peer block, BlockchainManager.PhaseInv (phase.start crypto) m →
      Q heard m peer block → P heard m →
      P (heard ++ [(peer, block)]) (m.considerBlock crypto peer block).1) :
    Run.AllStates (hear crypto)
      (fun heard => BlockchainManager.PhaseInv (phase.start crypto) heard.2 ∧ P heard.1 heard.2)
      ([], phase.start crypto) phase.events := by
  have hstays : Run.AllSteps (hear crypto) (fun _ event => event.StaysInState)
      ([], phase.start crypto) phase.events :=
    Run.AllSteps.of_forall_mem fun event hevent _ => phase.stays event hevent
  refine Run.AllStates.of_steps ?_ ⟨phaseInv_start crypto phase, hstart⟩
    (Run.AllSteps.and.2 ⟨hstays, hQ⟩)
  rintro ⟨heard, m⟩ event ⟨hinv, hP⟩ ⟨hstay, hmessage⟩
  refine ⟨hinv.step hstay, ?_⟩
  show P (heard ++ event.message.toList) (m.step crypto event)
  rcases BlockchainManager.step_phase_cases crypto hinv.currentState hstay with
    ⟨hnone, hs⟩ | ⟨hnone, now, heq⟩ | ⟨peer, block, hsome, hs⟩
  · rw [hnone, Option.toList_none, List.append_nil]
    exact hsame heard m _ hP hs
  · rw [hnone, Option.toList_none, List.append_nil, heq]
    exact hcycle heard m now hP
  · rw [hsome, Option.toList_some]
    exact hsame _ _ _ (hconsider heard m peer block hinv (hmessage (peer, block) hsome) hP) hs

end IntroducePhase

end SwabianCoin
