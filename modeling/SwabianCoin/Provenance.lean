import SwabianCoin.HashChain
import SwabianCoin.SignedOnce

/-!
# Where a block comes from

`CycleStateCollect` files a sub-block under its hash, and `CycleStateIntroduceBlock` takes over the
keys of what it merges. So a block that nodes have put together, from nothing but blocks of such
nodes, has every sub-block under its own hash (`PutTogether.filed`), although nobody checks the
keys, and its signatures are used once (`appliedOnce_of_putTogether`).
-/

namespace SwabianCoin

variable {crypto : CryptoHelper}

/-! ## Blocks with sub-blocks under their hashes -/

/-- Every sub-block is stored under the hash in its header. -/
structure CollectionBlock.Filed (block : CollectionBlock) : Prop where
  transactions : block.transactions.Keyed fun subBlock => subBlock.header.genericHeader.blockHash
  creations : block.creations.Keyed fun subBlock => subBlock.header.genericHeader.blockHash

namespace CollectionBlock.Filed

variable {block block' : CollectionBlock}

theorem empty : ({} : CollectionBlock).Filed := ⟨OrdMap.Keyed.empty, OrdMap.Keyed.empty⟩

theorem congr (h : block.Filed) (htransactions : block'.transactions = block.transactions)
    (hcreations : block'.creations = block.creations) : block'.Filed :=
  ⟨htransactions ▸ h.transactions, hcreations ▸ h.creations⟩

/-- **Values under their own keys are used once.** -/
theorem appliedOnce (h : block.Filed) (crypto : CryptoHelper) (bc : Blockchain) :
    AppliedOnce crypto bc block := by
  have hdistinct := h.transactions.values_nodup
  refine ⟨h.transactions, h.creations, hdistinct, fun key => ?_⟩
  rw [balance_addBlock, exactBalance, CollectionBlock.sentOnce, List.dedup_eq_self.2 hdistinct,
    CollectionBlock.sent]

end CollectionBlock.Filed

/-! ## The own block of a node -/

namespace BlockchainManager

variable {m : BlockchainManager}

theorem filed_collectCreation (h : m.newBlock.Filed) (signature : Signature) :
    (m.collectCreation crypto signature).newBlock.Filed := by
  unfold collectCreation
  split
  · dsimp only
    split_ifs
    · exact ⟨h.transactions, (h.creations.insert rfl).mono fun _ => mem_of_mem_eraseIfLarger⟩
    · exact h
    · exact h
  · exact h

theorem filed_collectTransaction (h : m.newBlock.Filed) (signature : Signature) :
    (m.collectTransaction crypto signature).newBlock.Filed := by
  unfold collectTransaction
  split
  · dsimp only
    split_ifs
    · exact ⟨(h.transactions.insert rfl).mono fun _ => mem_of_mem_eraseIfLarger, h.creations⟩
    · exact h
    · exact h
  · exact h

/-- What is merged keeps its keys. -/
theorem filed_mergeBlock (h : m.newBlock.Filed) {block : CollectionBlock} (hblock : block.Filed) :
    (m.mergeBlock crypto block).1.newBlock.Filed where
  transactions := by
    refine Ballot.admitted_offerAll _ _ block.transactions (fun admitted element hmem hkeyed => ?_)
      h.transactions
    exact (hkeyed.insert (hblock.transactions element hmem)).mono fun _ => mem_of_mem_eraseIfLarger
  creations := by
    refine Ballot.admitted_offerAll _ _ block.creations (fun admitted element hmem hkeyed => ?_)
      h.creations
    refine (hkeyed.insert (hblock.creations element hmem)).mono fun entry hentry => ?_
    exact (mem_getRidOfDuplicates.1 (mem_of_mem_eraseIfLarger hentry)).1

theorem filed_considerBlock (h : m.newBlock.Filed) (peer : PeerId) {block : CollectionBlock}
    (hblock : block.Filed) : (m.considerBlock crypto peer block).1.newBlock.Filed := by
  rcases considerBlock_cases crypto m peer block with
    ⟨-, heq⟩ | ⟨-, -, -, heq⟩ | ⟨-, -, -, heq⟩ | ⟨-, -, heq⟩ <;> rw [heq]
  · exact h
  · rw [mergeBlock_judge_newBlock]
    exact filed_mergeBlock h hblock
  · exact h
  · exact h

theorem filed_enterState (crypto : CryptoHelper) (h : m.newBlock.Filed) (state : CycleState)
    (now : BlockchainTime) :
    (m.enterState crypto state now).1.newBlock.Filed := by
  cases state with
  | collect => exact .empty
  | introduceBlock =>
    simp only [enterState, enterIntroduceBlock]
    split
    · exact h
    · exact h.congr rfl rfl
  | introduceBaseline => exact h

theorem filed_exitIntroduceBlock (h : m.newBlock.Filed) :
    (m.exitIntroduceBlock crypto).1.newBlock.Filed := by
  simp only [exitIntroduceBlock]
  split_ifs <;> exact h.congr rfl rfl

theorem filed_advance (h : m.newBlock.Filed) (now : BlockchainTime) :
    (m.step crypto (.advance now)).newBlock.Filed := by
  unfold step
  cases hstate : m.currentState with
  | none =>
    rw [(m.act_advance_start crypto now (Or.inl hstate)).2]
    exact filed_enterState crypto h _ now
  | some state =>
    cases state with
    | collect =>
      rw [(m.act_advance_start crypto now (Or.inr hstate)).2]
      exact filed_enterState crypto h _ now
    | introduceBlock =>
      rw [(m.act_advance_introduceBlock crypto now hstate).2]
      exact filed_enterState crypto (filed_exitIntroduceBlock h) _ now
    | introduceBaseline =>
      rw [m.act_advance_introduceBaseline crypto now hstate]
      exact filed_enterState crypto h _ now

/-- **The own block stays filed**, if the blocks that arrive are. -/
theorem filed_step (h : m.newBlock.Filed) {event : ManagerEvent}
    (hreceived : ∀ peer block, event.message = some (peer, block) → block.Filed) :
    (m.step crypto event).newBlock.Filed := by
  rcases event.advance_or_staysInState with ⟨now, rfl⟩ | hstays
  · exact filed_advance h now
  by_cases hstate : m.currentState = some .introduceBlock
  · rcases step_phase_cases crypto hstate hstays with
      ⟨-, hsame⟩ | ⟨-, now, heq⟩ | ⟨peer, block, hmessage, hsame⟩
    · rw [hsame.newBlock]
      exact h
    · rw [heq, (m.cycleIntroduceBlock_records now).2.2.2.1]
      exact h
    · rw [hsame.newBlock]
      exact filed_considerBlock h peer (hreceived peer block hmessage)
  · rcases step_stays_cases crypto hstays with
      hsame | ⟨-, _, _, heq⟩ | ⟨hintroduces, -⟩ | ⟨hintroduces, -⟩
    · rw [hsame.newBlock]
      exact h
    · rw [heq]
      exact filed_collectTransaction (filed_collectCreation h _) _
    · exact absurd hintroduces hstate
    · exact absurd hintroduces hstate

theorem filed_introduced_enterState (crypto : CryptoHelper) (h : m.newBlock.Filed)
    (state : CycleState) (now : BlockchainTime) :
    ∀ effect ∈ (m.enterState crypto state now).2, ∀ block ∈ effect.introduced, block.Filed := by
  intro effect hmem block hblock
  cases state with
  | introduceBlock =>
    have hnew := filed_enterState crypto h .introduceBlock now
    rw [List.mem_singleton.1 hmem] at hblock
    cases hblock
    exact hnew
  | _ => exact absurd hmem List.not_mem_nil

/-- At the end of a negotiation the own block is added, and then the next state is entered. -/
theorem filed_introduced_advance (h : m.newBlock.Filed) (now : BlockchainTime) :
    ∀ effect ∈ m.effects crypto (.advance now), ∀ block ∈ effect.introduced, block.Filed := by
  unfold effects
  cases hstate : m.currentState with
  | none =>
    rw [(m.act_advance_start crypto now (Or.inl hstate)).2]
    exact filed_introduced_enterState crypto h _ now
  | some state =>
    cases state with
    | collect =>
      rw [(m.act_advance_start crypto now (Or.inr hstate)).2]
      exact filed_introduced_enterState crypto h _ now
    | introduceBlock =>
      rw [(m.act_advance_introduceBlock crypto now hstate).2]
      intro effect hmem block hblock
      rcases List.mem_cons.1 hmem with rfl | hmem
      · cases hblock
        exact h.congr rfl rfl
      · exact filed_introduced_enterState crypto (filed_exitIntroduceBlock h) _ now effect hmem
          block hblock
    | introduceBaseline =>
      rw [m.act_advance_introduceBaseline crypto now hstate]
      exact filed_introduced_enterState crypto h _ now

theorem filed_introduced (h : m.newBlock.Filed) (event : ManagerEvent) :
    ∀ effect ∈ m.effects crypto event, ∀ block ∈ effect.introduced, block.Filed := by
  cases event with
  | advance now => exact filed_introduced_advance h now
  | onCycle now creationSignature transactionSignature =>
    intro effect hmem block hblock
    simp only [effects, act, onCycle] at hmem
    split at hmem
    · exact absurd hmem List.not_mem_nil
    · simp only [cycleIntroduceBlock] at hmem
      split_ifs at hmem
      · rw [List.mem_singleton.1 hmem] at hblock
        cases hblock
        exact h
      · exact absurd hmem List.not_mem_nil
    · exact absurd hmem List.not_mem_nil
  | collectionBlockReceived peer received reply now =>
    intro effect hmem block hblock
    rw [m.introduced_received crypto peer received reply now effect hmem] at hblock
    cases hblock
  | _ => exact fun effect hmem => absurd hmem List.not_mem_nil

end BlockchainManager

/-! ## Blocks that nodes have put together -/

/-- The collection an event brings. -/
def NodeEvent.received : NodeEvent → Option CollectionBlock
  | .fetch (.collectionBlockReceived _ block _) => some block
  | .manager (.collectionBlockReceived _ block _ _) => some block
  | _ => none

/-- The block that is sent to the peers or added to the chain without being validated. -/
def FetchEffect.introduced : FetchEffect → Option CollectionBlock
  | .manager effect => effect.introduced
  | .askForBlock _ => none
  | .askForLastBaselineBlock => none

/-- A node has introduced the block at some event of a run, from the constructor, in which it
received only blocks that nodes had introduced in the same way. -/
inductive PutTogether (crypto : CryptoHelper) : CollectionBlock → Prop
  | introduced (ourPublicKey : PublicKeyPEM) (before : Blockchain) (events : List NodeEvent)
      (event : NodeEvent) (effect : FetchEffect) {block : CollectionBlock}
      (hreceived : ∀ earlier ∈ events, ∀ other ∈ earlier.received, PutTogether crypto other)
      (heffect : effect ∈ (Run.exec (FetchingNode.nodeStep crypto)
        (FetchingNode.construct crypto ourPublicKey before) events).nodeEffects crypto event)
      (hblock : effect.introduced = some block) : PutTogether crypto block

namespace FetchingNode

variable {node : FetchingNode}

theorem filed_nodeStep (h : node.base.newBlock.Filed) {event : NodeEvent}
    (hreceived : ∀ block ∈ event.received, block.Filed) :
    (node.nodeStep crypto event).base.newBlock.Filed := by
  rcases node.nodeStep_cases crypto event with
    ⟨heq, -⟩ | ⟨-, -, heq, -⟩ | ⟨fetchEvent, -, henter, hinside, heq, -⟩ |
      ⟨managerEvent, rfl, -, heq, -⟩ <;> rw [heq]
  · exact h
  · exact h
  · rcases node.step_own crypto henter hinside with hsame | ⟨now, -, hexit⟩
    · rw [hsame.newBlock]
      exact h
    · rw [hexit]
      exact .empty
  · refine BlockchainManager.filed_step h fun peer block hmessage => hreceived block ?_
    cases managerEvent with
    | collectionBlockReceived other received reply now =>
      cases reply with
      | false =>
        cases hmessage
        rfl
      | true => cases hmessage
    | _ => cases hmessage

theorem filed_run (crypto : CryptoHelper) (ourPublicKey : PublicKeyPEM) (before : Blockchain)
    (events : List NodeEvent)
    (hreceived : ∀ event ∈ events, ∀ block ∈ event.received, block.Filed) :
    Run.AllStates (nodeStep crypto) (fun node => node.base.newBlock.Filed)
      (construct crypto ourPublicKey before) events :=
  Run.AllStates.of_steps (fun _ _ h hevent => filed_nodeStep h hevent) CollectionBlock.Filed.empty
    (Run.AllSteps.of_forall_mem fun event hevent _ => hreceived event hevent)

theorem introduced_map_manager {effects : List Effect}
    (h : ∀ effect ∈ effects, effect.introduced = none) :
    ∀ effect ∈ effects.map FetchEffect.manager, effect.introduced = none := by
  intro effect hmem
  obtain ⟨managerEffect, hmanager, rfl⟩ := List.mem_map.1 hmem
  exact h managerEffect hmanager

theorem introduced_nil : ∀ effect ∈ ([] : List FetchEffect), effect.introduced = none :=
  fun _ hmem => absurd hmem List.not_mem_nil

theorem introduced_processAgents (entries : List (BlockUid × BlockFetchAgent CollectionBlock))
    (node : FetchingNode) :
    ∀ effect ∈ (node.processAgents crypto entries).2, effect.introduced = none := by
  induction entries generalizing node with
  | nil => exact introduced_nil
  | cons first rest ih =>
    obtain ⟨uid, agent⟩ := first
    rw [processAgents]
    cases agent.receivedBlock with
    | none => exact introduced_nil
    | some received =>
      obtain ⟨peer, block⟩ := received
      dsimp only
      intro effect hmem
      rcases List.mem_append.1 hmem with hmem | hmem
      · split_ifs at hmem
        · exact introduced_nil effect hmem
        · exact introduced_map_manager
            (BlockchainManager.introduced_reportViolation _ peer .invalidBlock) effect hmem
      · exact ih _ effect hmem

theorem introduced_fetchBlocksThread (crypto : CryptoHelper) (node : FetchingNode)
    (now : BlockchainTime) (numConnectedPeers : Nat) :
    ∀ effect ∈ (node.fetchBlocksThread crypto now numConnectedPeers).2,
      effect.introduced = none := by
  unfold fetchBlocksThread
  cases node.state.thread with
  | fetchingBaseline =>
    dsimp only
    unfold cycleFetchBaseline
    split_ifs
    · split
      · exact introduced_nil
      · split_ifs
        · exact introduced_nil
        · exact introduced_map_manager
            (BlockchainManager.introduced_reportViolation _ _ .invalidBlock)
        · exact introduced_nil
    · exact introduced_nil
  | loopHead nextIdToFetch =>
    dsimp only
    split_ifs
    · exact introduced_processAgents _ node
    · exact introduced_nil
  | waitingForPeers =>
    dsimp only
    split_ifs <;> exact introduced_nil
  | comparing nextIdToFetch =>
    dsimp only
    split_ifs <;> exact introduced_nil
  | _ => exact introduced_nil

theorem introduced_fetch (crypto : CryptoHelper) (node : FetchingNode) (event : FetchEvent) :
    ∀ effect ∈ (node.act crypto event).2, effect.introduced = none := by
  cases event with
  | onCycle now =>
    simp only [act]
    split_ifs
    · intro effect hmem
      rcases List.mem_append.1 hmem with hmem | hmem
      · split_ifs at hmem
        · rw [List.mem_singleton.1 hmem]
          rfl
        · exact introduced_nil effect hmem
      · obtain ⟨entry, -, rfl⟩ := List.mem_map.1 hmem
        rfl
    · exact introduced_nil
  | fetchBlocksThread now numConnectedPeers =>
    exact introduced_fetchBlocksThread crypto node now numConnectedPeers
  | cacheThread => exact introduced_nil
  | _ =>
    simp only [act]
    split_ifs <;> exact introduced_nil

theorem filed_nodeEffects (h : node.base.newBlock.Filed) (event : NodeEvent) :
    ∀ effect ∈ node.nodeEffects crypto event, ∀ block ∈ effect.introduced, block.Filed := by
  intro effect hmem block hblock
  rcases node.nodeStep_cases crypto event with
    ⟨-, heq⟩ | ⟨-, -, -, heq⟩ | ⟨fetchEvent, -, -, -, -, heq⟩ | ⟨managerEvent, -, -, -, heq⟩ <;>
    rw [heq] at hmem
  · exact absurd hmem List.not_mem_nil
  · exact absurd hmem List.not_mem_nil
  · rw [introduced_fetch crypto node fetchEvent effect hmem] at hblock
    cases hblock
  · obtain ⟨managerEffect, hmanager, rfl⟩ := List.mem_map.1 hmem
    exact BlockchainManager.filed_introduced h managerEvent managerEffect hmanager block hblock

end FetchingNode

theorem PutTogether.of_collect (ourPublicKey : PublicKeyPEM) (before : Blockchain)
    (events : List NodeEvent) (now : BlockchainTime) {node : FetchingNode}
    (hnode : Run.exec (FetchingNode.nodeStep crypto)
      (FetchingNode.construct crypto ourPublicKey before) events = node)
    (hreceived : ∀ event ∈ events, ∀ block ∈ event.received, PutTogether crypto block)
    (hleft : node.Left) (hstate : node.base.currentState = some .collect) :
    PutTogether crypto (node.base.step crypto (.advance now)).newBlock := by
  have hsent : Effect.propagateBlock (node.base.step crypto (.advance now)).newBlock ∈
      node.base.effects crypto (.advance now) := by
    unfold BlockchainManager.effects BlockchainManager.step
    rw [(node.base.act_advance_start crypto now (Or.inr hstate)).2]
    exact List.mem_singleton_self _
  refine .introduced ourPublicKey before events (.manager (.advance now))
    (.manager (.propagateBlock _)) hreceived ?_ rfl
  rw [hnode, FetchingNode.nodeEffects, if_pos (Or.inl hleft)]
  exact List.mem_map.2 ⟨_, hsent, rfl⟩

/-- The induction is over the blocks that the sender of the block had received before. -/
theorem PutTogether.filed {block : CollectionBlock} (h : PutTogether crypto block) :
    block.Filed := by
  induction h with
  | introduced ourPublicKey before events event effect hreceived heffect hblock ih =>
    have hnew := (FetchingNode.filed_run crypto ourPublicKey before events ih).last
    exact FetchingNode.filed_nodeEffects hnew event effect heffect _ hblock

/-- **Blocks that nodes have put together use their signatures once**: on every chain that accepts
them, and in every run of a node that receives nothing else, when it adds or sends its own. -/
theorem appliedOnce_of_putTogether (crypto : CryptoHelper) :
    (∀ (bc : Blockchain) (block : CollectionBlock), bc.Accepts crypto block →
      PutTogether crypto block → AppliedOnce crypto bc block) ∧
    ∀ (ourPublicKey : PublicKeyPEM) (before : Blockchain) (events : List NodeEvent),
      (∀ event ∈ events, ∀ block ∈ event.received, PutTogether crypto block) →
      Run.AllSteps (FetchingNode.nodeStep crypto)
        (fun node event => ∀ effect ∈ node.nodeEffects crypto event, ∀ block ∈ effect.introduced,
          AppliedOnce crypto node.base.blockchain block)
        (FetchingNode.construct crypto ourPublicKey before) events := by
  constructor
  · intro bc block _ hblock
    exact hblock.filed.appliedOnce crypto bc
  · intro ourPublicKey before events hreceived
    have hfiled := FetchingNode.filed_run crypto ourPublicKey before events
      fun event hevent block hblock => (hreceived event hevent block hblock).filed
    refine hfiled.allSteps.mono fun node event h effect hmem block hblock => ?_
    exact (FetchingNode.filed_nodeEffects h event effect hmem block hblock).appliedOnce crypto _

namespace Sample

/-- A node mines a coin in its first own block and pays in the next one. -/
def mineAndPay : List NodeEvent :=
  [.manager (.advance 0), .manager (.advance 0),
    .manager (.foundHash (dataValueBeginning {} keyA)), .manager (.onCycle 0 keyA.shortString []),
    .manager (.advance 0), .manager (.advance 0), .manager (.triggerTransaction keyB 300000),
    .manager (.onCycle 0 [] keyA.shortString)]

def payingNode : FetchingNode :=
  Run.exec (FetchingNode.nodeStep .sample) (.construct .sample keyA {}) mineAndPay

/-- The block with the payment, as the node sends it. -/
def paidBlock : CollectionBlock := (payingNode.base.step .sample (.advance 0)).newBlock

theorem putTogether_paidBlock : PutTogether .sample paidBlock := by
  have hnothing : ∀ event ∈ mineAndPay, event.received = none := by
    simp [mineAndPay, NodeEvent.received]
  refine .of_collect keyA {} mineAndPay 0 rfl (fun event hevent block hblock => ?_)
    (by decide +kernel) (by decide +kernel)
  rw [hnothing event hevent] at hblock
  cases hblock

/-- Another node receives the block in its negotiation and adds it. -/
def receivePaid : List NodeEvent :=
  [.manager (.advance 0), .manager (.collectionBlockReceived [1] paidBlock false 0),
    .manager (.advance 0)]

end Sample

/-- The chain of the payer takes the payment once. -/
theorem payment_applied_once :
    Sample.payingNode.base.blockchain.Accepts .sample Sample.paidBlock ∧
      Sample.payingNode.base.blockchain.getBalance Sample.keyA = 1000000 ∧
      (Sample.payingNode.base.blockchain.addBlock .sample Sample.paidBlock).getBalance
        Sample.keyA = 700000 ∧
      AppliedOnce .sample Sample.payingNode.base.blockchain Sample.paidBlock ∧
      Run.AllSteps (FetchingNode.nodeStep .sample)
        (fun node event => ∀ effect ∈ node.nodeEffects .sample event, ∀ block ∈ effect.introduced,
          AppliedOnce .sample node.base.blockchain block)
        (FetchingNode.construct .sample Sample.keyB {}) Sample.receivePaid := by
  have haccepts : Sample.payingNode.base.blockchain.Accepts .sample Sample.paidBlock := by
    decide +kernel
  refine ⟨haccepts, by decide +kernel, by decide +kernel,
    (appliedOnce_of_putTogether .sample).1 _ _ haccepts Sample.putTogether_paidBlock,
    (appliedOnce_of_putTogether .sample).2 Sample.keyB {} Sample.receivePaid ?_⟩
  intro event hevent block hblock
  rcases List.mem_cons.1 hevent with rfl | hevent
  · cases hblock
  rcases List.mem_cons.1 hevent with rfl | hevent
  · rw [← Option.some.inj hblock]
    exact Sample.putTogether_paidBlock
  rw [List.mem_singleton.1 hevent] at hblock
  cases hblock

end SwabianCoin
