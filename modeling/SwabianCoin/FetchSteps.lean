import SwabianCoin.GenuineChain

/-!
# Steps of a node that synchronises

A node has fetched a baseline and asks for the blocks after it, fifty at a time. As long as all
answers are blocks of the network, the chain of the node is that of the network so far
(`Synchronising.step`), and nobody is reported (`Synchronising.nobody_reported`).
-/

namespace SwabianCoin

open Machine

variable {crypto : CryptoHelper} {genuine : BlockUid → CollectionBlock}

/-- The event is a step of the thread. -/
def FetchEvent.isThreadStep : FetchEvent → Bool
  | .fetchBlocksThread _ _ => true
  | _ => false

namespace FetchingNode

/-- No baseline is due that is newer than the blocks that are fetched. -/
def NoneDue (now : BlockchainTime) : FetchThread → Prop
  | .comparing nextIdToFetch => getBlockId now < getNextBaselineBlock nextIdToFetch
  | _ => True

/-- What is assumed of an event while a node synchronises. Answers are blocks of the network, the
state is not left, and the network does not get to the next baseline. -/
def Cooperates (genuine : BlockUid → CollectionBlock) (last : BlockUid) (node : FetchingNode) :
    FetchEvent → Prop
  | .collectionBlockReceived _ block reply => reply = true →
      block = genuine block.header.blockUid ∧ block.header.blockUid ≤ last
  | .fetchBlocksThread now _ => NoneDue now node.state.thread
  | .onExit _ => False
  | _ => True

end FetchingNode

/-! ## Deciding -/

namespace FetchingNode

instance (now : BlockchainTime) : ∀ thread, Decidable (NoneDue now thread)
  | .comparing nextIdToFetch =>
    inferInstanceAs (Decidable (getBlockId now < getNextBaselineBlock nextIdToFetch))
  | .joined | .waitingForPeers | .callingFetchBaseline | .fetchingBaseline | .loopHead _
  | .refilling _ => inferInstanceAs (Decidable True)

instance (last : BlockUid) (node : FetchingNode) :
    ∀ event, Decidable (node.Cooperates genuine last event)
  | .collectionBlockReceived _ _ _ => inferInstanceAs (Decidable (_ → _ ∧ _))
  | .fetchBlocksThread now _ => inferInstanceAs (Decidable (NoneDue now node.state.thread))
  | .onExit _ => inferInstanceAs (Decidable False)
  | .onEnter | .onCycle _ | .baselineBlockReceived _ _ _ | .cacheThread | .elsewhere _ =>
    inferInstanceAs (Decidable True)

end FetchingNode

/-! ## Steps -/

namespace FetchingNode

variable {root : BaselineBlock} {last : BlockUid} {node : FetchingNode} {event : FetchEvent}

/-- The loop over the blocks, with all answers from the network. -/
structure Synchronising (crypto : CryptoHelper) (genuine : BlockUid → CollectionBlock)
    (root : BaselineBlock) (last : BlockUid) (node : FetchingNode) : Prop where
  running : node.state.running = true
  inLoop : node.state.thread.nextIdToFetch ≠ none
  fetch : FetchInv node
  size : node.state.blockFetchAgentMap.size ≤ maxParallelBlockFetchers
  ids : ∀ entry ∈ node.state.blockFetchAgentMap, entry.2.blockId = entry.1
  chain : HoldsGenuine crypto genuine root node.base.blockchain
  newest_le : node.base.blockchain.getNewestBlockId ≤ last
  replies : node.RepliesAre fun uid _ block => block = genuine uid ∧ uid ≤ last

/-- The agent is for the same block, and has a reply if it had one. -/
structure KeepsReply (agent next : BlockFetchAgent CollectionBlock) : Prop where
  blockId : next.blockId = agent.blockId
  reply : agent.receivedBlock.isSome = true → next.receivedBlock.isSome = true

theorem KeepsReply.refl (agent : BlockFetchAgent CollectionBlock) : KeepsReply agent agent :=
  ⟨rfl, id⟩

theorem keepsReply_onCycle (agent : BlockFetchAgent CollectionBlock) (now : BlockchainTime) :
    KeepsReply agent (agent.onCycle now).1 := by
  unfold BlockFetchAgent.onCycle
  split_ifs <;> exact ⟨rfl, id⟩

theorem keepsReply_blockReceivedCallback (agent : BlockFetchAgent CollectionBlock) (peer : PeerId)
    (block : CollectionBlock) :
    KeepsReply agent (agent.blockReceivedCallback CollectionBlock.header peer block) := by
  unfold BlockFetchAgent.blockReceivedCallback
  split_ifs
  · exact ⟨rfl, fun _ => rfl⟩
  · exact KeepsReply.refl agent

/-- A step that is not one of the thread's: only answers arrive, and the cache moves blocks. -/
structure Quiet (node next : FetchingNode) : Prop where
  running : next.state.running = node.state.running
  thread : next.state.thread = node.state.thread
  agents : ∃ f, next.state.blockFetchAgentMap = node.state.blockFetchAgentMap.mapEntries f ∧
    ∀ uid agent, KeepsReply agent (f uid agent)
  chain : next.base.blockchain = node.base.blockchain ∨ next.base.blockchain =
    { node.base.blockchain with cache := node.base.blockchain.cache.cacheThread }

theorem quiet_self {next : FetchingNode} (hstate : next.state.running = node.state.running)
    (hthread : next.state.thread = node.state.thread)
    (hagents : next.state.blockFetchAgentMap = node.state.blockFetchAgentMap)
    (hchain : next.base.blockchain = node.base.blockchain ∨ next.base.blockchain =
      { node.base.blockchain with cache := node.base.blockchain.cache.cacheThread }) :
    Quiet node next := by
  refine ⟨hstate, hthread, ⟨fun _ agent => agent, ?_, fun _ => KeepsReply.refl⟩, hchain⟩
  rw [hagents, OrdMap.mapEntries_self]

/-- Every event but a step of the thread leaves the loop where it is. -/
theorem Synchronising.quiet_step (h : Synchronising crypto genuine root last node)
    (hevent : node.Cooperates genuine last event) (hquiet : event.isThreadStep = false) :
    Quiet node (node.step crypto event) := by
  have hnotLeft : ¬ node.Left := fun hleft => by
    have hstopped := hleft.1
    rw [h.running] at hstopped
    cases hstopped
  cases event with
  | fetchBlocksThread now peers => cases hquiet
  | onExit now => exact hevent.elim
  | onEnter =>
    simp only [step, act, if_neg hnotLeft]
    exact quiet_self rfl rfl rfl (Or.inl rfl)
  | elsewhere base =>
    simp only [step, act, if_neg hnotLeft]
    exact quiet_self rfl rfl rfl (Or.inl rfl)
  | onCycle now =>
    simp only [step, act, if_pos h.running]
    exact ⟨rfl, rfl, ⟨_, rfl, fun _ agent => keepsReply_onCycle agent now⟩, Or.inl rfl⟩
  | baselineBlockReceived peer block reply =>
    simp only [step, act, if_pos h.running, baselineBlockReceived]
    split_ifs <;> exact quiet_self rfl rfl rfl (Or.inl rfl)
  | collectionBlockReceived peer block reply =>
    simp only [step, act, if_pos h.running, collectionBlockReceived]
    split_ifs
    · -- Only the agent for this block takes it.
      refine ⟨rfl, rfl, ⟨fun uid agent => if block.header.blockUid = uid then
        agent.blockReceivedCallback CollectionBlock.header peer block else agent, rfl,
        fun uid agent => ?_⟩, Or.inl rfl⟩
      dsimp only
      split_ifs
      · exact keepsReply_blockReceivedCallback agent peer block
      · exact KeepsReply.refl agent
    · exact quiet_self rfl rfl rfl (Or.inl rfl)
  | cacheThread => exact quiet_self rfl rfl rfl (Or.inr rfl)

/-- **What a step can do** in the loop over the blocks. -/
theorem Synchronising.step_cases (h : Synchronising crypto genuine root last node)
    (hevent : node.Cooperates genuine last event) :
    (event.isThreadStep = false ∧ Quiet node (node.step crypto event)) ∨
    (∃ now peers nextIdToFetch, event = .fetchBlocksThread now peers ∧
      node.state.thread = .loopHead nextIdToFetch ∧
      node.step crypto event =
        (node.processFinishedAgents crypto).1.withThread (.refilling nextIdToFetch)) ∨
    (∃ now peers nextIdToFetch, event = .fetchBlocksThread now peers ∧
      node.state.thread = .refilling nextIdToFetch ∧
      node.step crypto event =
        { node with state :=
          { node.state with
            blockFetchAgentMap :=
              (refillAgentMap now node.state.blockFetchAgentMap nextIdToFetch).1
            thread :=
              .comparing (refillAgentMap now node.state.blockFetchAgentMap nextIdToFetch).2 } }) ∨
    ∃ now peers nextIdToFetch, event = .fetchBlocksThread now peers ∧
      node.state.thread = .comparing nextIdToFetch ∧
      node.step crypto event = (node.updateGlobal now).withThread (.loopHead nextIdToFetch) := by
  cases hkind : event.isThreadStep with
  | false => exact Or.inl ⟨rfl, h.quiet_step hevent hkind⟩
  | true =>
    refine Or.inr ?_
    cases event with
    | fetchBlocksThread now peers =>
      cases hthread : node.state.thread with
      | loopHead nextIdToFetch =>
        refine Or.inl ⟨now, peers, nextIdToFetch, rfl, rfl, ?_⟩
        simp [step, act, fetchBlocksThread, hthread, h.running]
      | refilling nextIdToFetch =>
        refine Or.inr (Or.inl ⟨now, peers, nextIdToFetch, rfl, rfl, ?_⟩)
        simp [step, act, fetchBlocksThread, hthread]
      | comparing nextIdToFetch =>
        refine Or.inr (Or.inr ⟨now, peers, nextIdToFetch, rfl, rfl, ?_⟩)
        have hnone : getBlockId now < getNextBaselineBlock nextIdToFetch := by
          have hdue : NoneDue now node.state.thread := hevent
          rw [hthread] at hdue
          exact hdue
        simp [step, act, fetchBlocksThread, hthread, updateGlobal, not_le.2 hnone]
      | _ => exact absurd (by rw [hthread]; rfl) h.inLoop
    | _ => cases hkind

/-- **The answers that are processed** are the next blocks of the network, and are accepted. -/
theorem Synchronising.processes (h : Synchronising crypto genuine root last node)
    (hc : Continuation crypto genuine root last) :
    ∃ count, finishedBlocks node.state.blockFetchAgentMap.entries =
        genuineAfter genuine node.base.blockchain.getNewestBlockId count ∧
      node.base.blockchain.getNewestBlockId.toNat + count ≤ last.toNat ∧
      AcceptedInTurn crypto node.base.blockchain
        (finishedBlocks node.state.blockFetchAgentMap.entries) := by
  obtain ⟨nextIdToFetch, hnext⟩ := Option.ne_none_iff_exists'.1 h.inLoop
  have hle := UInt64.le_iff_toNat_le.1 h.newest_le
  have hkeys := (h.fetch.agents nextIdToFetch hnext).keys_eq h.size (by have := hc.idsLeft; omega)
  rw [OrdMap.keys, List.map_map] at hkeys
  obtain ⟨count, hblocks, hbound⟩ :=
    finishedBlocks_eq_genuineAfter node.state.blockFetchAgentMap.entries _ hkeys h.replies
  have hcount : node.base.blockchain.getNewestBlockId.toNat + count ≤ last.toNat := by
    rcases Nat.eq_zero_or_pos count with rfl | hpos
    · exact hle
    · exact hbound hpos
  refine ⟨count, hblocks, hcount, ?_⟩
  have hrest := h.chain.accepts_rest hc h.newest_le
  have hsplit : last.toNat - node.base.blockchain.getNewestBlockId.toNat =
      count + (last.toNat - node.base.blockchain.getNewestBlockId.toNat - count) := by
    omega
  rw [hsplit, genuineAfter_add, acceptedInTurn_append] at hrest
  rw [hblocks]
  exact hrest.1

/-- **The answers are added**, and nobody is reported. -/
theorem Synchronising.processed (h : Synchronising crypto genuine root last node)
    (hc : Continuation crypto genuine root last) :
    HoldsGenuine crypto genuine root (node.processFinishedAgents crypto).1.base.blockchain ∧
      (node.processFinishedAgents crypto).1.base.blockchain.getNewestBlockId.toNat =
        node.base.blockchain.getNewestBlockId.toNat +
          (finishedBlocks node.state.blockFetchAgentMap.entries).length ∧
      (node.processFinishedAgents crypto).1.base.blockchain.getNewestBlockId ≤ last ∧
      (node.processFinishedAgents crypto).2 = [] := by
  obtain ⟨count, hblocks, hcount, haccepted⟩ := h.processes hc
  obtain ⟨heffects, hchain⟩ := node.processAgents_accepted _ haccepted
  rw [hblocks] at hchain haccepted
  obtain ⟨hholds, hnewest⟩ := h.chain.foldl_addBlock count haccepted
  rw [← hchain] at hholds hnewest
  have hlength : (finishedBlocks node.state.blockFetchAgentMap.entries).length = count := by
    rw [hblocks, genuineAfter, List.length_map, List.length_range]
  rw [hlength]
  refine ⟨hholds, hnewest, ?_, heffects⟩
  rw [UInt64.le_iff_toNat_le]
  exact hnewest.trans_le hcount

theorem Quiet.newest {next : FetchingNode} (h : Quiet node next) :
    next.base.blockchain.getNewestBlockId = node.base.blockchain.getNewestBlockId := by
  rcases h.chain with hsame | hmoved
  · rw [hsame]
  · rw [hmoved]
    rfl

/-- The chain after a step, and how far it has got. -/
theorem Synchronising.chain_step (h : Synchronising crypto genuine root last node)
    (hc : Continuation crypto genuine root last) (hevent : node.Cooperates genuine last event) :
    HoldsGenuine crypto genuine root (node.step crypto event).base.blockchain ∧
      node.base.blockchain.getNewestBlockId ≤
        (node.step crypto event).base.blockchain.getNewestBlockId ∧
      (node.step crypto event).base.blockchain.getNewestBlockId ≤ last := by
  rcases h.step_cases hevent with ⟨-, hquiet⟩ | ⟨now, peers, nextIdToFetch, -, hthread, hstep⟩ |
    ⟨now, peers, nextIdToFetch, -, hthread, hstep⟩ | ⟨now, peers, nextIdToFetch, -, hthread, hstep⟩
  · refine ⟨?_, hquiet.newest.ge, hquiet.newest ▸ h.newest_le⟩
    rcases hquiet.chain with hsame | hmoved
    · rw [hsame]
      exact h.chain
    · rw [hmoved]
      exact h.chain.cacheThread
  · obtain ⟨hholds, hnewest, hle, -⟩ := h.processed hc
    rw [hstep]
    refine ⟨hholds, ?_, hle⟩
    rw [UInt64.le_iff_toNat_le]
    exact (Nat.le_add_right _ _).trans_eq hnewest.symm
  · rw [hstep]
    exact ⟨h.chain, le_refl _, h.newest_le⟩
  · rw [hstep]
    exact ⟨h.chain, le_refl _, h.newest_le⟩

/-! ## Agents -/

theorem ids_refillLoop (now : BlockchainTime) (fuel : Nat) {agents : AgentMap}
    {nextIdToFetch : BlockUid} (h : ∀ entry ∈ agents, entry.2.blockId = entry.1) :
    ∀ entry ∈ (refillLoop now fuel agents nextIdToFetch).1, entry.2.blockId = entry.1 := by
  induction fuel generalizing agents nextIdToFetch with
  | zero => exact h
  | succ fuel ih =>
    rw [refillLoop]
    split_ifs with hmore
    · refine ih fun entry hentry => ?_
      rcases OrdMap.mem_touch.1 hentry with hold | ⟨rfl, -⟩
      · exact h entry hold
      · rfl
    · exact h

theorem mem_refillLoop_of_mem (now : BlockchainTime) (fuel : Nat) {agents : AgentMap}
    {nextIdToFetch : BlockUid} {entry : BlockUid × BlockFetchAgent CollectionBlock}
    (h : entry ∈ agents) : entry ∈ (refillLoop now fuel agents nextIdToFetch).1 := by
  induction fuel generalizing agents nextIdToFetch with
  | zero => exact h
  | succ fuel ih =>
    rw [refillLoop]
    split_ifs with hmore
    · exact ih (OrdMap.mem_touch.2 (Or.inl h))
    · exact h

theorem size_refillLoop (now : BlockchainTime) (fuel : Nat) (agents : AgentMap)
    (nextIdToFetch : BlockUid) (h : agents.size ≤ maxParallelBlockFetchers) :
    (refillLoop now fuel agents nextIdToFetch).1.size ≤ maxParallelBlockFetchers := by
  induction fuel generalizing agents nextIdToFetch with
  | zero => exact h
  | succ fuel ih =>
    rw [refillLoop]
    split_ifs with hmore
    · refine ih _ _ ?_
      have hroom : agents.size < maxParallelBlockFetchers := by
        rw [Bool.and_eq_true, decide_eq_true_eq] at hmore
        exact hmore.1
      unfold OrdMap.touch
      split_ifs
      · exact h
      · exact (OrdMap.size_insert_le _ _ _).trans hroom
    · exact h

theorem size_processAgents_le (entries : List (BlockUid × BlockFetchAgent CollectionBlock))
    (node : FetchingNode) :
    (node.processAgents crypto entries).1.state.blockFetchAgentMap.size ≤
      node.state.blockFetchAgentMap.size :=
  (OrdMap.entries_sublist fun _ hentry => mem_of_mem_processAgents hentry).length_le

theorem Synchronising.keepsIds (h : Synchronising crypto genuine root last node)
    (hc : Continuation crypto genuine root last) : node.KeepsIds crypto event := by
  cases event with
  | fetchBlocksThread now peers =>
    cases hthread : node.state.thread with
    | loopHead nextIdToFetch =>
      obtain ⟨count, -, -, haccepted⟩ := h.processes hc
      simp only [KeepsIds, hthread]
      exact fun _ => haccepted
    | fetchingBaseline => exact absurd (by rw [hthread]; rfl) h.inLoop
    | _ =>
      simp only [KeepsIds, hthread]
      trivial
  | _ => trivial

theorem running_processAgents (entries : List (BlockUid × BlockFetchAgent CollectionBlock))
    (node : FetchingNode) :
    (node.processAgents crypto entries).1.state.running = node.state.running := by
  induction entries generalizing node with
  | nil => rfl
  | cons first rest ih =>
    obtain ⟨uid, agent⟩ := first
    rw [processAgents]
    cases agent.receivedBlock with
    | none => rfl
    | some received => exact ih _

theorem Synchronising.replies_step (h : Synchronising crypto genuine root last node)
    (hevent : node.Cooperates genuine last event) :
    (node.step crypto event).RepliesAre fun uid _ block => block = genuine uid ∧ uid ≤ last := by
  by_cases hunasked : ∃ peer block, event = .collectionBlockReceived peer block false
  · obtain ⟨peer, block, rfl⟩ := hunasked
    simp only [FetchingNode.step, act, if_pos h.running, collectionBlockReceived]
    exact h.replies
  · refine h.replies.step fun peer block reply heq => ?_
    subst heq
    refine hevent ?_
    cases reply with
    | true => rfl
    | false => exact absurd ⟨peer, block, rfl⟩ hunasked

/-- **One step.** -/
theorem Synchronising.step (h : Synchronising crypto genuine root last node)
    (hc : Continuation crypto genuine root last) (hevent : node.Cooperates genuine last event) :
    Synchronising crypto genuine root last (node.step crypto event) := by
  obtain ⟨hchain, -, hle⟩ := h.chain_step hc hevent
  have hfetch : FetchInv (node.step crypto event) := h.fetch.step (h.keepsIds hc)
  have hreplies := h.replies_step hevent
  suffices hrest : (node.step crypto event).state.running = true ∧
      (node.step crypto event).state.thread.nextIdToFetch ≠ none ∧
      (node.step crypto event).state.blockFetchAgentMap.size ≤ maxParallelBlockFetchers ∧
      ∀ entry ∈ (node.step crypto event).state.blockFetchAgentMap, entry.2.blockId = entry.1 from
    ⟨hrest.1, hrest.2.1, hfetch, hrest.2.2.1, hrest.2.2.2, hchain, hle, hreplies⟩
  rcases h.step_cases hevent with ⟨-, hquiet⟩ | ⟨now, peers, nextIdToFetch, -, hthread, hstep⟩ |
    ⟨now, peers, nextIdToFetch, -, hthread, hstep⟩ | ⟨now, peers, nextIdToFetch, -, hthread, hstep⟩
  · obtain ⟨f, hagents, hkeeps⟩ := hquiet.agents
    refine ⟨hquiet.running.trans h.running, ?_, ?_, ?_⟩
    · rw [hquiet.thread]
      exact h.inLoop
    · rw [hagents, ← OrdMap.length_keys, OrdMap.keys_mapEntries, OrdMap.length_keys]
      exact h.size
    · intro entry hentry
      rw [hagents] at hentry
      obtain ⟨agent, hagent, hnext⟩ := OrdMap.mem_mapEntries.1 hentry
      rw [← hnext, (hkeeps entry.1 agent).blockId]
      exact h.ids (entry.1, agent) hagent
  · rw [hstep]
    exact ⟨(running_processAgents _ node).trans h.running, by simp [withThread,
      FetchThread.nextIdToFetch], (size_processAgents_le _ node).trans h.size,
      fun entry hentry => h.ids entry (mem_of_mem_processAgents hentry)⟩
  · rw [hstep]
    exact ⟨h.running, by simp [FetchThread.nextIdToFetch], size_refillLoop now _ _ _ h.size,
      ids_refillLoop now _ h.ids⟩
  · rw [hstep]
    exact ⟨h.running, by simp [withThread, FetchThread.nextIdToFetch], h.size, h.ids⟩

/-- **Nobody is reported.** -/
theorem Synchronising.nobody_reported (h : Synchronising crypto genuine root last node)
    (hc : Continuation crypto genuine root last) (hevent : node.Cooperates genuine last event) :
    ∀ effect, .manager effect ∉ (node.act crypto event).2 := by
  intro effect hmem
  cases event with
  | fetchBlocksThread now peers =>
    simp only [act, fetchBlocksThread] at hmem
    cases hthread : node.state.thread with
    | loopHead nextIdToFetch =>
      -- Processing reports nobody, since all answers are accepted.
      simp only [hthread, if_pos h.running, (h.processed hc).2.2.2] at hmem
      exact absurd hmem List.not_mem_nil
    | refilling nextIdToFetch =>
      simp only [hthread] at hmem
      exact absurd hmem List.not_mem_nil
    | comparing nextIdToFetch =>
      simp only [hthread] at hmem
      split_ifs at hmem <;> exact absurd hmem List.not_mem_nil
    | _ => exact absurd (by rw [hthread]; rfl) h.inLoop
  | onCycle now =>
    simp only [act, if_pos h.running, onCycle] at hmem
    rcases List.mem_append.1 hmem with hbaseline | hblock
    · split_ifs at hbaseline
      · cases List.mem_singleton.1 hbaseline
      · exact absurd hbaseline List.not_mem_nil
    · obtain ⟨entry, -, heq⟩ := List.mem_map.1 hblock
      cases heq
  | onExit now => exact hevent
  | onEnter =>
    simp only [act] at hmem
    split_ifs at hmem <;> exact absurd hmem List.not_mem_nil
  | elsewhere base =>
    simp only [act] at hmem
    split_ifs at hmem <;> exact absurd hmem List.not_mem_nil
  | baselineBlockReceived peer block reply =>
    simp only [act] at hmem
    split_ifs at hmem <;> exact absurd hmem List.not_mem_nil
  | collectionBlockReceived peer block reply =>
    simp only [act] at hmem
    split_ifs at hmem <;> exact absurd hmem List.not_mem_nil
  | cacheThread => exact absurd hmem List.not_mem_nil

end FetchingNode

end SwabianCoin
