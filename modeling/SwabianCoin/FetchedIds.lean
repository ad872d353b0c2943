import SwabianCoin.ChainRun
import SwabianCoin.FetchBlockchain
import SwabianCoin.Grid
import SwabianCoin.Ledger

/-!
# No id is lost

While the chain is fetched, the map should hold one agent for every id after the newest block and
before the next id to fetch (`HasAgentsUpTo`); otherwise the blocks cannot be added one after the
other. Two things go wrong. An invalid block takes its agent with it, and nobody asks for the id
again. And `fetchBaseline` moves the newest block without touching the map, so agents from before
a fast-forward, or from an earlier stay in the state, remain. `KeepsIds` excludes both, and
nothing else is needed: `FetchInv` holds along every run.
-/

namespace SwabianCoin

open Machine

variable {crypto : CryptoHelper}

/-! ## Ids -/

/-- There is an agent for every id after the newest block and before `nextIdToFetch`, and for no
other id. -/
def FetchingNode.HasAgentsUpTo (node : FetchingNode) (nextIdToFetch : BlockUid) : Prop :=
  ∀ uid, uid ∈ node.state.blockFetchAgentMap.keys ↔
    uid ∈ between node.base.blockchain.getNewestBlockId nextIdToFetch

/-- At the head of the loop no id is missing and none is left over. -/
def FetchingNode.NoIdLost (node : FetchingNode) : Prop :=
  ∀ nextIdToFetch, node.state.thread = .loopHead nextIdToFetch → node.HasAgentsUpTo nextIdToFetch

/-- The blocks `processFinishedAgents` takes: those of the agents up to the first that has none. -/
def finishedBlocks : List (BlockUid × BlockFetchAgent CollectionBlock) → List CollectionBlock
  | [] => []
  | (_, agent) :: rest =>
    match agent.receivedBlock with
    | none => []
    | some (_, block) => block :: finishedBlocks rest

/-- Each block is accepted on the chain with the ones before it. -/
def AcceptedInTurn (crypto : CryptoHelper) : Blockchain → List CollectionBlock → Prop
  | _, [] => True
  | bc, block :: rest =>
    bc.Accepts crypto block ∧ AcceptedInTurn crypto (bc.addBlock crypto block) rest

instance decidableAcceptedInTurn : ∀ (bc : Blockchain) (blocks : List CollectionBlock),
    Decidable (AcceptedInTurn crypto bc blocks)
  | _, [] => inferInstanceAs (Decidable True)
  | bc, block :: rest =>
    have := decidableAcceptedInTurn (bc.addBlock crypto block) rest
    inferInstanceAs (Decidable (bc.Accepts crypto block ∧ _))

/-- `fetchBaseline` is about to return a root. -/
def FetchingNode.ReturnsRoot (crypto : CryptoHelper) (node : FetchingNode) : Prop :=
  node.state.running = true ∧ ∃ received ∈ node.receivedBaseline,
    node.base.blockchain.getNewestBlockId ≤ received.2.header.blockUid ∧
      validateBlockWithoutContext crypto received.2 = true

instance (node : FetchingNode) : Decidable (node.ReturnsRoot crypto) :=
  inferInstanceAs (Decidable (_ ∧ _))

/-- A step of the thread that loses no id: the blocks that `processFinishedAgents` takes are all
valid in turn, and a root is returned only if no agent is there. -/
def FetchingNode.ThreadKeepsIds (crypto : CryptoHelper) (node : FetchingNode) : FetchThread → Prop
  | .loopHead _ => node.state.running = true →
    AcceptedInTurn crypto node.base.blockchain
      (finishedBlocks node.state.blockFetchAgentMap.entries)
  | .fetchingBaseline => node.ReturnsRoot crypto → node.state.blockFetchAgentMap.isEmpty = true
  | _ => True

/-- Only steps of the thread can lose an id. -/
def FetchingNode.KeepsIds (crypto : CryptoHelper) (node : FetchingNode) : FetchEvent → Prop
  | .fetchBlocksThread _ _ => node.ThreadKeepsIds crypto node.state.thread
  | _ => True

instance (node : FetchingNode) : ∀ thread, Decidable (node.ThreadKeepsIds crypto thread)
  | .loopHead _ => inferInstanceAs (Decidable (_ → _))
  | .fetchingBaseline => inferInstanceAs (Decidable (_ → _))
  | .joined => inferInstanceAs (Decidable True)
  | .waitingForPeers => inferInstanceAs (Decidable True)
  | .callingFetchBaseline => inferInstanceAs (Decidable True)
  | .refilling _ => inferInstanceAs (Decidable True)
  | .comparing _ => inferInstanceAs (Decidable True)

instance (node : FetchingNode) : ∀ event, Decidable (node.KeepsIds crypto event)
  | .fetchBlocksThread _ _ => inferInstanceAs (Decidable (node.ThreadKeepsIds crypto _))
  | .onEnter => inferInstanceAs (Decidable True)
  | .onCycle _ => inferInstanceAs (Decidable True)
  | .onExit _ => inferInstanceAs (Decidable True)
  | .baselineBlockReceived _ _ _ => inferInstanceAs (Decidable True)
  | .collectionBlockReceived _ _ _ => inferInstanceAs (Decidable True)
  | .cacheThread => inferInstanceAs (Decidable True)
  | .elsewhere _ => inferInstanceAs (Decidable True)

/-! ## Processing -/

namespace FetchingNode

variable {node : FetchingNode} {nextIdToFetch : BlockUid}

/-- The head of the map is the block after the newest one if it is valid. -/
theorem HasAgentsUpTo.addBlock (h : node.HasAgentsUpTo nextIdToFetch)
    (htip : TipOk node.base.blockchain) {uid : BlockUid} {block : CollectionBlock}
    (hacc : node.base.blockchain.Accepts crypto block) (huid : block.header.blockUid = uid)
    (hkey : uid ∈ node.state.blockFetchAgentMap.keys) {base : BlockchainManager}
    (hbase : base.blockchain = node.base.blockchain.addBlock crypto block) :
    HasAgentsUpTo ⟨base, { node.state with
      blockFetchAgentMap := node.state.blockFetchAgentMap.erase uid }⟩ nextIdToFetch := by
  have hnext : uid = node.base.blockchain.getNewestBlockId + 1 := by
    rw [← huid, htip.uid_of_accepts hacc, htip.next]
  have hnewest : base.blockchain.getNewestBlockId = node.base.blockchain.getNewestBlockId + 1 := by
    rw [hbase]
    exact htip.next
  intro k
  show k ∈ (node.state.blockFetchAgentMap.erase uid).keys ↔
    k ∈ between base.blockchain.getNewestBlockId nextIdToFetch
  have hfirst := (h uid).1 hkey
  rw [hnext] at hfirst
  rw [OrdMap.mem_keys_erase, hnewest, mem_between_succ_left hfirst, h k, hnext]

/-- **Valid blocks are added one after the other, and only their agents go.** -/
theorem processAgents_spec (entries : List (BlockUid × BlockFetchAgent CollectionBlock))
    (node : FetchingNode) (htip : TipOk node.base.blockchain)
    (huids : ∀ entry ∈ entries, ∀ received ∈ entry.2.receivedBlock,
      received.2.header.blockUid = entry.1)
    (hkeys : ∀ entry ∈ entries, entry.1 ∈ node.state.blockFetchAgentMap.keys)
    (hnodup : (entries.map Prod.fst).Nodup) (hagents : node.HasAgentsUpTo nextIdToFetch)
    (haccepted : AcceptedInTurn crypto node.base.blockchain (finishedBlocks entries)) :
    TipOk (node.processAgents crypto entries).1.base.blockchain ∧
      (node.processAgents crypto entries).1.HasAgentsUpTo nextIdToFetch ∧
      ∀ entry ∈ (node.processAgents crypto entries).1.state.blockFetchAgentMap,
        entry ∈ node.state.blockFetchAgentMap := by
  induction entries generalizing node with
  | nil => exact ⟨htip, hagents, fun _ h => h⟩
  | cons first rest ih =>
    obtain ⟨uid, agent⟩ := first
    rw [processAgents]
    cases hreceived : agent.receivedBlock with
    | none => exact ⟨htip, hagents, fun _ h => h⟩
    | some received =>
      obtain ⟨peer, block⟩ := received
      rw [finishedBlocks, hreceived] at haccepted
      obtain ⟨hacc, hrest⟩ := haccepted
      obtain ⟨hfirst, hnodup⟩ := List.nodup_cons.1 hnodup
      have hsame : (node.base.blockchain.validateBlock crypto block).2 = node.base.blockchain :=
        Blockchain.validateBlock_snd_eq_self_iff.2 hacc.leavesWallets
      have htrue : (node.base.blockchain.validateBlock crypto block).1 = true := hacc
      dsimp only
      rw [hsame, htrue, if_pos rfl]
      have huid : block.header.blockUid = uid :=
        huids (uid, agent) (List.mem_cons_self ..) (peer, block) hreceived
      -- The agent that was processed goes, and its id does not come again.
      have hkeys' : ∀ entry ∈ rest,
          entry.1 ∈ (node.state.blockFetchAgentMap.erase uid).keys := by
        intro entry he
        refine OrdMap.mem_keys_erase.2 ⟨fun heq => ?_, hkeys entry (List.mem_cons_of_mem _ he)⟩
        have hmem := List.mem_map_of_mem (f := Prod.fst) he
        rw [heq] at hmem
        exact hfirst hmem
      obtain ⟨htip', hagents', hmem⟩ := ih
        ⟨{ node.base with blockchain := node.base.blockchain.addBlock crypto block },
          { node.state with blockFetchAgentMap := node.state.blockFetchAgentMap.erase uid }⟩
        (htip.addBlock hacc) (fun entry he => huids entry (List.mem_cons_of_mem _ he)) hkeys' hnodup
        (hagents.addBlock htip hacc huid (hkeys (uid, agent) (List.mem_cons_self ..)) rfl) hrest
      exact ⟨htip', hagents', fun entry he => (OrdMap.mem_erase.1 (hmem entry he)).2⟩

end FetchingNode

/-! ## Refilling -/

theorem length_between_eq_size {agents : AgentMap} {newest nextIdToFetch : BlockUid}
    (h : ∀ uid, uid ∈ agents.keys ↔ uid ∈ between newest nextIdToFetch) :
    (between newest nextIdToFetch).length = agents.size := by
  rw [← OrdMap.length_keys]
  exact ((List.perm_ext_iff_of_nodup (nodup_between _ _) agents.keys_nodup).2
    fun uid => (h uid).symm).length_eq

theorem mem_keys_refillLoop (now : BlockchainTime) (fuel : Nat) {agents : AgentMap}
    {newest nextIdToFetch : BlockUid}
    (h : ∀ uid, uid ∈ agents.keys ↔ uid ∈ between newest nextIdToFetch) (uid : BlockUid) :
    uid ∈ (refillLoop now fuel agents nextIdToFetch).1.keys ↔
      uid ∈ between newest (refillLoop now fuel agents nextIdToFetch).2 := by
  induction fuel generalizing agents nextIdToFetch with
  | zero => exact h uid
  | succ fuel ih =>
    rw [refillLoop]
    split_ifs with hmore
    · refine ih fun uid => ?_
      have hsize : agents.size < 50 := by
        rw [Bool.and_eq_true, decide_eq_true_eq] at hmore
        exact hmore.1
      have hlength := length_between_eq_size h
      rw [OrdMap.mem_keys_touch, h uid, mem_between_succ_right (by omega)]
    · exact h uid

theorem mem_refillLoop (now : BlockchainTime) (fuel : Nat) {agents : AgentMap}
    {nextIdToFetch : BlockUid} {entry : BlockUid × BlockFetchAgent CollectionBlock}
    (h : entry ∈ (refillLoop now fuel agents nextIdToFetch).1) :
    entry ∈ agents ∨ entry.2.receivedBlock = none := by
  induction fuel generalizing agents nextIdToFetch with
  | zero => exact Or.inl h
  | succ fuel ih =>
    rw [refillLoop] at h
    split_ifs at h with hmore
    · rcases ih h with htouch | hnone
      · rcases OrdMap.mem_touch.1 htouch with hold | ⟨rfl, -⟩
        · exact Or.inl hold
        · exact Or.inr rfl
      · exact Or.inr hnone
    · exact Or.inl h

/-- How many rounds it is to the next baseline. -/
def roundsToBaseline (nextIdToFetch : BlockUid) : Nat :=
  if isBaselineBlock nextIdToFetch then 0 else 720 - (nextIdToFetch - 1).toNat % 720

theorem roundsToBaseline_succ {uid : BlockUid} (h : ¬ isBaselineBlock uid = true) :
    roundsToBaseline (uid + 1) < roundsToBaseline uid := by
  have hlt := Nat.mod_lt (uid - 1).toNat (show 720 > 0 by decide)
  unfold roundsToBaseline
  rw [if_neg h]
  split_ifs with hnext
  · omega
  · rw [isBaselineBlock_iff, UInt64.add_sub_cancel] at hnext
    rw [UInt64.add_sub_cancel]
    have hlt' := uid.toNat_lt
    rw [UInt64.toNat_sub, UInt64.toNat_one] at *
    by_cases h0 : uid.toNat = 0
    · rw [h0] at hnext
      exact absurd rfl hnext
    · have hpred : (2 ^ 64 - 1 + uid.toNat) % 2 ^ 64 = uid.toNat - 1 := by omega
      rw [hpred] at *
      omega

/-- **The loop ends**: the map is full, or the next id is that of a baseline. -/
theorem refillLoop_done (now : BlockchainTime) (fuel : Nat) (agents : AgentMap)
    (nextIdToFetch : BlockUid) (hfuel : roundsToBaseline nextIdToFetch ≤ fuel) :
    maxParallelBlockFetchers ≤ (refillLoop now fuel agents nextIdToFetch).1.size ∨
      isBaselineBlock (refillLoop now fuel agents nextIdToFetch).2 = true := by
  induction fuel generalizing agents nextIdToFetch with
  | zero =>
    refine Or.inr ?_
    show isBaselineBlock nextIdToFetch = true
    by_contra hnot
    have hlt := roundsToBaseline_succ hnot
    omega
  | succ fuel ih =>
    rw [refillLoop]
    split_ifs with hmore
    · rw [Bool.and_eq_true, Bool.not_eq_true'] at hmore
      have hnot : ¬ isBaselineBlock nextIdToFetch = true := by simp [hmore.2]
      have hlt := roundsToBaseline_succ hnot
      exact ih _ _ (by omega)
    · rw [Bool.and_eq_true, decide_eq_true_eq, Bool.not_eq_true', not_and_or, not_lt] at hmore
      exact hmore.imp id (by simp)

theorem refillAgentMap_done (now : BlockchainTime) (agents : AgentMap) (nextIdToFetch : BlockUid) :
    maxParallelBlockFetchers ≤ (refillAgentMap now agents nextIdToFetch).1.size ∨
      isBaselineBlock (refillAgentMap now agents nextIdToFetch).2 = true := by
  refine refillLoop_done now _ agents nextIdToFetch ?_
  show roundsToBaseline nextIdToFetch ≤ 720
  unfold roundsToBaseline
  split_ifs <;> omega

/-! ## Replies -/

/-- `Q` holds of every reply that an agent has kept, with the id of the agent. -/
def FetchingNode.RepliesAre (Q : BlockUid → PeerId → CollectionBlock → Prop)
    (node : FetchingNode) : Prop :=
  ∀ entry ∈ node.state.blockFetchAgentMap, ∀ reply ∈ entry.2.receivedBlock,
    Q entry.1 reply.1 reply.2

namespace FetchingNode

theorem mem_of_mem_processAgents {entries : List (BlockUid × BlockFetchAgent CollectionBlock)}
    {node : FetchingNode} {entry : BlockUid × BlockFetchAgent CollectionBlock}
    (h : entry ∈ (node.processAgents crypto entries).1.state.blockFetchAgentMap) :
    entry ∈ node.state.blockFetchAgentMap := by
  induction entries generalizing node with
  | nil => exact h
  | cons first rest ih =>
    obtain ⟨uid, agent⟩ := first
    rw [processAgents] at h
    cases hreceived : agent.receivedBlock with
    | none =>
      simp only [hreceived] at h
      exact h
    | some reply =>
      simp only [hreceived] at h
      exact (OrdMap.mem_erase.1 (ih h)).2

namespace RepliesAre

variable {Q : BlockUid → PeerId → CollectionBlock → Prop} {node : FetchingNode}

theorem of_mem (h : node.RepliesAre Q) {node' : FetchingNode}
    (hmem : ∀ entry ∈ node'.state.blockFetchAgentMap,
      entry ∈ node.state.blockFetchAgentMap ∨ entry.2.receivedBlock = none) :
    node'.RepliesAre Q := by
  intro entry hentry reply hreply
  rcases hmem entry hentry with hold | hnone
  · exact h entry hold reply hreply
  · rw [hnone] at hreply
    cases hreply

theorem onCycle (h : node.RepliesAre Q) (now : BlockchainTime) :
    (node.onCycle now).1.RepliesAre Q := by
  intro entry hentry reply hreply
  obtain ⟨agent, hmem, heq⟩ := OrdMap.mem_mapEntries.1 hentry
  have hsame : entry.2.receivedBlock = agent.receivedBlock := by
    rw [← heq]
    unfold BlockFetchAgent.onCycle
    split_ifs <;> rfl
  rw [hsame] at hreply
  exact h (entry.1, agent) hmem reply hreply

theorem collectionBlockReceived (h : node.RepliesAre Q) (peer : PeerId) (block : CollectionBlock)
    (hblock : Q block.header.blockUid peer block) (reply : Bool) :
    (node.collectionBlockReceived peer block reply).RepliesAre Q := by
  unfold FetchingNode.collectionBlockReceived
  split_ifs
  · intro entry hentry received hreceived
    obtain ⟨agent, hmem, heq⟩ := OrdMap.mem_mapEntries.1 hentry
    have hold := h (entry.1, agent) hmem
    rw [← heq] at hreceived
    split_ifs at hreceived with huid
    · unfold BlockFetchAgent.blockReceivedCallback at hreceived
      split_ifs at hreceived
      · cases hreceived
        rw [← huid]
        exact hblock
      · exact hold received hreceived
    · exact hold received hreceived
  · exact h

theorem fetchBlocksThread (h : node.RepliesAre Q) (now : BlockchainTime)
    (numConnectedPeers : Nat) :
    (node.fetchBlocksThread crypto now numConnectedPeers).1.RepliesAre Q := by
  unfold FetchingNode.fetchBlocksThread
  cases hthread : node.state.thread with
  | joined => exact h
  | waitingForPeers =>
    dsimp only
    split_ifs <;> exact h
  | callingFetchBaseline => exact h
  | fetchingBaseline =>
    dsimp only
    unfold cycleFetchBaseline
    split_ifs
    · split
      · exact h
      · split_ifs <;> exact h
    · exact h
  | loopHead nextIdToFetch =>
    dsimp only
    split_ifs
    · exact h.of_mem fun entry hentry => Or.inl (mem_of_mem_processAgents hentry)
    · exact h
  | refilling nextIdToFetch => exact h.of_mem fun entry hentry => mem_refillLoop now _ hentry
  | comparing nextIdToFetch =>
    dsimp only
    split_ifs <;> exact h

/-- **What holds of every reply holds of those that are kept.** -/
theorem step (h : node.RepliesAre Q) {event : FetchEvent}
    (hevent : ∀ peer block reply, event = .collectionBlockReceived peer block reply →
      Q block.header.blockUid peer block) : (node.step crypto event).RepliesAre Q := by
  have hacts := node.acts_step crypto event
  generalize node.step crypto event = next at hacts ⊢
  cases hacts with
  | ignored => exact h
  | onEnter => exact h
  | onCycle now => exact h.onCycle now
  | onExit now => exact h
  | baselineBlockReceived peer block reply =>
    unfold RepliesAre
    rw [(node.baselineBlockReceived_same peer block reply).2.2]
    exact h
  | collectionBlockReceived peer block reply =>
    exact h.collectionBlockReceived peer block (hevent peer block reply rfl) reply
  | fetchBlocksThread now numConnectedPeers => exact h.fetchBlocksThread now numConnectedPeers
  | cacheThread => exact h
  | elsewhere base => exact h

end RepliesAre

end FetchingNode

/-! ## The invariant -/

/-- The next id to fetch, while the thread is in the loop over the blocks. -/
def FetchThread.nextIdToFetch : FetchThread → Option BlockUid
  | .loopHead nextIdToFetch => some nextIdToFetch
  | .refilling nextIdToFetch => some nextIdToFetch
  | .comparing nextIdToFetch => some nextIdToFetch
  | _ => none

/-- As long as there is a thread, the chain is in order; agents hold blocks with their ids; and in
the loop over the blocks there is an agent for every id. -/
structure FetchInv (node : FetchingNode) : Prop where
  tip : node.state.thread ≠ .joined → TipOk node.base.blockchain
  uids : ∀ entry ∈ node.state.blockFetchAgentMap, ∀ received ∈ entry.2.receivedBlock,
    received.2.header.blockUid = entry.1
  agents : ∀ nextIdToFetch ∈ node.state.thread.nextIdToFetch, node.HasAgentsUpTo nextIdToFetch

namespace FetchInv

variable {node node' : FetchingNode}

/-- Agents are neither created nor removed outside of the thread, and blocks reach only the agents
with their ids. -/
theorem of_sameAgents (h : FetchInv node) (hthread : node'.state.thread = node.state.thread)
    (htip : TipOk node.base.blockchain → TipOk node'.base.blockchain)
    (hnewest : node'.base.blockchain.getNewestBlockId = node.base.blockchain.getNewestBlockId)
    (hkeys : node'.state.blockFetchAgentMap.keys = node.state.blockFetchAgentMap.keys)
    (huids : ∀ entry ∈ node'.state.blockFetchAgentMap, ∀ received ∈ entry.2.receivedBlock,
      received.2.header.blockUid = entry.1) : FetchInv node' where
  tip hne := htip (h.tip (hthread ▸ hne))
  uids := huids
  agents nextIdToFetch hnext uid := by
    rw [hthread] at hnext
    rw [hkeys, hnewest]
    exact h.agents nextIdToFetch hnext uid

theorem of_noLoop (h : FetchInv node) (hthread : node'.state.thread.nextIdToFetch = none)
    (htip : node'.state.thread ≠ .joined → TipOk node'.base.blockchain)
    (hagents : node'.state.blockFetchAgentMap = node.state.blockFetchAgentMap) :
    FetchInv node' where
  tip := htip
  uids := by
    rw [hagents]
    exact h.uids
  agents nextIdToFetch hnext := by
    rw [hthread] at hnext
    exact absurd hnext (by simp)

theorem repliesAre (h : FetchInv node) :
    node.RepliesAre fun uid _ block => block.header.blockUid = uid := h.uids

theorem onCycle (h : FetchInv node) (now : BlockchainTime) : FetchInv (node.onCycle now).1 :=
  h.of_sameAgents rfl id rfl (OrdMap.keys_mapEntries _ _) (h.repliesAre.onCycle now)

theorem collectionBlockReceived (h : FetchInv node) (peer : PeerId) (block : CollectionBlock)
    (reply : Bool) : FetchInv (node.collectionBlockReceived peer block reply) := by
  have huids := h.repliesAre.collectionBlockReceived peer block rfl reply
  unfold FetchingNode.collectionBlockReceived at huids ⊢
  split_ifs at huids ⊢ with hreply
  · exact h.of_sameAgents rfl id rfl (OrdMap.keys_mapEntries _ _) huids
  · exact h

theorem baselineBlockReceived (h : FetchInv node) (peer : PeerId) (block : BaselineBlock)
    (reply : Bool) : FetchInv (node.baselineBlockReceived peer block reply) := by
  unfold FetchingNode.baselineBlockReceived
  split_ifs with hreply
  · exact h.of_sameAgents rfl id rfl rfl h.uids
  · exact h

/-- A baseline that is returned starts the loop with an empty map. -/
theorem cycleFetchBaseline (h : FetchInv node) (hthread : node.state.thread = .fetchingBaseline)
    (hkeeps : node.ReturnsRoot crypto → node.state.blockFetchAgentMap.isEmpty = true)
    (now : BlockchainTime) : FetchInv (node.cycleFetchBaseline crypto now).1 := by
  have hnone : node.state.thread.nextIdToFetch = none := by rw [hthread]; rfl
  have htip := h.tip (by simp [hthread])
  unfold FetchingNode.cycleFetchBaseline
  split_ifs with hrunning
  · cases hreceived : node.receivedBaseline with
    | none => exact h.of_noLoop hnone (fun _ => htip) rfl
    | some received =>
      obtain ⟨peer, block⟩ := received
      dsimp only
      split_ifs with hnewer hvalid
      · -- The root is the newest block, so that no id is between.
        have hempty := OrdMap.isEmpty_iff.1
          (hkeeps ⟨hrunning, (peer, block), hreceived, hnewer, hvalid⟩)
        obtain ⟨htype, huid⟩ := validateBlockWithoutContext_header hvalid
        refine ⟨fun _ => TipOk.setRootBlock huid htype, h.uids, ?_⟩
        intro nextIdToFetch hnext uid
        cases hnext
        have hnewest : (node.base.blockchain.setRootBlock block).getNewestBlockId =
            block.header.blockUid := by
          rw [Blockchain.setRootBlock, if_neg huid]
          rfl
        show uid ∈ node.state.blockFetchAgentMap.keys ↔
          uid ∈ between (node.base.blockchain.setRootBlock block).getNewestBlockId _
        rw [hempty, hnewest]
        exact iff_of_false (by simp [OrdMap.mem_keys]) (not_mem_between_succ _ _)
      · exact h.of_noLoop hnone (fun _ => htip) rfl
      · exact h.of_noLoop hnone (fun _ => htip) rfl
  · exact h.of_noLoop rfl (fun hne => absurd rfl hne) rfl

theorem processFinishedAgents (h : FetchInv node) {nextIdToFetch : BlockUid}
    (hthread : node.state.thread = .loopHead nextIdToFetch)
    (haccepted : AcceptedInTurn crypto node.base.blockchain
      (finishedBlocks node.state.blockFetchAgentMap.entries)) :
    FetchInv ((node.processFinishedAgents crypto).1.withThread (.refilling nextIdToFetch)) := by
  have htip := h.tip (by simp [hthread])
  have hagents := h.agents nextIdToFetch (by rw [hthread]; rfl)
  obtain ⟨htip', hagents', hmem⟩ := node.processAgents_spec
    node.state.blockFetchAgentMap.entries htip h.uids
    (fun entry he => OrdMap.mem_keys.2 ⟨entry.2, he⟩) node.state.blockFetchAgentMap.keys_nodup
    hagents haccepted
  refine ⟨fun _ => htip', fun entry he => h.uids entry (hmem entry he), ?_⟩
  intro next hnext
  cases hnext
  exact hagents'

theorem refillAgentMap (h : FetchInv node) {nextIdToFetch : BlockUid}
    (hthread : node.state.thread = .refilling nextIdToFetch) (now : BlockchainTime) :
    FetchInv { node with state :=
      { node.state with
        blockFetchAgentMap :=
          (refillAgentMap now node.state.blockFetchAgentMap nextIdToFetch).1
        thread :=
          .comparing (refillAgentMap now node.state.blockFetchAgentMap nextIdToFetch).2 } } := by
  have htip := h.tip (by simp [hthread])
  have hagents := h.agents nextIdToFetch (by rw [hthread]; rfl)
  refine ⟨fun _ => htip, h.repliesAre.of_mem fun entry he => mem_refillLoop now _ he, ?_⟩
  intro next hnext uid
  cases hnext
  exact mem_keys_refillLoop now _ hagents uid

/-- **One step of the thread.** -/
theorem fetchBlocksThread (h : FetchInv node)
    (hkeeps : node.ThreadKeepsIds crypto node.state.thread) (now : BlockchainTime)
    (numConnectedPeers : Nat) :
    FetchInv (node.fetchBlocksThread crypto now numConnectedPeers).1 := by
  unfold FetchingNode.fetchBlocksThread
  cases hthread : node.state.thread with
  | joined => exact h
  | waitingForPeers =>
    have htip := h.tip (by simp [hthread])
    dsimp only
    split_ifs
    · exact h
    · exact h.of_noLoop rfl (fun _ => htip) rfl
  | callingFetchBaseline =>
    have htip := h.tip (by simp [hthread])
    exact h.of_noLoop rfl (fun _ => htip) rfl
  | fetchingBaseline =>
    rw [hthread] at hkeeps
    exact h.cycleFetchBaseline hthread hkeeps now
  | loopHead nextIdToFetch =>
    rw [hthread] at hkeeps
    dsimp only
    split_ifs with hrunning
    · exact h.processFinishedAgents hthread (hkeeps hrunning)
    · exact h.of_noLoop rfl (fun hne => absurd rfl hne) rfl
  | refilling nextIdToFetch => exact h.refillAgentMap hthread now
  | comparing nextIdToFetch =>
    have htip := h.tip (by simp [hthread])
    have hagents := h.agents nextIdToFetch (by rw [hthread]; rfl)
    dsimp only
    split_ifs
    · exact h.of_noLoop rfl (fun _ => htip) rfl
    · refine ⟨fun _ => htip, h.uids, ?_⟩
      intro next hnext
      cases hnext
      exact hagents

theorem step (h : FetchInv node) {event : FetchEvent} (hkeeps : node.KeepsIds crypto event) :
    FetchInv (node.step crypto event) := by
  have hacts := node.acts_step crypto event
  generalize node.step crypto event = next at hacts ⊢
  cases hacts with
  | ignored => exact h
  | onEnter => exact h.of_noLoop rfl (fun _ => TipOk.initEmptyChain crypto _) rfl
  | onCycle now => exact h.onCycle now
  | onExit now => exact h.of_sameAgents rfl id rfl rfl h.uids
  | baselineBlockReceived peer block reply => exact h.baselineBlockReceived peer block reply
  | collectionBlockReceived peer block reply => exact h.collectionBlockReceived peer block reply
  | fetchBlocksThread now numConnectedPeers =>
    exact h.fetchBlocksThread hkeeps now numConnectedPeers
  | cacheThread => exact h.of_sameAgents rfl TipOk.cacheThread rfl rfl h.uids
  | elsewhere base hleft =>
    have hjoined : node.state.thread = .joined := hleft.2
    exact h.of_noLoop (by rw [hjoined]; rfl) (fun hne => absurd hjoined hne) rfl

theorem noIdLost (h : FetchInv node) : node.NoIdLost := by
  intro nextIdToFetch hthread
  exact h.agents nextIdToFetch (by rw [hthread]; rfl)

end FetchInv

/-- **No id is lost**, in any run whose steps all keep the ids: the map has an agent for every id
after the newest block and before the next id to fetch, whenever the thread is at the head of its
loop. -/
theorem FetchingNode.noIdLost_of_keepsIds (crypto : CryptoHelper) (base : BlockchainManager)
    (events : List FetchEvent)
    (hkeeps : Run.AllSteps (FetchingNode.step crypto) (FetchingNode.KeepsIds crypto) { base }
      events) :
    Run.AllStates (FetchingNode.step crypto) FetchingNode.NoIdLost { base } events := by
  have hstart : FetchInv { base } := by
    refine ⟨fun hne => absurd rfl hne, fun entry he => absurd he (OrdMap.not_mem_empty entry), ?_⟩
    intro nextIdToFetch hnext
    exact absurd hnext (by simp [FetchThread.nextIdToFetch])
  have hinv : Run.AllStates (FetchingNode.step crypto) FetchInv { base } events :=
    Run.AllStates.of_steps (fun _ _ h hkeep => h.step hkeep) hstart hkeeps
  exact hinv.mono fun _ h => h.noIdLost

namespace Sample

/-- A node with nothing in its chain yet. -/
def freshNode : BlockchainManager where
  ourPublicKey := keyC
  blockchain := {}

/-- The thread is started and gets the root of an empty chain. -/
def fetchRoot : List FetchEvent :=
  [.onEnter, .fetchBlocksThread 0 1, .fetchBlocksThread 0 1,
    .baselineBlockReceived [1] (Blockchain.emptyBaseline .sample) true, .fetchBlocksThread 0 1]

/-- One round of the loop over the blocks. -/
def fetchRound : List FetchEvent := List.replicate 3 (.fetchBlocksThread 0 1)

/-- The block after the root arrives and is added. -/
def fetchMining : List FetchEvent :=
  fetchRoot ++ fetchRound ++ [.collectionBlockReceived [1] mining true] ++ fetchRound

/-- A block with the right id arrives whose hash is wrong. -/
def fetchForged : List FetchEvent :=
  fetchRoot ++ fetchRound ++
    [.collectionBlockReceived [1] { mining with creations := ∅ } true] ++ fetchRound

/-- The state is left and entered again. -/
def fetchAgain : List FetchEvent :=
  fetchMining ++ [.onExit 0, .fetchBlocksThread 0 1] ++ fetchRoot

def afterForged : FetchingNode :=
  Run.exec (FetchingNode.step .sample) { base := freshNode } fetchForged

def afterAgain : FetchingNode :=
  Run.exec (FetchingNode.step .sample) { base := freshNode } fetchAgain

end Sample

/-- A block is fetched and no id is lost. -/
theorem fetchMining_loses_no_id :
    (Run.exec (FetchingNode.step .sample) { base := Sample.freshNode }
        Sample.fetchMining).base.blockchain.getNewestBlockId = 2 ∧
      Run.AllStates (FetchingNode.step .sample) FetchingNode.NoIdLost { base := Sample.freshNode }
        Sample.fetchMining :=
  ⟨by decide +kernel, FetchingNode.noIdLost_of_keepsIds .sample Sample.freshNode Sample.fetchMining
    (by decide +kernel)⟩

/-- A forged reply takes the agent for the block `2` with it, and after a second `onEnter` the
agents of the first stay are still there. -/
theorem ids_lost_and_left_over :
    ¬ Run.AllStates (FetchingNode.step .sample) FetchingNode.NoIdLost { base := Sample.freshNode }
        Sample.fetchForged ∧
      ¬ Run.AllStates (FetchingNode.step .sample) FetchingNode.NoIdLost { base := Sample.freshNode }
        Sample.fetchAgain := by
  have hforged : Sample.afterForged.state.thread = .loopHead 53 ∧
      2 ∈ between Sample.afterForged.base.blockchain.getNewestBlockId 53 ∧
        2 ∉ Sample.afterForged.state.blockFetchAgentMap.keys := by
    decide +kernel
  have hagain : Sample.afterAgain.state.thread = .loopHead 2 ∧
      3 ∈ Sample.afterAgain.state.blockFetchAgentMap.keys ∧
        3 ∉ between Sample.afterAgain.base.blockchain.getNewestBlockId 2 := by
    decide +kernel
  constructor
  · intro h
    have hlast : Sample.afterForged.NoIdLost := h.last
    exact hforged.2.2 ((hlast 53 hforged.1 2).2 hforged.2.1)
  · intro h
    have hlast : Sample.afterAgain.NoIdLost := h.last
    exact hagain.2.2 ((hlast 2 hagain.1 3).1 hagain.2.1)

end SwabianCoin
