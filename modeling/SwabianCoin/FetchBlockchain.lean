import SwabianCoin.Manager

/-!
# Fetching the chain

A node that is out of sync starts again from an empty chain: `CycleStateFetchBlockchain` asks for
the last baseline, then for the blocks after it, fifty at a time, and adds them in the order of
their ids. A thread of its own does the work. It shares the agents with the callbacks that take
the replies and with the thread of the cycle, which makes the agents ask and ends the thread when
it leaves the state.

A step of the machine is one piece of this that holds its lock: a round of `fetchBaseline`, of
`processFinishedAgents` or of `refillAgentMap`, a reply, a call of `onCycle`. Replies may come
between any two steps of the thread. While the node is in another state, its chain may change in
any way.
-/

namespace SwabianCoin

open Machine

/-! ## Agents -/

/-- `BlockFetchAgent`: it asks for one block until somebody has sent it. The id `0` stands for
any block. -/
structure BlockFetchAgent (β : Type) where
  blockId : BlockUid
  fetchTimeoutMs : UInt32 := 2000
  receivedBlock : Option (PeerId × β) := none
  nextFetchTime : BlockchainTime

namespace BlockFetchAgent

variable {β : Type}

/-- The answer is whether the agent asks now. -/
def onCycle (agent : BlockFetchAgent β) (now : BlockchainTime) : BlockFetchAgent β × Bool :=
  if agent.nextFetchTime ≤ now then
    ({ agent with nextFetchTime := agent.nextFetchTime + agent.fetchTimeoutMs.toUInt64 }, true)
  else (agent, false)

/-- The first block with the right id is kept. -/
def blockReceivedCallback (header : β → BlockHeader) (agent : BlockFetchAgent β) (peer : PeerId)
    (block : β) : BlockFetchAgent β :=
  if agent.receivedBlock.isNone &&
      (agent.blockId == 0 || (header block).blockUid == agent.blockId) then
    { agent with receivedBlock := some (peer, block) }
  else agent

/-- `restart`: the reply is forgotten, and the agent asks at once. -/
def restart (agent : BlockFetchAgent β) (now : BlockchainTime) : BlockFetchAgent β :=
  { agent with receivedBlock := none, nextFetchTime := now }

end BlockFetchAgent

/-! ## State -/

/-- Where the thread is in `fetchBlocksThread`, with its `next_id_to_fetch`. -/
inductive FetchThread where
  /-- There is no thread: it has not been started, or `onExit` has joined it. -/
  | joined
  | waitingForPeers
  /-- About to call `fetchBaseline`. -/
  | callingFetchBaseline
  /-- In the loop of `fetchBaseline`. -/
  | fetchingBaseline
  /-- At the head of the loop over the blocks. -/
  | loopHead (nextIdToFetch : BlockUid)
  /-- After `processFinishedAgents`. -/
  | refilling (nextIdToFetch : BlockUid)
  /-- After `refillAgentMap`. -/
  | comparing (nextIdToFetch : BlockUid)
  deriving DecidableEq

abbrev AgentMap := OrdMap BlockUid (BlockFetchAgent CollectionBlock)

/-- The variables of the state, and where its thread is. -/
structure CycleStateFetchBlockchain where
  globalBlockchainNewestBlockId : BlockUid := 0
  baselineBlockFetchAgent : Option (BlockFetchAgent BaselineBlock) := none
  blockFetchAgentMap : AgentMap := ∅
  running : Bool := false
  thread : FetchThread := .joined

/-- The node and its state `FetchBlockchain`, which is there from the beginning. -/
structure FetchingNode where
  base : BlockchainManager
  state : CycleStateFetchBlockchain := {}

/-- What can happen while the chain is fetched. -/
inductive FetchEvent where
  | onEnter
  | onCycle (now : BlockchainTime)
  /-- `onExit` up to the point where it waits for the thread. -/
  | onExit (now : BlockchainTime)
  | baselineBlockReceived (peer : PeerId) (block : BaselineBlock) (reply : Bool)
  | collectionBlockReceived (peer : PeerId) (block : CollectionBlock) (reply : Bool)
  /-- The thread takes a step. -/
  | fetchBlocksThread (now : BlockchainTime) (numConnectedPeers : Nat)
  /-- A round of the cache's own thread. -/
  | cacheThread
  /-- The node does something while it is in another state. -/
  | elsewhere (base : BlockchainManager)

/-- Questions to the peers, and what the manager does. -/
inductive FetchEffect where
  | askForBlock (uid : BlockUid)
  | askForLastBaselineBlock
  | manager (effect : Effect)

/-! ## The map of agents -/

/-- So many blocks are asked for at once. -/
def maxParallelBlockFetchers : Nat := 50

/-- The loop of `refillAgentMap`. `emplace` does nothing if there is an agent for the id. -/
def refillLoop (now : BlockchainTime) : Nat → AgentMap → BlockUid → AgentMap × BlockUid
  | 0, agents, nextIdToFetch => (agents, nextIdToFetch)
  | fuel + 1, agents, nextIdToFetch =>
    if agents.size < maxParallelBlockFetchers && !isBaselineBlock nextIdToFetch then
      refillLoop now fuel
        (agents.touch nextIdToFetch { blockId := nextIdToFetch, nextFetchTime := now })
        (nextIdToFetch + 1)
    else (agents, nextIdToFetch)

/-- The ids of baselines are `720` apart, so that the loop ends after so many rounds. -/
def refillAgentMap (now : BlockchainTime) (agents : AgentMap) (nextIdToFetch : BlockUid) :
    AgentMap × BlockUid :=
  refillLoop now maxNumBlocksAfterBaseline.toNat agents nextIdToFetch

namespace FetchingNode

variable (crypto : CryptoHelper) (node : FetchingNode)

/-- The loop of `processFinishedAgents`: an agent that has its block goes, whatever the verdict on
the block. -/
def processAgents (node : FetchingNode) :
    List (BlockUid × BlockFetchAgent CollectionBlock) → FetchingNode × List FetchEffect
  | [] => (node, [])
  | (uid, agent) :: rest =>
    match agent.receivedBlock with
    | none => (node, [])
    | some (peer, block) =>
      let result := node.base.blockchain.validateBlock crypto block
      let base := { node.base with blockchain := result.2 }
      let processed :=
        if result.1 then
          ({ base with blockchain := base.blockchain.addBlock crypto block }, [])
        else base.reportViolation peer .invalidBlock
      let state :=
        { node.state with blockFetchAgentMap := node.state.blockFetchAgentMap.erase uid }
      let remaining := processAgents { base := processed.1, state } rest
      (remaining.1, processed.2.map .manager ++ remaining.2)

def processFinishedAgents : FetchingNode × List FetchEffect :=
  node.processAgents crypto node.state.blockFetchAgentMap.entries

/-! ## The thread -/

def withThread (thread : FetchThread) : FetchingNode :=
  { node with state := { node.state with thread } }

/-- Remember which block the network should be at. -/
def updateGlobal (now : BlockchainTime) : FetchingNode :=
  { node with state := { node.state with globalBlockchainNewestBlockId := getBlockId now } }

/-- `fetchBaseline` up to its loop. -/
def enterFetchBaseline (now : BlockchainTime) : FetchingNode :=
  { node with state :=
      { node.state with
        baselineBlockFetchAgent :=
          some { blockId := 0, fetchTimeoutMs := 60000, nextFetchTime := now }
        thread := .fetchingBaseline } }

def restartBaselineAgent (now : BlockchainTime) : FetchingNode :=
  { node with state :=
      { node.state with
        baselineBlockFetchAgent := node.state.baselineBlockFetchAgent.map (·.restart now) } }

/-- The block that has arrived, as long as there is an agent for it. -/
def receivedBaseline : Option (PeerId × BaselineBlock) :=
  node.state.baselineBlockFetchAgent.bind BlockFetchAgent.receivedBlock

/-- A round of the loop of `fetchBaseline`. If the node is leaving the state, `fetchBaseline`
returns `0`, and the loop over the blocks is not entered. -/
def cycleFetchBaseline (now : BlockchainTime) : FetchingNode × List FetchEffect :=
  if node.state.running then
    match node.receivedBaseline with
    | none => (node.updateGlobal now, [])
    | some (peer, block) =>
      if node.base.blockchain.getNewestBlockId ≤ block.header.blockUid then
        if validateBlockWithoutContext crypto block then
          ({ base := { node.base with blockchain := node.base.blockchain.setRootBlock block }
             state :=
               { node.state with
                 baselineBlockFetchAgent := none
                 thread := .loopHead (block.header.blockUid + 1) } }, [])
        else
          let reported := node.base.reportViolation peer .invalidBlock
          ((({ node with base := reported.1 } : FetchingNode).restartBaselineAgent now).updateGlobal
            now, reported.2.map .manager)
      else ((node.restartBaselineAgent now).updateGlobal now, [])
  else
    ({ node with state := { node.state with baselineBlockFetchAgent := none, thread := .joined } },
      [])

/-- One step of `fetchBlocksThread`. -/
def fetchBlocksThread (now : BlockchainTime) (numConnectedPeers : Nat) :
    FetchingNode × List FetchEffect :=
  match node.state.thread with
  | .joined => (node, [])
  | .waitingForPeers =>
    if node.state.running && numConnectedPeers == 0 then (node, [])
    else (node.withThread .callingFetchBaseline, [])
  | .callingFetchBaseline => (node.enterFetchBaseline now, [])
  | .fetchingBaseline => node.cycleFetchBaseline crypto now
  | .loopHead nextIdToFetch =>
    if node.state.running then
      let processed := node.processFinishedAgents crypto
      (processed.1.withThread (.refilling nextIdToFetch), processed.2)
    else (node.withThread .joined, [])
  | .refilling nextIdToFetch =>
    let refilled := refillAgentMap now node.state.blockFetchAgentMap nextIdToFetch
    ({ node with state :=
        { node.state with
          blockFetchAgentMap := refilled.1
          thread := .comparing refilled.2 } }, [])
  | .comparing nextIdToFetch =>
    let node := node.updateGlobal now
    if getNextBaselineBlock nextIdToFetch ≤ node.state.globalBlockchainNewestBlockId then
      (node.withThread .callingFetchBaseline, [])
    else (node.withThread (.loopHead nextIdToFetch), [])

/-! ## The other threads -/

/-- The agents of an earlier stay in the state are still there. -/
def onEnter : FetchingNode where
  base := { node.base with blockchain := node.base.blockchain.initEmptyChain crypto }
  state :=
    { node.state with
      globalBlockchainNewestBlockId := 0
      running := true
      thread := .waitingForPeers }

def onCycle (now : BlockchainTime) : FetchingNode × List FetchEffect :=
  let baseline := node.state.baselineBlockFetchAgent.map (·.onCycle now)
  let agents := node.state.blockFetchAgentMap
  ({ node with state :=
      { node.state with
        baselineBlockFetchAgent := baseline.map Prod.fst
        blockFetchAgentMap := agents.mapEntries fun _ agent => (agent.onCycle now).1 } },
    (if baseline.any Prod.snd then [.askForLastBaselineBlock] else []) ++
      (agents.entries.filter fun entry => (entry.2.onCycle now).2).map fun entry =>
        .askForBlock entry.2.blockId)

def onExit (now : BlockchainTime) : FetchingNode where
  base :=
    { node.base with
      newBlock := {}
      outOfSyncDetector :=
        node.base.outOfSyncDetector.restartCheckCycle node.base.blockchain now }
  state := { node.state with running := false }

/-- `blockReceivedCallback` for a baseline block. -/
def baselineBlockReceived (peer : PeerId) (block : BaselineBlock) (reply : Bool) : FetchingNode :=
  if reply then
    { node with state :=
        { node.state with
          baselineBlockFetchAgent := node.state.baselineBlockFetchAgent.map fun agent =>
            agent.blockReceivedCallback BaselineBlock.header peer block } }
  else node

/-- `blockReceivedCallback` for a collection block: the agent with its id gets it. -/
def collectionBlockReceived (peer : PeerId) (block : CollectionBlock) (reply : Bool) :
    FetchingNode :=
  if reply then
    { node with state :=
        { node.state with
          blockFetchAgentMap := node.state.blockFetchAgentMap.mapEntries fun uid agent =>
            if block.header.blockUid = uid then
              agent.blockReceivedCallback CollectionBlock.header peer block
            else agent } }
  else node

/-! ## The machine -/

/-- The node is in another state: `onExit` has returned. -/
def Left : Prop := node.state.running = false ∧ node.state.thread = .joined

instance : Decidable node.Left := inferInstanceAs (Decidable (_ ∧ _))

/-- One event. Entering needs that the state has been left; while the node is in the state, or
leaves it, the access to the state is locked for everybody else. -/
def act : FetchEvent → FetchingNode × List FetchEffect
  | .onEnter => if node.Left then (node.onEnter crypto, []) else (node, [])
  | .onCycle now => if node.state.running then node.onCycle now else (node, [])
  | .onExit now => if node.state.running then (node.onExit now, []) else (node, [])
  | .baselineBlockReceived peer block reply =>
    if node.state.running then (node.baselineBlockReceived peer block reply, []) else (node, [])
  | .collectionBlockReceived peer block reply =>
    if node.state.running then (node.collectionBlockReceived peer block reply, []) else (node, [])
  | .fetchBlocksThread now numConnectedPeers =>
    node.fetchBlocksThread crypto now numConnectedPeers
  | .cacheThread =>
    ({ node with base := { node.base with blockchain :=
        { node.base.blockchain with cache := node.base.blockchain.cache.cacheThread } } }, [])
  | .elsewhere base => if node.Left then ({ node with base }, []) else (node, [])

def step (event : FetchEvent) : FetchingNode := (node.act crypto event).1

/-! ## What an event can do -/

/-- The outcomes of an event. -/
inductive Acts : FetchEvent → FetchingNode → Prop where
  /-- The event is not for the state the node is in. -/
  | ignored (event : FetchEvent) : Acts event node
  | onEnter : node.Left → Acts .onEnter (node.onEnter crypto)
  | onCycle (now : BlockchainTime) : Acts (.onCycle now) (node.onCycle now).1
  | onExit (now : BlockchainTime) : Acts (.onExit now) (node.onExit now)
  | baselineBlockReceived (peer : PeerId) (block : BaselineBlock) (reply : Bool) :
    Acts (.baselineBlockReceived peer block reply) (node.baselineBlockReceived peer block reply)
  | collectionBlockReceived (peer : PeerId) (block : CollectionBlock) (reply : Bool) :
    Acts (.collectionBlockReceived peer block reply) (node.collectionBlockReceived peer block reply)
  | fetchBlocksThread (now : BlockchainTime) (numConnectedPeers : Nat) :
    Acts (.fetchBlocksThread now numConnectedPeers)
      (node.fetchBlocksThread crypto now numConnectedPeers).1
  | cacheThread :
    Acts .cacheThread { node with base := { node.base with blockchain :=
      { node.base.blockchain with cache := node.base.blockchain.cache.cacheThread } } }
  | elsewhere (base : BlockchainManager) : node.Left → Acts (.elsewhere base) { node with base }

/-- **Every step is one of these**, so what all of them keep, a step keeps. -/
theorem acts_step (event : FetchEvent) : node.Acts crypto event (node.step crypto event) := by
  cases event with
  | onEnter =>
    by_cases hleft : node.Left
    · simp only [step, act, if_pos hleft]
      exact .onEnter hleft
    · simp only [step, act, if_neg hleft]
      exact .ignored _
  | elsewhere base =>
    by_cases hleft : node.Left
    · simp only [step, act, if_pos hleft]
      exact .elsewhere base hleft
    · simp only [step, act, if_neg hleft]
      exact .ignored _
  | onCycle now =>
    simp only [step, act]
    split_ifs
    · exact .onCycle now
    · exact .ignored _
  | onExit now =>
    simp only [step, act]
    split_ifs
    · exact .onExit now
    · exact .ignored _
  | baselineBlockReceived peer block reply =>
    simp only [step, act]
    split_ifs
    · exact .baselineBlockReceived peer block reply
    · exact .ignored _
  | collectionBlockReceived peer block reply =>
    simp only [step, act]
    split_ifs
    · exact .collectionBlockReceived peer block reply
    · exact .ignored _
  | fetchBlocksThread now numConnectedPeers => exact .fetchBlocksThread now numConnectedPeers
  | cacheThread => exact .cacheThread

/-- A reply with a collection reaches the map of agents only. -/
theorem collectionBlockReceived_same (peer : PeerId) (block : CollectionBlock) (reply : Bool) :
    (node.collectionBlockReceived peer block reply).base = node.base ∧
      (node.collectionBlockReceived peer block reply).state.thread = node.state.thread := by
  simp only [collectionBlockReceived]
  split_ifs <;> exact ⟨rfl, rfl⟩

/-- A reply with a baseline does not even reach that. -/
theorem baselineBlockReceived_same (peer : PeerId) (block : BaselineBlock) (reply : Bool) :
    (node.baselineBlockReceived peer block reply).base = node.base ∧
      (node.baselineBlockReceived peer block reply).state.thread = node.state.thread ∧
      (node.baselineBlockReceived peer block reply).state.blockFetchAgentMap =
        node.state.blockFetchAgentMap := by
  simp only [baselineBlockReceived]
  split_ifs <;> exact ⟨rfl, rfl, rfl⟩

end FetchingNode

end SwabianCoin
