import SwabianCoin.Rollover

/-!
# The thread that changes the states

`updateStateThread` takes a node from state to state by the clock: three quarters of a cycle for
`IntroduceBlock`, a whole one for `IntroduceBaseline` when the next id is on the grid, a quarter for
`Collect`. After collecting it fetches the chain anew if the node is out of sync. The times of the
changes are added up and not read from the clock, except when the thread begins and after the chain
has been fetched.

Here the clock, the place of the thread and its two variables are part of the state. A step of the
thread is one call of `setState` with what follows it up to the next wait. Everything else that
happens to the node is an event of `Node`. The user may stop and start the miner.

`PositionOk` is the invariant that ties the place of the thread to the state of the node.
-/

namespace SwabianCoin

open Machine

/-! ## Being synchronised -/

/-- The share of the blocks that have been fetched. The quotient is one of 32-bit numbers, and its
divisor is checked only before the cast: where it is a multiple of `2 ^ 32`, the code divides by
zero, and the result here is zero. -/
def CycleStateFetchBlockchain.percentSynchronizationDone (state : CycleStateFetchBlockchain)
    (bc : Blockchain) : UInt32 :=
  let globalNewest := state.globalBlockchainNewestBlockId
  let rootBlockId := bc.getRootBlockId
  let newestBlockId := bc.getNewestBlockId
  let currentBlockToAskFor := newestBlockId + 1
  if globalNewest = 0 then 0
  else if currentBlockToAskFor ≤ rootBlockId ∨ globalNewest < rootBlockId ∨
      rootBlockId = newestBlockId then 0
  else if globalNewest - rootBlockId + 1 ≠ 0 then
    min (100 * (currentBlockToAskFor - rootBlockId).toUInt32 /
      (globalNewest - rootBlockId + 1).toUInt32) 100
  else 100

/-- `isSynchronized`: all blocks have been fetched. -/
def FetchingNode.isSynchronized (node : FetchingNode) : Bool :=
  node.state.percentSynchronizationDone node.base.blockchain == 100

/-! ## State -/

/-- Where `updateStateThread` is. -/
inductive ThreadPosition where
  /-- At the beginning, with `initial_fetch_`. -/
  | beginning (initialFetch : Bool)
  /-- In the first call of `fetchBlockchain`. -/
  | fetchingInitially
  /-- About to start the miner. -/
  | starting
  /-- At the head of the loop. -/
  | loopHead
  /-- In `setState` with `IntroduceBlock`, while `CycleStateFetchBlockchain::onExit` waits. -/
  | leavingFetchBlockchain
  /-- In `cycleUntil` after each of the changes. -/
  | introducingBlock
  | introducingBaseline
  | collecting
  /-- In `fetchBlockchain`, out of sync. -/
  | fetching
  | stopped
  deriving DecidableEq

/-- The node, its thread and the miner. -/
structure UpdateStateThread where
  node : FetchingNode
  /-- What the synchronised timer shows. -/
  now : BlockchainTime
  position : ThreadPosition
  timeNextStateChange : BlockchainTime := 0
  timeViolationDetected : Bool := false
  /-- For the record: the thread has begun or the chain has been fetched, and no block has been
  introduced since. -/
  resynced : Bool := true

inductive ThreadEvent where
  /-- The thread takes a step. `slow` says that the call of `setState` took more than a cycle. -/
  | step (slow : Bool)
  /-- The manager is destroyed. -/
  | stop
  /-- Something happens to the node at the time the timer shows. -/
  | node (event : BlockchainTime → NodeEvent)
  /-- The user stops or starts the miner. -/
  | pauseMiner
  | resumeMiner
  | clock (now : BlockchainTime)

/-- An event that is none of the changes of state, which are up to the thread. -/
def NodeEvent.keepsState : NodeEvent → Bool
  | .enterFetchBlockchain => false
  | .fetch .onEnter => false
  | .fetch (.onExit _) => false
  | .fetch (.elsewhere _) => false
  | .fetch _ => true
  | .manager event => decide event.StaysInState

/-- A call of `onCycle`. -/
def NodeEvent.isOnCycle : NodeEvent → Bool
  | .fetch (.onCycle _) => true
  | .manager (.onCycle _ _ _) => true
  | _ => false

/-- The thread is in one of the loops that call `onCycle`. -/
def ThreadPosition.cycles : ThreadPosition → Bool
  | .fetchingInitially | .introducingBlock | .introducingBaseline | .collecting | .fetching => true
  | _ => false

/-! ## Steps -/

namespace UpdateStateThread

variable (crypto : CryptoHelper) (t : UpdateStateThread)

/-- A manager over a chain, as it is constructed. -/
def construct (ourPublicKey : PublicKeyPEM) (blockchain : Blockchain) (initialFetch : Bool)
    (now : BlockchainTime) : UpdateStateThread where
  node := { base := { ourPublicKey, blockchain } }
  now
  position := .beginning initialFetch

def withBase (base : BlockchainManager) : UpdateStateThread :=
  { t with node := { t.node with base } }

/-- A quarter into the cycle that is going on. -/
def firstStateChange (now : BlockchainTime) : BlockchainTime :=
  now / cycleLengthMs * cycleLengthMs + cycleLengthMs / 4

/-- The time for the next change has come. -/
def Due : Prop := t.timeNextStateChange ≤ t.now

instance : Decidable t.Due := inferInstanceAs (Decidable (_ ≤ _))

/-- `setState` with a state of the regular cycle, which lasts for `duration`. -/
def changeState (state : CycleState) (duration : BlockchainTime) (position : ThreadPosition)
    (slow : Bool) : UpdateStateThread :=
  { t.withBase (t.node.base.setState crypto state t.now).1 with
    position
    timeNextStateChange := t.timeNextStateChange + duration
    timeViolationDetected := t.timeViolationDetected || slow }

/-- The first change in a round of the loop. -/
def enterIntroduceBlock (slow : Bool) : UpdateStateThread :=
  ({ t with timeViolationDetected := false } : UpdateStateThread).changeState crypto .introduceBlock
    (cycleLengthMs * 3 / 4) .introducingBlock slow

def enterCollect (slow : Bool) : UpdateStateThread :=
  { t.changeState crypto .collect (cycleLengthMs / 4) .collecting slow with resynced := false }

def enterIntroduceBaseline (slow : Bool) : UpdateStateThread :=
  { t.changeState crypto .introduceBaseline cycleLengthMs .introducingBaseline slow with
    resynced := false }

/-- `fetchBlockchain` up to its loop. -/
def enterFetchBlockchain (position : ThreadPosition) : UpdateStateThread :=
  { t with node := t.node.enterFetchBlockchain crypto, position, resynced := true }

/-- The end of `Collect`: another round, unless the node is out of sync. -/
def afterCollect : UpdateStateThread :=
  if t.node.base.outOfSyncDetector.isOutOfSync || t.timeViolationDetected then
    t.enterFetchBlockchain crypto .fetching
  else { t with position := .loopHead }

/-- The state the thread goes to from `IntroduceBlock`. -/
def afterIntroduceBlock (slow : Bool) : UpdateStateThread :=
  if isBaselineBlock (t.node.base.blockchain.getNewestBlockId + 2) then
    t.enterIntroduceBaseline crypto slow
  else t.enterCollect crypto slow

/-- One step of `updateStateThread`. -/
def threadStep (slow : Bool) : UpdateStateThread :=
  match t.position with
  | .beginning initialFetch =>
    if initialFetch then t.enterFetchBlockchain crypto .fetchingInitially
    else { t with position := .starting }
  | .fetchingInitially => if t.node.isSynchronized then { t with position := .starting } else t
  | .starting =>
    { t.withBase t.node.base.resumeMiner with
      position := .loopHead
      timeNextStateChange := firstStateChange t.now }
  | .loopHead =>
    if t.node.state.running then
      { t with node := t.node.onExit t.now, position := .leavingFetchBlockchain }
    else t.enterIntroduceBlock crypto slow
  | .leavingFetchBlockchain => if t.node.Left then t.enterIntroduceBlock crypto slow else t
  | .introducingBlock => if t.Due then t.afterIntroduceBlock crypto slow else t
  | .introducingBaseline => if t.Due then t.enterCollect crypto slow else t
  | .collecting => if t.Due then t.afterCollect crypto else t
  | .fetching =>
    if t.node.isSynchronized then
      { t with position := .loopHead, timeNextStateChange := firstStateChange t.now }
    else t
  | .stopped => t

/-- The end of `updateStateThread`: `onExit` of the current state. -/
def stopStep : UpdateStateThread :=
  if t.node.state.running then { t with node := t.node.onExit t.now, position := .stopped }
  else
    { t.withBase { (t.node.base.exitState crypto).1 with currentState := none } with
      position := .stopped }

/-- The thread leaves its loops when the manager is destroyed. -/
def stopsHere : Bool := t.position.cycles || t.position == .loopHead

/-- An event may happen to the node now. -/
def allows (event : NodeEvent) : Bool :=
  event.keepsState && (!event.isOnCycle || t.position.cycles)

def act : ThreadEvent → UpdateStateThread
  | .step slow => t.threadStep crypto slow
  | .stop => if t.stopsHere then t.stopStep crypto else t
  | .node event =>
    if t.allows (event t.now) then { t with node := t.node.nodeStep crypto (event t.now) } else t
  | .pauseMiner => t.withBase t.node.base.pauseMiner
  | .resumeMiner => t.withBase t.node.base.resumeMiner
  | .clock now => { t with now }

end UpdateStateThread

/-! ## What an event leaves alone -/

namespace BlockchainManager

variable {crypto : CryptoHelper} {m : BlockchainManager}

/-- Two nodes with the same miner and the same opinion about the time. -/
structure SameSide (m m' : BlockchainManager) : Prop where
  miner : m'.miner = m.miner
  timeOutOfSync : m'.outOfSyncDetector.timeOutOfSync = m.outOfSyncDetector.timeOutOfSync

theorem SameSide.trans {a b c : BlockchainManager} (h : SameSide a b) (h' : SameSide b c) :
    SameSide a c :=
  ⟨h'.miner.trans h.miner, h'.timeOutOfSync.trans h.timeOutOfSync⟩

theorem monitorMessage_side (m : BlockchainManager) (peer : PeerId) (reply : Bool)
    (now : BlockchainTime) : SameSide m (m.monitorMessage peer reply now).1 := by
  unfold monitorMessage
  split_ifs
  · exact ⟨rfl, rfl⟩
  · dsimp only
    split_ifs <;> exact ⟨rfl, rfl⟩

theorem considerBlock_side (crypto : CryptoHelper) (m : BlockchainManager) (peer : PeerId)
    (block : CollectionBlock) : SameSide m (m.considerBlock crypto peer block).1 := by
  rcases considerBlock_cases crypto m peer block with
    ⟨-, heq⟩ | ⟨-, -, -, heq⟩ | ⟨-, -, -, heq⟩ | ⟨-, -, heq⟩ <;> rw [heq] <;> exact ⟨rfl, rfl⟩

theorem blockReceivedIntroduceBlock_side (crypto : CryptoHelper) (m : BlockchainManager)
    (peer : PeerId) (block : CollectionBlock) (reply : Bool) :
    SameSide m (m.blockReceivedIntroduceBlock crypto peer block reply).1 := by
  have hconsidered := m.considerBlock_side crypto peer block
  unfold blockReceivedIntroduceBlock
  split_ifs
  · exact ⟨rfl, rfl⟩
  · refine hconsidered.trans ⟨rfl, ?_⟩
    simp only [OutOfSyncDetector.blockReceivedCallback]
    split_ifs <;> rfl

theorem collect_side (crypto : CryptoHelper) (m : BlockchainManager)
    (creationSignature transactionSignature : Signature) :
    SameSide m ((m.collectCreation crypto creationSignature).collectTransaction crypto
      transactionSignature) := by
  have hcreation : SameSide m (m.collectCreation crypto creationSignature) := by
    unfold collectCreation
    split
    · dsimp only
      split_ifs <;> exact ⟨rfl, rfl⟩
    · exact ⟨rfl, rfl⟩
  refine hcreation.trans ?_
  unfold collectTransaction
  split
  · dsimp only
    split_ifs <;> exact ⟨rfl, rfl⟩
  · exact ⟨rfl, rfl⟩

theorem step_side (crypto : CryptoHelper) (m : BlockchainManager) {event : ManagerEvent}
    (hstays : event.StaysInState) : SameSide m (m.step crypto event) := by
  cases event with
  | advance now => exact absurd hstays id
  | onCycle now creationSignature transactionSignature =>
    simp only [step, act, onCycle]
    split
    · exact m.collect_side crypto creationSignature transactionSignature
    · unfold cycleIntroduceBlock
      dsimp only
      split_ifs <;> exact ⟨rfl, rfl⟩
    · exact ⟨rfl, rfl⟩
  | collectionBlockReceived peer block reply now =>
    simp only [step, act, collectionBlockReceivedCallback]
    split
    · exact (m.blockReceivedIntroduceBlock_side crypto peer block reply).trans
        (monitorMessage_side _ peer reply now)
    · exact m.monitorMessage_side peer reply now
  | foundHash data => exact ⟨rfl, rfl⟩
  | triggerTransaction receiver fraction => exact ⟨rfl, rfl⟩

end BlockchainManager

namespace FetchingNode

variable {crypto : CryptoHelper} {node : FetchingNode} {event : NodeEvent}

/-- **An event that is no change of state** is an event of `FetchBlockchain` and its thread, or one
inside a state of the regular cycle. -/
theorem nodeStep_keepsState_cases (crypto : CryptoHelper) (node : FetchingNode)
    (h : event.keepsState = true) :
    (∃ fetchEvent, event = .fetch fetchEvent ∧
      node.nodeStep crypto event = node.step crypto fetchEvent ∧
      fetchEvent ≠ .onEnter ∧ (∀ now, fetchEvent ≠ .onExit now) ∧
      ∀ base, fetchEvent ≠ .elsewhere base) ∨
    ∃ managerEvent : ManagerEvent, event = .manager managerEvent ∧ managerEvent.StaysInState ∧
      node.nodeStep crypto event = { node with base := node.base.step crypto managerEvent } := by
  cases event with
  | enterFetchBlockchain => cases h
  | fetch event =>
    left
    cases event with
    | onEnter => cases h
    | onExit now => cases h
    | elsewhere base => cases h
    | onCycle now => exact ⟨_, rfl, rfl, by simp, by simp, by simp⟩
    | baselineBlockReceived peer block reply => exact ⟨_, rfl, rfl, by simp, by simp, by simp⟩
    | collectionBlockReceived peer block reply => exact ⟨_, rfl, rfl, by simp, by simp, by simp⟩
    | fetchBlocksThread now numConnectedPeers => exact ⟨_, rfl, rfl, by simp, by simp, by simp⟩
    | cacheThread => exact ⟨_, rfl, rfl, by simp, by simp, by simp⟩
  | manager event =>
    have hstays : event.StaysInState := of_decide_eq_true h
    exact Or.inr ⟨event, rfl, hstays, if_pos (Or.inr hstays)⟩

/-- The node stays in its state, with the same miner. -/
structure SameState (node node' : FetchingNode) : Prop where
  currentState : node'.base.currentState = node.base.currentState
  running : node'.state.running = node.state.running
  left : node.Left → node'.Left
  side : node.base.SameSide node'.base

theorem nodeStep_sameState (crypto : CryptoHelper) (node : FetchingNode)
    (h : event.keepsState = true) : SameState node (node.nodeStep crypto event) := by
  rcases node.nodeStep_keepsState_cases crypto h with
    ⟨fetchEvent, -, heq, henter, hexit, hinside⟩ | ⟨managerEvent, -, hstays, heq⟩ <;> rw [heq]
  · have hsame : SameOwn node (node.step crypto fetchEvent) := by
      rcases node.step_own crypto henter hinside with hsame | ⟨now, hleaves, -⟩
      · exact hsame
      · exact absurd hleaves (hexit now)
    refine ⟨hsame.currentState, hsame.running, fun hleft => ?_, hsame.miner, by rw [hsame.detector]⟩
    exact ⟨hsame.running.trans hleft.1, node.step_joined hleft.2 henter⟩
  · exact ⟨node.base.step_currentState crypto hstays, rfl, id, node.base.step_side crypto hstays⟩

/-- Outside of `FetchBlockchain` such an event adds no block. -/
theorem nodeStep_chain (hleft : node.Left) (h : event.keepsState = true) :
    (node.nodeStep crypto event).base.blockchain.metaData = node.base.blockchain.metaData ∧
      (node.nodeStep crypto event).base.blockchain.getMiningState =
        node.base.blockchain.getMiningState := by
  rcases node.nodeStep_keepsState_cases crypto h with
    ⟨fetchEvent, -, heq, henter, -, hinside⟩ | ⟨managerEvent, -, hstays, heq⟩ <;> rw [heq]
  · rcases step_of_left hleft henter hinside with hsame | hsame <;> rw [hsame] <;>
      exact ⟨rfl, rfl⟩
  · have hsame := node.base.step_sameBalances crypto hstays
    exact ⟨hsame.metaData, hsame.miningState⟩

end FetchingNode

/-! ## Changes of state -/

namespace BlockchainManager

variable (crypto : CryptoHelper) {m : BlockchainManager} (now : BlockchainTime)

theorem setState_introduceBlock (h : m.currentState = none ∨ m.currentState = some .collect) :
    m.setState crypto .introduceBlock now = m.enterState crypto .introduceBlock now := by
  rcases h with h | h <;> simp [setState, exitState, h]

theorem setState_of_introduceBlock (h : m.currentState = some .introduceBlock) {state : CycleState}
    (hne : state ≠ .introduceBlock) :
    (m.setState crypto state now).1 =
      ((m.exitIntroduceBlock crypto).1.enterState crypto state now).1 := by
  have hother : m.currentState ≠ some state := by
    rw [h]
    simpa using hne.symm
  rw [setState, if_neg hother, exitState, h]

theorem setState_of_introduceBaseline (h : m.currentState = some .introduceBaseline) :
    (m.setState crypto .collect now).1 = (m.enterState crypto .collect now).1 := by
  simp [setState, exitState, h]

theorem exitIntroduceBlock_detector (m : BlockchainManager) :
    (m.exitIntroduceBlock crypto).1.outOfSyncDetector = m.outOfSyncDetector := by
  simp only [exitIntroduceBlock]
  split_ifs <;> rfl

end BlockchainManager

/-! ## What a step of the thread can do -/

namespace UpdateStateThread

variable {crypto : CryptoHelper} {t : UpdateStateThread}

/-- The outcomes of a step. -/
inductive Steps (crypto : CryptoHelper) (t : UpdateStateThread) (slow : Bool) :
    UpdateStateThread → Prop where
  /-- The thread goes on waiting. -/
  | waits : Steps crypto t slow t
  | fetchInitially : t.position = .beginning true →
    Steps crypto t slow (t.enterFetchBlockchain crypto .fetchingInitially)
  | skipFetching : t.position = .beginning false →
    Steps crypto t slow { t with position := .starting }
  | fetchedInitially : t.position = .fetchingInitially →
    Steps crypto t slow { t with position := .starting }
  | start : t.position = .starting →
    Steps crypto t slow
      { t.withBase t.node.base.resumeMiner with
        position := .loopHead
        timeNextStateChange := firstStateChange t.now }
  | leaveFetchBlockchain : t.position = .loopHead → t.node.state.running = true →
    Steps crypto t slow { t with node := t.node.onExit t.now, position := .leavingFetchBlockchain }
  | introduceBlock : t.position = .loopHead ∧ t.node.state.running = false ∨
      t.position = .leavingFetchBlockchain ∧ t.node.Left →
    Steps crypto t slow (t.enterIntroduceBlock crypto slow)
  | introduceBaseline : t.position = .introducingBlock → t.Due →
      isBaselineBlock (t.node.base.blockchain.getNewestBlockId + 2) = true →
    Steps crypto t slow (t.enterIntroduceBaseline crypto slow)
  | collectAfterBlock : t.position = .introducingBlock → t.Due →
      isBaselineBlock (t.node.base.blockchain.getNewestBlockId + 2) = false →
    Steps crypto t slow (t.enterCollect crypto slow)
  | collectAfterBaseline : t.position = .introducingBaseline → t.Due →
    Steps crypto t slow (t.enterCollect crypto slow)
  | resynchronise : t.position = .collecting → t.Due →
    Steps crypto t slow (t.enterFetchBlockchain crypto .fetching)
  | again : t.position = .collecting → t.Due →
      t.node.base.outOfSyncDetector.isOutOfSync = false →
    Steps crypto t slow { t with position := .loopHead }
  | fetched : t.position = .fetching →
    Steps crypto t slow
      { t with position := .loopHead, timeNextStateChange := firstStateChange t.now }

/-- The event is the change to `IntroduceBlock`. -/
def EntersIntroduceBlock (t : UpdateStateThread) : ThreadEvent → Prop
  | .step _ => t.position = .loopHead ∧ t.node.state.running = false ∨
      t.position = .leavingFetchBlockchain ∧ t.node.Left
  | _ => False

/-- The event is a change from `IntroduceBlock`, also when the thread ends. -/
def LeavesIntroduceBlock (t : UpdateStateThread) : ThreadEvent → Prop
  | .step _ => t.position = .introducingBlock ∧ t.Due
  | .stop => t.position = .introducingBlock
  | _ => False

/-- The event is the change to `IntroduceBaseline`. -/
def EntersIntroduceBaseline (t : UpdateStateThread) : ThreadEvent → Prop
  | .step _ => (t.position = .introducingBlock ∧ t.Due) ∧
      isBaselineBlock (t.node.base.blockchain.getNewestBlockId + 2) = true
  | _ => False

/-- The event is the change to `Collect`. -/
def EntersCollect (t : UpdateStateThread) : ThreadEvent → Prop
  | .step _ => (t.position = .introducingBlock ∧ t.Due) ∧
      isBaselineBlock (t.node.base.blockchain.getNewestBlockId + 2) = false ∨
      t.position = .introducingBaseline ∧ t.Due
  | _ => False

instance (t : UpdateStateThread) : DecidablePred t.EntersIntroduceBlock
  | .step _ => inferInstanceAs (Decidable (_ ∧ _ ∨ _ ∧ _))
  | .stop => inferInstanceAs (Decidable False)
  | .node _ => inferInstanceAs (Decidable False)
  | .pauseMiner => inferInstanceAs (Decidable False)
  | .resumeMiner => inferInstanceAs (Decidable False)
  | .clock _ => inferInstanceAs (Decidable False)

instance (t : UpdateStateThread) : DecidablePred t.LeavesIntroduceBlock
  | .step _ => inferInstanceAs (Decidable (_ ∧ _))
  | .stop => inferInstanceAs (Decidable (_ = _))
  | .node _ => inferInstanceAs (Decidable False)
  | .pauseMiner => inferInstanceAs (Decidable False)
  | .resumeMiner => inferInstanceAs (Decidable False)
  | .clock _ => inferInstanceAs (Decidable False)

instance (t : UpdateStateThread) : DecidablePred t.EntersIntroduceBaseline
  | .step _ => inferInstanceAs (Decidable (_ ∧ _))
  | .stop => inferInstanceAs (Decidable False)
  | .node _ => inferInstanceAs (Decidable False)
  | .pauseMiner => inferInstanceAs (Decidable False)
  | .resumeMiner => inferInstanceAs (Decidable False)
  | .clock _ => inferInstanceAs (Decidable False)

instance (t : UpdateStateThread) : DecidablePred t.EntersCollect
  | .step _ => inferInstanceAs (Decidable (_ ∧ _ ∨ _ ∧ _))
  | .stop => inferInstanceAs (Decidable False)
  | .node _ => inferInstanceAs (Decidable False)
  | .pauseMiner => inferInstanceAs (Decidable False)
  | .resumeMiner => inferInstanceAs (Decidable False)
  | .clock _ => inferInstanceAs (Decidable False)

theorem EntersIntroduceBlock.isStep {event : ThreadEvent} (h : t.EntersIntroduceBlock event) :
    ∃ slow, event = .step slow := by
  cases event with
  | step slow => exact ⟨slow, rfl⟩
  | stop => cases h
  | node event => cases h
  | pauseMiner => cases h
  | resumeMiner => cases h
  | clock now => cases h

theorem EntersIntroduceBaseline.isStep {event : ThreadEvent}
    (h : t.EntersIntroduceBaseline event) : ∃ slow, event = .step slow := by
  cases event with
  | step slow => exact ⟨slow, rfl⟩
  | stop => cases h
  | node event => cases h
  | pauseMiner => cases h
  | resumeMiner => cases h
  | clock now => cases h

theorem LeavesIntroduceBlock.position {event : ThreadEvent} (h : t.LeavesIntroduceBlock event) :
    t.position = .introducingBlock := by
  cases event with
  | step slow => exact h.1
  | stop => exact h
  | node event => cases h
  | pauseMiner => cases h
  | resumeMiner => cases h
  | clock now => cases h

theorem threadStep_introduceBlock {slow : Bool} (h : t.EntersIntroduceBlock (.step slow)) :
    t.threadStep crypto slow = t.enterIntroduceBlock crypto slow := by
  rcases h with ⟨hposition, hrunning⟩ | ⟨hposition, hleft⟩
  · simp [threadStep, hposition, hrunning]
  · simp [threadStep, hposition, hleft]

theorem threadStep_introduceBaseline {slow : Bool} (h : t.EntersIntroduceBaseline (.step slow)) :
    t.threadStep crypto slow = t.enterIntroduceBaseline crypto slow := by
  obtain ⟨⟨hposition, hdue⟩, hgrid⟩ := h
  simp [threadStep, afterIntroduceBlock, hposition, hdue, hgrid]

/-- **Every step is one of these.** -/
theorem steps_threadStep (crypto : CryptoHelper) (t : UpdateStateThread) (slow : Bool) :
    t.Steps crypto slow (t.threadStep crypto slow) := by
  unfold threadStep
  cases hposition : t.position with
  | beginning initialFetch =>
    cases initialFetch with
    | true => exact .fetchInitially hposition
    | false => exact .skipFetching hposition
  | fetchingInitially =>
    dsimp only
    split_ifs
    · exact .fetchedInitially hposition
    · exact .waits
  | starting => exact .start hposition
  | loopHead =>
    dsimp only
    split_ifs with hrunning
    · exact .leaveFetchBlockchain hposition hrunning
    · exact .introduceBlock (Or.inl ⟨hposition, Bool.eq_false_iff.2 hrunning⟩)
  | leavingFetchBlockchain =>
    dsimp only
    split_ifs with hleft
    · exact .introduceBlock (Or.inr ⟨hposition, hleft⟩)
    · exact .waits
  | introducingBlock =>
    simp only [afterIntroduceBlock]
    split_ifs with hdue hgrid
    · exact .introduceBaseline hposition hdue hgrid
    · exact .collectAfterBlock hposition hdue (Bool.eq_false_iff.2 hgrid)
    · exact .waits
  | introducingBaseline =>
    dsimp only
    split_ifs with hdue
    · exact .collectAfterBaseline hposition hdue
    · exact .waits
  | collecting =>
    simp only [afterCollect]
    split_ifs with hdue hout
    · exact .resynchronise hposition hdue
    · rw [Bool.or_eq_true, not_or] at hout
      exact .again hposition hdue (Bool.eq_false_iff.2 hout.1)
    · exact .waits
  | fetching =>
    dsimp only
    split_ifs
    · exact .fetched hposition
    · exact .waits
  | stopped => exact .waits

/-! ## Where the thread is -/

/-- The node is in the state the thread has put it into. -/
def PositionOk (t : UpdateStateThread) : Prop :=
  match t.position with
  | .beginning _ => t.node.Left ∧ t.node.base.currentState = none ∧ t.resynced = true
  | .fetchingInitially | .fetching =>
    t.node.state.running = true ∧ t.node.base.currentState = none ∧ t.resynced = true
  | .starting =>
    (t.node.state.running = true ∨ t.node.Left) ∧ t.node.base.currentState = none ∧
      t.resynced = true
  | .loopHead =>
    (t.node.state.running = true ∨ t.node.Left) ∧ t.node.base.currentState = none ∧
        t.resynced = true ∨
      t.node.Left ∧ t.node.base.currentState = some .collect ∧ t.resynced = false
  | .leavingFetchBlockchain =>
    t.node.state.running = false ∧ t.node.base.currentState = none ∧ t.resynced = true
  | .introducingBlock => t.node.Left ∧ t.node.base.currentState = some .introduceBlock
  | .introducingBaseline =>
    t.node.Left ∧ t.node.base.currentState = some .introduceBaseline ∧ t.resynced = false
  | .collecting => t.node.Left ∧ t.node.base.currentState = some .collect ∧ t.resynced = false
  | .stopped => t.node.state.running = false ∧ t.node.base.currentState = none

namespace PositionOk

theorem mayIntroduce (h : t.PositionOk)
    (hat : t.position = .loopHead ∧ t.node.state.running = false ∨
      t.position = .leavingFetchBlockchain ∧ t.node.Left) :
    t.node.Left ∧ (t.node.base.currentState = none ∧ t.resynced = true ∨
      t.node.base.currentState = some .collect ∧ t.resynced = false) := by
  unfold PositionOk at h
  rcases hat with ⟨hposition, hnot⟩ | ⟨hposition, hleft⟩ <;> rw [hposition] at h
  · rcases h with ⟨hrunning | hleft, hnone, hresynced⟩ | ⟨hleft, hstate⟩
    · rw [hnot] at hrunning
      cases hrunning
    · exact ⟨hleft, Or.inl ⟨hnone, hresynced⟩⟩
    · exact ⟨hleft, Or.inr hstate⟩
  · exact ⟨hleft, Or.inl h.2⟩

theorem introducingBlock (h : t.PositionOk) (hposition : t.position = .introducingBlock) :
    t.node.Left ∧ t.node.base.currentState = some .introduceBlock := by
  unfold PositionOk at h
  rw [hposition] at h
  exact h

theorem introducingBaseline (h : t.PositionOk) (hposition : t.position = .introducingBaseline) :
    t.node.Left ∧ t.node.base.currentState = some .introduceBaseline ∧ t.resynced = false := by
  unfold PositionOk at h
  rw [hposition] at h
  exact h

theorem collecting (h : t.PositionOk) (hposition : t.position = .collecting) :
    t.node.Left ∧ t.node.base.currentState = some .collect ∧ t.resynced = false := by
  unfold PositionOk at h
  rw [hposition] at h
  exact h

end PositionOk

theorem setState_node (hleft : t.node.Left) {state : CycleState}
    (hnext : t.node.base.nextState = state) :
    ({ t.node with base := (t.node.base.setState crypto state t.now).1 } : FetchingNode) =
      t.node.nodeStep crypto (.manager (.advance t.now)) := by
  simp only [FetchingNode.nodeStep, BlockchainManager.step, BlockchainManager.act, hnext,
    if_pos (Or.inl hleft)]

theorem nextState_start {m : BlockchainManager}
    (h : m.currentState = none ∨ m.currentState = some .collect) :
    m.nextState = .introduceBlock := by
  rcases h with h | h <;> rw [BlockchainManager.nextState, h]

theorem nextState_introduceBlock {m : BlockchainManager}
    (h : m.currentState = some .introduceBlock) :
    m.nextState = if isBaselineBlock (m.blockchain.getNewestBlockId + 2) then .introduceBaseline
      else .collect := by
  rw [BlockchainManager.nextState, h]

theorem nextState_introduceBaseline {m : BlockchainManager}
    (h : m.currentState = some .introduceBaseline) : m.nextState = .collect := by
  rw [BlockchainManager.nextState, h]

/-- The node after a step of the thread: nothing has happened to it, the miner has been started, or
it has taken a step of its own. -/
theorem threadStep_node (h : t.PositionOk) (slow : Bool) :
    (t.threadStep crypto slow).node = t.node ∨
      t.position = .starting ∧
        (t.threadStep crypto slow).node = { t.node with base := t.node.base.resumeMiner } ∨
      (t.threadStep crypto slow).node = t.node.nodeStep crypto .enterFetchBlockchain ∨
      (t.threadStep crypto slow).node = t.node.nodeStep crypto (.fetch (.onExit t.now)) ∨
      (t.threadStep crypto slow).node = t.node.nodeStep crypto (.manager (.advance t.now)) := by
  have hsteps := t.steps_threadStep crypto slow
  generalize t.threadStep crypto slow = next at hsteps ⊢
  cases hsteps with
  | waits => exact Or.inl rfl
  | fetchInitially hposition =>
    unfold PositionOk at h
    rw [hposition] at h
    have hmay : t.node.MayFetch := ⟨h.1, Or.inl h.2.1⟩
    exact Or.inr (Or.inr (Or.inl (if_pos hmay).symm))
  | skipFetching hposition => exact Or.inl rfl
  | fetchedInitially hposition => exact Or.inl rfl
  | start hposition => exact Or.inr (Or.inl ⟨hposition, rfl⟩)
  -- The state is left while its flag is still set.
  | leaveFetchBlockchain hposition hrunning =>
    refine Or.inr (Or.inr (Or.inr (Or.inl ?_)))
    simp only [FetchingNode.nodeStep, FetchingNode.step, FetchingNode.act, if_pos hrunning]
  | introduceBlock hat =>
    obtain ⟨hleft, hstate⟩ := h.mayIntroduce hat
    have hnext := nextState_start (hstate.imp And.left And.left)
    exact Or.inr (Or.inr (Or.inr (Or.inr (setState_node hleft hnext))))
  | introduceBaseline hposition hdue hgrid =>
    obtain ⟨hleft, hstate⟩ := h.introducingBlock hposition
    have hnext := (nextState_introduceBlock hstate).trans (if_pos hgrid)
    exact Or.inr (Or.inr (Or.inr (Or.inr (setState_node hleft hnext))))
  | collectAfterBlock hposition hdue hgrid =>
    obtain ⟨hleft, hstate⟩ := h.introducingBlock hposition
    have hnext := (nextState_introduceBlock hstate).trans (if_neg (by rw [hgrid]; decide))
    exact Or.inr (Or.inr (Or.inr (Or.inr (setState_node hleft hnext))))
  | collectAfterBaseline hposition hdue =>
    obtain ⟨hleft, hstate, -⟩ := h.introducingBaseline hposition
    have hnext := nextState_introduceBaseline hstate
    exact Or.inr (Or.inr (Or.inr (Or.inr (setState_node hleft hnext))))
  | resynchronise hposition hdue =>
    obtain ⟨hleft, hstate, -⟩ := h.collecting hposition
    have hmay : t.node.MayFetch := ⟨hleft, Or.inr hstate⟩
    exact Or.inr (Or.inr (Or.inl (if_pos hmay).symm))
  | again hposition hdue hsync => exact Or.inl rfl
  | fetched hposition => exact Or.inl rfl

theorem stopStep_position (crypto : CryptoHelper) (t : UpdateStateThread) :
    (t.stopStep crypto).position = .stopped := by
  unfold stopStep
  split_ifs <;> rfl

@[simp] theorem setState_currentState (crypto : CryptoHelper) (m : BlockchainManager)
    (state : CycleState) (now : BlockchainTime) :
    (m.setState crypto state now).1.currentState = some state := by
  unfold BlockchainManager.setState
  split_ifs with hsame
  · exact hsame
  · exact BlockchainManager.enterState_currentState crypto _ state now

namespace PositionOk

theorem construct (ourPublicKey : PublicKeyPEM) (blockchain : Blockchain) (initialFetch : Bool)
    (now : BlockchainTime) :
    (UpdateStateThread.construct ourPublicKey blockchain initialFetch now).PositionOk :=
  ⟨⟨rfl, rfl⟩, rfl, rfl⟩

theorem threadStep (h : t.PositionOk) (slow : Bool) : (t.threadStep crypto slow).PositionOk := by
  have hsteps := t.steps_threadStep crypto slow
  generalize t.threadStep crypto slow = next at hsteps ⊢
  cases hsteps with
  | waits => exact h
  | fetchInitially hposition => exact ⟨rfl, rfl, rfl⟩
  | skipFetching hposition =>
    unfold PositionOk at h
    rw [hposition] at h
    exact ⟨Or.inr h.1, h.2⟩
  | fetchedInitially hposition =>
    unfold PositionOk at h
    rw [hposition] at h
    exact ⟨Or.inl h.1, h.2⟩
  | start hposition =>
    unfold PositionOk at h
    rw [hposition] at h
    exact Or.inl h
  | leaveFetchBlockchain hposition hrunning =>
    unfold PositionOk at h
    rw [hposition] at h
    rcases h with ⟨-, hnone, hresynced⟩ | ⟨hleft, -⟩
    · exact ⟨rfl, hnone, hresynced⟩
    · rw [hleft.1] at hrunning
      cases hrunning
  | introduceBlock hat =>
    exact ⟨(h.mayIntroduce hat).1, setState_currentState crypto _ _ _⟩
  | introduceBaseline hposition hdue hgrid =>
    exact ⟨(h.introducingBlock hposition).1, setState_currentState crypto _ _ _, rfl⟩
  | collectAfterBlock hposition hdue hgrid =>
    exact ⟨(h.introducingBlock hposition).1, setState_currentState crypto _ _ _, rfl⟩
  | collectAfterBaseline hposition hdue =>
    exact ⟨(h.introducingBaseline hposition).1, setState_currentState crypto _ _ _, rfl⟩
  | resynchronise hposition hdue => exact ⟨rfl, rfl, rfl⟩
  | again hposition hdue hsync => exact Or.inr (h.collecting hposition)
  | fetched hposition =>
    unfold PositionOk at h
    rw [hposition] at h
    exact Or.inl ⟨Or.inl h.1, h.2⟩

theorem of_sameState (h : t.PositionOk) {node : FetchingNode} (hs : t.node.SameState node) :
    ({ t with node } : UpdateStateThread).PositionOk := by
  unfold PositionOk at h ⊢
  dsimp only
  rw [hs.currentState, hs.running]
  cases hposition : t.position <;> rw [hposition] at h <;> dsimp only at h ⊢
  · exact ⟨hs.left h.1, h.2⟩
  · exact h
  · exact ⟨h.1.imp_right hs.left, h.2⟩
  · exact h.imp (fun h => ⟨h.1.imp_right hs.left, h.2⟩) fun h => ⟨hs.left h.1, h.2⟩
  · exact h
  · exact ⟨hs.left h.1, h.2⟩
  · exact ⟨hs.left h.1, h.2⟩
  · exact ⟨hs.left h.1, h.2⟩
  · exact h
  · exact h

/-- Only one place of the thread goes with `IntroduceBlock`. -/
theorem position_of_introduceBlock (h : t.PositionOk)
    (hstate : t.node.base.currentState = some .introduceBlock) :
    t.position = .introducingBlock := by
  unfold PositionOk at h
  rw [hstate] at h
  cases hposition : t.position with
  | introducingBlock => rfl
  | beginning initialFetch => simp [hposition] at h
  | fetchingInitially => simp [hposition] at h
  | starting => simp [hposition] at h
  | loopHead => simp [hposition] at h
  | leavingFetchBlockchain => simp [hposition] at h
  | introducingBaseline => simp [hposition] at h
  | collecting => simp [hposition] at h
  | fetching => simp [hposition] at h
  | stopped => simp [hposition] at h

theorem position_of_collect (h : t.PositionOk)
    (hstate : t.node.base.currentState = some .collect) :
    t.position = .collecting ∨ t.position = .loopHead := by
  unfold PositionOk at h
  rw [hstate] at h
  cases hposition : t.position with
  | collecting => exact Or.inl rfl
  | loopHead => exact Or.inr rfl
  | beginning initialFetch => simp [hposition] at h
  | fetchingInitially => simp [hposition] at h
  | starting => simp [hposition] at h
  | leavingFetchBlockchain => simp [hposition] at h
  | introducingBlock => simp [hposition] at h
  | introducingBaseline => simp [hposition] at h
  | fetching => simp [hposition] at h
  | stopped => simp [hposition] at h

/-- While the chain is fetched the regular cycle is in no state. -/
theorem currentState_of_running (h : t.PositionOk) (hrunning : t.node.state.running = true) :
    t.node.base.currentState = none := by
  have hnot : ¬ t.node.Left := by
    intro hleft
    rw [hleft.1] at hrunning
    cases hrunning
  unfold PositionOk at h
  cases hposition : t.position with
  | beginning initialFetch =>
    rw [hposition] at h
    exact h.2.1
  | fetchingInitially =>
    rw [hposition] at h
    exact h.2.1
  | starting =>
    rw [hposition] at h
    exact h.2.1
  | loopHead =>
    rw [hposition] at h
    exact h.elim (fun h => h.2.1) fun h => absurd h.1 hnot
  | leavingFetchBlockchain =>
    rw [hposition] at h
    exact h.2.1
  | introducingBlock =>
    rw [hposition] at h
    exact absurd h.1 hnot
  | introducingBaseline =>
    rw [hposition] at h
    exact absurd h.1 hnot
  | collecting =>
    rw [hposition] at h
    exact absurd h.1 hnot
  | fetching =>
    rw [hposition] at h
    exact h.2.1
  | stopped =>
    rw [hposition] at h
    exact h.2

/-- From the first block after a synchronisation to the next one the chain is not fetched. -/
theorem left_of_introduced (h : t.PositionOk) (hresynced : t.resynced = false)
    (hnot : t.position ≠ .stopped) : t.node.Left := by
  unfold PositionOk at h
  rw [hresynced] at h
  cases hposition : t.position with
  | beginning initialFetch => simp [hposition] at h
  | fetchingInitially => simp [hposition] at h
  | starting => simp [hposition] at h
  | loopHead =>
    simp only [hposition, Bool.false_eq_true, and_false, false_or] at h
    exact h.1
  | leavingFetchBlockchain => simp [hposition] at h
  | introducingBlock =>
    rw [hposition] at h
    exact h.1
  | introducingBaseline =>
    rw [hposition] at h
    exact h.1
  | collecting =>
    rw [hposition] at h
    exact h.1
  | fetching => simp [hposition] at h
  | stopped => exact absurd hposition hnot

theorem stopStep (h : t.PositionOk) : (t.stopStep crypto).PositionOk := by
  unfold UpdateStateThread.stopStep
  split_ifs with hrunning
  · exact ⟨rfl, h.currentState_of_running hrunning⟩
  · exact ⟨Bool.eq_false_iff.2 hrunning, rfl⟩

/-- **One event.** -/
theorem act (h : t.PositionOk) (event : ThreadEvent) : (t.act crypto event).PositionOk := by
  cases event with
  | step slow => exact h.threadStep slow
  | stop =>
    simp only [UpdateStateThread.act]
    split_ifs
    · exact h.stopStep
    · exact h
  | node event =>
    simp only [UpdateStateThread.act]
    split_ifs with hallows
    · exact h.of_sameState (t.node.nodeStep_sameState crypto (Bool.and_eq_true_iff.1 hallows).1)
    · exact h
  | pauseMiner => exact h
  | resumeMiner => exact h
  | clock now => exact h

end PositionOk

end UpdateStateThread

/-! ## Small runs -/

namespace Sample

/-- The fetching thread takes a step. -/
def fetchStep : ThreadEvent := .node fun now => .fetch (.fetchBlocksThread now 1)

/-- A block arrives, and a round of the fetching thread follows. -/
def fetchBlock (block : CollectionBlock) : List ThreadEvent :=
  .node (fun _ => .fetch (.collectionBlockReceived [1] block true)) :: List.replicate 3 fetchStep

/-- `FetchBlockchain` is entered, a root arrives, and then some blocks. -/
def fetchChain (root : BaselineBlock) (blocks : List CollectionBlock) : List ThreadEvent :=
  [.step false, fetchStep, fetchStep,
    .node fun _ => .fetch (.baselineBlockReceived [1] root true)] ++
    List.replicate 4 fetchStep ++ blocks.flatMap fetchBlock

/-- `FetchBlockchain` is left for `IntroduceBlock`. -/
def leaveFetching : List ThreadEvent := [.step false, .step false, fetchStep, .step false]

end Sample

end SwabianCoin
