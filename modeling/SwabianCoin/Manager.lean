import SwabianCoin.Assembly
import SwabianCoin.Lib.Ballot
import SwabianCoin.Lib.Run
import SwabianCoin.Monitors

/-!
# The cycle of a node

`BlockchainManager` takes a node through its regular cycle: it collects its own sub-blocks
(`Collect`), negotiates the next block with its peers (`IntroduceBlock`), and from time to time
replaces the chain by a baseline (`IntroduceBaseline`). Each function follows the method of that
name; what it does to the outside is a list of effects.

An event is one thing that happens to a node under its state mutex: the thread of the cycle moves
to the next state or calls `onCycle`, a block arrives, a data value is found, a transaction is
triggered. A signature is part of the event that needs it, since signing is randomised.
-/

namespace SwabianCoin

open Machine

/-! ## State -/

/-- The states of the regular cycle. -/
inductive CycleState where
  | collect
  | introduceBlock
  | introduceBaseline
  deriving DecidableEq

/-- What `CycleStateIntroduceBlock` remembers during one negotiation. -/
structure CycleStateIntroduceBlock where
  nextPropagationTime : BlockchainTime := 0
  numPropagationsInCurrentCycle : UInt32 := 0
  /-- The verdicts, under the hashes the blocks claim to have. -/
  processedBlocks : OrdMap Hash Bool := ∅
  creationSubBlockCounter : OrdMap Hash UInt32 := ∅
  transactionSubBlockCounter : OrdMap Hash UInt32 := ∅

/-- What the node knows about its miner. -/
structure Miner where
  running : Bool := false
  epoch : Epoch := 0
  previousEpochHighestHash : Hash := 0

/-- The manager with everything it owns. -/
structure BlockchainManager where
  ourPublicKey : PublicKeyPEM
  blockchain : Blockchain
  miner : Miner := {}
  outOfSyncDetector : OutOfSyncDetector := {}
  peersMonitor : PeersMonitor := {}
  cycleStateIntroduceBlock : CycleStateIntroduceBlock := {}
  currentState : Option CycleState := none
  newBlock : CollectionBlock := {}
  foundHashQueue : List Bytes := []
  transactionQueue : List (PublicKeyPEM × UInt64) := []

/-! ## Effects and events -/

/-- Why a peer is reported. -/
inductive Violation where
  | unexpectedReply
  | invalidBlock
  | tooFast
  deriving DecidableEq

/-- What an event does besides changing the state. The votes are for the record. -/
inductive Effect where
  | propagateBlock (block : CollectionBlock)
  | addBlock (block : CollectionBlock)
  | reportViolation (peer : PeerId) (ground : Violation)
  | banPeer (peer : PeerId)
  | transactionVote (vote : Vote Hash TransactionSubBlock)
  | creationVote (vote : Vote Hash CreationSubBlock)
  deriving DecidableEq

/-- What can happen to a node. -/
inductive ManagerEvent where
  /-- The thread of the cycle moves on to the next state. -/
  | advance (now : BlockchainTime)
  /-- The thread calls `onCycle`. -/
  | onCycle (now : BlockchainTime) (creationSignature transactionSignature : Signature)
  | collectionBlockReceived (peer : PeerId) (block : CollectionBlock) (reply : Bool)
      (now : BlockchainTime)
  | foundHash (data : Bytes)
  | triggerTransaction (receiver : PublicKeyPEM) (fraction : UInt64)

/-! ## Admitting sub-blocks -/

/-- The loop of `getRidOfDuplicates`: all entries but the first with the data value go. -/
def dropLaterDuplicates (dataValue : Bytes) :
    Bool → List (Hash × CreationSubBlock) → List (Hash × CreationSubBlock)
  | _, [] => []
  | alreadyFound, entry :: rest =>
    if entry.2.dataValue = dataValue then
      if alreadyFound then dropLaterDuplicates dataValue true rest
      else entry :: dropLaterDuplicates dataValue true rest
    else entry :: dropLaterDuplicates dataValue alreadyFound rest

theorem dropLaterDuplicates_sublist (dataValue : Bytes) (alreadyFound : Bool)
    (entries : List (Hash × CreationSubBlock)) :
    (dropLaterDuplicates dataValue alreadyFound entries).Sublist entries := by
  induction entries generalizing alreadyFound with
  | nil => exact List.Sublist.refl _
  | cons entry rest ih =>
    rw [dropLaterDuplicates]
    split_ifs
    · exact (ih true).cons entry
    · exact (ih true).cons_cons entry
    · exact (ih alreadyFound).cons_cons entry

/-- `getRidOfDuplicates`: of all creations with the data value the one with the smallest key stays.
-/
def getRidOfDuplicates (creations : OrdMap Hash CreationSubBlock) (dataValue : Bytes) :
    OrdMap Hash CreationSubBlock :=
  ⟨dropLaterDuplicates dataValue false creations.entries,
    creations.sorted.sublist (dropLaterDuplicates_sublist dataValue false creations.entries)⟩

/-- Erase the last entry of a map that is too large. -/
def eraseIfLarger {β : Type} (limit : Nat) (map : OrdMap Hash β) : OrdMap Hash β :=
  if limit < map.size then map.eraseLast else map

/-- Insert a transaction. The largest key goes if there are too many. -/
def admitTransaction (transactions : OrdMap Hash TransactionSubBlock) (key : Hash)
    (subBlock : TransactionSubBlock) : OrdMap Hash TransactionSubBlock :=
  eraseIfLarger maxNumTransactions.toNat (transactions.insert key subBlock)

/-- Insert a creation, of which only one may have the data value. -/
def admitCreation (limit : Nat) (creations : OrdMap Hash CreationSubBlock) (key : Hash)
    (subBlock : CreationSubBlock) : OrdMap Hash CreationSubBlock :=
  eraseIfLarger limit (getRidOfDuplicates (creations.insert key subBlock) subBlock.dataValue)

/-- `peers_necessary_for_granting_`, for steps of four seconds. -/
def peersNecessaryForGranting : List UInt32 :=
  [1, 1, 1, 1, 1, 1, 1, 1, 1, 1, 1, 2, 2, 3, 4, 5, 5, 6, 6, 7, 7, 8]

/-- How often a sub-block has to be counted now. -/
def CycleStateIntroduceBlock.threshold (state : CycleStateIntroduceBlock) : UInt32 :=
  peersNecessaryForGranting.getD (min 21 state.numPropagationsInCurrentCycle.toNat) 0

namespace BlockchainManager

variable (crypto : CryptoHelper) (m : BlockchainManager)

/-! ## Miner and monitors -/

/-- `pauseMiner`: the miner is stopped. -/
def pauseMiner : BlockchainManager := { m with miner := { m.miner with running := false } }

def resumeMiner : BlockchainManager :=
  let miningState := m.blockchain.getMiningState
  { m with
    miner :=
      { running := true
        epoch := miningState.epoch
        previousEpochHighestHash := miningState.highestHashOfLastEpoch } }

def reportViolation (peer : PeerId) (ground : Violation) : BlockchainManager × List Effect :=
  let result := m.peersMonitor.reportViolation peer
  ({ m with peersMonitor := result.1 },
    .reportViolation peer ground :: if result.2 then [.banPeer peer] else [])

/-! ## Collecting -/

def enterCollect : BlockchainManager := { m with newBlock := {} }

/-- The first half of `CycleStateCollect::onCycle`: a found data value becomes a creation. -/
def collectCreation (signature : Signature) : BlockchainManager :=
  match m.foundHashQueue, m.blockchain.getNewestBlock with
  | creationDataValue :: queue, some newest =>
    let m := { m with foundHashQueue := queue }
    if creationDataValue.length > 0 then
      let subBlock := buildCreation crypto newest creationDataValue m.ourPublicKey signature
      if m.blockchain.validateCreation crypto subBlock then
        { m with newBlock := { m.newBlock with
            creations := eraseIfLarger (creationsLeft m.blockchain.getMiningState)
              (storeCreation m.newBlock.creations subBlock) } }
      else m
    else m
  | _, _ => m

/-- The second half: a triggered transaction is signed. -/
def collectTransaction (signature : Signature) : BlockchainManager :=
  match m.transactionQueue, m.blockchain.getNewestBlock with
  | (postOwner, fraction) :: queue, some newest =>
    let m := { m with transactionQueue := queue }
    if !postOwner.isEmpty then
      let subBlock := buildTransaction crypto newest m.ourPublicKey postOwner fraction signature
      if m.blockchain.validateTransaction crypto subBlock then
        { m with newBlock := { m.newBlock with
            transactions := eraseIfLarger maxNumTransactions.toNat
              (storeTransaction m.newBlock.transactions subBlock) } }
      else m
    else m
  | _, _ => m

/-! ## Introducing a block -/

/-- Without a newest block, which no reachable chain lacks, there is nothing to build on. -/
def enterIntroduceBlock (now : BlockchainTime) : BlockchainManager × List Effect :=
  let newBlock := match m.blockchain.getNewestBlock with
    | none => m.newBlock
    | some newest => placeBlock crypto m.blockchain.getNewestBlockId newest m.newBlock
  ({ m with
      outOfSyncDetector := m.outOfSyncDetector.restartCheckCycle m.blockchain now
      newBlock
      cycleStateIntroduceBlock :=
        { nextPropagationTime := now + timeBetweenPropagationsMs
          numPropagationsInCurrentCycle := 1 } },
    [.propagateBlock newBlock])

/-- `onCycle` of `IntroduceBlock`: the own block is sent again when it is time. -/
def cycleIntroduceBlock (now : BlockchainTime) : BlockchainManager × List Effect :=
  let state := m.cycleStateIntroduceBlock
  if state.nextPropagationTime ≤ now then
    ({ m with cycleStateIntroduceBlock :=
        { state with
          nextPropagationTime := state.nextPropagationTime + timeBetweenPropagationsMs
          numPropagationsInCurrentCycle := state.numPropagationsInCurrentCycle + 1 } },
      [.propagateBlock m.newBlock])
  else (m, [])

/-- The block is added without being validated. The miner is restarted when the epoch ends. -/
def exitIntroduceBlock : BlockchainManager × List Effect :=
  let newBlock := refillHash crypto m.newBlock
  let m := { m with newBlock, blockchain := m.blockchain.addBlock crypto newBlock }
  let m :=
    if m.blockchain.getMiningState.epoch != m.miner.epoch && m.miner.running then
      resumeMiner { m.pauseMiner with foundHashQueue := [] }
    else m
  (m, [.addBlock newBlock])

/-- The verdict on a received block: the recorded one if its claimed hash has been seen, else
that of `validateBlock`. It is recorded under the claimed hash. -/
def judge (block : CollectionBlock) : Bool × BlockchainManager :=
  let state := m.cycleStateIntroduceBlock
  let hash := block.header.genericHeader.blockHash
  let result := match state.processedBlocks.find? hash with
    | some blockValid => (blockValid, m.blockchain)
    | none => m.blockchain.validateBlock crypto block
  (result.1,
    { m with
      blockchain := result.2
      cycleStateIntroduceBlock :=
        { state with processedBlocks := state.processedBlocks.insert hash result.1 } })

/-- The vote on the transactions of a block. -/
def offerTransactions (block : CollectionBlock) : Ballot Hash TransactionSubBlock :=
  let state := m.cycleStateIntroduceBlock
  Ballot.offerAll admitTransaction state.threshold
    { admitted := m.newBlock.transactions, counter := state.transactionSubBlockCounter }
    block.transactions

/-- The vote on the creations of a block. -/
def offerCreations (block : CollectionBlock) : Ballot Hash CreationSubBlock :=
  let state := m.cycleStateIntroduceBlock
  Ballot.offerAll (admitCreation (creationsLeft m.blockchain.getMiningState)) state.threshold
    { admitted := m.newBlock.creations, counter := state.creationSubBlockCounter }
    block.creations

/-- Merge a valid block into the own one. -/
def mergeBlock (block : CollectionBlock) : BlockchainManager × List Effect :=
  let transactions := m.offerTransactions block
  let creations := m.offerCreations block
  ({ m with
      newBlock := refillHash crypto
        { m.newBlock with
          transactions := transactions.admitted
          creations := creations.admitted }
      cycleStateIntroduceBlock :=
        { m.cycleStateIntroduceBlock with
          transactionSubBlockCounter := transactions.counter
          creationSubBlockCounter := creations.counter } },
    transactions.record.map .transactionVote ++ creations.record.map .creationVote)

/-- The part of `CycleStateIntroduceBlock::blockReceivedCallback` between the test for a reply and
the call of the detector. -/
def considerBlock (peer : PeerId) (block : CollectionBlock) : BlockchainManager × List Effect :=
  let state := m.cycleStateIntroduceBlock
  let hash := block.header.genericHeader.blockHash
  if block.header.blockUid ≠ m.newBlock.header.blockUid then (m, [])
  else if state.processedBlocks.contains hash && state.creationSubBlockCounter.isEmpty &&
      state.transactionSubBlockCounter.isEmpty then
    (m, [])
  else
    let result := m.judge crypto block
    if result.1 then
      if hash ≠ m.newBlock.header.genericHeader.blockHash then result.2.mergeBlock crypto block
      else (result.2, [])
    else result.2.reportViolation peer .invalidBlock

/-- `CycleStateIntroduceBlock::blockReceivedCallback`. -/
def blockReceivedIntroduceBlock (peer : PeerId) (block : CollectionBlock) (reply : Bool) :
    BlockchainManager × List Effect :=
  if reply then m.reportViolation peer .unexpectedReply
  else
    let result := m.considerBlock crypto peer block
    ({ result.1 with
        outOfSyncDetector :=
          result.1.outOfSyncDetector.blockReceivedCallback peer block reply },
      result.2)

/-! ## Introducing a baseline -/

def enterIntroduceBaseline : BlockchainManager :=
  resumeMiner { m.pauseMiner with blockchain := m.blockchain.establishBaseline crypto }

/-! ## The cycle -/

/-- `onExit` of the current state. -/
def exitState : BlockchainManager × List Effect :=
  match m.currentState with
  | some .introduceBlock => m.exitIntroduceBlock crypto
  | _ => (m, [])

/-- `onEnter` of a state. -/
def enterState (state : CycleState) (now : BlockchainTime) : BlockchainManager × List Effect :=
  let m := { m with currentState := some state }
  match state with
  | .collect => (m.enterCollect, [])
  | .introduceBlock => m.enterIntroduceBlock crypto now
  | .introduceBaseline => (m.enterIntroduceBaseline crypto, [])

def setState (state : CycleState) (now : BlockchainTime) : BlockchainManager × List Effect :=
  if m.currentState = some state then (m, [])
  else
    let exited := m.exitState crypto
    let entered := exited.1.enterState crypto state now
    (entered.1, exited.2 ++ entered.2)

/-- The state `updateStateThread` goes to next, as long as the node stays in sync. -/
def nextState : CycleState :=
  match m.currentState with
  | none => .introduceBlock
  | some .collect => .introduceBlock
  | some .introduceBlock =>
    if isBaselineBlock (m.blockchain.getNewestBlockId + 2) then .introduceBaseline else .collect
  | some .introduceBaseline => .collect

def onCycle (now : BlockchainTime) (creationSignature transactionSignature : Signature) :
    BlockchainManager × List Effect :=
  match m.currentState with
  | some .collect =>
    ((m.collectCreation crypto creationSignature).collectTransaction crypto transactionSignature,
      [])
  | some .introduceBlock => m.cycleIntroduceBlock now
  | _ => (m, [])

/-- `PeersMonitor::blockReceivedCallback`. -/
def monitorMessage (peer : PeerId) (reply : Bool) (now : BlockchainTime) :
    BlockchainManager × List Effect :=
  if reply then (m, [])
  else
    let result := m.peersMonitor.recordMessage peer now
    let m := { m with peersMonitor := result.1 }
    if result.2 then m.reportViolation peer .tooFast else (m, [])

def collectionBlockReceivedCallback (peer : PeerId) (block : CollectionBlock) (reply : Bool)
    (now : BlockchainTime) : BlockchainManager × List Effect :=
  let received := match m.currentState with
    | some .introduceBlock => m.blockReceivedIntroduceBlock crypto peer block reply
    | _ => (m, [])
  let monitored := received.1.monitorMessage peer reply now
  (monitored.1, received.2 ++ monitored.2)

/-- One event: the state it leaves and its effects. -/
def act : ManagerEvent → BlockchainManager × List Effect
  | .advance now => m.setState crypto m.nextState now
  | .onCycle now creationSignature transactionSignature =>
    m.onCycle crypto now creationSignature transactionSignature
  | .collectionBlockReceived peer block reply now =>
    m.collectionBlockReceivedCallback crypto peer block reply now
  | .foundHash data => ({ m with foundHashQueue := m.foundHashQueue ++ [data] }, [])
  | .triggerTransaction receiver fraction =>
    ({ m with transactionQueue := m.transactionQueue ++ [(receiver, fraction)] }, [])

def step (event : ManagerEvent) : BlockchainManager := (m.act crypto event).1

def effects (event : ManagerEvent) : List Effect := (m.act crypto event).2

end BlockchainManager

/-- An event during which the node stays in its state. -/
def ManagerEvent.StaysInState : ManagerEvent → Prop
  | .advance _ => False
  | _ => True

instance : DecidablePred ManagerEvent.StaysInState
  | .advance _ => inferInstanceAs (Decidable False)
  | .onCycle _ _ _ => inferInstanceAs (Decidable True)
  | .collectionBlockReceived _ _ _ _ => inferInstanceAs (Decidable True)
  | .foundHash _ => inferInstanceAs (Decidable True)
  | .triggerTransaction _ _ => inferInstanceAs (Decidable True)

theorem ManagerEvent.advance_or_staysInState (event : ManagerEvent) :
    (∃ now, event = .advance now) ∨ event.StaysInState := by
  cases event with
  | advance now => exact Or.inl ⟨now, rfl⟩
  | _ => exact Or.inr trivial

end SwabianCoin
