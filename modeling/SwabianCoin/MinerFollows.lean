import SwabianCoin.Reset
import SwabianCoin.Rooted
import SwabianCoin.UpdateStateThread

/-!
# The miner and the chain

The miner is started with the epoch of the chain and the highest hash of the epoch before. Leaving
`IntroduceBlock` starts it anew when the epoch is another one; entering `IntroduceBaseline` always
does, and so does the user. Fetching the chain does not touch it.

As long as a node stays on its chain this is enough: the hash changes with the epoch and at no other
time. A fetched chain can have the epoch of the old one with another hash, and then the miner goes
on with the hash of a chain that is gone.
-/

namespace SwabianCoin

/-! ## What a block makes of the mining state -/

instance (bc : Blockchain) (block : CollectionBlock) : Decidable (EndsEpoch bc block) :=
  inferInstanceAs (Decidable (_ = _))

namespace Blockchain

/-- The epoch the chain is in with the block. -/
def epochWith (bc : Blockchain) (block : CollectionBlock) : Epoch :=
  if EndsEpoch bc block then bc.getMiningState.epoch + 1 else bc.getMiningState.epoch

/-- The highest hash of the epoch before: of the epoch the block brings to its end, if it does. -/
def highestHashWith (crypto : CryptoHelper) (bc : Blockchain) (block : CollectionBlock) : Hash :=
  if EndsEpoch bc block then
    (enterBlock crypto bc.currentBaseline bc.getNewestBlockId
      block).miningState.highestHashOfCurrentEpoch
  else bc.getMiningState.highestHashOfLastEpoch

theorem miningState_addBlock (crypto : CryptoHelper) (bc : Blockchain) (block : CollectionBlock) :
    (bc.addBlock crypto block).getMiningState.epoch = bc.epochWith block ∧
      (bc.addBlock crypto block).getMiningState.highestHashOfLastEpoch =
        bc.highestHashWith crypto block := by
  simp only [addBlock, getMiningState, epochWith, highestHashWith]
  rcases updateCurrentBaseline_cases crypto bc.currentBaseline bc.cache.nextFreeBlockId block with
    ⟨heq, hcount⟩ | ⟨heq, hcount⟩ <;> rw [heq]
  · have hnot : ¬ EndsEpoch bc block := hcount
    rw [if_neg hnot, if_neg hnot]
    exact ⟨rfl, rfl⟩
  · have hends : EndsEpoch bc block := hcount
    rw [if_pos hends, if_pos hends]
    exact ⟨rfl, rfl⟩

end Blockchain

/-! ## Following -/

namespace BlockchainManager

variable {crypto : CryptoHelper} {m m' : BlockchainManager}

/-- A running miner was last started with the epoch and the hash of the chain. -/
def MinerFollows (m : BlockchainManager) : Prop :=
  m.miner.running = true →
    m.miner.epoch = m.blockchain.getMiningState.epoch ∧
      m.miner.previousEpochHighestHash = m.blockchain.getMiningState.highestHashOfLastEpoch

instance (m : BlockchainManager) : Decidable m.MinerFollows := inferInstanceAs (Decidable (_ → _))

/-- If the running miner has the epoch the chain will have with the own block, it has the hash,
too. -/
def MinerReady (crypto : CryptoHelper) (m : BlockchainManager) : Prop :=
  m.miner.running = true → m.miner.epoch = m.blockchain.epochWith m.newBlock →
    m.miner.previousEpochHighestHash = m.blockchain.highestHashWith crypto m.newBlock

theorem MinerFollows.congr (h : m.MinerFollows) (hminer : m'.miner = m.miner)
    (hstate : m'.blockchain.getMiningState = m.blockchain.getMiningState) : m'.MinerFollows := by
  unfold MinerFollows
  rw [hminer, hstate]
  exact h

theorem resumeMiner_follows (m : BlockchainManager) : m.resumeMiner.MinerFollows :=
  fun _ => ⟨rfl, rfl⟩

theorem pauseMiner_follows (m : BlockchainManager) : m.pauseMiner.MinerFollows :=
  fun hrunning => by cases hrunning

/-- **Leaving `IntroduceBlock`.** Only the epochs are compared. -/
theorem exitIntroduceBlock_follows_iff (crypto : CryptoHelper) (m : BlockchainManager) :
    (m.exitIntroduceBlock crypto).1.MinerFollows ↔ m.MinerReady crypto := by
  obtain ⟨hepoch, hhash⟩ := m.blockchain.miningState_addBlock crypto (refillHash crypto m.newBlock)
  have hepoch : _ = m.blockchain.epochWith m.newBlock := hepoch
  have hhash : _ = m.blockchain.highestHashWith crypto m.newBlock := hhash
  simp only [exitIntroduceBlock, hepoch]
  split_ifs with hrestart
  · -- The epochs differ, and the miner is started anew.
    refine iff_of_true (resumeMiner_follows _) fun _ hsame => ?_
    simp [hsame] at hrestart
  · unfold MinerFollows MinerReady
    dsimp only
    rw [hepoch, hhash]
    refine forall_congr' fun hrunning => ?_
    have hsame : m.miner.epoch = m.blockchain.epochWith m.newBlock := by
      by_contra hne
      simp [hrunning, Ne.symm hne] at hrestart
    simp [hsame]

/-- A miner that follows is ready for the next block: the hash changes with the epoch. -/
theorem MinerFollows.ready (h : m.MinerFollows) : m.MinerReady crypto := by
  intro hrunning hsame
  obtain ⟨hepoch, hhash⟩ := h hrunning
  unfold Blockchain.epochWith at hsame
  unfold Blockchain.highestHashWith
  split_ifs at hsame ⊢ with hends
  · rw [hepoch] at hsame
    exact absurd hsame.symm (by simp)
  · exact hhash

/-- Entering `Collect` and `IntroduceBlock` leaves the miner and the chain alone; entering
`IntroduceBaseline` starts the miner anew. -/
theorem MinerFollows.enterState (h : m.MinerFollows) (state : CycleState) (now : BlockchainTime) :
    (m.enterState crypto state now).1.MinerFollows := by
  cases state with
  | collect => exact h.congr rfl rfl
  | introduceBlock => exact h.congr rfl rfl
  | introduceBaseline => exact resumeMiner_follows _

end BlockchainManager

/-! ## Runs of the thread -/

namespace UpdateStateThread

variable {crypto : CryptoHelper} {t : UpdateStateThread}

/-- The miner follows after `CycleStateIntroduceBlock::onExit` and after
`CycleStateIntroduceBaseline::onEnter`. -/
structure FollowsAfter (crypto : CryptoHelper) (t : UpdateStateThread) (event : ThreadEvent) :
    Prop where
  exitIntroduceBlock :
    t.LeavesIntroduceBlock event → (t.node.base.exitIntroduceBlock crypto).1.MinerFollows
  enterIntroduceBaseline :
    t.EntersIntroduceBaseline event → (t.act crypto event).node.base.MinerFollows

/-- The first block after the thread has begun or the chain has been fetched does not find a miner
with the right epoch and another hash. -/
def MinerFits (crypto : CryptoHelper) (t : UpdateStateThread) (event : ThreadEvent) : Prop :=
  t.LeavesIntroduceBlock event → t.resynced = true → t.node.base.MinerReady crypto

/-- Once a block has been introduced, the miner follows until the chain is fetched anew. -/
structure FollowInv (t : UpdateStateThread) : Prop where
  position : t.PositionOk
  follows : t.resynced = false → t.position ≠ .stopped → t.node.base.MinerFollows

namespace FollowInv

theorem construct (ourPublicKey : PublicKeyPEM) (blockchain : Blockchain) (initialFetch : Bool)
    (now : BlockchainTime) :
    (UpdateStateThread.construct ourPublicKey blockchain initialFetch now).FollowInv :=
  ⟨PositionOk.construct ourPublicKey blockchain initialFetch now,
    fun hresynced => by cases hresynced⟩

theorem ready (h : t.FollowInv) {event : ThreadEvent} (hfits : t.MinerFits crypto event)
    (hleaves : t.LeavesIntroduceBlock event) : t.node.base.MinerReady crypto := by
  cases hresynced : t.resynced with
  | true => exact hfits hleaves hresynced
  | false =>
    have hposition : t.position = .introducingBlock := hleaves.position
    exact (h.follows hresynced (by simp [hposition])).ready

theorem changeState (h : t.FollowInv) (hready : t.node.base.MinerReady crypto)
    (hposition : t.position = .introducingBlock) {state : CycleState}
    (hne : state ≠ .introduceBlock) :
    (t.node.base.setState crypto state t.now).1.MinerFollows := by
  have hstate := (h.position.introducingBlock hposition).2
  rw [BlockchainManager.setState_of_introduceBlock crypto t.now hstate hne]
  have hexit := (t.node.base.exitIntroduceBlock_follows_iff crypto).2 hready
  exact hexit.enterState state t.now

/-- **A step of the thread.** -/
theorem threadStep (h : t.FollowInv) (slow : Bool) (hfits : t.MinerFits crypto (.step slow)) :
    (t.threadStep crypto slow).FollowInv := by
  refine ⟨h.position.threadStep slow, ?_⟩
  have hready := h.ready hfits
  have hsteps := t.steps_threadStep crypto slow
  generalize t.threadStep crypto slow = next at hsteps ⊢
  cases hsteps with
  | waits => exact h.follows
  | fetchInitially hposition => exact fun hresynced => by cases hresynced
  | skipFetching hposition => exact fun hresynced _ => h.follows hresynced (by simp [hposition])
  | fetchedInitially hposition => exact fun hresynced _ => h.follows hresynced (by simp [hposition])
  | start hposition => exact fun _ _ => t.node.base.resumeMiner_follows
  | leaveFetchBlockchain hposition hrunning =>
    exact fun hresynced _ => (h.follows hresynced (by simp [hposition])).congr rfl rfl
  | introduceBlock hat =>
    intro hresynced _
    obtain ⟨-, hstate⟩ := h.position.mayIntroduce hat
    have hbefore := h.follows hresynced (by rcases hat with hat | hat <;> simp [hat.1])
    simp only [enterIntroduceBlock, UpdateStateThread.changeState, withBase]
    rw [BlockchainManager.setState_introduceBlock crypto t.now (hstate.imp And.left And.left)]
    exact hbefore.enterState .introduceBlock t.now
  | introduceBaseline hposition hdue hgrid =>
    exact fun _ _ => h.changeState (hready ⟨hposition, hdue⟩) hposition (by decide)
  | collectAfterBlock hposition hdue hgrid =>
    exact fun _ _ => h.changeState (hready ⟨hposition, hdue⟩) hposition (by decide)
  | collectAfterBaseline hposition hdue =>
    intro _ _
    obtain ⟨-, hstate, hresynced⟩ := h.position.introducingBaseline hposition
    have hbefore := h.follows hresynced (by simp [hposition])
    simp only [enterCollect, UpdateStateThread.changeState, withBase]
    rw [BlockchainManager.setState_of_introduceBaseline crypto t.now hstate]
    exact hbefore.enterState .collect t.now
  | resynchronise hposition hdue => exact fun hresynced => by cases hresynced
  | again hposition hdue hsync => exact fun hresynced _ => h.follows hresynced (by simp [hposition])
  | fetched hposition => exact fun hresynced _ => h.follows hresynced (by simp [hposition])

/-- **One event.** -/
theorem act (h : t.FollowInv) {event : ThreadEvent} (hfits : t.MinerFits crypto event) :
    (t.act crypto event).FollowInv := by
  have hok : (t.act crypto event).PositionOk := h.position.act event
  cases event with
  | step slow => exact h.threadStep slow hfits
  | stop =>
    refine ⟨hok, ?_⟩
    simp only [UpdateStateThread.act]
    split_ifs
    · intro _ hnot
      exact absurd (t.stopStep_position crypto) hnot
    · exact h.follows
  | node event =>
    refine ⟨hok, ?_⟩
    simp only [UpdateStateThread.act]
    split_ifs with hallows
    · intro hresynced hnot
      have hkeeps := (Bool.and_eq_true_iff.1 hallows).1
      have hleft := h.position.left_of_introduced hresynced hnot
      exact (h.follows hresynced hnot).congr (t.node.nodeStep_sameState crypto hkeeps).side.miner
        (FetchingNode.nodeStep_chain hleft hkeeps).2
    · exact h.follows
  | pauseMiner => exact ⟨hok, fun _ _ => t.node.base.pauseMiner_follows⟩
  | resumeMiner => exact ⟨hok, fun _ _ => t.node.base.resumeMiner_follows⟩
  | clock now => exact ⟨hok, h.follows⟩

theorem followsAfter_iff (h : t.FollowInv) (event : ThreadEvent) :
    t.FollowsAfter crypto event ↔ t.MinerFits crypto event := by
  constructor
  · exact fun hfollows hleaves _ =>
      (t.node.base.exitIntroduceBlock_follows_iff crypto).1 (hfollows.exitIntroduceBlock hleaves)
  · intro hfits
    constructor
    · intro hleaves
      exact (t.node.base.exitIntroduceBlock_follows_iff crypto).2 (h.ready hfits hleaves)
    · intro henters
      obtain ⟨slow, rfl⟩ := henters.isStep
      have hstep : t.act crypto (.step slow) = _ := threadStep_introduceBaseline henters
      rw [hstep]
      exact h.changeState (h.ready hfits henters.1) henters.1.1 (by decide)

end FollowInv

/-- **When the miner follows the chain.** In a run of the thread over any chain the miner follows
after every change from `IntroduceBlock` and every change to `IntroduceBaseline` exactly if no first
block after a synchronisation finds the miner with the epoch of the chain and the hash of another
one. -/
theorem followsAfter_iff_minerFits (crypto : CryptoHelper) (ourPublicKey : PublicKeyPEM)
    (blockchain : Blockchain) (initialFetch : Bool) (now : BlockchainTime)
    (events : List ThreadEvent) :
    Run.AllSteps (act crypto) (FollowsAfter crypto)
        (construct ourPublicKey blockchain initialFetch now) events ↔
      Run.AllSteps (act crypto) (MinerFits crypto)
        (construct ourPublicKey blockchain initialFetch now) events :=
  Run.AllSteps.iff_under (I := FollowInv)
    (fun _ event h => ⟨h.followsAfter_iff event, fun hfits => h.act hfits⟩)
    (FollowInv.construct ourPublicKey blockchain initialFetch now)

end UpdateStateThread

namespace Sample

/-- An instance whose hash reads no more than a hundred bytes. -/
def shortHash : CryptoHelper :=
  { CryptoHelper.sample with
    calcHash := fun bytes => CryptoHelper.sample.calcHash (bytes.take 100) }

/-- A baseline of epoch one, where epoch zero ended with `highest`. -/
def epochOneRoot (highest : Hash) : BaselineBlock :=
  shortHash.fillHash
    { header := { genericHeader := { blockType := .BaselineBlock }, blockUid := 721 }
      miningState := { epoch := 1, highestHashOfLastEpoch := highest }
      dataValueHashes :=
        [(List.range 999).map (fun i => Fin.ofNat _ (2 ^ 256 - 1002 + i)) ++ [highest], []]
      wallets := (∅ : OrdMap PublicKeyPEM UInt64).insert keyA 1000000000 }

/-- The baselines of two chains. -/
def oneRoot : BaselineBlock := epochOneRoot (Fin.ofNat _ (2 ^ 256 - 1))

def otherRoot : BaselineBlock := epochOneRoot (Fin.ofNat _ (2 ^ 256 - 2))

def emptyBlock (newest : Block) : CollectionBlock :=
  placeBlock shortHash newest.header.blockUid newest {}

/-- The begin of the cycle of the id `722`. -/
def cycle722 : BlockchainTime := 1547241960000

/-- The node fetches one chain, finds a time violation after the first block, and fetches the other
chain. The agents of the first stay leave room for the block `722` only when one of them has got its
block, so that `723` has to come twice. -/
def changeOfChain : List ThreadEvent :=
  let other722 := emptyBlock (.baseline otherRoot)
  let other723 := emptyBlock (.collection other722)
  fetchChain oneRoot [emptyBlock (.baseline oneRoot)] ++ .step false :: leaveFetching ++
    [.clock (cycle722 + 120000), .step true, .clock (cycle722 + 150000)] ++
    fetchChain otherRoot [other723, other722, other723] ++ leaveFetching ++
    [.clock (cycle722 + 240000)]

end Sample

/-- The node is on the other chain, and the miner goes on with the hash of the first one. -/
theorem miner_keeps_hash_of_first_chain :
    ¬ ∀ (crypto : CryptoHelper) (ourPublicKey : PublicKeyPEM) (blockchain : Blockchain)
        (initialFetch : Bool) (now : BlockchainTime) (events : List ThreadEvent),
      Run.AllSteps (UpdateStateThread.act crypto) (UpdateStateThread.FollowsAfter crypto)
        (.construct ourPublicKey blockchain initialFetch now) events := by
  intro h
  have hrun := h Sample.shortHash Sample.keyC (.construct Sample.shortHash ∅) true
    (Sample.cycle722 + 5000) (Sample.changeOfChain ++ [.step false])
  have hstale {t : UpdateStateThread} {event : ThreadEvent} (ht : t.LeavesIntroduceBlock event ∧
      ¬ (t.node.base.exitIntroduceBlock Sample.shortHash).1.MinerFollows) :
      ¬ t.FollowsAfter Sample.shortHash event :=
    fun hfollows => ht.2 (hfollows.exitIntroduceBlock ht.1)
  exact hstale (by decide +kernel) (Run.AllSteps.append.1 hrun).2.1

end SwabianCoin
